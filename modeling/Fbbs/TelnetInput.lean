import Fbbs.Parcel

/-!
# Input of the terminal

`igetch` of `src/terminal.c` takes bytes from an input buffer, which each read of the terminal
fills again.  Telnet commands and escape sequences are read by functions of their own, and
`igetch` remembers a carriage return from call to call.  All of this is one machine that is fed
byte by byte, however the bytes are split into reads.
-/

namespace Fbbs

namespace TelnetInput

def inputBufferSize : Nat := 48

/-- What one `terminal_read` returns. -/
structure Read where
  bytes : Bytes
  nonempty : bytes ≠ []
  fits : bytes.length ≤ inputBufferSize

/-- `input_buffer_t` and the reads to come. -/
structure Source where
  ptr : Bytes
  cur : Nat
  reads : List Read

namespace Source

/-- `get_raw_ch`; `none` where it waits for the terminal. -/
def getRawCh (source : Source) : Option (UInt8 × Source) :=
  if inside : source.cur < source.ptr.length then
    some (source.ptr[source.cur], { source with cur := source.cur + 1 })
  else
    match source.reads with
    | [] => none
    | read :: reads => some (read.bytes.head read.nonempty, ⟨read.bytes, 1, reads⟩)

/-- The bytes that have not been taken yet. -/
def pending (source : Source) : Bytes :=
  source.ptr.drop source.cur ++ source.reads.flatMap Read.bytes

theorem getRawCh_of_pending_nil {source : Source} (nothing : source.pending = []) :
    source.getRawCh = none := by
  obtain ⟨ptr, cur, reads⟩ := source
  obtain ⟨used, noReads⟩ := List.append_eq_nil_iff.mp nothing
  have outside : ¬cur < ptr.length := Nat.not_lt.mpr (List.drop_eq_nil_iff.mp used)
  rw [getRawCh, dif_neg outside]
  cases reads with
  | nil => rfl
  | cons read reads =>
    rw [List.flatMap_cons, List.append_eq_nil_iff] at noReads
    exact absurd noReads.1 read.nonempty

theorem getRawCh_of_pending_cons {source : Source} {ch : UInt8} {rest : Bytes}
    (bytes : source.pending = ch :: rest) :
    ∃ next, source.getRawCh = some (ch, next) ∧ next.pending = rest := by
  obtain ⟨ptr, cur, reads⟩ := source
  rw [pending] at bytes
  by_cases inside : cur < ptr.length
  · rw [getRawCh, dif_pos inside]
    rw [List.drop_eq_getElem_cons inside, List.cons_append, List.cons.injEq] at bytes
    obtain ⟨rfl, rfl⟩ := bytes
    exact ⟨_, rfl, rfl⟩
  · rw [getRawCh, dif_neg inside]
    rw [List.drop_eq_nil_of_le (Nat.le_of_not_lt inside), List.nil_append] at bytes
    cases reads with
    | nil => cases bytes
    | cons read reads =>
      obtain ⟨first, others, split⟩ := List.exists_cons_of_ne_nil read.nonempty
      rw [List.flatMap_cons, split, List.cons_append, List.cons.injEq] at bytes
      obtain ⟨rfl, rfl⟩ := bytes
      refine ⟨⟨read.bytes, 1, reads⟩, ?_, ?_⟩
      · simp only [split, List.head_cons]
      · rw [pending, split]
        rfl

end Source

/-! ## Telnet commands and escape sequences -/

def se : UInt8 := 240

def sb : UInt8 := 250

def iac : UInt8 := 255

/-- `TELOPT_NAWS`. -/
def teloptNaws : UInt8 := 31

def keyEsc : UInt8 := 27

/-- `KEY_UP`. -/
def keyUp : Nat := 0x101

/-- `KEY_HOME`. -/
def keyHome : Nat := 0x201

/-- Calls of the screen. -/
inductive Event
  | screenInit (lines : Int)
  | screenRedraw
  deriving DecidableEq

/-- `option_status_e`. -/
inductive OptionStatus
  | iac
  | com
  | sub
  | fin
  deriving DecidableEq

/-- The variables of `handle_iac`; `buf` up to `size`. -/
structure Negotiation where
  status : OptionStatus
  naws : Bool
  buf : Bytes
  deriving DecidableEq

def Negotiation.start : Negotiation :=
  ⟨.iac, false, []⟩

/-- The body of the loop of `handle_iac`. -/
def negotiate (n : Negotiation) (ch : UInt8) : Negotiation × List Event :=
  match n.status with
  | .iac => ({ n with status := if ch = sb then .sub else .com }, [])
  | .com => ({ n with status := .fin }, [])
  | .sub =>
    if ch = teloptNaws then ({ n with naws := true, buf := [] }, [])
    else if ch = se then
      ({ n with status := .fin },
        if n.naws ∧ n.buf.length = 5 then [.screenInit (n.buf.getD 3 0).toInt8.toInt] else [])
    else if n.naws then
      ({ n with buf := if n.buf.length < 8 then n.buf ++ [ch] else n.buf }, [])
    else (n, [])
  | .fin => (n, [])

/-- `esc_status_e`. -/
inductive EscStatus
  | beg
  | cur
  | fn
  | err
  deriving DecidableEq

/-- How `handle_esc` goes on after a byte. -/
inductive EscResult
  | next (status : EscStatus)
  | key (key : Nat)
  | escKey (arg : UInt8)

/-- The body of the loop of `handle_esc`. -/
def escape (status : EscStatus) (last ch : UInt8) : EscResult :=
  match status with
  | .beg =>
    if ch = 91 ∨ ch = 79 then .next .cur
    else if ch = 49 ∨ ch = 52 then .next .fn
    else .escKey ch
  | .cur =>
    if 65 ≤ ch ∧ ch ≤ 68 then .key (keyUp + (ch.toNat - 65))
    else if 49 ≤ ch ∧ ch ≤ 54 then .next .fn
    else .next .err
  | .fn =>
    if ch = 126 ∧ 49 ≤ last ∧ last ≤ 54 then .key (keyHome + (last.toNat - 49))
    else .next .err
  | .err => .key ch.toNat

/-! ## The functions -/

structure Terminal where
  source : Source
  cr : Bool
  keyEscArg : UInt8
  events : List Event

/-- A function has returned, or waits with nothing left to read. -/
inductive Outcome (α : Type)
  | done (value : α) (terminal : Terminal)
  | waits (terminal : Terminal)

/-- `handle_iac` within its loop. -/
def handleIac : Nat → Negotiation → Terminal → Outcome Unit
  | 0, _, t => .waits t
  | fuel + 1, n, t =>
    match t.source.getRawCh with
    | none => .waits t
    | some (ch, source) =>
      let (n, events) := negotiate n ch
      let t := { t with source, events := t.events ++ events }
      if n.status = .fin then .done () t else handleIac fuel n t

/-- `handle_esc` within its loop. -/
def handleEsc : Nat → EscStatus → UInt8 → Terminal → Outcome Nat
  | 0, _, _, t => .waits t
  | fuel + 1, status, last, t =>
    match t.source.getRawCh with
    | none => .waits t
    | some (ch, source) =>
      let t := { t with source }
      match escape status last ch with
      | .next status => handleEsc fuel status ch t
      | .key key => .done key t
      | .escKey arg => .done keyEsc.toNat { t with keyEscArg := arg }

/-- `igetch` within its loop. -/
def igetchLoop : Nat → Terminal → Outcome Nat
  | 0, t => .waits t
  | fuel + 1, t =>
    match t.source.getRawCh with
    | none => .waits t
    | some (ch, source) =>
      let t := { t with source }
      if ch = iac then
        match handleIac fuel .start t with
        | .done _ t => igetchLoop fuel t
        | .waits t => .waits t
      else if ch = keyEsc then handleEsc fuel .beg 0 t
      else if ch = 12 then igetchLoop fuel { t with events := t.events ++ [.screenRedraw] }
      else if ch = 13 then .done 10 { t with cr := true }
      else if ch = 10 then
        if t.cr then igetchLoop fuel { t with cr := false } else .done 10 t
      else if ch = 0 then igetchLoop fuel { t with cr := false }
      else .done ch.toNat { t with cr := false }

/-- `igetch`; each round of its loops takes a byte. -/
def igetch (t : Terminal) : Outcome Nat :=
  igetchLoop (t.source.pending.length + 1) t

/-- Calls of `igetch` until one waits. -/
def readLoop : Nat → Terminal → List Nat × Terminal
  | 0, t => ([], t)
  | fuel + 1, t =>
    match igetch t with
    | .waits t => ([], t)
    | .done ch t =>
      let (rest, t) := readLoop fuel t
      (ch :: rest, t)

def readAll (t : Terminal) : List Nat × Terminal :=
  readLoop (t.source.pending.length + 1) t

/-! ## The machine -/

/-- Which function the next byte goes to. -/
inductive Mode
  | normal
  | option (n : Negotiation)
  | esc (status : EscStatus) (last : UInt8)

structure Decoder where
  mode : Mode
  cr : Bool
  keyEscArg : UInt8
  events : List Event
  output : List Nat

def feedNormal (d : Decoder) (ch : UInt8) : Decoder :=
  if ch = iac then { d with mode := .option .start }
  else if ch = keyEsc then { d with mode := .esc .beg 0 }
  else if ch = 12 then { d with events := d.events ++ [.screenRedraw] }
  else if ch = 13 then { d with cr := true, output := d.output ++ [10] }
  else if ch = 10 then
    if d.cr then { d with cr := false } else { d with output := d.output ++ [10] }
  else if ch = 0 then { d with cr := false }
  else { d with cr := false, output := d.output ++ [ch.toNat] }

def feedOption (d : Decoder) (n : Negotiation) (ch : UInt8) : Decoder :=
  let (n, events) := negotiate n ch
  { d with
    events := d.events ++ events
    mode := if n.status = .fin then .normal else .option n }

def feedEsc (d : Decoder) (status : EscStatus) (last ch : UInt8) : Decoder :=
  match escape status last ch with
  | .next status => { d with mode := .esc status ch }
  | .key key => { d with mode := .normal, output := d.output ++ [key] }
  | .escKey arg =>
    { d with mode := .normal, keyEscArg := arg, output := d.output ++ [keyEsc.toNat] }

def feed (d : Decoder) (ch : UInt8) : Decoder :=
  match d.mode with
  | .normal => feedNormal d ch
  | .option n => feedOption d n ch
  | .esc status last => feedEsc d status last ch

def run (d : Decoder) (bytes : Bytes) : Decoder :=
  bytes.foldl feed d

theorem run_append (d : Decoder) (first second : Bytes) :
    run d (first ++ second) = run (run d first) second :=
  List.foldl_append

theorem run_cons (d : Decoder) (ch : UInt8) (rest : Bytes) :
    run d (ch :: rest) = run (feed d ch) rest :=
  rfl

/-! ## The functions are the machine -/

/-- The machine between two calls of `igetch`. -/
def Terminal.decoder (t : Terminal) (mode : Mode) (output : List Nat) : Decoder :=
  ⟨mode, t.cr, t.keyEscArg, t.events, output⟩

/-- A function takes the bytes that lead the machine to its result, or all bytes when the
machine has no result yet. -/
def Outcome.Matches {α : Type} (outcome : Outcome α) (bytes : Bytes) (start : Decoder)
    (result : α → List Nat) : Prop :=
  match outcome with
  | .done value t => ∃ consumed, bytes = consumed ++ t.source.pending ∧
      run start consumed = t.decoder .normal (start.output ++ result value)
  | .waits t => t.source.pending = [] ∧ (run start bytes).output = start.output ∧
      (run start bytes).events = t.events

theorem Outcome.Matches.after {α : Type} {outcome : Outcome α} {result : α → List Nat}
    {first rest : Bytes} {start : Decoder}
    (matchesRest : outcome.Matches rest (run start first) result)
    (silent : (run start first).output = start.output) :
    outcome.Matches (first ++ rest) start result := by
  cases outcome with
  | done value t =>
    obtain ⟨consumed, split, reached⟩ := matchesRest
    refine ⟨first ++ consumed, ?_, ?_⟩
    · rw [split, List.append_assoc]
    · rw [run_append, reached, silent]
  | waits t =>
    obtain ⟨nothing, output, events⟩ := matchesRest
    refine ⟨nothing, ?_, ?_⟩
    · rw [run_append, output, silent]
    · rw [run_append, events]

theorem Outcome.Matches.afterByte {α : Type} {outcome : Outcome α} {result : α → List Nat}
    {ch : UInt8} {rest : Bytes} {start next : Decoder} (fed : feed start ch = next)
    (silent : next.output = start.output) (matchesRest : outcome.Matches rest next result) :
    outcome.Matches (ch :: rest) start result := by
  have first : run start [ch] = next := fed
  apply @Outcome.Matches.after α outcome result [ch]
  · rw [first]
    exact matchesRest
  · rw [first, silent]

theorem matches_done {α : Type} {value : α} {t : Terminal} {result : α → List Nat} {ch : UInt8}
    {start : Decoder}
    (fed : feed start ch = t.decoder .normal (start.output ++ result value)) :
    (Outcome.done value t).Matches (ch :: t.source.pending) start result :=
  ⟨[ch], rfl, fed⟩

theorem matches_waits_nil {α : Type} {t : Terminal} (nothing : t.source.pending = [])
    (mode : Mode) (output : List Nat) (result : α → List Nat) :
    (Outcome.waits t).Matches [] (t.decoder mode output) result :=
  ⟨nothing, rfl, rfl⟩

section Matches

variable {fuel : Nat} {t : Terminal} (enough : t.source.pending.length < fuel)

include enough in
theorem handleIac_matches (n : Negotiation) (output : List Nat) :
    (handleIac fuel n t).Matches t.source.pending (t.decoder (.option n) output)
      fun _ => [] := by
  induction fuel generalizing n t with
  | zero => cases enough
  | succ fuel ih =>
    cases bytes : t.source.pending with
    | nil =>
      rw [handleIac, Source.getRawCh_of_pending_nil bytes]
      exact matches_waits_nil bytes _ _ _
    | cons ch rest =>
      obtain ⟨source, taken, next⟩ := Source.getRawCh_of_pending_cons bytes
      rw [bytes] at enough
      rw [handleIac, taken, ← next]
      dsimp only
      cases stepped : negotiate n ch with
      | mk m events =>
        have fed : feed (t.decoder (.option n) output) ch =
            { t.decoder (if m.status = .fin then .normal else .option m) output with
              events := t.events ++ events } := by
          change feedOption _ n ch = _
          rw [feedOption, stepped]
          rfl
        split
        · rename_i final
          rw [if_pos final] at fed
          apply @matches_done Unit () { t with source, events := t.events ++ events }
          rw [fed, List.append_nil]
          rfl
        · rename_i more
          rw [if_neg more] at fed
          have fewer : source.pending.length < fuel := by
            rw [next]
            exact Nat.lt_of_succ_lt_succ enough
          exact (@ih { t with source, events := t.events ++ events } fewer m).afterByte
            fed rfl

include enough in
theorem handleEsc_matches (status : EscStatus) (last : UInt8) (output : List Nat) :
    (handleEsc fuel status last t).Matches t.source.pending
      (t.decoder (.esc status last) output) fun key => [key] := by
  induction fuel generalizing status last t with
  | zero => cases enough
  | succ fuel ih =>
    cases bytes : t.source.pending with
    | nil =>
      rw [handleEsc, Source.getRawCh_of_pending_nil bytes]
      exact matches_waits_nil bytes _ _ _
    | cons ch rest =>
      obtain ⟨source, taken, next⟩ := Source.getRawCh_of_pending_cons bytes
      rw [bytes] at enough
      have fed : feed (t.decoder (.esc status last) output) ch =
          feedEsc (t.decoder (.esc status last) output) status last ch :=
        rfl
      rw [feedEsc] at fed
      rw [handleEsc, taken, ← next]
      dsimp only
      cases result : escape status last ch with
      | next status =>
        rw [result] at fed
        have fewer : source.pending.length < fuel := by
          rw [next]
          exact Nat.lt_of_succ_lt_succ enough
        exact (@ih { t with source } fewer status ch).afterByte fed rfl
      | key key =>
        rw [result] at fed
        exact @matches_done Nat key { t with source } _ _ _ fed
      | escKey arg =>
        rw [result] at fed
        exact @matches_done Nat keyEsc.toNat { t with source, keyEscArg := arg } _ _ _ fed

/-- After a telnet command the call goes on. -/
theorem handleIac_then {fuel : Nat} {u : Terminal} {output : List Nat}
    (few : u.source.pending.length < fuel)
    (ih : ∀ {v : Terminal}, v.source.pending.length < fuel →
      (igetchLoop fuel v).Matches v.source.pending (v.decoder .normal output) fun ch => [ch]) :
    (match handleIac fuel .start u with
      | .done _ v => igetchLoop fuel v
      | .waits v => .waits v).Matches u.source.pending (u.decoder (.option .start) output)
        fun ch => [ch] := by
  have negotiated := handleIac_matches few .start output
  cases result : handleIac fuel .start u with
  | done _ v =>
    rw [result] at negotiated
    obtain ⟨consumed, split, reached⟩ := negotiated
    rw [List.append_nil] at reached
    have shorter := congrArg List.length split
    rw [List.length_append] at shorter
    rw [split]
    apply Outcome.Matches.after
    · rw [reached]
      exact ih (by omega)
    · rw [reached]
      rfl
  | waits v =>
    rw [result] at negotiated
    exact negotiated

include enough in
theorem igetchLoop_matches (output : List Nat) :
    (igetchLoop fuel t).Matches t.source.pending (t.decoder .normal output)
      fun ch => [ch] := by
  induction fuel generalizing t with
  | zero => cases enough
  | succ fuel ih =>
    cases bytes : t.source.pending with
    | nil =>
      rw [igetchLoop, Source.getRawCh_of_pending_nil bytes]
      exact matches_waits_nil bytes _ _ _
    | cons ch rest =>
      obtain ⟨source, taken, next⟩ := Source.getRawCh_of_pending_cons bytes
      rw [bytes] at enough
      have few : source.pending.length < fuel := by
        rw [next]
        exact Nat.lt_of_succ_lt_succ enough
      have fed : feed (t.decoder .normal output) ch =
          feedNormal (t.decoder .normal output) ch :=
        rfl
      rw [feedNormal] at fed
      rw [igetchLoop, taken, ← next]
      dsimp only
      by_cases isIac : ch = iac
      · rw [if_pos isIac] at fed ⊢
        exact (@handleIac_then fuel { t with source } output few ih).afterByte fed rfl
      rw [if_neg isIac] at fed ⊢
      by_cases isEsc : ch = keyEsc
      · rw [if_pos isEsc] at fed ⊢
        exact (@handleEsc_matches fuel { t with source } few .beg 0 output).afterByte fed rfl
      rw [if_neg isEsc] at fed ⊢
      by_cases isRedraw : ch = 12
      · rw [if_pos isRedraw] at fed ⊢
        exact (@ih { t with source, events := t.events ++ [.screenRedraw] } few).afterByte
          fed rfl
      rw [if_neg isRedraw] at fed ⊢
      by_cases isReturn : ch = 13
      · rw [if_pos isReturn] at fed ⊢
        exact @matches_done Nat 10 { t with source, cr := true } _ _ _ fed
      rw [if_neg isReturn] at fed ⊢
      by_cases isFeed : ch = 10
      · rw [if_pos isFeed] at fed ⊢
        by_cases afterReturn : t.cr = true
        · rw [if_pos afterReturn]
          exact (@ih { t with source, cr := false } few).afterByte
            (fed.trans (if_pos afterReturn)) rfl
        · rw [if_neg afterReturn]
          replace fed := fed.trans (if_neg afterReturn)
          exact @matches_done Nat 10 { t with source } _ _ _ fed
      rw [if_neg isFeed] at fed ⊢
      by_cases isNul : ch = 0
      · rw [if_pos isNul] at fed ⊢
        exact (@ih { t with source, cr := false } few).afterByte fed rfl
      · rw [if_neg isNul] at fed ⊢
        exact @matches_done Nat ch.toNat { t with source, cr := false } _ _ _ fed

end Matches

theorem readLoop_eq_run {fuel : Nat} {t : Terminal} (enough : t.source.pending.length < fuel)
    (output : List Nat) :
    output ++ (readLoop fuel t).1 =
        (run (t.decoder .normal output) t.source.pending).output ∧
      (readLoop fuel t).2.events =
        (run (t.decoder .normal output) t.source.pending).events := by
  induction fuel generalizing t output with
  | zero => cases enough
  | succ fuel ih =>
    have called := igetchLoop_matches (Nat.lt_succ_self t.source.pending.length) output
    change (igetch t).Matches _ _ _ at called
    rw [readLoop]
    cases result : igetch t with
    | waits u =>
      rw [result] at called
      obtain ⟨-, silent, events⟩ := called
      exact ⟨(List.append_nil output).trans silent.symm, events.symm⟩
    | done ch u =>
      rw [result] at called
      obtain ⟨consumed, split, reached⟩ := called
      have taken : consumed ≠ [] := by
        rintro rfl
        have longer := congrArg (fun d => d.output.length) reached
        simp only [run, List.foldl_nil, Terminal.decoder, List.length_append,
          List.length_singleton] at longer
        omega
      have shorter := congrArg List.length split
      rw [List.length_append] at shorter
      have positive := List.length_pos_iff.mpr taken
      obtain ⟨rest, events⟩ := @ih u (by omega) (output ++ [ch])
      rw [split, run_append, reached]
      refine ⟨?_, events⟩
      apply Eq.trans _ rest
      rw [List.append_assoc]
      rfl

/-- Calls of `igetch` return what the machine puts out, however the input is split. -/
theorem readAll_eq_run (t : Terminal) :
    (readAll t).1 = (run (t.decoder .normal []) t.source.pending).output ∧
      (readAll t).2.events = (run (t.decoder .normal []) t.source.pending).events :=
  readLoop_eq_run (Nat.lt_succ_self _) []

end TelnetInput

end Fbbs
