import Mathlib.Data.List.Induction
import Fbbs.TelnetInput

/-!
# Telnet streams

Streams of data, line ends and telnet commands, and what `igetch` returns for them.  A command
of two bytes makes `handle_iac` take another byte, and the data of a subnegotiation are not
escaped when they are read.
-/

namespace Fbbs

namespace TelnetInput

/-! ## Streams -/

/-- A byte of data that is none of the line ends, `IAC`, `ESC`, NUL and `Ctrl-L`. -/
def isData (c : UInt8) : Bool :=
  c != iac && c != keyEsc && c != 0 && c != 12 && c != 13 && c != 10

/-- What a client sends; a subnegotiation of a window size by its four bytes. -/
inductive Token
  | data (c : UInt8) (plain : isData c = true)
  | crLf
  | crNul
  | cr
  | lf
  | command (c : UInt8) (short : 241 ≤ c ∧ c ≤ 249)
  | option (verb opt : UInt8) (long : 251 ≤ verb ∧ verb ≤ 254)
  | naws (w1 w0 h1 h0 : UInt8)

/-- Option data with `IAC` doubled. -/
def stuffed (c : UInt8) : Bytes :=
  if c = iac then [iac, iac] else [c]

def payload (w1 w0 h1 h0 : UInt8) : Bytes :=
  [w1, w0, h1, h0].flatMap stuffed

namespace Token

def bytes : Token → Bytes
  | data c _ => [c]
  | crLf => [13, 10]
  | crNul => [13, 0]
  | cr => [13]
  | lf => [10]
  | command c _ => [iac, c]
  | option verb opt _ => [iac, verb, opt]
  | naws w1 w0 h1 h0 => [iac, sb, teloptNaws] ++ payload w1 w0 h1 h0 ++ [iac, se]

/-- What the user has typed. -/
def output : Token → List Nat
  | data c _ => [c.toNat]
  | crLf | crNul | cr | lf => [10]
  | command _ _ | option _ _ _ | naws _ _ _ _ => []

/-- A height from 1 to 100. -/
def Visible (h1 h0 : UInt8) : Prop :=
  h1 = 0 ∧ 1 ≤ h0 ∧ h0 ≤ 100

instance decidableVisible (h1 h0 : UInt8) : Decidable (Visible h1 h0) :=
  inferInstanceAs (Decidable (_ ∧ _))

/-- The calls of the screen while a token is read: one for a visible height.  Other heights are
free. -/
def Calls (before after : List Event) : Token → Prop
  | naws _ _ h1 h0 => Visible h1 h0 → after = before ++ [.screenInit h0.toNat]
  | _ => after = before

end Token

def streamBytes (tokens : List Token) : Bytes :=
  tokens.flatMap Token.bytes

/-- A terminal of a new session that receives some bytes. -/
structure Receives (t : Terminal) (bytes : Bytes) : Prop where
  pending : t.source.pending = bytes
  cr : t.cr = false
  keyEscArg : t.keyEscArg = 0
  events : t.events = []

/-- As far as the stream has come, `igetch` has returned what the user has typed, and each
window size has been passed on. -/
structure Decodes (tokens : List Token) : Prop where
  output : ∀ first, first <+: tokens → ∀ t, Receives t (streamBytes first) →
    (readAll t).1 = first.flatMap Token.output
  calls : ∀ first token, first ++ [token] <+: tokens → ∀ t u,
    Receives t (streamBytes first) → Receives u (streamBytes (first ++ [token])) →
      token.Calls (readAll t).2.events (readAll u).2.events

/-! ## Tokens one by one -/

/-- The machine does with each token what it should. -/
def Faithful (d : Decoder) : List Token → Prop
  | [] => True
  | token :: rest =>
    ((run d token.bytes).output = d.output ++ token.output ∧
      token.Calls d.events (run d token.bytes).events) ∧
    Faithful (run d token.bytes) rest

/-- The machine at the beginning of a session. -/
def Decoder.start : Decoder :=
  ⟨.normal, false, 0, [], []⟩

theorem run_streamBytes_snoc (d : Decoder) (first : List Token) (token : Token) :
    run d (streamBytes (first ++ [token])) = run (run d (streamBytes first)) token.bytes := by
  rw [streamBytes, List.flatMap_append, run_append, List.flatMap_singleton]
  rfl

theorem faithful_append (d : Decoder) (first second : List Token) :
    Faithful d (first ++ second) ↔
      Faithful d first ∧ Faithful (run d (streamBytes first)) second := by
  induction first generalizing d with
  | nil => exact (and_iff_right trivial).symm
  | cons token rest ih =>
    have joined : run d (streamBytes (token :: rest)) =
        run (run d token.bytes) (streamBytes rest) := by
      rw [streamBytes, List.flatMap_cons, run_append]
      rfl
    rw [List.cons_append, Faithful, Faithful, ih, joined]
    exact and_assoc.symm

theorem output_of_faithful {d : Decoder} {tokens : List Token} (faithful : Faithful d tokens) :
    (run d (streamBytes tokens)).output = d.output ++ tokens.flatMap Token.output := by
  induction tokens generalizing d with
  | nil => exact (List.append_nil _).symm
  | cons token rest ih =>
    obtain ⟨⟨output, -⟩, faithfulRest⟩ := faithful
    rw [streamBytes, List.flatMap_cons, run_append]
    change (run (run d token.bytes) (streamBytes rest)).output = _
    rw [ih faithfulRest, output, List.append_assoc]
    rfl

/-- A byte at a time. -/
def sourceOf (bytes : Bytes) : Source :=
  ⟨[], 0, bytes.map fun c => ⟨[c], List.cons_ne_nil c [], by simp [inputBufferSize]⟩⟩

theorem pending_sourceOf (bytes : Bytes) : (sourceOf bytes).pending = bytes := by
  rw [Source.pending, sourceOf]
  induction bytes with
  | nil => rfl
  | cons c rest ih => exact congrArg (c :: ·) ih

def terminalOf (bytes : Bytes) : Terminal :=
  ⟨sourceOf bytes, false, 0, []⟩

theorem receives_terminalOf (bytes : Bytes) : Receives (terminalOf bytes) bytes :=
  ⟨pending_sourceOf bytes, rfl, rfl, rfl⟩

theorem readAll_of_receives {t : Terminal} {bytes : Bytes} (receives : Receives t bytes) :
    (readAll t).1 = (run .start bytes).output ∧
      (readAll t).2.events = (run .start bytes).events := by
  have start : t.decoder .normal [] = .start := by
    rw [Terminal.decoder, receives.cr, receives.keyEscArg, receives.events]
    rfl
  rw [← receives.pending, ← start]
  exact readAll_eq_run t

/-- The calls of `igetch` decode a stream when the machine does so token by token. -/
theorem decodes_iff_faithful (tokens : List Token) :
    Decodes tokens ↔ Faithful .start tokens := by
  constructor
  · intro decodes
    -- The output and the calls for each prefix, and from them for each token.
    have output : ∀ first, first <+: tokens →
        (run .start (streamBytes first)).output = first.flatMap Token.output := by
      intro first isPrefix
      have received := receives_terminalOf (streamBytes first)
      rw [← (readAll_of_receives received).1]
      exact decodes.output first isPrefix _ received
    have calls : ∀ first token, first ++ [token] <+: tokens →
        token.Calls (run .start (streamBytes first)).events
          (run .start (streamBytes (first ++ [token]))).events := by
      intro first token isPrefix
      have before := receives_terminalOf (streamBytes first)
      have after := receives_terminalOf (streamBytes (first ++ [token]))
      rw [← (readAll_of_receives before).2, ← (readAll_of_receives after).2]
      exact decodes.calls first token isPrefix _ _ before after
    suffices all : ∀ first, first <+: tokens → Faithful .start first from
      all tokens (List.prefix_refl tokens)
    intro first
    induction first using List.reverseRecOn with
    | nil => exact fun _ => trivial
    | append_singleton first token ih =>
      intro isPrefix
      have shorter : first <+: tokens := (List.prefix_append first [token]).trans isPrefix
      have outputAll := output _ isPrefix
      have callsLast := calls first token isPrefix
      rw [run_streamBytes_snoc] at outputAll callsLast
      rw [List.flatMap_append, List.flatMap_singleton, ← output first shorter] at outputAll
      exact (faithful_append _ _ _).mpr ⟨ih shorter, ⟨outputAll, callsLast⟩, trivial⟩
  · intro faithful
    constructor
    · rintro first ⟨rest, rfl⟩ t receives
      rw [(readAll_of_receives receives).1]
      exact output_of_faithful ((faithful_append _ first rest).mp faithful).1
    · rintro first token ⟨rest, rfl⟩ t u before after
      obtain ⟨faithfulFirst, -⟩ := (faithful_append _ (first ++ [token]) rest).mp faithful
      obtain ⟨-, ⟨-, calls⟩, -⟩ := (faithful_append _ first [token]).mp faithfulFirst
      rw [(readAll_of_receives before).2, (readAll_of_receives after).2, run_streamBytes_snoc]
      exact calls

/-! ## Between tokens -/

/-- Where the machine is between two tokens, with what it remembers of a carriage return: it
expects a token, or `handle_iac` still waits for a byte after a command. -/
inductive Boundary
  | synced (cr : Bool)
  | swallowing (cr : Bool)
  deriving DecidableEq

/-- A window size whose data have no byte `SE`; a visible height is passed on when they have no
byte that is `IAC` or the number of the option (or begin with both of them). -/
def sizePasses (w1 w0 h1 h0 : UInt8) : Bool :=
  [w1, w0, h1, h0].all (· != se) &&
    (!decide (Token.Visible h1 h0) ||
      [w1, w0, h0].all (fun c => c != teloptNaws && c != iac) ||
      (w1 == teloptNaws && w0 == iac && h0 != teloptNaws))

/-- The boundary after a token that is read as it should be. -/
def Boundary.next : Boundary → Token → Option Boundary
  | synced _, .data _ _ | synced _, .crLf | synced _, .crNul => some (synced false)
  | synced _, .cr => some (synced true)
  | synced cr, .lf => if cr then none else some (synced false)
  | synced cr, .command _ _ => some (swallowing cr)
  | synced cr, .option _ _ _ => some (synced cr)
  | synced cr, .naws w1 w0 h1 h0 => if sizePasses w1 w0 h1 h0 then some (synced cr) else none
  | swallowing cr, .crLf => if cr then none else some (synced false)
  | swallowing _, _ => none

/-- Every token of a stream is read as it should be. -/
def Accepts : Boundary → List Token → Bool
  | _, [] => true
  | boundary, token :: rest => (boundary.next token).any fun next => Accepts next rest

/-- The data of a window size have no byte `SE`. -/
def Token.Unended : Token → Prop
  | naws w1 w0 h1 h0 => ∀ c ∈ [w1, w0, h1, h0], c ≠ se
  | _ => True

def Boundary.decoder (boundary : Boundary) (events : List Event) (output : List Nat) : Decoder :=
  match boundary with
  | synced cr => ⟨.normal, cr, 0, events, output⟩
  | swallowing cr => ⟨.option ⟨.com, false, []⟩, cr, 0, events, output⟩

theorem output_feed (d : Decoder) (ch : UInt8) : d.output <+: (feed d ch).output := by
  unfold feed
  split
  · unfold feedNormal
    split_ifs
    all_goals first
      | exact List.prefix_rfl
      | exact List.prefix_append _ _
  · exact List.prefix_rfl
  · unfold feedEsc
    split
    · exact List.prefix_rfl
    · exact List.prefix_append _ _
    · exact List.prefix_append _ _

/-- What has been put out stays. -/
theorem output_run (d : Decoder) (bytes : Bytes) : d.output <+: (run d bytes).output := by
  induction bytes generalizing d with
  | nil => exact List.prefix_rfl
  | cons ch rest ih => exact (output_feed d ch).trans (ih (feed d ch))

/-! ## Window sizes -/

/-- The bytes in `buf` after some data. -/
def stored (buf : Bytes) (data : Bytes) : Bytes :=
  data.foldl (fun buf ch =>
    if ch = teloptNaws then [] else if buf.length < 8 then buf ++ [ch] else buf) buf

section WindowSizes

variable (cr : Bool) (events : List Event) (output : List Nat)

theorem run_sub {data : Bytes} (unended : ∀ c ∈ data, c ≠ se) (buf : Bytes) :
    run ⟨.option ⟨.sub, true, buf⟩, cr, 0, events, output⟩ data =
      ⟨.option ⟨.sub, true, stored buf data⟩, cr, 0, events, output⟩ := by
  induction data generalizing buf with
  | nil => rfl
  | cons ch rest ih =>
    have other := unended ch List.mem_cons_self
    have fed : feed ⟨.option ⟨.sub, true, buf⟩, cr, 0, events, output⟩ ch =
        ⟨.option ⟨.sub, true, stored buf [ch]⟩, cr, 0, events, output⟩ := by
      simp only [feed, feedOption, negotiate, stored, List.foldl_cons, List.foldl_nil, other,
        if_false, if_true]
      split <;> simp
    rw [run_cons, fed, ih fun c member => unended c (List.mem_cons_of_mem ch member)]
    rfl

theorem mem_payload {w1 w0 h1 h0 : UInt8} (unended : ∀ c ∈ [w1, w0, h1, h0], c ≠ se) :
    ∀ c ∈ payload w1 w0 h1 h0 ++ [iac], c ≠ se := by
  intro c member
  rcases List.mem_append.mp member with inside | last
  · obtain ⟨byte, isByte, isStuffed⟩ := List.mem_flatMap.mp inside
    unfold stuffed at isStuffed
    split at isStuffed
    · have same : c = iac := by simpa using isStuffed
      rw [same]
      decide
    · rw [List.mem_singleton.mp isStuffed]
      exact unended byte isByte
  · rw [List.mem_singleton.mp last]
    decide

/-- The calls of the screen for a window size without a byte `SE`. -/
def sizeEvents (w1 w0 h1 h0 : UInt8) : List Event :=
  let buf := stored [] (payload w1 w0 h1 h0 ++ [iac])
  if buf.length = 5 then [.screenInit (buf.getD 3 0).toInt8.toInt] else []

theorem run_naws {w1 w0 h1 h0 : UInt8} (unended : ∀ c ∈ [w1, w0, h1, h0], c ≠ se) :
    run ⟨.normal, cr, 0, events, output⟩ (Token.naws w1 w0 h1 h0).bytes =
      ⟨.normal, cr, 0, events ++ sizeEvents w1 w0 h1 h0, output⟩ := by
  have split : (Token.naws w1 w0 h1 h0).bytes =
      [iac, sb, teloptNaws] ++ ((payload w1 w0 h1 h0 ++ [iac]) ++ [se]) := by
    simp [Token.bytes]
  have opened : run ⟨.normal, cr, 0, events, output⟩ [iac, sb, teloptNaws] =
      ⟨.option ⟨.sub, true, []⟩, cr, 0, events, output⟩ := by
    simp [run, feed, feedNormal, feedOption, negotiate, Negotiation.start, sb, teloptNaws]
  rw [split, run_append, run_append, opened, run_sub cr events output (mem_payload unended)]
  simp [run, feed, feedOption, negotiate, se, teloptNaws, sizeEvents]

/-- Of a visible height the high byte is zero, and neither byte is `IAC`. -/
theorem sizeEvents_eq_iff {w1 w0 h1 h0 : UInt8} (visible : Token.Visible h1 h0) :
    sizeEvents w1 w0 h1 h0 = [.screenInit h0.toNat] ↔
      ([w1, w0, h0].all (fun c => c != teloptNaws && c != iac) ||
        (w1 == teloptNaws && w0 == iac && h0 != teloptNaws)) = true := by
  obtain ⟨rfl, low, high⟩ := visible
  have notIac : h0 ≠ 255 := by
    rintro rfl
    exact absurd high (by decide)
  have value : h0.toInt8.toInt = h0.toNat := by
    apply BitVec.toInt_eq_toNat_of_lt
    simp only [UInt8.le_iff_toNat_le, UInt8.reduceToNat] at high
    change 2 * h0.toNat < 2 ^ 8
    omega
  by_cases h0Naws : h0 = 31
  · -- The buffer is empty again behind the height.
    simp [sizeEvents, stored, payload, stuffed, teloptNaws, iac, h0Naws]
  by_cases w0Naws : w0 = 31
  · simp [sizeEvents, stored, payload, stuffed, teloptNaws, iac, h0Naws, notIac, w0Naws]
  by_cases w1Naws : w1 = 31
  · -- Only a second byte that is doubled fills the place of the first one.
    by_cases w0Iac : w0 = 255
    · simp [sizeEvents, stored, payload, stuffed, teloptNaws, iac, h0Naws, notIac, w1Naws, w0Iac,
        value]
    · simp [sizeEvents, stored, payload, stuffed, teloptNaws, iac, h0Naws, notIac, w0Naws, w1Naws,
        w0Iac]
  -- Every byte that is doubled moves the height on.
  by_cases w1Iac : w1 = 255 <;> by_cases w0Iac : w0 = 255 <;>
    simp [sizeEvents, stored, payload, stuffed, teloptNaws, iac, h0Naws, notIac, w0Naws, w1Naws,
      w1Iac, w0Iac, value]

end WindowSizes

/-! ## One token -/

section OneToken

variable (events : List Event) (output : List Nat)

theorem isData_iff {c : UInt8} :
    isData c = true ↔ c ≠ iac ∧ c ≠ keyEsc ∧ c ≠ 0 ∧ c ≠ 12 ∧ c ≠ 13 ∧ c ≠ 10 := by
  simp [isData, and_assoc]

theorem ne_of_command {c : UInt8} (short : 241 ≤ c ∧ c ≤ 249) :
    c ≠ sb ∧ isData c = true := by
  rw [isData_iff]
  refine ⟨?_, ?_, ?_, ?_, ?_, ?_, ?_⟩ <;>
    rintro rfl <;> exact absurd short (by decide)

theorem ne_of_option {verb : UInt8} (long : 251 ≤ verb ∧ verb ≤ 254) :
    verb ≠ sb ∧ isData verb = true := by
  rw [isData_iff]
  refine ⟨?_, ?_, ?_, ?_, ?_, ?_, ?_⟩ <;>
    rintro rfl <;> exact absurd long (by decide)

theorem feed_data {c : UInt8} (plain : isData c = true) (cr : Bool) :
    feed ⟨.normal, cr, 0, events, output⟩ c =
      ⟨.normal, false, 0, events, output ++ [c.toNat]⟩ := by
  obtain ⟨notIac, notEsc, notNul, notRedraw, notReturn, notFeed⟩ := isData_iff.mp plain
  simp [feed, feedNormal, notIac, notEsc, notNul, notRedraw, notReturn, notFeed]

theorem feed_iac (cr : Bool) :
    feed ⟨.normal, cr, 0, events, output⟩ iac =
      ⟨.option .start, cr, 0, events, output⟩ :=
  rfl

/-- After a command `handle_iac` takes any byte. -/
theorem feed_swallowing (cr : Bool) (ch : UInt8) :
    feed ((Boundary.swallowing cr).decoder events output) ch =
      ⟨.normal, cr, 0, events, output⟩ := by
  simp [Boundary.decoder, feed, feedOption, negotiate]

theorem feed_start {ch : UInt8} (other : ch ≠ sb) (cr : Bool) :
    feed ⟨.option .start, cr, 0, events, output⟩ ch =
      (Boundary.swallowing cr).decoder events output := by
  simp [Boundary.decoder, feed, feedOption, negotiate, Negotiation.start, other]

/-- A token that the boundary admits leads to the next boundary. -/
theorem run_of_next {boundary after : Boundary} {token : Token}
    (admitted : boundary.next token = some after) :
    ∃ calls, run (boundary.decoder events output) token.bytes =
        after.decoder (events ++ calls) (output ++ token.output) ∧
      token.Calls events (events ++ calls) := by
  have none : ∀ {d : Decoder}, d = after.decoder events (output ++ token.output) →
      d = after.decoder (events ++ []) (output ++ token.output) := by
    intro d equal
    rw [List.append_nil, equal]
  have silent : events ++ [] = events := List.append_nil events
  cases boundary with
  | synced cr =>
    cases token with
    | data c plain =>
      cases admitted
      exact ⟨[], none (feed_data events output plain cr), silent⟩
    | crLf =>
      cases admitted
      exact ⟨[], none rfl, silent⟩
    | crNul =>
      cases admitted
      exact ⟨[], none rfl, silent⟩
    | cr =>
      cases admitted
      exact ⟨[], none rfl, silent⟩
    | lf =>
      cases cr with
      | true => cases admitted
      | false =>
        cases admitted
        exact ⟨[], none rfl, silent⟩
    | command c short =>
      cases admitted
      refine ⟨[], none ?_, silent⟩
      rw [Token.bytes, run_cons, Boundary.decoder, feed_iac, run_cons,
        feed_start events output (ne_of_command short).1]
      exact congrArg (Decoder.mk _ _ _ _) (List.append_nil output).symm
    | option verb opt long =>
      cases admitted
      refine ⟨[], none ?_, silent⟩
      rw [Token.bytes, run_cons, Boundary.decoder, feed_iac, run_cons,
        feed_start events output (ne_of_option long).1, run_cons, feed_swallowing]
      exact congrArg (Decoder.mk _ _ _ _) (List.append_nil output).symm
    | naws w1 w0 h1 h0 =>
      rw [Boundary.next, Option.ite_none_right_eq_some] at admitted
      obtain ⟨passes, same⟩ := admitted
      cases same
      rw [sizePasses, Bool.and_eq_true, Bool.or_assoc, Bool.or_eq_true] at passes
      obtain ⟨unended, passed⟩ := passes
      have noSe : ∀ c ∈ [w1, w0, h1, h0], c ≠ se := by
        intro c member
        simpa using List.all_eq_true.mp unended c member
      refine ⟨sizeEvents w1 w0 h1 h0, ?_, ?_⟩
      · rw [Boundary.decoder, run_naws cr events output noSe]
        exact congrArg (Decoder.mk _ _ _ _) (List.append_nil output).symm
      · intro visible
        rcases passed with hidden | exact
        · rw [decide_eq_true visible] at hidden
          cases hidden
        · rw [(sizeEvents_eq_iff visible).mpr exact]
  | swallowing cr =>
    cases token with
    | crLf =>
      cases cr with
      | true => cases admitted
      | false =>
        cases admitted
        refine ⟨[], none ?_, silent⟩
        rw [Token.bytes, run_cons, feed_swallowing]
        rfl
    | _ => cases admitted

/-- A token that the boundary does not admit is not read as it should be. -/
theorem not_of_next_eq_none {boundary : Boundary} {token : Token} (unended : token.Unended)
    (refused : boundary.next token = none) :
    ¬((run (boundary.decoder events output) token.bytes).output = output ++ token.output ∧
      token.Calls events (run (boundary.decoder events output) token.bytes).events) := by
  rintro ⟨typed, calls⟩
  -- Neither is a line end lost nor a byte of a command put out.
  have lost : ∀ {c : Nat}, output ≠ output ++ [c] := by
    intro c same
    have lengths := congrArg List.length same
    rw [List.length_append, List.length_singleton] at lengths
    omega
  have leaked : ∀ {d : Decoder} {c : UInt8} {bytes : Bytes}, d.output = output ++ [c.toNat] →
      (run d bytes).output ≠ output := by
    intro d c bytes put same
    have grown := (output_run d bytes).length_le
    rw [put, same, List.length_append, List.length_singleton] at grown
    omega
  cases boundary with
  | synced cr =>
    cases token with
    | lf =>
      cases cr with
      | true => exact lost typed
      | false => cases refused
    | naws w1 w0 h1 h0 =>
      rw [Boundary.next] at refused
      split at refused
      · cases refused
      · rename_i fails
        have noSe : [w1, w0, h1, h0].all (· != se) = true := by
          apply List.all_eq_true.mpr
          intro c member
          simpa using unended c member
        rw [sizePasses, noSe, Bool.true_and, Bool.or_assoc, Bool.or_eq_true, not_or] at fails
        obtain ⟨notHidden, notPassed⟩ := fails
        have visible : Token.Visible h1 h0 := by simpa using notHidden
        rw [Boundary.decoder, run_naws cr events output unended] at calls
        exact notPassed ((sizeEvents_eq_iff visible).mp (List.append_cancel_left (calls visible)))
    | _ => cases refused
  | swallowing cr =>
    cases token with
    | data c plain =>
      rw [Token.bytes, run_cons, feed_swallowing] at typed
      exact lost typed
    | crLf =>
      cases cr with
      | true => exact lost typed
      | false => cases refused
    | crNul => exact lost typed
    | cr => exact lost typed
    | lf => exact lost typed
    | command c short =>
      rw [Token.bytes, run_cons, feed_swallowing, run_cons,
        feed_data events output (ne_of_command short).2] at typed
      exact lost (typed.trans (List.append_nil output)).symm
    | option verb opt long =>
      have put := feed_data events output (ne_of_option long).2 cr
      rw [Token.bytes, run_cons, feed_swallowing, run_cons, put] at typed
      exact leaked rfl (typed.trans (List.append_nil output))
    | naws w1 w0 h1 h0 =>
      have put := feed_data events output (show isData sb = true from rfl) cr
      rw [Token.bytes, List.append_assoc, List.cons_append, run_cons, feed_swallowing,
        List.cons_append, run_cons, put] at typed
      exact leaked rfl (typed.trans (List.append_nil output))

end OneToken

/-! ## Whole streams -/

theorem faithful_of_accepts {boundary : Boundary} {tokens : List Token}
    (accepts : Accepts boundary tokens = true) (events : List Event) (output : List Nat) :
    Faithful (boundary.decoder events output) tokens := by
  induction tokens generalizing boundary events output with
  | nil => trivial
  | cons token rest ih =>
    obtain ⟨after, admitted, acceptsRest⟩ : ∃ after, boundary.next token = some after ∧
        Accepts after rest = true := by
      simpa only [Accepts, Option.any_eq_true] using accepts
    obtain ⟨calls, reached, called⟩ := run_of_next events output admitted
    have start : (boundary.decoder events output).output = output ∧
        (boundary.decoder events output).events = events := by
      cases boundary <;> exact ⟨rfl, rfl⟩
    have ending : (after.decoder (events ++ calls) (output ++ token.output)).output =
          output ++ token.output ∧
        (after.decoder (events ++ calls) (output ++ token.output)).events = events ++ calls := by
      cases after <;> exact ⟨rfl, rfl⟩
    rw [Faithful, reached, start.1, start.2, ending.1, ending.2]
    exact ⟨⟨rfl, called⟩, ih acceptsRest _ _⟩

theorem accepts_of_faithful {boundary : Boundary} {tokens : List Token}
    (unended : ∀ token ∈ tokens, token.Unended) {events : List Event} {output : List Nat}
    (faithful : Faithful (boundary.decoder events output) tokens) :
    Accepts boundary tokens = true := by
  induction tokens generalizing boundary events output with
  | nil => rfl
  | cons token rest ih =>
    obtain ⟨good, faithfulRest⟩ := faithful
    have start : (boundary.decoder events output).output = output ∧
        (boundary.decoder events output).events = events := by
      cases boundary <;> exact ⟨rfl, rfl⟩
    rw [start.1, start.2] at good
    cases admitted : boundary.next token with
    | none =>
      exact absurd good
        (not_of_next_eq_none events output (unended token List.mem_cons_self) admitted)
    | some after =>
      obtain ⟨calls, reached, -⟩ := run_of_next events output admitted
      rw [reached] at faithfulRest
      rw [Accepts, admitted, Option.any_some]
      exact ih (fun other member => unended other (List.mem_cons_of_mem token member))
        faithfulRest

/-- A stream is decoded when every token of it is read as it should be, and only then if no
window size has a byte `SE`. -/
theorem decodes_iff_accepts (tokens : List Token) :
    (Accepts (.synced false) tokens = true → Decodes tokens) ∧
      ((∀ token ∈ tokens, token.Unended) →
        (Decodes tokens ↔ Accepts (.synced false) tokens = true)) := by
  have start : Decoder.start = (Boundary.synced false).decoder [] [] := rfl
  rw [decodes_iff_faithful, start]
  constructor
  · exact fun accepts => faithful_of_accepts accepts [] []
  · intro unended
    constructor
    · exact fun faithful => accepts_of_faithful unended faithful
    · exact fun accepts => faithful_of_accepts accepts [] []

/-- `NOP` and a letter. -/
def nopStream : List Token :=
  [.command 241 (by decide), .data 97 rfl]

/-- A window of 31 columns and 24 lines. -/
def narrowStream : List Token :=
  [.naws 0 31 0 24]

/-- A command takes the byte behind it, and a width of 31 begins the size again. -/
theorem streams_not_decoded : ¬Decodes nopStream ∧ ¬Decodes narrowStream := by
  constructor
  · intro decodes
    have faithful := (decodes_iff_faithful nopStream).mp decodes
    exact absurd (output_of_faithful faithful) (by decide)
  · intro decodes
    have faithful := (decodes_iff_faithful narrowStream).mp decodes
    exact absurd (faithful.1.2 ⟨rfl, by decide, by decide⟩) (by decide)

end TelnetInput

end Fbbs
