import Fbbs.Parcel
import Fbbs.TransitionRuns

/-!
# The output buffer of the terminal

`src/terminal.c`: bytes for the terminal are collected in a buffer.
`terminal_putchar` flushes the buffer as soon as a byte has filled it, and
`terminal_write_cached` only when there are more bytes than fit.
-/

namespace Fbbs

namespace TerminalOutput

open TransitionRuns

/-- `OUTPUT_BUFFER_SIZE`. -/
def outputBufferSize : Nat := 4088

/-- `output_buffer_t`. -/
structure OutputBuffer where
  ptr : Bytes
  size : Nat
  length_eq : ptr.length = outputBufferSize

namespace OutputBuffer

/-- The bytes in the buffer. -/
def content (buffer : OutputBuffer) : Bytes :=
  buffer.ptr.take buffer.size

theorem store_length (buffer : OutputBuffer) (src : Bytes)
    (fits : buffer.size + src.length ≤ outputBufferSize) :
    (buffer.ptr.take buffer.size ++ src ++ buffer.ptr.drop (buffer.size + src.length)).length =
      outputBufferSize := by
  have length := buffer.length_eq
  simp only [List.length_append, List.length_take, List.length_drop]
  omega

/-- Bytes are copied behind those in the buffer and counted; `none` if some of
them would be stored outside the array. -/
def store (buffer : OutputBuffer) (src : Bytes) : Option OutputBuffer :=
  if fits : buffer.size + src.length ≤ outputBufferSize then
    some ⟨buffer.ptr.take buffer.size ++ src ++ buffer.ptr.drop (buffer.size + src.length),
      buffer.size + src.length, buffer.store_length src fits⟩
  else none

end OutputBuffer

/-- The buffer, and the bytes that `terminal_write` has accepted. -/
structure Terminal where
  buffer : OutputBuffer
  sent : Bytes

/-- The static buffer at the start of the program. -/
def Terminal.initial : Terminal :=
  ⟨⟨List.replicate outputBufferSize 0, 0, List.length_replicate⟩, []⟩

/-- `terminal_write` where everything is accepted. -/
def terminalWrite (buf : Bytes) (term : Terminal) : Int × Terminal :=
  (buf.length, { term with sent := term.sent ++ buf })

def terminalFlush (term : Terminal) : Int × Terminal :=
  let (ret, term) :=
    if term.buffer.size > 0 then terminalWrite (term.buffer.ptr.take term.buffer.size) term
    else (0, term)
  (ret, { term with buffer := { term.buffer with size := 0 } })

def putRawCh (ch : UInt8) (term : Terminal) : Option Terminal :=
  (term.buffer.store [ch]).map fun buffer =>
    if buffer.size = outputBufferSize then (terminalFlush { term with buffer := buffer }).2
    else { term with buffer := buffer }

def terminalPutchar (ch : Int32) (term : Terminal) : Option Terminal :=
  putRawCh ch.toUInt32.toUInt8 term

/-- The loop of `terminal_write_cached`. -/
def writeLoop : Nat → Bytes → Int → Terminal → Option Terminal
  | 0, _, _, _ => none
  | fuel + 1, str, size, term =>
    if 0 < size then
      let len : Int := outputBufferSize - term.buffer.size
      if len < size then
        (term.buffer.store (str.take len.toNat)).bind fun buffer =>
          writeLoop fuel (str.drop len.toNat) (size - len)
            (terminalFlush { term with buffer := buffer }).2
      else
        (term.buffer.store (str.take size.toNat)).map fun buffer =>
          { term with buffer := buffer }
    else some term

/-- `terminal_write_cached`; a full buffer costs one more round. -/
def terminalWriteCached (str : Bytes) (size : Int32) (term : Terminal) : Option Terminal :=
  writeLoop (size.toInt.toNat + 2) str size.toInt term

/-- A call; `str` points to at least `size` bytes. -/
inductive Call
  | putchar (ch : Int32)
  | writeCached (str : Bytes) (size : Int32) (holds : size.toInt ≤ str.length)
  | flush

def Call.bytes : Call → Bytes
  | .putchar ch => [ch.toUInt32.toUInt8]
  | .writeCached str size _ => str.take size.toInt.toNat
  | .flush => []

def step (term : Terminal) : Call → Option Terminal
  | .putchar ch => terminalPutchar ch term
  | .writeCached str size _ => terminalWriteCached str size term
  | .flush => some (terminalFlush term).2

/-- Everything that has been sent or is still in the buffer. -/
def Terminal.output (term : Terminal) : Bytes :=
  term.sent ++ term.buffer.content

/-- The buffer does not count bytes outside the array. -/
def Terminal.Fits (term : Terminal) : Prop :=
  term.buffer.size ≤ outputBufferSize

theorem store_spec {buffer : OutputBuffer} {src : Bytes}
    (fits : buffer.size + src.length ≤ outputBufferSize) :
    ∃ after, buffer.store src = some after ∧ after.size = buffer.size + src.length ∧
      after.content = buffer.content ++ src := by
  refine ⟨_, dif_pos fits, rfl, ?_⟩
  have length : (buffer.ptr.take buffer.size ++ src).length = buffer.size + src.length := by
    rw [List.length_append, List.length_take, buffer.length_eq]
    omega
  exact List.take_left' length

theorem flush_output (term : Terminal) : (terminalFlush term).2.output = term.output := by
  by_cases some : term.buffer.size > 0
  · simp only [terminalFlush, if_pos some, terminalWrite, Terminal.output, OutputBuffer.content,
      List.take_zero, List.append_nil]
  · have none : term.buffer.size = 0 := Nat.eq_zero_of_not_pos some
    simp only [terminalFlush, if_neg some, Terminal.output, OutputBuffer.content]
    rw [none]

theorem flush_size (term : Terminal) : (terminalFlush term).2.buffer.size = 0 :=
  rfl

/-- A byte that fits is kept, and the buffer is not left full. -/
theorem putchar_spec {term : Terminal} (ch : Int32)
    (room : term.buffer.size < outputBufferSize) :
    ∃ final, terminalPutchar ch term = some final ∧ final.Fits ∧
      final.output = term.output ++ [ch.toUInt32.toUInt8] := by
  obtain ⟨after, stored, size, content⟩ :=
    store_spec (show term.buffer.size + [ch.toUInt32.toUInt8].length ≤ outputBufferSize from room)
  have output : ({ term with buffer := after } : Terminal).output =
      term.output ++ [ch.toUInt32.toUInt8] := by
    rw [Terminal.output, content, ← List.append_assoc]
    rfl
  rw [terminalPutchar, putRawCh, stored, Option.map_some]
  by_cases full : after.size = outputBufferSize
  · rw [if_pos full]
    refine ⟨_, rfl, ?_, (flush_output _).trans output⟩
    exact Nat.zero_le _
  · rw [if_neg full]
    refine ⟨_, rfl, ?_, output⟩
    change after.size ≤ outputBufferSize
    rw [size]
    exact room

/-- A byte for a full buffer is stored outside the array. -/
theorem putchar_full {term : Terminal} (ch : Int32) (full : term.buffer.size = outputBufferSize) :
    terminalPutchar ch term = none := by
  have outside : ¬term.buffer.size + [ch.toUInt32.toUInt8].length ≤ outputBufferSize := by
    rw [full]
    exact Nat.not_succ_le_self _
  rw [terminalPutchar, putRawCh, OutputBuffer.store, dif_neg outside, Option.map_none]

/-- The loop ends, with all bytes in order. -/
theorem writeLoop_spec {fuel : Nat} {str : Bytes} {size : Int} {term : Terminal}
    (fits : term.Fits) (holds : size ≤ str.length)
    (enough : size.toNat + (if term.buffer.size = outputBufferSize then 1 else 0) < fuel) :
    ∃ final, writeLoop fuel str size term = some final ∧ final.Fits ∧
      final.output = term.output ++ str.take size.toNat := by
  induction fuel generalizing str size term with
  | zero => exact absurd enough (Nat.not_lt_zero _)
  | succ fuel ih =>
    rw [Terminal.Fits] at fits
    rw [writeLoop]
    by_cases positive : 0 < size
    · rw [if_pos positive]
      dsimp only
      by_cases more : (outputBufferSize : Int) - term.buffer.size < size
      · -- The buffer is filled up and flushed, and the rest goes on.
        rw [if_pos more]
        have lenEq : ((outputBufferSize : Int) - term.buffer.size).toNat =
            outputBufferSize - term.buffer.size := by omega
        have length : (str.take (outputBufferSize - term.buffer.size)).length =
            outputBufferSize - term.buffer.size := by
          rw [List.length_take]
          omega
        obtain ⟨after, stored, -, content⟩ :=
          store_spec (show term.buffer.size +
            (str.take (outputBufferSize - term.buffer.size)).length ≤ outputBufferSize by omega)
        rw [lenEq, stored, Option.bind_some]
        have notFull : (terminalFlush { term with buffer := after }).2.buffer.size ≠
            outputBufferSize := by
          rw [flush_size]
          decide
        have flushed : (terminalFlush { term with buffer := after }).2.Fits := Nat.zero_le _
        have restHolds : size - (outputBufferSize - term.buffer.size) ≤
            (str.drop (outputBufferSize - term.buffer.size)).length := by
          rw [List.length_drop]
          omega
        -- A round without progress has emptied a full buffer.
        have restEnough : (size - (outputBufferSize - term.buffer.size)).toNat +
            (if (terminalFlush { term with buffer := after }).2.buffer.size = outputBufferSize
              then 1 else 0) < fuel := by
          rw [if_neg notFull]
          split at enough <;> omega
        obtain ⟨final, runs, finalFits, output⟩ := ih flushed restHolds restEnough
        refine ⟨final, runs, finalFits, ?_⟩
        rw [output, flush_output, Terminal.output, content, Terminal.output]
        have parts : str.take size.toNat = str.take (outputBufferSize - term.buffer.size) ++
            (str.drop (outputBufferSize - term.buffer.size)).take
              (size - (outputBufferSize - term.buffer.size)).toNat := by
          rw [← List.take_add]
          congr 1
          omega
        rw [parts]
        simp only [List.append_assoc]
      · rw [if_neg more]
        have length : (str.take size.toNat).length = size.toNat := by
          rw [List.length_take]
          omega
        obtain ⟨after, stored, sizeEq, content⟩ :=
          store_spec (show term.buffer.size + (str.take size.toNat).length ≤ outputBufferSize by
            omega)
        rw [stored, Option.map_some]
        refine ⟨_, rfl, ?_, ?_⟩
        · rw [Terminal.Fits, sizeEq]
          omega
        · rw [Terminal.output, content, Terminal.output, List.append_assoc]
    · rw [if_neg positive]
      have none : size.toNat = 0 := by omega
      refine ⟨term, rfl, fits, ?_⟩
      rw [none, List.take_zero, List.append_nil]

/-- `terminal_putchar` is not called while the buffer is full. -/
def Room (term : Terminal) : Call → Prop
  | .putchar _ => term.buffer.size < outputBufferSize
  | .writeCached .. => True
  | .flush => True

instance (term : Terminal) : (call : Call) → Decidable (Room term call)
  | .putchar _ => inferInstanceAs (Decidable (_ < _))
  | .writeCached .. => inferInstanceAs (Decidable True)
  | .flush => inferInstanceAs (Decidable True)

/-- A call with room appends its bytes to the output. -/
theorem step_spec {term : Terminal} (fits : term.Fits) {call : Call} (room : Room term call) :
    ∃ final, step term call = some final ∧ final.Fits ∧
      final.output = term.output ++ call.bytes := by
  cases call with
  | putchar ch => exact putchar_spec ch room
  | writeCached str size holds =>
    apply writeLoop_spec fits holds
    split <;> omega
  | flush =>
    refine ⟨_, rfl, Nat.zero_le _, ?_⟩
    rw [flush_output, Call.bytes, List.append_nil]

/-- A call without room is the only one that stores outside the array. -/
theorem step_eq_none {term : Terminal} (fits : term.Fits) {call : Call}
    (noRoom : ¬Room term call) : step term call = none := by
  cases call with
  | putchar ch => exact putchar_full ch (Nat.le_antisymm fits (Nat.not_lt.mp noRoom))
  | writeCached str size holds => exact absurd trivial noRoom
  | flush => exact absurd trivial noRoom

/-- The calls store nothing outside the array, and the bytes that have been sent
followed by those in the buffer are the bytes of the calls in order. -/
def InOrder (calls : List Call) (term : Terminal) : Prop :=
  ∃ final, run step calls term = some final ∧ final.Fits ∧
    final.output = term.output ++ calls.flatMap Call.bytes

/-- The run lemma: the output is in order as far as there is room for every byte
of `terminal_putchar`. -/
theorem inOrder_iff_guarded {term : Terminal} (fits : term.Fits) (calls : List Call) :
    InOrder calls term ↔ Guarded step Room calls term := by
  induction calls generalizing term with
  | nil =>
    refine ⟨fun _ => trivial, fun _ => ⟨term, rfl, fits, ?_⟩⟩
    rw [List.flatMap_nil, List.append_nil]
  | cons call calls ih =>
    constructor
    · rintro ⟨final, runs, finalFits, output⟩
      by_cases room : Room term call
      · obtain ⟨next, stepEq, nextFits, nextOutput⟩ := step_spec fits room
        refine ⟨room, fun other otherEq => ?_⟩
        obtain rfl : next = other := Option.some.inj (stepEq.symm.trans otherEq)
        apply (ih nextFits).mp
        rw [run, stepEq, Option.bind_some] at runs
        rw [List.flatMap_cons, ← List.append_assoc, ← nextOutput] at output
        exact ⟨final, runs, finalFits, output⟩
      · rw [run, step_eq_none fits room, Option.bind_none] at runs
        exact absurd runs.symm (Option.some_ne_none final)
    · rintro ⟨room, later⟩
      obtain ⟨next, stepEq, nextFits, nextOutput⟩ := step_spec fits room
      obtain ⟨final, runs, finalFits, output⟩ := (ih nextFits).mpr (later next stepEq)
      refine ⟨final, ?_, finalFits, ?_⟩
      · rw [run, stepEq, Option.bind_some, runs]
      · rw [output, nextOutput, List.flatMap_cons, List.append_assoc]

/-- From the start of the program, exactly the sequences that never call
`terminal_putchar` on a full buffer keep inside the array and in order. -/
theorem output_inOrder_iff (calls : List Call) :
    InOrder calls Terminal.initial ↔ Guarded step Room calls Terminal.initial :=
  inOrder_iff_guarded (Nat.zero_le _) calls

/-- A chunk that fits exactly leaves the buffer full. -/
theorem writeCached_exact (str : Bytes) (length : str.length = outputBufferSize) :
    ∃ final, terminalWriteCached str 4088 Terminal.initial = some final ∧
      final.buffer.size = outputBufferSize := by
  have whole : str.take (4088 : Int32).toInt.toNat = str := List.take_of_length_le length.le
  obtain ⟨after, stored, size, -⟩ :=
    store_spec (show Terminal.initial.buffer.size + str.length ≤ outputBufferSize by
      rw [length]
      exact Nat.le_refl _)
  refine ⟨{ Terminal.initial with buffer := after }, ?_, ?_⟩
  · rw [terminalWriteCached, writeLoop, if_pos (by decide)]
    dsimp only
    rw [if_neg (by decide), whole, stored]
    rfl
  · rw [size, length]
    rfl

/-- A page of blanks that fills the buffer. -/
def fullPage : Call :=
  .writeCached (List.replicate outputBufferSize 32) 4088 (by
    rw [List.length_replicate]
    decide)

/-- The byte after a chunk of exactly the size of the buffer is stored behind it. -/
theorem output_overflow : ¬InOrder [fullPage, .putchar 65] Terminal.initial := by
  rintro ⟨final, runs, -⟩
  obtain ⟨next, stepEq, runs⟩ := run_cons runs
  obtain ⟨after, written, full⟩ := writeCached_exact _ List.length_replicate
  obtain rfl : after = next := Option.some.inj (written.symm.trans stepEq)
  obtain ⟨last, stepEq, -⟩ := run_cons runs
  rw [step, putchar_full 65 full] at stepEq
  exact Option.some_ne_none last stepEq.symm

end TerminalOutput

end Fbbs
