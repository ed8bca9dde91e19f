import Mathlib.Data.List.Basic
import Fbbs.SysconfBuild

/-!
# The buffer of a compiled menu configuration

What a configuration puts into the buffer is a list of pieces.  From their sizes it is known
where each begins, and so whether all pointers stay inside the buffer.  Each step of the
compilation either adds its pieces or leaves a configuration that is bad for good.
-/

namespace Fbbs

namespace Sysconf

/-! ## Pieces of the buffer -/

/-- A string that something points to, a string that nothing points to, or a block. -/
inductive Piece
  | name (str : CString)
  | loose (str : CString)
  | block (lines : List CString)

def Piece.size : Piece → Nat
  | .name str => str.bytes.length + 1
  | .loose str => str.bytes.length + 1
  | .block lines => (lines.map fun line => line.bytes.length).sum + 1

/-- A name begins within the buffer, and a block ends there. -/
def Piece.Fits (used : Nat) : Piece → Prop
  | .name _ => used < bufSize
  | .loose _ => True
  | .block lines => used + (Piece.block lines).size ≤ bufSize

/-- A block without lines gets no terminator, and the next string ends it. -/
def Piece.pending (used : Nat) (before : Option Nat) : Piece → Option Nat
  | .name _ => if used < bufSize then none else before
  | .loose _ => if used < bufSize then none else before
  | .block [] => some used
  | .block (_ :: _) => none

def totalSize (pieces : List Piece) : Nat :=
  (pieces.map Piece.size).sum

def Fits : Nat → List Piece → Prop
  | _, [] => True
  | used, piece :: pieces => piece.Fits used ∧ Fits (used + piece.size) pieces

/-- The block that has no terminator at the end. -/
def unfinished : Nat → Option Nat → List Piece → Option Nat
  | _, pending, [] => pending
  | used, pending, piece :: pieces =>
    unfinished (used + piece.size) (piece.pending used pending) pieces

def keyPieces (keys : Nat) (key : CString) (str : Option CString) : List Piece :=
  if keys < keySize then (str.map Piece.name).toList ++ [.name key] else []

def itemNames (menu : MenuLine) : List CString :=
  match menu.cmd.bytes.head? with
  | some 64 => [menu.arg 3, menu.arg 4, .ofBytes (menu.cmd.bytes.drop 1)]
  | some 33 => [menu.arg 3, menu.arg 4, lit ['d', 'o', 'm', 'e', 'n', 'u'],
      .ofBytes (menu.cmd.bytes.drop 1)]
  | _ => [menu.cmd, menu.arg 2]

def Call.pieces (keys : Nat) : Call → List Piece
  | .addstr str => [.loose str]
  | .addkey key str _ => keyPieces keys key str
  | .addmenu key lines =>
    keyPieces keys key (some (lit ['m', 'e', 'n', 'u'])) ++
      lines.flatMap fun menu => (itemNames menu).map Piece.name
  | .addblock key lines =>
    if keys < keySize then [.name key, .block (lines.map encodestr)] else []
  | .parse _ => []

/-- The number of keys after one more. -/
def nextKeys (keys : Nat) : Nat :=
  if keys < keySize then keys + 1 else keys

def Call.keys (keys : Nat) : Call → Nat
  | .addkey .. | .addmenu .. | .addblock .. => nextKeys keys
  | .addstr _ | .parse _ => keys

def Call.items : Call → Nat
  | .addmenu _ lines => lines.length + 1
  | _ => 0

def callPieces : Nat → List Call → List Piece
  | _, [] => []
  | keys, call :: calls => call.pieces keys ++ callPieces (call.keys keys) calls

def keyCount (calls : List Call) : Nat :=
  calls.foldl Call.keys 0

def itemCount (calls : List Call) : Nat :=
  (calls.map Call.items).sum

/-- How far the strings move when the image is loaded at an address. -/
def distance (heap : Heap) (ptr : Int) (calls : List Call) : Int :=
  ptr + itemCount calls * itemBytes + keyCount calls * defineBytes - heap.base

/-- There are not too many items, all names and blocks are within the buffer, the last one has
a terminator, and the distance fits in an `int`. -/
structure Roomy (heap : Heap) (ptr : Int) (calls : List Call) : Prop where
  items : itemCount calls ≤ cmdSize
  fits : Fits 0 (callPieces 0 calls)
  ended : ∀ place, unfinished 0 none (callPieces 0 calls) = some place → heap.buf place = 0
  near : itemCount calls = 0 ∧ keyCount calls = 0 ∨
    -2 ^ 31 ≤ distance heap ptr calls ∧ distance heap ptr calls < 2 ^ 31

theorem totalSize_cons (piece : Piece) (pieces : List Piece) :
    totalSize (piece :: pieces) = piece.size + totalSize pieces := by
  rw [totalSize, List.map_cons, List.sum_cons]
  rfl

theorem fits_append (used : Nat) (first second : List Piece) :
    Fits used (first ++ second) ↔ Fits used first ∧ Fits (used + totalSize first) second := by
  induction first generalizing used with
  | nil => simp [Fits, totalSize]
  | cons piece first ih =>
    rw [List.cons_append, Fits, Fits, ih, totalSize_cons, ← Nat.add_assoc, and_assoc]

theorem unfinished_append (used : Nat) (pending : Option Nat) (first second : List Piece) :
    unfinished used pending (first ++ second) =
      unfinished (used + totalSize first) (unfinished used pending first) second := by
  induction first generalizing used pending with
  | nil => rfl
  | cons piece first ih =>
    rw [List.cons_append, unfinished, unfinished, ih, totalSize_cons, ← Nat.add_assoc]

theorem totalSize_append (first second : List Piece) :
    totalSize (first ++ second) = totalSize first + totalSize second := by
  simp [totalSize]

/-! ## Pointers -/

def MenuItem.pointers (item : MenuItem) : List Int :=
  [item.name, item.desc, item.arg, item.func]

def Define.pointers (var : Define) : List Int :=
  [var.key, var.str]

/-- An item or a key has the pointer. -/
def Conf.Stored (conf : Conf) (address : Int) : Prop :=
  (∃ n < conf.items, address ∈ (conf.item n).pointers) ∨
    ∃ n < conf.keys, address ∈ (conf.var n).pointers

/-- There is a terminator at or after the place. -/
def Conf.Ended (conf : Conf) (place : Nat) : Prop :=
  ∃ i, place ≤ i ∧ i < conf.len ∧ conf.buf i = 0

/-- The buffer has been too long, or there is a pointer behind it. -/
def Conf.Bad (conf : Conf) : Prop :=
  bufSize < conf.peak ∨ ∃ place, bufSize ≤ place ∧ conf.Stored (conf.base + (place : Nat))

/-- What no call takes back. -/
structure Grows (before after : Conf) : Prop where
  base : after.base = before.base
  peak : before.peak ≤ after.peak
  stored : ∀ address, before.Stored address → after.Stored address

/-- The buffer holds pieces of the given size, and every pointer is to a string, or to a block
without a terminator. -/
structure Tracks (heap : Heap) (conf : Conf) (used : Nat) (pending : Option Nat) : Prop where
  base : conf.base = heap.base
  len : conf.len = min used bufSize
  peak : conf.peak ≤ bufSize
  items : conf.items ≤ cmdSize
  rest : ∀ i, conf.len ≤ i → conf.buf i = heap.buf i
  null : conf.Ended 0
  stored : ∀ address, conf.Stored address →
    ∃ place : Nat, address = conf.base + place ∧ (conf.Ended place ∨ pending = some place)
  last : ∀ place, pending = some place → place + 1 = conf.len ∧
    conf.buf place = heap.buf place ∧ conf.Stored (conf.base + place)

theorem Grows.refl (conf : Conf) : Grows conf conf :=
  ⟨rfl, Nat.le_refl _, fun _ => id⟩

theorem Grows.trans {first second third : Conf} (left : Grows first second)
    (right : Grows second third) : Grows first third :=
  ⟨right.base.trans left.base, left.peak.trans right.peak,
    fun address stored => right.stored address (left.stored address stored)⟩

theorem Grows.bad {before after : Conf} (grows : Grows before after) (bad : before.Bad) :
    after.Bad := by
  rcases bad with long | ⟨place, outside, stored⟩
  · exact Or.inl (Nat.lt_of_lt_of_le long grows.peak)
  · refine Or.inr ⟨place, outside, ?_⟩
    rw [grows.base]
    exact grows.stored _ stored

/-! ## Adding a string -/

theorem write_below {memory : Nat → UInt8} {place i : Nat} (bytes : Bytes) (below : i < place) :
    write memory place bytes i = memory i :=
  if_neg (by omega)

theorem write_above {memory : Nat → UInt8} {place i : Nat} {bytes : Bytes}
    (above : place + bytes.length ≤ i) : write memory place bytes i = memory i := by
  rw [write, if_pos (by omega), List.getElem?_eq_none (by omega)]
  rfl

theorem write_last (memory : Nat → UInt8) (place : Nat) (bytes : Bytes) :
    write memory place (bytes ++ [0]) (place + bytes.length) = 0 := by
  rw [write, if_pos (by omega), Nat.add_sub_cancel_left, List.getElem?_concat_length]
  rfl

/-- Only the buffer changes, between two lengths. -/
structure Appended (before after : Conf) : Prop where
  base : after.base = before.base
  item : after.item = before.item
  var : after.var = before.var
  items : after.items = before.items
  keys : after.keys = before.keys
  le : before.len ≤ after.len
  le_peak : before.peak ≤ after.peak
  peak_le : after.peak ≤ max before.peak after.len
  below : ∀ i, i < before.len → after.buf i = before.buf i
  above : ∀ i, after.len ≤ i → after.buf i = before.buf i

theorem Appended.stored {before after : Conf} (appended : Appended before after)
    (address : Int) : after.Stored address ↔ before.Stored address := by
  rw [Conf.Stored, Conf.Stored, appended.item, appended.var, appended.items, appended.keys]

theorem Appended.grows {before after : Conf} (appended : Appended before after) :
    Grows before after where
  base := appended.base
  peak := appended.le_peak
  stored := fun address => (appended.stored address).mpr

theorem Appended.ended {before after : Conf} (appended : Appended before after) {place : Nat}
    (ended : before.Ended place) : after.Ended place := by
  obtain ⟨i, start, inside, zero⟩ := ended
  refine ⟨i, start, Nat.lt_of_lt_of_le inside appended.le, ?_⟩
  rw [appended.below i inside, zero]

/-- A string that is added begins where the buffer ended. -/
theorem addstr_spec {conf : Conf} (inside : conf.len ≤ bufSize) (str : CString) :
    ∃ after, addstr conf str = some (conf.base + conf.len, after) ∧ Appended conf after ∧
      after.len = min (conf.len + (str.bytes.length + 1)) bufSize ∧
      (conf.len < bufSize → after.Ended conf.len) := by
  have newLen : (if bufSize < conf.len + (str.bytes.length + 1) then bufSize
      else conf.len + (str.bytes.length + 1)) =
      min (conf.len + (str.bytes.length + 1)) bufSize := by
    split <;> omega
  rw [addstr, Conf.strlcpy]
  by_cases room : conf.len < bufSize
  · rw [if_pos room]
    refine ⟨_, rfl, ?_, newLen, fun _ => ?_⟩
    · refine ⟨rfl, rfl, rfl, rfl, rfl, ?_, Nat.le_max_left .., Nat.le_refl _, ?_, ?_⟩
      · simp only [Conf.setLen, newLen]
        omega
      · intro i below
        exact write_below _ below
      · intro i above
        simp only [Conf.setLen, newLen] at above
        apply write_above
        rw [List.length_append, List.length_take, List.length_singleton]
        omega
    · refine ⟨conf.len + (str.bytes.take (bufSize - conf.len - 1)).length, by omega, ?_,
        write_last _ _ _⟩
      simp only [Conf.setLen, newLen, List.length_take]
      omega
  · have full : conf.len = bufSize := by omega
    rw [if_neg room, if_pos full]
    refine ⟨_, rfl, ?_, newLen, fun less => absurd less room⟩
    refine ⟨rfl, rfl, rfl, rfl, rfl, ?_, Nat.le_max_left .., Nat.le_refl _, fun _ _ => rfl,
      fun _ _ => rfl⟩
    simp only [Conf.setLen, newLen]
    omega

theorem addstr_inside {conf : Conf} {str : CString} {result : Int × Conf}
    (added : addstr conf str = some result) : conf.len ≤ bufSize := by
  by_contra outside
  rw [addstr, Conf.strlcpy, if_neg (by omega), if_neg (by omega)] at added
  cases added

theorem grows_addstr {conf after : Conf} {str : CString} {address : Int}
    (added : addstr conf str = some (address, after)) : Grows conf after := by
  obtain ⟨other, same, appended, -⟩ := addstr_spec (addstr_inside added) str
  rw [added, Option.some.injEq, Prod.mk.injEq] at same
  rw [same.2]
  exact appended.grows

section Strings

variable {heap : Heap} {conf : Conf} {used : Nat} {pending : Option Nat}

theorem Tracks.inside (tracks : Tracks heap conf used pending) : conf.len ≤ bufSize := by
  rw [tracks.len]
  exact Nat.min_le_right ..

theorem tracks_addstr (tracks : Tracks heap conf used pending) (str : CString) :
    ∃ after, addstr conf str = some (conf.base + (min used bufSize : Nat), after) ∧
      Appended conf after ∧
      Tracks heap after (used + (str.bytes.length + 1)) (if used < bufSize then none else pending) ∧
      (used < bufSize → after.Ended used) := by
  obtain ⟨after, added, appended, len, ended⟩ := addstr_spec tracks.inside str
  have before := tracks.len
  refine ⟨after, before ▸ added, appended, ?_, ?_⟩
  · refine ⟨appended.base.trans tracks.base, by omega, ?_, appended.items ▸ tracks.items, ?_,
      appended.ended tracks.null, ?_, ?_⟩
    · have peak := tracks.peak
      have newPeak := appended.peak_le
      omega
    · intro i above
      rw [appended.above i above]
      exact tracks.rest i (appended.le.trans above)
    · intro address stored
      obtain ⟨place, rfl, found⟩ := tracks.stored address ((appended.stored address).mp stored)
      refine ⟨place, by rw [appended.base], ?_⟩
      rcases found with found | isPending
      · exact Or.inl (appended.ended found)
      · split
        · rename_i room
          -- The terminator of the new string also ends the block before it.
          obtain ⟨i, start, inside, zero⟩ := ended (by omega)
          have next := (tracks.last place isPending).1
          exact Or.inl ⟨i, by omega, inside, zero⟩
        · exact Or.inr isPending
    · intro place isPending
      split at isPending
      · cases isPending
      · rename_i full
        obtain ⟨next, same, stored⟩ := tracks.last place isPending
        refine ⟨by omega, ?_, ?_⟩
        · rw [appended.below place (by omega), same]
        · rw [appended.base, appended.stored]
          exact stored
  · intro room
    have start : conf.len = used := by omega
    rw [← start]
    exact ended (by omega)

end Strings

/-! ## Adding the names of an item -/

theorem Appended.refl (conf : Conf) : Appended conf conf :=
  ⟨rfl, rfl, rfl, rfl, rfl, Nat.le_refl _, Nat.le_refl _, Nat.le_max_left .., fun _ _ => rfl,
    fun _ _ => rfl⟩

theorem Appended.trans {first second third : Conf} (left : Appended first second)
    (right : Appended second third) : Appended first third where
  base := right.base.trans left.base
  item := right.item.trans left.item
  var := right.var.trans left.var
  items := right.items.trans left.items
  keys := right.keys.trans left.keys
  le := left.le.trans right.le
  le_peak := left.le_peak.trans right.le_peak
  peak_le := by
    have len := right.le
    have first := left.peak_le
    have second := right.peak_le
    omega
  below := by
    intro i below
    rw [right.below i (Nat.lt_of_lt_of_le below left.le), left.below i below]
  above := by
    intro i above
    rw [right.above i above, left.above i (right.le.trans above)]

/-- Several strings, with the pointers to them. -/
def addNames (conf : Conf) : List CString → Option (List Int × Conf)
  | [] => some ([], conf)
  | str :: strs =>
    (addstr conf str).bind fun added =>
      (addNames added.2 strs).map fun more => (added.1 :: more.1, more.2)

/-- Pointers to strings with a terminator. -/
def Conf.AllEnded (conf : Conf) (pointers : List Int) : Prop :=
  ∀ address ∈ pointers, ∃ place : Nat, address = conf.base + place ∧ conf.Ended place

theorem grows_addNames {conf after : Conf} {strs : List CString} {pointers : List Int}
    (added : addNames conf strs = some (pointers, after)) : Grows conf after := by
  induction strs generalizing conf pointers with
  | nil =>
    rw [addNames, Option.some.injEq, Prod.mk.injEq] at added
    exact added.2 ▸ Grows.refl conf
  | cons str strs ih =>
    obtain ⟨⟨address, middle⟩, first, rest⟩ := Option.bind_eq_some_iff.mp added
    obtain ⟨⟨more, last⟩, later, same⟩ := Option.map_eq_some_iff.mp rest
    obtain ⟨-, rfl⟩ := Prod.mk.inj same
    exact (grows_addstr first).trans (ih later)

theorem tracks_addNames {heap : Heap} {conf : Conf} {used : Nat} {pending : Option Nat}
    (tracks : Tracks heap conf used pending) (strs : List CString) :
    ∃ pointers after, addNames conf strs = some (pointers, after) ∧ Appended conf after ∧
      Tracks heap after (used + totalSize (strs.map .name))
        (unfinished used pending (strs.map .name)) ∧
      pointers.length = strs.length ∧
      (Fits used (strs.map .name) → after.AllEnded pointers) ∧
      (¬Fits used (strs.map .name) →
        ∃ place : Nat, bufSize ≤ place ∧ conf.base + place ∈ pointers) := by
  induction strs generalizing conf used pending with
  | nil =>
    refine ⟨[], conf, rfl, Appended.refl conf, tracks, rfl, fun _ => nofun, ?_⟩
    exact fun outside => absurd trivial outside
  | cons str strs ih =>
    obtain ⟨middle, added, appended, middleTracks, ended⟩ := tracks_addstr tracks str
    obtain ⟨pointers, after, later, grown, afterTracks, length, good, bad⟩ := ih middleTracks
    refine ⟨(conf.base + (min used bufSize : Nat)) :: pointers, after, ?_,
      appended.trans grown, ?_, congrArg Nat.succ length, ?_, ?_⟩
    · rw [addNames, added, Option.bind_some, later]
      rfl
    · rw [List.map_cons, totalSize_cons, ← Nat.add_assoc]
      exact afterTracks
    · rintro ⟨room, fits⟩ address member
      rcases List.mem_cons.mp member with rfl | later
      · refine ⟨used, ?_, grown.ended (ended room)⟩
        rw [(appended.trans grown).base, Nat.min_eq_left (Nat.le_of_lt room)]
      · exact good fits address later
    · intro outside
      by_cases room : used < bufSize
      · have notFits : ¬Fits (used + (str.bytes.length + 1)) (strs.map .name) :=
          fun fits => outside ⟨room, fits⟩
        obtain ⟨place, beyond, member⟩ := bad notFits
        rw [appended.base] at member
        exact ⟨place, beyond, List.mem_cons_of_mem _ member⟩
      · refine ⟨bufSize, Nat.le_refl _, ?_⟩
        rw [Nat.min_eq_right (by omega)]
        exact List.mem_cons_self

/-! ## Items and keys -/

theorem stored_setItem {conf after : Conf} {item : MenuItem} (set : conf.setItem item = some after)
    (address : Int) : after.Stored address ↔ conf.Stored address ∨ address ∈ item.pointers := by
  rw [Conf.setItem] at set
  split at set
  · cases set
    simp only [Conf.Stored]
    constructor
    · rintro (⟨n, less, member⟩ | var)
      · by_cases new : n = conf.items
        · rw [if_pos new] at member
          exact Or.inr member
        · rw [if_neg new] at member
          exact Or.inl (Or.inl ⟨n, by omega, member⟩)
      · exact Or.inl (Or.inr var)
    · rintro ((⟨n, less, member⟩ | var) | new)
      · refine Or.inl ⟨n, by omega, ?_⟩
        rwa [if_neg (by omega)]
      · exact Or.inr var
      · refine Or.inl ⟨conf.items, by omega, ?_⟩
        rwa [if_pos rfl]
  · cases set

theorem stored_setVar (conf : Conf) (var : Define) (address : Int) :
    (conf.setVar var).Stored address ↔ conf.Stored address ∨ address ∈ var.pointers := by
  simp only [Conf.Stored, Conf.setVar]
  constructor
  · rintro (item | ⟨n, less, member⟩)
    · exact Or.inl (Or.inl item)
    · by_cases new : n = conf.keys
      · rw [if_pos new] at member
        exact Or.inr member
      · rw [if_neg new] at member
        exact Or.inl (Or.inr ⟨n, by omega, member⟩)
  · rintro ((item | ⟨n, less, member⟩) | new)
    · exact Or.inl item
    · refine Or.inr ⟨n, by omega, ?_⟩
      rwa [if_neg (by omega)]
    · refine Or.inr ⟨conf.keys, by omega, ?_⟩
      rwa [if_pos rfl]

theorem setItem_spec {conf : Conf} (room : conf.items < cmdSize) (item : MenuItem) :
    ∃ after, conf.setItem item = some after ∧ after.base = conf.base ∧ after.buf = conf.buf ∧
      after.len = conf.len ∧ after.peak = conf.peak ∧ after.items = conf.items + 1 ∧
      after.keys = conf.keys :=
  ⟨_, if_pos room, rfl, rfl, rfl, rfl, rfl, rfl⟩

theorem grows_setItem {conf after : Conf} {item : MenuItem}
    (set : conf.setItem item = some after) : Grows conf after := by
  have stored := stored_setItem set
  rw [Conf.setItem] at set
  split at set
  · cases set
    exact ⟨rfl, Nat.le_refl _, fun address before => (stored address).mpr (Or.inl before)⟩
  · cases set

theorem grows_setVar (conf : Conf) (var : Define) : Grows conf (conf.setVar var) :=
  ⟨rfl, Nat.le_refl _, fun address before => (stored_setVar conf var address).mpr (Or.inl before)⟩

/-- New pointers to strings with a terminator do not change what is known of the buffer. -/
theorem tracks_of_stored {heap : Heap} {conf after : Conf} {used : Nat} {pending : Option Nat}
    (tracks : Tracks heap conf used pending) {pointers : List Int}
    (ended : conf.AllEnded pointers) (base : after.base = conf.base) (buf : after.buf = conf.buf)
    (len : after.len = conf.len) (peak : after.peak = conf.peak) (items : after.items ≤ cmdSize)
    (stored : ∀ address, after.Stored address ↔ conf.Stored address ∨ address ∈ pointers) :
    Tracks heap after used pending := by
  have sameEnded : ∀ place, after.Ended place ↔ conf.Ended place := by
    intro place
    rw [Conf.Ended, Conf.Ended, buf, len]
  refine ⟨base.trans tracks.base, len.trans tracks.len, peak ▸ tracks.peak, items, ?_,
    (sameEnded 0).mpr tracks.null, ?_, ?_⟩
  · rw [buf, len]
    exact tracks.rest
  · intro address isStored
    rw [base]
    simp only [sameEnded]
    rcases (stored address).mp isStored with old | new
    · exact tracks.stored address old
    · obtain ⟨place, same, found⟩ := ended address new
      exact ⟨place, same, Or.inl found⟩
  · intro place isPending
    obtain ⟨next, same, isStored⟩ := tracks.last place isPending
    rw [len, buf, base]
    exact ⟨next, same, (stored _).mpr (Or.inl isStored)⟩

theorem bad_of_stored {conf after : Conf} {pointers : List Int}
    (outside : ∃ place : Nat, bufSize ≤ place ∧ conf.base + place ∈ pointers)
    (base : after.base = conf.base)
    (stored : ∀ address, after.Stored address ↔ conf.Stored address ∨ address ∈ pointers) :
    after.Bad := by
  obtain ⟨place, beyond, member⟩ := outside
  refine Or.inr ⟨place, beyond, ?_⟩
  rw [base]
  exact (stored _).mpr (Or.inr member)

/-! ## Steps of the compilation -/

/-- A step adds pieces, items and keys; when there is no room for them, it writes outside or
leaves a bad configuration. -/
structure Meets (heap : Heap) (step : Conf → Option Conf) (pieces : Nat → List Piece) (items : Nat)
    (keys : Nat → Nat) : Prop where
  grows : ∀ conf after, step conf = some after → Grows conf after
  good : ∀ conf used pending, Tracks heap conf used pending → conf.items + items ≤ cmdSize →
    Fits used (pieces conf.keys) → ∃ after, step conf = some after ∧
      Tracks heap after (used + totalSize (pieces conf.keys))
        (unfinished used pending (pieces conf.keys)) ∧
      after.items = conf.items + items ∧ after.keys = keys conf.keys
  bad : ∀ conf used pending, Tracks heap conf used pending →
    ¬(conf.items + items ≤ cmdSize ∧ Fits used (pieces conf.keys)) →
      ∀ after, step conf = some after → after.Bad

section Steps

variable {heap : Heap}

theorem meets_bind {first second : Conf → Option Conf} {pieces pieces' : Nat → List Piece}
    {items items' : Nat} {keys keys' : Nat → Nat} (left : Meets heap first pieces items keys)
    (right : Meets heap second pieces' items' keys') :
    Meets heap (fun conf => (first conf).bind second)
      (fun count => pieces count ++ pieces' (keys count)) (items + items')
      (fun count => keys' (keys count)) where
  grows := by
    intro conf after both
    obtain ⟨middle, one, two⟩ := Option.bind_eq_some_iff.mp both
    exact (left.grows conf middle one).trans (right.grows middle after two)
  good := by
    intro conf used pending tracks room fits
    rw [fits_append] at fits
    obtain ⟨middle, one, middleTracks, middleItems, middleKeys⟩ :=
      left.good conf used pending tracks (by omega) fits.1
    obtain ⟨after, two, afterTracks, afterItems, afterKeys⟩ :=
      right.good middle _ _ middleTracks (by omega) (by rw [middleKeys]; exact fits.2)
    refine ⟨after, Option.bind_eq_some_iff.mpr ⟨middle, one, two⟩, ?_, by omega, ?_⟩
    · rw [totalSize_append, ← Nat.add_assoc, unfinished_append, ← middleKeys]
      exact afterTracks
    · rw [afterKeys, middleKeys]
  bad := by
    intro conf used pending tracks outside after both
    obtain ⟨middle, one, two⟩ := Option.bind_eq_some_iff.mp both
    by_cases firstRoom : conf.items + items ≤ cmdSize ∧ Fits used (pieces conf.keys)
    · obtain ⟨other, same, middleTracks, middleItems, middleKeys⟩ :=
        left.good conf used pending tracks firstRoom.1 firstRoom.2
      rw [one, Option.some.injEq] at same
      subst same
      apply right.bad middle _ _ middleTracks _ after two
      rintro ⟨room, fits⟩
      rw [middleKeys] at fits
      exact outside ⟨by omega, (fits_append ..).mpr ⟨firstRoom.2, fits⟩⟩
    · exact (right.grows middle after two).bad
        (left.bad conf used pending tracks firstRoom middle one)

theorem meets_nothing : Meets heap some (fun _ => []) 0 id where
  grows := by
    intro conf after same
    cases same
    exact Grows.refl conf
  good := fun conf _ _ tracks _ _ => ⟨conf, rfl, tracks, rfl, rfl⟩
  bad := fun _ _ _ tracks outside => absurd ⟨tracks.items, trivial⟩ outside

/-- Names, and then an item that points to them and to the beginning of the buffer. -/
theorem meets_item {step : Conf → Option Conf} {strs : List CString}
    {item : Conf → List Int → MenuItem}
    (steps : ∀ conf, step conf = (addNames conf strs).bind fun added =>
      added.2.setItem (item conf added.1))
    (pointers : ∀ conf addresses, addresses.length = strs.length →
      ∀ address, address ∈ (item conf addresses).pointers →
        address ∈ addresses ∨ address = conf.base)
    (all : ∀ conf addresses, addresses.length = strs.length →
      ∀ address ∈ addresses, address ∈ (item conf addresses).pointers) :
    Meets heap step (fun _ => strs.map .name) 1 id where
  grows := by
    intro conf after both
    rw [steps] at both
    obtain ⟨⟨addresses, middle⟩, added, set⟩ := Option.bind_eq_some_iff.mp both
    exact (grows_addNames added).trans (grows_setItem set)
  good := by
    intro conf used pending tracks room fits
    obtain ⟨addresses, middle, added, appended, middleTracks, length, ended, -⟩ :=
      tracks_addNames tracks strs
    have less : middle.items < cmdSize := by
      rw [appended.items]
      omega
    have good : middle.AllEnded (item conf addresses).pointers := by
      intro address member
      rcases pointers conf addresses length address member with new | null
      · exact ended fits address new
      · exact ⟨0, by rw [null, appended.base, Nat.cast_zero, add_zero], middleTracks.null⟩
    obtain ⟨after, set, base, buf, len, peak, items, keys⟩ :=
      setItem_spec less (item conf addresses)
    refine ⟨after, ?_, ?_, ?_, ?_⟩
    · rw [steps, added, Option.bind_some, set]
    · exact tracks_of_stored middleTracks good base buf len peak (by omega) (stored_setItem set)
    · rw [items, appended.items]
    · rw [keys, appended.keys]
      rfl
  bad := by
    intro conf used pending tracks outside after both
    rw [steps] at both
    obtain ⟨addresses, middle, added, appended, middleTracks, length, -, beyond⟩ :=
      tracks_addNames tracks strs
    rw [added, Option.bind_some] at both
    have stored := stored_setItem both
    have fits : ¬Fits used (strs.map .name) := by
      intro fits
      apply outside
      refine ⟨?_, fits⟩
      rw [Conf.setItem] at both
      split at both
      · rename_i room
        rw [appended.items] at room
        exact room
      · cases both
    obtain ⟨place, far, member⟩ := beyond fits
    rw [← appended.base] at member
    exact bad_of_stored ⟨place, far, all conf addresses length _ member⟩
      (grows_setItem both).base stored

theorem meets_addItem (menu : MenuLine) :
    Meets heap (addItem · menu) (fun _ => (itemNames menu).map .name) 1 id := by
  unfold itemNames
  split
  · rename_i first
    refine @meets_item heap _ _ (fun conf addresses =>
      ⟨sysconfEval conf (menu.arg 0), sysconfEval conf (menu.arg 1), sysconfEval conf (menu.arg 2),
        addresses.getD 0 0, addresses.getD 1 0, addresses.getD 0 0, addresses.getD 2 0⟩) ?_ ?_ ?_
    · intro conf
      simp only [addItem, first, addNames, Option.bind_eq_bind, Option.bind_assoc,
        Option.bind_map, Option.map_some, Option.bind_some, Function.comp_def]
      rfl
    · intro conf addresses length address
      obtain ⟨name, desc, func, rfl⟩ := List.length_eq_three.mp length
      simp only [MenuItem.pointers, List.getD_cons_zero, List.getD_cons_succ, List.mem_cons,
        List.not_mem_nil, or_false]
      tauto
    · intro conf addresses length address
      obtain ⟨name, desc, func, rfl⟩ := List.length_eq_three.mp length
      simp only [MenuItem.pointers, List.getD_cons_zero, List.getD_cons_succ, List.mem_cons,
        List.not_mem_nil, or_false]
      tauto
  · rename_i first
    refine @meets_item heap _ _ (fun conf addresses =>
      ⟨sysconfEval conf (menu.arg 0), sysconfEval conf (menu.arg 1), sysconfEval conf (menu.arg 2),
        addresses.getD 0 0, addresses.getD 1 0, addresses.getD 3 0, addresses.getD 2 0⟩) ?_ ?_ ?_
    · intro conf
      simp only [addItem, first, addNames, Option.bind_eq_bind, Option.bind_assoc,
        Option.bind_map, Option.map_some, Option.bind_some, Function.comp_def]
      rfl
    · intro conf addresses length address
      obtain ⟨name, desc, func, arg, rfl⟩ := List.length_eq_four.mp length
      simp only [MenuItem.pointers, List.getD_cons_zero, List.getD_cons_succ, List.mem_cons,
        List.not_mem_nil, or_false]
      tauto
    · intro conf addresses length address
      obtain ⟨name, desc, func, arg, rfl⟩ := List.length_eq_four.mp length
      simp only [MenuItem.pointers, List.getD_cons_zero, List.getD_cons_succ, List.mem_cons,
        List.not_mem_nil, or_false]
      tauto
  · rename_i notRun notMenu
    refine @meets_item heap _ _ (fun conf addresses =>
      ⟨sysconfEval conf (menu.arg 0), sysconfEval conf (menu.arg 1), -2,
        addresses.getD 0 0, addresses.getD 1 0, conf.base, conf.base⟩) ?_ ?_ ?_
    · intro conf
      simp only [addItem, addNames, Option.bind_eq_bind, Option.bind_assoc,
        Option.bind_map, Option.map_some, Option.bind_some, Function.comp_def]
      cases one : addstr conf menu.cmd with
      | none => rfl
      | some added =>
        cases two : addstr added.2 (menu.arg 2) with
        | none => simp [two]
        | some more =>
          have base : more.2.base = conf.base :=
            (grows_addstr two).base.trans (grows_addstr one).base
          simp [two, base]
    · intro conf addresses length address
      obtain ⟨name, desc, rfl⟩ := List.length_eq_two.mp length
      simp only [MenuItem.pointers, List.getD_cons_zero, List.getD_cons_succ, List.mem_cons,
        List.not_mem_nil, or_false]
      tauto
    · intro conf addresses length address
      obtain ⟨name, desc, rfl⟩ := List.length_eq_two.mp length
      simp only [MenuItem.pointers, List.getD_cons_zero, List.getD_cons_succ, List.mem_cons,
        List.not_mem_nil, or_false]
      tauto

theorem meets_closeMenu : Meets heap closeMenu (fun _ => []) 1 id := by
  refine @meets_item heap _ [] (fun conf _ => { conf.item conf.items with
    level := -1, name := conf.base, desc := conf.base, arg := conf.base, func := conf.base })
    ?_ ?_ ?_
  · intro conf
    rfl
  · intro conf addresses _ address member
    simp only [MenuItem.pointers, List.mem_cons, List.not_mem_nil, or_false] at member
    tauto
  · intro conf addresses length address member
    rw [List.length_eq_zero_iff.mp length] at member
    cases member

/-- The strings of a key, in the order in which they are added. -/
def keyNames (key : CString) (str : Option CString) : List CString :=
  str.toList ++ [key]

/-- A key with the pointers to its strings. -/
def keyDefine (conf : Conf) (str : Option CString) (val : Int32) (addresses : List Int) : Define :=
  match str with
  | none => ⟨addresses.getD 0 0, conf.base, val⟩
  | some _ => ⟨addresses.getD 1 0, addresses.getD 0 0, val⟩

theorem keyPieces_eq (keys : Nat) (key : CString) (str : Option CString) :
    keyPieces keys key str = if keys < keySize then (keyNames key str).map .name else [] := by
  cases str <;> rfl

theorem addkey_eq (conf : Conf) (key : CString) (str : Option CString) (val : Int32) :
    addkey conf key str val =
      if conf.keys < keySize then
        (addNames conf (keyNames key str)).map fun added =>
          added.2.setVar (keyDefine conf str val added.1)
      else some conf := by
  rw [addkey]
  split
  · cases str with
    | none =>
      simp only [keyNames, keyDefine, addNames, Option.toList_none, List.nil_append,
        Option.bind_eq_bind, Option.bind_some, Option.map_bind, Option.map_some,
        Function.comp_def]
      rfl
    | some str =>
      simp only [keyNames, keyDefine, addNames, Option.toList_some, List.singleton_append,
        Option.bind_eq_bind, Option.map_bind, Option.map_some, Function.comp_def]
      rfl
  · rfl

theorem keyDefine_pointers {conf : Conf} {key : CString} {str : Option CString} {val : Int32}
    {addresses : List Int} (length : addresses.length = (keyNames key str).length)
    (address : Int) :
    (address ∈ (keyDefine conf str val addresses).pointers →
      address ∈ addresses ∨ address = conf.base) ∧
    (address ∈ addresses → address ∈ (keyDefine conf str val addresses).pointers) := by
  cases str with
  | none =>
    match addresses, length with
    | [key], _ =>
      simp only [keyDefine, Define.pointers, List.getD_cons_zero, List.mem_cons,
        List.not_mem_nil, or_false]
      tauto
  | some str =>
    match addresses, length with
    | [str, key], _ =>
      simp only [keyDefine, Define.pointers, List.getD_cons_zero, List.getD_cons_succ,
        List.mem_cons, List.not_mem_nil, or_false]
      tauto

theorem meets_addkey (key : CString) (str : Option CString) (val : Conf → Int32) :
    Meets heap (fun conf => addkey conf key str (val conf)) (keyPieces · key str) 0 nextKeys where
  grows := by
    intro conf after added
    rw [addkey_eq] at added
    split at added
    · obtain ⟨⟨addresses, middle⟩, names, rfl⟩ := Option.map_eq_some_iff.mp added
      exact (grows_addNames names).trans (grows_setVar middle _)
    · cases added
      exact Grows.refl conf
  good := by
    intro conf used pending tracks _ fits
    simp only [keyPieces_eq, nextKeys, addkey_eq] at fits ⊢
    by_cases room : conf.keys < keySize
    · simp only [if_pos room] at fits ⊢
      obtain ⟨addresses, middle, added, appended, middleTracks, length, ended, -⟩ :=
        tracks_addNames tracks (keyNames key str)
      have good : middle.AllEnded (keyDefine conf str (val conf) addresses).pointers := by
        intro address member
        rcases (keyDefine_pointers length address).1 member with new | null
        · exact ended fits address new
        · exact ⟨0, by rw [null, appended.base, Nat.cast_zero, add_zero], middleTracks.null⟩
      refine ⟨middle.setVar (keyDefine conf str (val conf) addresses), ?_, ?_, ?_, ?_⟩
      · rw [added]
        rfl
      · exact tracks_of_stored middleTracks good rfl rfl rfl rfl middleTracks.items
          (stored_setVar middle _)
      · exact appended.items
      · exact congrArg Nat.succ appended.keys
    · simp only [if_neg room] at fits ⊢
      exact ⟨conf, rfl, tracks, rfl, rfl⟩
  bad := by
    intro conf used pending tracks outside after added
    simp only [keyPieces_eq, addkey_eq] at outside added
    by_cases room : conf.keys < keySize
    · simp only [if_pos room] at outside added
      obtain ⟨addresses, middle, names, appended, middleTracks, length, -, beyond⟩ :=
        tracks_addNames tracks (keyNames key str)
      rw [names, Option.map_some, Option.some.injEq] at added
      subst added
      obtain ⟨place, far, member⟩ := beyond fun fits => outside ⟨tracks.items, fits⟩
      rw [← appended.base] at member
      exact bad_of_stored ⟨place, far, (keyDefine_pointers length _).2 member⟩ rfl
        (stored_setVar middle _)
    · simp only [if_neg room] at outside
      exact absurd ⟨tracks.items, trivial⟩ outside

theorem meets_addItems (lines : List MenuLine) :
    Meets heap (lines.foldlM addItem ·)
      (fun _ => lines.flatMap fun menu => (itemNames menu).map .name) lines.length id := by
  induction lines with
  | nil => exact meets_nothing
  | cons menu lines ih =>
    have both := meets_bind (meets_addItem menu) ih
    rw [Nat.add_comm] at both
    exact both

theorem meets_addmenu (key : CString) (lines : List MenuLine) :
    Meets heap (addmenu · key lines) (Call.pieces · (.addmenu key lines)) (lines.length + 1)
      nextKeys := by
  have menu := meets_bind (meets_bind (meets_addkey key (some (lit ['m', 'e', 'n', 'u']))
    (Value.menu.eval ·)) (meets_addItems lines)) (@meets_closeMenu heap)
  simp only [List.append_nil, Nat.zero_add, Option.bind_assoc] at menu
  exact menu

theorem meets_loose (str : CString) :
    Meets heap (fun conf => (addstr conf str).map Prod.snd) (fun _ => [.loose str]) 0 id where
  grows := by
    intro conf after added
    obtain ⟨⟨address, result⟩, stored, rfl⟩ := Option.map_eq_some_iff.mp added
    exact grows_addstr stored
  good := by
    intro conf used pending tracks _ _
    obtain ⟨after, added, appended, afterTracks, -⟩ := tracks_addstr tracks str
    refine ⟨after, ?_, afterTracks, appended.items, appended.keys⟩
    rw [added]
    rfl
  bad := by
    intro conf used pending tracks outside
    exact absurd ⟨tracks.items, trivial, trivial⟩ outside

/-! ## Blocks -/

/-- The length of lines after they have been encoded. -/
def linesLength (lines : List CString) : Nat :=
  ((lines.map encodestr).map fun line => line.bytes.length).sum

theorem linesLength_cons (line : CString) (lines : List CString) :
    linesLength (line :: lines) = (encodestr line).bytes.length + linesLength lines := by
  rw [linesLength, List.map_cons, List.map_cons, List.sum_cons]
  rfl

theorem addLine_spec {conf after : Conf} {line : CString} (added : addLine conf line = some after) :
    Grows conf after ∧ after.len = conf.len + (encodestr line).bytes.length ∧
      after.len ≤ after.peak := by
  obtain ⟨copied, copy, rfl⟩ := Option.map_eq_some_iff.mp added
  have grows : Grows conf copied := by
    rw [Conf.strlcpy] at copy
    split at copy
    · cases copy
      exact ⟨rfl, Nat.le_refl _, fun _ => id⟩
    · split at copy
      · cases copy
        exact Grows.refl conf
      · cases copy
  refine ⟨⟨grows.base, ?_, grows.stored⟩, rfl, Nat.le_max_right ..⟩
  exact grows.peak.trans (Nat.le_max_left ..)

theorem addLines_spec {conf after : Conf} {lines : List CString}
    (added : lines.foldlM addLine conf = some after) :
    Grows conf after ∧ after.len = conf.len + linesLength lines := by
  induction lines generalizing conf with
  | nil =>
    cases added
    exact ⟨Grows.refl _, rfl⟩
  | cons line lines ih =>
    obtain ⟨middle, first, rest⟩ := Option.bind_eq_some_iff.mp added
    obtain ⟨grows, len, -⟩ := addLine_spec first
    obtain ⟨restGrows, restLen⟩ := ih rest
    refine ⟨grows.trans restGrows, ?_⟩
    rw [restLen, len, linesLength_cons, Nat.add_assoc]

theorem addLine_room {conf : Conf} {line : CString}
    (room : conf.len + (encodestr line).bytes.length < bufSize) :
    ∃ after, addLine conf line = some after ∧ after.base = conf.base ∧
      after.item = conf.item ∧ after.var = conf.var ∧ after.items = conf.items ∧
      after.keys = conf.keys ∧ after.len = conf.len + (encodestr line).bytes.length ∧
      after.peak = max conf.peak after.len ∧
      (∀ i, i < conf.len → after.buf i = conf.buf i) ∧
      (∀ i, after.len < i → after.buf i = conf.buf i) ∧ after.buf after.len = 0 := by
  have short : (encodestr line).bytes.take (bufSize - conf.len - 1) = (encodestr line).bytes :=
    List.take_of_length_le (by omega)
  rw [addLine, Conf.strlcpy, if_pos (by omega), short]
  refine ⟨_, rfl, rfl, rfl, rfl, rfl, rfl, rfl, rfl, ?_, ?_, ?_⟩
  · exact fun i below => write_below _ below
  · intro i above
    apply write_above
    rw [List.length_append, List.length_singleton]
    change conf.len + _ < i at above
    omega
  · exact write_last ..

theorem addLines_room {conf : Conf} {lines : List CString}
    (room : conf.len + linesLength lines < bufSize) :
    ∃ after, lines.foldlM addLine conf = some after ∧ after.base = conf.base ∧
      after.item = conf.item ∧ after.var = conf.var ∧ after.items = conf.items ∧
      after.keys = conf.keys ∧ after.len = conf.len + linesLength lines ∧
      after.peak ≤ max conf.peak after.len ∧
      (∀ i, i < conf.len → after.buf i = conf.buf i) ∧
      (∀ i, after.len < i → after.buf i = conf.buf i) ∧
      (lines = [] → after.buf after.len = conf.buf after.len) ∧
      (lines ≠ [] → after.buf after.len = 0) := by
  induction lines generalizing conf with
  | nil =>
    exact ⟨conf, rfl, rfl, rfl, rfl, rfl, rfl, rfl, Nat.le_max_left .., fun _ _ => rfl,
      fun _ _ => rfl, fun _ => rfl, fun nonempty => absurd rfl nonempty⟩
  | cons line lines ih =>
    rw [linesLength_cons] at room ⊢
    obtain ⟨middle, first, base, item, var, items, keys, len, peak, below, above, zero⟩ :=
      @addLine_room conf line (by omega)
    obtain ⟨after, rest, base', item', var', items', keys', len', peak', below', above', none',
      some'⟩ := @ih middle (by omega)
    refine ⟨after, ?_, base'.trans base, item'.trans item, var'.trans var, items'.trans items,
      keys'.trans keys, by omega, by omega, ?_, ?_, nofun, fun _ => ?_⟩
    · rw [List.foldlM_cons, first]
      exact rest
    · intro i inside
      rw [below' i (by omega), below i inside]
    · intro i beyond
      rw [above' i beyond, above i (by omega)]
    · by_cases empty : lines = []
      · have same : after.len = middle.len := by
          rw [len', empty]
          rfl
        rw [none' empty, same, zero]
      · exact some' empty

/-- The text of a block that ends within the buffer. -/
theorem block_spec {conf : Conf} {lines : List CString}
    (room : conf.len + linesLength lines < bufSize) :
    ∃ last, lines.foldlM addLine conf = some last ∧
      Appended conf (last.setLen (last.len + 1)) ∧ last.len = conf.len + linesLength lines ∧
      (lines = [] → (last.setLen (last.len + 1)).buf conf.len = conf.buf conf.len) ∧
      (lines ≠ [] → (last.setLen (last.len + 1)).Ended conf.len) := by
  obtain ⟨last, added, base, item, var, items, keys, len, peak, below, above, empty, zero⟩ :=
    addLines_room room
  refine ⟨last, added, ⟨base, item, var, items, keys, ?_, ?_, ?_, below, ?_⟩, len, ?_, ?_⟩
  · change conf.len ≤ last.len + 1
    omega
  · obtain ⟨grows, -⟩ := addLines_spec added
    exact grows.peak.trans (Nat.le_max_left ..)
  · change max last.peak (last.len + 1) ≤ max conf.peak (last.len + 1)
    omega
  · intro i beyond
    exact above i beyond
  · intro none
    have same : conf.len = last.len := by
      rw [len, none]
      rfl
    rw [same]
    exact empty none
  · intro some
    refine ⟨last.len, by omega, Nat.lt_succ_self _, zero some⟩

theorem addblock_eq (conf : Conf) (key : CString) (lines : List CString) :
    addblock conf key lines =
      if conf.keys < keySize then
        (addstr conf key).bind fun added =>
          (lines.foldlM addLine
            (added.2.setVar ⟨added.1, added.2.base + added.2.len, -1⟩)).map fun last =>
              last.setLen (last.len + 1)
      else some conf := by
  simp only [Option.map_eq_bind]
  rfl

theorem grows_setLen (conf : Conf) (len : Nat) : Grows conf (conf.setLen len) :=
  ⟨rfl, Nat.le_max_left .., fun _ => id⟩

theorem grows_addblock {conf after : Conf} {key : CString} {lines : List CString}
    (added : addblock conf key lines = some after) : Grows conf after := by
  rw [addblock_eq] at added
  split at added
  · obtain ⟨⟨address, first⟩, one, rest⟩ := Option.bind_eq_some_iff.mp added
    obtain ⟨last, two, rfl⟩ := Option.map_eq_some_iff.mp rest
    exact (((grows_addstr one).trans (grows_setVar ..)).trans (addLines_spec two).1).trans
      (grows_setLen ..)
  · cases added
    exact Grows.refl conf

section Block

-- The key has been added, and then the lines behind it.
variable {first last : Conf} {key : CString} {lines : List CString} {used : Nat}
  {pending : Option Nat} {name : Int}
  (keyed : Tracks heap first (used + (key.bytes.length + 1)) none)
  (firstLen : first.len = used + (key.bytes.length + 1))
  (block : Appended (first.setVar ⟨name, first.base + first.len, -1⟩) (last.setLen (last.len + 1)))
  (lastLen : last.len = first.len + linesLength lines)
include keyed firstLen block

/-- Only the pointer to the block itself may have no terminator. -/
theorem block_stored (nameEq : name = first.base + used) (keyEnded : first.Ended used)
    (ended : lines ≠ [] → (last.setLen (last.len + 1)).Ended first.len) {address : Int}
    (stored : (last.setLen (last.len + 1)).Stored address) :
    ∃ place : Nat, address = (last.setLen (last.len + 1)).base + place ∧
      ((last.setLen (last.len + 1)).Ended place ∨
        unfinished used pending [.name key, .block (lines.map encodestr)] = some place) := by
  have kept : ∀ place, first.Ended place → (last.setLen (last.len + 1)).Ended place :=
    fun place => block.ended
  rw [block.stored, stored_setVar] at stored
  rw [block.base]
  rcases stored with old | new
  · obtain ⟨place, same, found⟩ := keyed.stored address old
    exact ⟨place, same, Or.inl (kept place (found.resolve_right nofun))⟩
  · rcases List.mem_pair.mp new with rfl | rfl
    · exact ⟨used, nameEq, Or.inl (kept used keyEnded)⟩
    · refine ⟨first.len, rfl, ?_⟩
      cases lines with
      | nil =>
        right
        rw [firstLen]
        rfl
      | cons line lines =>
        left
        exact ended nofun

include lastLen in
/-- A block without lines ends where the memory has not been written. -/
theorem block_last
    (empty : lines = [] → (last.setLen (last.len + 1)).buf first.len = first.buf first.len)
    {place : Nat}
    (isPending : unfinished used pending [.name key, .block (lines.map encodestr)] = some place) :
    place + 1 = (last.setLen (last.len + 1)).len ∧
      (last.setLen (last.len + 1)).buf place = heap.buf place ∧
      (last.setLen (last.len + 1)).Stored ((last.setLen (last.len + 1)).base + place) := by
  cases lines with
  | nil =>
    cases isPending
    have next : last.len = first.len := lastLen
    refine ⟨?_, ?_, ?_⟩
    · change used + (key.bytes.length + 1) + 1 = last.len + 1
      omega
    · change (last.setLen (last.len + 1)).buf (used + (key.bytes.length + 1)) =
        heap.buf (used + (key.bytes.length + 1))
      rw [← firstLen, empty rfl]
      exact keyed.rest _ (Nat.le_refl _)
    · rw [block.stored, stored_setVar, block.base]
      right
      refine List.mem_pair.mpr (Or.inr ?_)
      change first.base + ((used + (key.bytes.length + 1) : Nat) : Int) = _
      rw [← firstLen]
  | cons line lines => cases isPending

include lastLen in
theorem tracks_block
    (blockRoom : used + (key.bytes.length + 1) + (linesLength lines + 1) ≤ bufSize)
    (nameEq : name = first.base + used) (keyEnded : first.Ended used)
    (empty : lines = [] → (last.setLen (last.len + 1)).buf first.len = first.buf first.len)
    (ended : lines ≠ [] → (last.setLen (last.len + 1)).Ended first.len) :
    Tracks heap (last.setLen (last.len + 1))
      (used + totalSize [.name key, .block (lines.map encodestr)])
      (unfinished used pending [.name key, .block (lines.map encodestr)]) where
  base := block.base.trans keyed.base
  len := by
    have size : used + totalSize [.name key, .block (lines.map encodestr)] = last.len + 1 := by
      rw [totalSize_cons, totalSize_cons]
      change used + ((key.bytes.length + 1) + ((linesLength lines + 1) + 0)) = _
      omega
    have inside : last.len + 1 ≤ bufSize := by omega
    rw [size, Nat.min_eq_left inside]
    rfl
  peak := by
    have peak := keyed.peak
    have newPeak := block.peak_le
    change _ ≤ max first.peak (last.len + 1) at newPeak
    omega
  items := block.items ▸ keyed.items
  rest := by
    intro i beyond
    rw [block.above i beyond]
    change last.len + 1 ≤ i at beyond
    exact keyed.rest i (by omega)
  null := block.ended keyed.null
  stored := fun _ => block_stored keyed firstLen block nameEq keyEnded ended
  last := fun _ => block_last keyed firstLen block lastLen empty

end Block

theorem meets_addblock (key : CString) (lines : List CString) :
    Meets heap (addblock · key lines) (Call.pieces · (.addblock key lines)) 0 nextKeys where
  grows := fun _ _ => grows_addblock
  good := by
    intro conf used pending tracks _ fits
    simp only [addblock_eq, Call.pieces, nextKeys] at fits ⊢
    by_cases keyRoom : conf.keys < keySize
    · simp only [if_pos keyRoom] at fits ⊢
      obtain ⟨room, blockRoom, -⟩ := fits
      change used < bufSize at room
      change used + (key.bytes.length + 1) + (linesLength lines + 1) ≤ bufSize at blockRoom
      obtain ⟨first, added, appended, keyed, keyEnded⟩ := tracks_addstr tracks key
      rw [if_pos room] at keyed
      rw [Nat.min_eq_left (Nat.le_of_lt room)] at added
      have firstLen : first.len = used + (key.bytes.length + 1) := by
        rw [keyed.len]
        omega
      obtain ⟨last, lineAdded, block, lastLen, empty, ended⟩ := @block_spec
        (first.setVar ⟨conf.base + used, first.base + first.len, -1⟩) lines (by
          change first.len + _ < _
          omega)
      refine ⟨last.setLen (last.len + 1), ?_, ?_, ?_, ?_⟩
      · rw [added, Option.bind_some, lineAdded]
        rfl
      · exact tracks_block keyed firstLen block lastLen blockRoom
          (by rw [appended.base]) (keyEnded room) empty ended
      · exact block.items.trans appended.items
      · exact block.keys.trans (congrArg Nat.succ appended.keys)
    · simp only [if_neg keyRoom] at fits ⊢
      exact ⟨conf, rfl, tracks, rfl, rfl⟩
  bad := by
    intro conf used pending tracks outside after added
    simp only [addblock_eq, Call.pieces] at outside added
    by_cases keyRoom : conf.keys < keySize
    · simp only [if_pos keyRoom] at outside added
      obtain ⟨first, keyAdded, appended, firstTracks, -⟩ := tracks_addstr tracks key
      rw [keyAdded, Option.bind_some] at added
      obtain ⟨last, lineAdded, rfl⟩ := Option.map_eq_some_iff.mp added
      obtain ⟨grows, len⟩ := addLines_spec lineAdded
      have firstLen := firstTracks.len
      by_cases room : used < bufSize
      · left
        have long : ¬used + (key.bytes.length + 1) + (linesLength lines + 1) ≤ bufSize :=
          fun blockRoom => outside ⟨tracks.items, room, blockRoom, trivial⟩
        have lastLen : last.len = first.len + linesLength lines := len
        exact Nat.lt_of_lt_of_le (by omega) (Nat.le_max_right _ (last.len + 1))
      · apply (grows.trans (grows_setLen ..)).bad
        refine Or.inr ⟨bufSize, Nat.le_refl _, ?_⟩
        rw [stored_setVar]
        right
        refine List.mem_pair.mpr (Or.inl ?_)
        change first.base + _ = _
        rw [appended.base, Nat.min_eq_right (by omega)]
    · simp only [if_neg keyRoom] at outside
      exact absurd ⟨tracks.items, trivial⟩ outside

theorem meets_call (call : Call) :
    Meets heap (Conf.call · call) (Call.pieces · call) call.items (Call.keys · call) := by
  cases call with
  | addstr str => exact meets_loose str
  | addkey key str val => exact meets_addkey key str (val.eval ·)
  | addmenu key lines => exact meets_addmenu key lines
  | addblock key lines => exact meets_addblock key lines
  | parse fname => exact meets_nothing

theorem meets_calls (calls : List Call) :
    Meets heap (calls.foldlM Conf.call ·) (callPieces · calls) (itemCount calls)
      (calls.foldl Call.keys ·) := by
  induction calls with
  | nil => exact meets_nothing
  | cons call calls ih => exact meets_bind (meets_call call) ih

end Steps

end Sysconf

end Fbbs
