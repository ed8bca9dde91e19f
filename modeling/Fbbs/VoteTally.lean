import Fbbs.BallotFile
import Fbbs.RangeParts
import Fbbs.RecordEdits
import Mathlib.Algebra.Group.Action.Defs

/-!
# Counting the ballots of a vote

`count_result` and `mk_result` of `src/vote.c`.  The value of a ballot of a numeric vote is counted
in the line that a division gives, and the limits of the line that are printed come from another
division.  The settings at the time of counting need not be those that the ballots were cast under.
-/

namespace Fbbs

namespace VoteTally

open BallotFile (Ballot)
open RangeParts (lower upper)
open RecordEdits (recordCount recordCount_of_lt)
open RecordScan (isInt isInt_ofNat)

inductive VoteType
  | yn
  | single
  | multi
  | value
  | asking

/-- What is read of `struct votebal`. -/
structure Votebal where
  type : VoteType
  items : List CString
  items_le : items.length ≤ 32
  maxtkt : Int

/-- The array `result`: the sum of the values is at 31, and the number of the ballots at 32. -/
abbrev Result := Fin 33 → UInt32

/-- The suggestions that have been written so far, and the array. -/
structure Tally where
  sug : List (CString × List CString)
  result : Result

def add (result : Result) (i : Fin 33) (count : UInt32) : Result :=
  Function.update result i (result i + count)

/-- The place of a value in `result`: `maxtkt + 1` is an `int`, and all else is unsigned.  An
overflow, a division by zero and a place outside of the array are `none`. -/
def valueIndex (maxtkt : Int) (voted : UInt32) : Option (Fin 33) :=
  if isInt (maxtkt + 1) ∧ UInt32.ofInt (maxtkt + 1) ≠ 0 then
    if inside : (voted * 10 / UInt32.ofInt (maxtkt + 1)).toNat < 33 then
      some ⟨(voted * 10 / UInt32.ofInt (maxtkt + 1)).toNat, inside⟩
    else none
  else none

def countItems (result : Result) (voted : UInt32) : Result :=
  (List.finRange 32).foldl
    (fun result (i : Fin 32) => if voted.toNat.testBit i then add result i.castSucc 1 else result) result

def countVoted (vote : Votebal) (result : Result) (voted : UInt32) : Option Result :=
  match vote.type with
  | .asking => some result
  | .value => (valueIndex vote.maxtkt voted).map fun i => add (add result 31 voted) i 1
  | _ => some (countItems result voted)

def countResult (vote : Votebal) (tally : Tally) (ballot : Ballot) : Option Tally :=
  (countVoted vote (add tally.result 32 1) ballot.voted).map fun result =>
    { sug :=
        if (ballot.msg.headD .empty).bytes ≠ [] then tally.sug ++ [(ballot.uid, ballot.msg)]
        else tally.sug
      result }

/-- `apply_record` with `count_result`, from an array of zeros. -/
def countAll (vote : Votebal) (ballots : List Ballot) : Option Tally :=
  (ballots.take (recordCount ballots.length)).foldlM (countResult vote) ⟨[], fun _ => 0⟩

/-- What `%d` prints of an unsigned number. -/
def printed (n : UInt32) : Int :=
  if n.toNat < 2 ^ 31 then n.toNat else n.toNat - 2 ^ 32

def nonzero (total : UInt32) : UInt32 :=
  if total = 0 then 1 else total

inductive Line
  | range (low high count percent : Int)
  | item (letter : Nat) (text : CString) (count percent : Int)

structure Report where
  sug : List (CString × List CString)
  lines : List Line
  average : Option Int
  voters : Int
  total : Int

def rangeLine (maxtkt : Int) (result : Result) (total : UInt32) (i : Nat) (inside : i < 33) : Line :=
  .range ((i * maxtkt).tdiv 10 + if i = 0 then 0 else 1) (((i + 1) * maxtkt).tdiv 10)
    (printed (result ⟨i, inside⟩)) (printed (result ⟨i, inside⟩ * 100 / nonzero total))

/-- The lines of a numeric vote, unless a limit overflows. -/
def rangeLines (maxtkt : Int) (result : Result) (total : UInt32) : Option (List Line) :=
  if ∀ i < 10, isInt ((i + 1 : Nat) * maxtkt) then
    some ((List.finRange 10).map fun i : Fin 10 => rangeLine maxtkt result total i (by omega))
  else none

section Items

variable (vote : Votebal) (result : Result)

def itemResult (i : Fin vote.items.length) : UInt32 :=
  result ⟨i, by have := vote.items_le; omega⟩

def itemTotal : UInt32 :=
  (List.finRange vote.items.length).foldl (fun total i => total + itemResult vote result i) 0

def itemLines : List Line :=
  (List.finRange vote.items.length).map fun i : Fin vote.items.length =>
    .item (65 + i) vote.items[i] (printed (itemResult vote result i))
      (printed (itemResult vote result i * 100 / nonzero (itemTotal vote result)))

end Items

/-- `mk_result` after the ballots have been counted. -/
def report (vote : Votebal) (tally : Tally) : Option Report :=
  match vote.type with
  | .value =>
    (rangeLines vote.maxtkt tally.result (tally.result 32)).map fun lines =>
      { sug := tally.sug
        lines
        average := some (printed (tally.result 31 / nonzero (tally.result 32)))
        voters := printed (tally.result 32)
        total := printed (tally.result 32) }
  | .asking =>
    some
      { sug := tally.sug
        lines := []
        average := none
        voters := printed (tally.result 32)
        total := printed (tally.result 32) }
  | _ =>
    some
      { sug := tally.sug
        lines := itemLines vote tally.result
        average := none
        voters := printed (tally.result 32)
        total := printed (itemTotal vote tally.result) }

def mkResult (vote : Votebal) (ballots : List Ballot) : Option Report :=
  (countAll vote ballots).bind (report vote)

/-! ## What is to be printed -/

/-- A numeric vote with ballots that are not above its maximum. -/
structure NumericVote where
  items : List CString
  items_le : items.length ≤ 32
  max : Nat
  max_pos : 1 ≤ max
  ballots : List Ballot
  within : ∀ ballot ∈ ballots, ballot.voted.toNat ≤ max

def NumericVote.votebal (vote : NumericVote) : Votebal where
  type := .value
  items := vote.items
  items_le := vote.items_le
  maxtkt := vote.max

/-- The value is between the limits of a line. -/
def Between (max i : Nat) (ballot : Ballot) : Prop :=
  lower 10 max i ≤ ballot.voted.toNat ∧ ballot.voted.toNat ≤ upper 10 max i

instance (max i : Nat) : DecidablePred (Between max i) := fun _ =>
  inferInstanceAs (Decidable (_ ∧ _))

/-- Each line has the number of the ballots that are between its limits, and each ballot is between
the limits of one line. -/
structure Tallied (vote : NumericVote) (report : Report) : Prop where
  length : report.lines.length = 10
  lines : ∀ i < 10, ∃ percent, report.lines[i]? =
    some (.range (lower 10 vote.max i) (upper 10 vote.max i)
      (vote.ballots.countP fun ballot => Between vote.max i ballot) percent)
  once : ∀ ballot ∈ vote.ballots, ∃! i, i < 10 ∧ Between vote.max i ballot
  average : report.average = some
    ((((vote.ballots.map fun ballot => ballot.voted.toNat).sum / vote.ballots.length : Nat)) : Int)
  voters : report.voters = vote.ballots.length

def TalliesWell (vote : NumericVote) : Prop :=
  ∃ report, mkResult vote.votebal vote.ballots = some report ∧ Tallied vote report

/-- No place outside of `result` is used for counting. -/
def StaysInside (vote : Votebal) (ballots : List Ballot) : Prop :=
  (countAll vote ballots).isSome

/-- Nothing overflows, and no value is between a multiple of the maximum and that of the number
behind it, in tenths. -/
structure Countable (vote : NumericVote) : Prop where
  limits : 10 * vote.max < 2 ^ 31
  count : vote.ballots.length < 2 ^ 31
  sum : (vote.ballots.map fun ballot => ballot.voted.toNat).sum < 2 ^ 32
  values : ∀ ballot ∈ vote.ballots, ∀ j, 0 < j → j < 10 →
    ¬(j * vote.max < ballot.voted.toNat * 10 ∧ ballot.voted.toNat * 10 < j * (vote.max + 1))

/-- The value is small enough for the settings. -/
def Suffices (vote : Votebal) (ballot : Ballot) : Prop :=
  match vote.type with
  | .value =>
    isInt (vote.maxtkt + 1) ∧
      ballot.voted.toNat * 10 % 2 ^ 32 < 33 * ((vote.maxtkt + 1) % 2 ^ 32).toNat
  | _ => True

def Limited (vote : Votebal) (ballots : List Ballot) : Prop :=
  ∀ ballot ∈ ballots.take (recordCount ballots.length), Suffices vote ballot

/-! ## Places in the array -/

theorem toNat_ofInt (n : Int) : (UInt32.ofInt n).toNat = (n % 2 ^ 32).toNat := by
  rw [UInt32.ofInt, UInt32.toNat_ofNat']
  omega

theorem isSome_valueIndex (maxtkt : Int) (voted : UInt32) :
    (valueIndex maxtkt voted).isSome ↔
      isInt (maxtkt + 1) ∧ voted.toNat * 10 % 2 ^ 32 < 33 * ((maxtkt + 1) % 2 ^ 32).toNat := by
  have nonzero : UInt32.ofInt (maxtkt + 1) ≠ 0 ↔ 0 < ((maxtkt + 1) % 2 ^ 32).toNat := by
    rw [← toNat_ofInt, Nat.pos_iff_ne_zero, ne_eq, ne_eq, ← UInt32.toNat_inj]
    rfl
  have index : (voted * 10 / UInt32.ofInt (maxtkt + 1)).toNat =
      voted.toNat * 10 % 2 ^ 32 / ((maxtkt + 1) % 2 ^ 32).toNat := by
    rw [UInt32.toNat_div, UInt32.toNat_mul, toNat_ofInt]
    rfl
  rw [valueIndex]
  by_cases used : isInt (maxtkt + 1) = true ∧ UInt32.ofInt (maxtkt + 1) ≠ 0
  · rw [if_pos used, and_iff_right used.1, ← Nat.div_lt_iff_lt_mul (nonzero.mp used.2), ← index]
    split
    next inside => exact iff_of_true rfl inside
    next outside => exact iff_of_false (by decide) outside
  · rw [if_neg used]
    apply iff_of_false (by decide)
    rintro ⟨int, small⟩
    apply used
    use int
    rw [nonzero]
    omega

/-- The place of a value that is not above the maximum. -/
theorem valueIndex_eq {max : Nat} {voted : UInt32} (within : voted.toNat ≤ max)
    (limits : 10 * max < 2 ^ 31) :
    valueIndex max voted = some
      ⟨RangeParts.index 10 max voted.toNat,
        Nat.lt_trans (RangeParts.index_lt within (by decide)) (by decide)⟩ := by
  have int : isInt ((max : Int) + 1) = true := by
    rw [← Int.natCast_succ, isInt_ofNat, decide_eq_true (by omega)]
  have divisor : (UInt32.ofInt ((max : Int) + 1)).toNat = max + 1 := by
    rw [toNat_ofInt]
    omega
  have used : UInt32.ofInt ((max : Int) + 1) ≠ 0 := by
    intro zero
    rw [zero] at divisor
    cases divisor
  have index : (voted * 10 / UInt32.ofInt ((max : Int) + 1)).toNat =
      RangeParts.index 10 max voted.toNat := by
    have product : (voted * 10).toNat = voted.toNat * 10 := by
      have ten : (10 : UInt32).toNat = 10 := rfl
      rw [UInt32.toNat_mul, ten]
      exact Nat.mod_eq_of_lt (by omega)
    rw [UInt32.toNat_div, divisor, product, RangeParts.index]
  have inside : (voted * 10 / UInt32.ofInt ((max : Int) + 1)).toNat < 33 := by
    rw [index]
    exact Nat.lt_trans (RangeParts.index_lt within (by decide)) (by decide)
  rw [valueIndex, if_pos ⟨int, used⟩, dif_pos inside]
  apply congrArg some
  apply Fin.ext
  exact index

/-! ## Staying inside of the array -/

theorem isSome_countResult (vote : Votebal) (tally : Tally) (ballot : Ballot) :
    (countResult vote tally ballot).isSome ↔ Suffices vote ballot := by
  rw [countResult, Option.isSome_map, countVoted, Suffices]
  cases vote.type with
  | value =>
    simp only [Option.isSome_map]
    exact isSome_valueIndex vote.maxtkt ballot.voted
  | yn => exact iff_of_true rfl trivial
  | single => exact iff_of_true rfl trivial
  | multi => exact iff_of_true rfl trivial
  | asking => exact iff_of_true rfl trivial

theorem isSome_foldlM_countResult (vote : Votebal) (ballots : List Ballot) (tally : Tally) :
    (ballots.foldlM (countResult vote) tally).isSome ↔
      ∀ ballot ∈ ballots, Suffices vote ballot := by
  induction ballots generalizing tally with
  | nil => exact iff_of_true rfl fun _ member => nomatch member
  | cons ballot ballots ih =>
    rw [List.foldlM_cons, List.forall_mem_cons, ← isSome_countResult vote tally ballot]
    cases countResult vote tally ballot with
    | none => exact iff_of_false nofun fun condition => nomatch condition.1
    | some next => exact (ih next).trans (and_iff_right rfl).symm

/-- Which settings are enough for a file of ballots. -/
theorem staysInside_iff (vote : Votebal) (ballots : List Ballot) :
    StaysInside vote ballots ↔ Limited vote ballots :=
  isSome_foldlM_countResult vote _ _

/-! ## The lines of a numeric vote -/

/-- How often a place of the array is counted up for some ballots, where `31` is the sum. -/
def contribution (max : Nat) (ballots : List Ballot) (i : Fin 33) : Nat :=
  (if i = 32 then ballots.length else 0) +
    (if i = 31 then (ballots.map fun ballot => ballot.voted.toNat).sum else 0) +
    (ballots.map fun ballot => RangeParts.index 10 max ballot.voted.toNat).count (i : Nat)

theorem add_apply (result : Result) (i j : Fin 33) (count : UInt32) :
    add result i count j = result j + if j = i then count else 0 := by
  rw [add, Function.update_apply]
  split
  next same => rw [same]
  next => exact (UInt32.add_zero _).symm

theorem contribution_cons (max : Nat) (ballot : Ballot) (ballots : List Ballot) (i : Fin 33) :
    contribution max (ballot :: ballots) i =
      (if i = 32 then 1 else 0) + (if i = 31 then ballot.voted.toNat else 0) +
        (if (i : Nat) = RangeParts.index 10 max ballot.voted.toNat then 1 else 0) +
        contribution max ballots i := by
  rw [contribution, contribution, List.length_cons, List.map_cons, List.sum_cons, List.map_cons,
    List.count_cons]
  have same : (RangeParts.index 10 max ballot.voted.toNat == (i : Nat)) = true ↔
      (i : Nat) = RangeParts.index 10 max ballot.voted.toNat := by
    rw [beq_iff_eq, eq_comm]
  rw [if_congr same rfl rfl]
  split_ifs <;> omega

/-- The array after one ballot has been counted. -/
theorem countVoted_eq {vote : NumericVote} (limits : 10 * vote.max < 2 ^ 31) {voted : UInt32}
    (within : voted.toNat ≤ vote.max) (result : Result) :
    countVoted vote.votebal (add result 32 1) voted = some fun i =>
      result i + (if i = 32 then 1 else 0) + (if i = 31 then voted else 0) +
        (if (i : Nat) = RangeParts.index 10 vote.max voted.toNat then 1 else 0) := by
  have counted : countVoted vote.votebal (add result 32 1) voted =
      (valueIndex vote.max voted).map fun i => add (add (add result 32 1) 31 voted) i 1 := rfl
  rw [counted, valueIndex_eq within limits, Option.map_some]
  apply congrArg some
  funext i
  rw [add_apply, add_apply, add_apply]
  congr 2
  exact propext Fin.ext_iff

/-- The array after some ballots have been counted. -/
theorem foldlM_countResult {vote : NumericVote} (limits : 10 * vote.max < 2 ^ 31)
    {ballots : List Ballot} (within : ∀ ballot ∈ ballots, ballot.voted.toNat ≤ vote.max)
    (tally : Tally) :
    ∃ sug, ballots.foldlM (countResult vote.votebal) tally =
      some ⟨sug, fun i => tally.result i + UInt32.ofNat (contribution vote.max ballots i)⟩ := by
  induction ballots generalizing tally with
  | nil =>
    use tally.sug
    rw [List.foldlM_nil]
    apply congrArg some
    apply congrArg (Tally.mk tally.sug)
    funext i
    have nothing : contribution vote.max [] i = 0 := by
      simp only [contribution, List.length_nil, List.map_nil, List.sum_nil, List.count_nil,
        ite_self, Nat.add_zero]
    rw [nothing]
    exact (UInt32.add_zero _).symm
  | cons ballot ballots ih =>
    obtain ⟨first, later⟩ := List.forall_mem_cons.mp within
    rw [List.foldlM_cons, countResult, countVoted_eq limits first, Option.map_some]
    obtain ⟨sug, counted⟩ := ih later _
    use sug
    apply counted.trans
    apply congrArg some
    apply congrArg (Tally.mk sug)
    funext i
    rw [contribution_cons, UInt32.ofNat_add, UInt32.ofNat_add, UInt32.ofNat_add,
      apply_ite UInt32.ofNat, apply_ite UInt32.ofNat, apply_ite UInt32.ofNat,
      UInt32.ofNat_toNat, ← UInt32.add_assoc, ← UInt32.add_assoc, ← UInt32.add_assoc]
    rfl

/-! ## What is printed -/

theorem printed_lt (n : UInt32) : printed n < 2 ^ 31 := by
  have := n.toNat_lt
  rw [printed]
  split <;> omega

theorem printed_eq {n : UInt32} {count : Nat} (same : n.toNat = count) (small : count < 2 ^ 31) :
    printed n = count := by
  rw [printed, same, if_pos small]

section Contributions

variable {max : Nat} {ballots : List Ballot}
  (within : ∀ ballot ∈ ballots, ballot.voted.toNat ≤ max)
include within

/-- Only the first ten places count the values of single ballots. -/
theorem count_index_eq_zero {i : Nat} (behind : ¬i < 10) :
    (ballots.map fun ballot => RangeParts.index 10 max ballot.voted.toNat).count i = 0 := by
  apply List.count_eq_zero.mpr
  intro member
  obtain ⟨ballot, cast, rfl⟩ := List.mem_map.mp member
  exact behind (RangeParts.index_lt (within ballot cast) (by decide))

theorem contribution_31 :
    contribution max ballots 31 = (ballots.map fun ballot => ballot.voted.toNat).sum := by
  have nowhere := count_index_eq_zero within (show ¬((31 : Fin 33) : Nat) < 10 by decide)
  rw [contribution, nowhere, if_neg (by decide), if_pos rfl, Nat.zero_add, Nat.add_zero]

theorem contribution_32 : contribution max ballots 32 = ballots.length := by
  have nowhere := count_index_eq_zero within (show ¬((32 : Fin 33) : Nat) < 10 by decide)
  rw [contribution, nowhere, if_pos rfl, if_neg (by decide), Nat.add_zero]

theorem sum_voted_le :
    (ballots.map fun ballot => ballot.voted.toNat).sum ≤ ballots.length * max := by
  have most := List.sum_le_card_nsmul (ballots.map fun ballot => ballot.voted.toNat) max
    (List.forall_mem_map.mpr within)
  rwa [List.length_map, smul_eq_mul] at most

end Contributions

theorem contribution_line (max : Nat) (ballots : List Ballot) {i : Nat} (line : i < 10) :
    contribution max ballots ⟨i, Nat.lt_trans line (by decide)⟩ =
      (ballots.map fun ballot => RangeParts.index 10 max ballot.voted.toNat).count i := by
  have not_last : (⟨i, Nat.lt_trans line (by decide)⟩ : Fin 33) ≠ 32 :=
    Fin.ne_of_val_ne (by change i ≠ 32; omega)
  have not_sum : (⟨i, Nat.lt_trans line (by decide)⟩ : Fin 33) ≠ 31 :=
    Fin.ne_of_val_ne (by change i ≠ 31; omega)
  rw [contribution, if_neg not_last, if_neg not_sum, Nat.zero_add]

/-- The limits that are printed. -/
theorem rangeLine_eq (max : Nat) (result : Result) (total : UInt32) {i : Nat} (inside : i < 33) :
    rangeLine max result total i inside =
      .range (lower 10 max i) (upper 10 max i) (printed (result ⟨i, inside⟩))
        (printed (result ⟨i, inside⟩ * 100 / nonzero total)) := by
  have first : ((i : Int) * max).tdiv 10 + (if i = 0 then 0 else 1) = (lower 10 max i : Int) := by
    rw [lower]
    split <;> rfl
  rw [rangeLine, first]
  rfl

/-- The printed limits do not overflow. -/
theorem rangeLines_eq {max : Nat} (limits : 10 * max < 2 ^ 31) (result : Result) (total : UInt32) :
    rangeLines max result total =
      some ((List.finRange 10).map fun i : Fin 10 => rangeLine max result total i (by omega)) := by
  rw [rangeLines, if_pos]
  intro i line
  have least : (i + 1) * max ≤ 10 * max := Nat.mul_le_mul_right max line
  rw [← Int.natCast_mul, isInt_ofNat]
  exact decide_eq_true (Nat.lt_of_le_of_lt least limits)

theorem rangeLines_overflow {max : Nat} (large : ¬10 * max < 2 ^ 31) (result : Result)
    (total : UInt32) : rangeLines max result total = none := by
  rw [rangeLines, if_neg]
  intro all
  have last := all 9 (by decide)
  rw [← Int.natCast_mul, isInt_ofNat] at last
  exact large (of_decide_eq_true last)

/-- What is printed when the limits and the number of the ballots fit. -/
theorem mkResult_eq {vote : NumericVote} (limits : 10 * vote.max < 2 ^ 31)
    (count : vote.ballots.length < 2 ^ 31) :
    ∃ sug result, mkResult vote.votebal vote.ballots = some
        { sug
          lines := (List.finRange 10).map fun i : Fin 10 =>
            rangeLine vote.max result (result 32) i (by omega)
          average := some (printed (result 31 / nonzero (result 32)))
          voters := printed (result 32)
          total := printed (result 32) } ∧
      ∀ i, result i = UInt32.ofNat (contribution vote.max vote.ballots i) := by
  obtain ⟨sug, counted⟩ := foldlM_countResult limits vote.within ⟨[], fun _ => 0⟩
  use sug, fun i => 0 + UInt32.ofNat (contribution vote.max vote.ballots i)
  constructor
  · rw [mkResult, countAll, recordCount_of_lt count, List.take_length, counted]
    change (rangeLines (vote.max : Int) _ _).map _ = _
    rw [rangeLines_eq limits]
    rfl
  · intro i
    exact UInt32.zero_add _

/-! ## Lines and ballots -/

section Counts

variable (vote : NumericVote)

theorem between_iff (i : Nat) (ballot : Ballot) :
    Between vote.max i ballot ↔ RangeParts.part 10 vote.max ballot.voted.toNat = i :=
  RangeParts.mem_part_iff vote.max_pos (by decide) i

theorem countP_between (i : Nat) :
    (vote.ballots.countP fun ballot => Between vote.max i ballot) =
      (vote.ballots.map fun ballot => RangeParts.part 10 vote.max ballot.voted.toNat).count i := by
  rw [List.count_eq_countP, List.countP_map]
  apply List.countP_congr
  intro ballot _
  rw [decide_eq_true_iff, between_iff, Function.comp_apply, beq_iff_eq]

/-- The lines count as many ballots as are between their limits exactly if each ballot is counted in
its line. -/
theorem counts_iff :
    (∀ i < 10, (vote.ballots.map fun ballot =>
        RangeParts.index 10 vote.max ballot.voted.toNat).count i =
      vote.ballots.countP fun ballot => Between vote.max i ballot) ↔
    ∀ ballot ∈ vote.ballots, ∀ j, 0 < j → j < 10 →
      ¬(j * vote.max < ballot.voted.toNat * 10 ∧ ballot.voted.toNat * 10 < j * (vote.max + 1)) := by
  have every : (∀ i < 10, (vote.ballots.map fun ballot =>
        RangeParts.index 10 vote.max ballot.voted.toNat).count i =
      vote.ballots.countP fun ballot => Between vote.max i ballot) ↔
      ∀ i, (vote.ballots.map fun ballot =>
        RangeParts.index 10 vote.max ballot.voted.toNat).count i =
      (vote.ballots.map fun ballot => RangeParts.part 10 vote.max ballot.voted.toNat).count i := by
    constructor
    · intro lines i
      by_cases line : i < 10
      · rw [lines i line, countP_between]
      · rw [count_index_eq_zero vote.within line]
        symm
        apply List.count_eq_zero.mpr
        intro member
        obtain ⟨ballot, cast, rfl⟩ := List.mem_map.mp member
        exact line (RangeParts.part_lt vote.max_pos (vote.within ballot cast) (by decide))
    · intro counts i _
      rw [counts i, countP_between]
  rw [every, RangeParts.count_map_eq_iff fun _ _ => RangeParts.index_le_part vote.max_pos]
  apply forall₂_congr
  intro ballot cast
  exact RangeParts.index_eq_part_iff vote.max_pos (vote.within ballot cast) (by decide)

/-- Each ballot is between the limits of one line. -/
theorem once {ballot : Ballot} (cast : ballot ∈ vote.ballots) :
    ∃! i, i < 10 ∧ Between vote.max i ballot := by
  use RangeParts.part 10 vote.max ballot.voted.toNat
  constructor
  · exact ⟨RangeParts.part_lt vote.max_pos (vote.within ballot cast) (by decide),
      (between_iff vote _ ballot).mpr rfl⟩
  · rintro i ⟨_, between⟩
    exact ((between_iff vote i ballot).mp between).symm

end Counts

/-- The average is printed exactly if the sum does not overflow. -/
theorem average_iff {sum count max : Nat} (small : count < 2 ^ 31) (bound : sum ≤ count * max)
    (max_lt : max < 2 ^ 31) :
    printed (UInt32.ofNat sum / nonzero (UInt32.ofNat count)) = ((sum / count : Nat) : Int) ↔
      sum < 2 ^ 32 := by
  cases count with
  | zero =>
    rw [Nat.zero_mul] at bound
    obtain rfl : sum = 0 := by omega
    exact iff_of_true rfl (by decide)
  | succ count =>
    have divisor : (nonzero (UInt32.ofNat (count + 1))).toNat = count + 1 := by
      have same : (UInt32.ofNat (count + 1)).toNat = count + 1 := by
        rw [UInt32.toNat_ofNat']
        exact Nat.mod_eq_of_lt (by omega)
      rw [nonzero, if_neg, same]
      intro zero
      rw [zero] at same
      cases same
    have quotient : (UInt32.ofNat sum / nonzero (UInt32.ofNat (count + 1))).toNat =
        sum % 2 ^ 32 / (count + 1) := by
      rw [UInt32.toNat_div, divisor, UInt32.toNat_ofNat']
    have most : sum / (count + 1) ≤ max := Nat.div_le_of_le_mul bound
    have less : sum % 2 ^ 32 / (count + 1) ≤ sum / (count + 1) :=
      Nat.div_le_div_right (Nat.mod_le _ _)
    rw [printed_eq quotient (by omega), Int.natCast_inj]
    constructor
    · intro same
      by_contra large
      have gap : sum % 2 ^ 32 + (count + 1) ≤ sum := by omega
      have step := Nat.div_le_div_right (c := count + 1) gap
      rw [Nat.add_div_right _ (Nat.succ_pos count), same] at step
      exact Nat.not_succ_le_self _ step
    · intro fits
      rw [Nat.mod_eq_of_lt fits]

section Lines

variable {vote : NumericVote} {result : Result}
  (counted : ∀ i, result i = UInt32.ofNat (contribution vote.max vote.ballots i))
  (count : vote.ballots.length < 2 ^ 31)
include counted count

theorem printed_count {i : Nat} (line : i < 10) :
    printed (result ⟨i, Nat.lt_trans line (by decide)⟩) =
      ((vote.ballots.map fun ballot =>
        RangeParts.index 10 vote.max ballot.voted.toNat).count i : Nat) := by
  have few : (vote.ballots.map fun ballot =>
      RangeParts.index 10 vote.max ballot.voted.toNat).count i ≤ vote.ballots.length := by
    have most := List.count_le_length (a := i) (l := vote.ballots.map fun ballot =>
      RangeParts.index 10 vote.max ballot.voted.toNat)
    rwa [List.length_map] at most
  apply printed_eq _ (Nat.lt_of_le_of_lt few count)
  rw [counted, contribution_line vote.max vote.ballots line, UInt32.toNat_ofNat']
  exact Nat.mod_eq_of_lt (by omega)

theorem printed_voters : printed (result 32) = vote.ballots.length := by
  apply printed_eq _ count
  rw [counted, contribution_32 vote.within, UInt32.toNat_ofNat']
  exact Nat.mod_eq_of_lt (by omega)

theorem getElem?_lines {i : Nat} (line : i < 10) :
    ∃ percent, ((List.finRange 10).map fun i : Fin 10 =>
        rangeLine vote.max result (result 32) i (by omega))[i]? =
      some (.range (lower 10 vote.max i) (upper 10 vote.max i)
        ((vote.ballots.map fun ballot =>
          RangeParts.index 10 vote.max ballot.voted.toNat).count i : Nat) percent) := by
  have inside : i < (List.finRange 10).length := by rwa [List.length_finRange]
  use printed (result ⟨i, Nat.lt_trans line (by decide)⟩ * 100 / nonzero (result 32))
  rw [List.getElem?_map, List.getElem?_eq_getElem inside, List.getElem_finRange, Option.map_some,
    ← printed_count counted count line]
  exact congrArg some (rangeLine_eq vote.max result (result 32) _)

end Lines

/-- Something is printed only if the limits fit, and no printed number is larger than an `int`. -/
theorem of_mkResult {vote : NumericVote} {report : Report}
    (made : mkResult vote.votebal vote.ballots = some report) :
    10 * vote.max < 2 ^ 31 ∧ report.voters < 2 ^ 31 := by
  obtain ⟨tally, _, reported⟩ := Option.bind_eq_some_iff.mp made
  change (rangeLines (vote.max : Int) _ _).map _ = some report at reported
  by_cases limits : 10 * vote.max < 2 ^ 31
  · rw [rangeLines_eq limits, Option.map_some] at reported
    cases reported
    exact ⟨limits, printed_lt _⟩
  · rw [rangeLines_overflow limits] at reported
    cases reported

/-- When a numeric vote is counted as it is to be. -/
theorem talliesWell_iff (vote : NumericVote) : TalliesWell vote ↔ Countable vote := by
  have bound := sum_voted_le vote.within
  constructor
  · rintro ⟨report, made, tallied⟩
    obtain ⟨limits, voters⟩ := of_mkResult made
    have count : vote.ballots.length < 2 ^ 31 := by
      rw [tallied.voters] at voters
      omega
    obtain ⟨sug, result, same, counted⟩ := mkResult_eq limits count
    obtain rfl := Option.some.inj (made.symm.trans same)
    constructor
    · exact limits
    · exact count
    · have average := Option.some.inj tallied.average
      rw [counted, counted, contribution_31 vote.within, contribution_32 vote.within] at average
      exact (average_iff count bound (by omega)).mp average
    · apply (counts_iff vote).mp
      intro i line
      obtain ⟨_, expected⟩ := tallied.lines i line
      obtain ⟨_, found⟩ := getElem?_lines counted count line
      have same := Line.range.inj (Option.some.inj (found.symm.trans expected))
      exact Int.natCast_inj.mp same.2.2.1
  · rintro ⟨limits, count, sum, values⟩
    obtain ⟨sug, result, made, counted⟩ := mkResult_eq limits count
    have lines := (counts_iff vote).mpr values
    refine ⟨_, made, ?_⟩
    constructor
    · rw [List.length_map, List.length_finRange]
    · intro i line
      rw [← lines i line]
      exact getElem?_lines counted count line
    · intro ballot cast
      exact once vote cast
    · rw [counted, counted, contribution_31 vote.within, contribution_32 vote.within]
      exact congrArg some ((average_iff count bound (by omega)).mpr sum)
    · exact printed_voters counted count

/-- Numeric votes are counted as they are to be exactly if nothing overflows and no value is between
two multiples; all votes stay inside of the array exactly if the settings suffice for the values. -/
theorem tally_iff (vote : NumericVote) (settings : Votebal) (file : List Ballot) :
    (TalliesWell vote ↔ Countable vote) ∧ (StaysInside settings file ↔ Limited settings file) :=
  ⟨talliesWell_iff vote, staysInside_iff settings file⟩

def ballotOf (voted : UInt32) : Ballot where
  uid := .empty
  voted
  msg := [.empty, .empty, .empty]

/-- A vote between zero and one, with one ballot. -/
def zeroOrOne : NumericVote where
  items := []
  items_le := by decide
  max := 1
  max_pos := by decide
  ballots := [ballotOf 1]
  within := by simp [ballotOf]

/-- The ballot for one is counted in the line from one to zero.  A ballot for 999 that was cast
before the maximum was lowered is counted outside of the array. -/
theorem ballots_not_counted :
    ¬TalliesWell zeroOrOne ∧ ¬StaysInside zeroOrOne.votebal [ballotOf 999] := by
  constructor
  · rw [talliesWell_iff]
    intro countable
    exact countable.values (ballotOf 1) List.mem_cons_self 6 (by decide) (by decide) (by decide)
  · rw [staysInside_iff]
    intro limited
    have counted : ballotOf 999 ∈ [ballotOf 999].take (recordCount [ballotOf 999].length) := by
      rw [recordCount_of_lt (by decide)]
      exact List.mem_cons_self
    obtain ⟨_, small⟩ := limited (ballotOf 999) counted
    exact absurd small (by decide)

end VoteTally

end Fbbs
