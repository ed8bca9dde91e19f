import Fbbs.RecordScan

/-!
# Searches find the nearest match

`record_search_copy` cuts the records below its offset into blocks from the beginning of the
file; when the offset is behind the end of the file, the first of them may be empty.
-/

namespace Fbbs

namespace RecordScan

open CallbackScan

variable {Record : Type*}

section Search

variable {filter : Record × Nat → Reply} {rec : RecordFile Record}

/-- The records that a search may find. -/
def InRange (rec : RecordFile Record) (offset : Int) (reverse : Bool) (index : Nat) : Prop :=
  index < rec.records.length ∧ if reverse then offset < 0 ∨ (index : Int) < offset
    else offset < index

/-- The nearest record that the filter matches, if there is one. -/
def Nearest (filter : Record × Nat → Reply) (rec : RecordFile Record) (offset : Int)
    (reverse : Bool) : Option (Record × Nat) → Prop
  | none => ∀ index record, rec.records[index]? = some record → InRange rec offset reverse index →
      filter (record, index) ≠ .found
  | some (record, index) => rec.records[index]? = some record ∧ InRange rec offset reverse index ∧
      filter (record, index) = .found ∧
      ∀ other found, rec.records[other]? = some found → InRange rec offset reverse other →
        filter (found, other) = .found → if reverse then other ≤ index else index ≤ other

/-- What a filter that never breaks finds first. -/
def firstMatch (filter : Record × Nat → Reply) (entries : List (Record × Nat)) :
    Option (Record × Nat) :=
  entries.find? fun entry => filter entry = .found

theorem firstAnswer_eq (never : ∀ entry, filter entry ≠ .stop) (entries : List (Record × Nat)) :
    firstAnswer filter entries = (firstMatch filter entries).map some := by
  induction entries with
  | nil => rfl
  | cons entry entries ih =>
    rw [firstAnswer, firstMatch, List.find?_cons]
    cases answer : filter entry with
    | found => rfl
    | stop => exact absurd answer (never entry)
    | next => exact ih

theorem firstMatch_append (first second : List (Record × Nat)) :
    firstMatch filter (first ++ second) =
      (firstMatch filter first).or (firstMatch filter second) :=
  List.find?_append

theorem recordRead_of_le {place : Nat} (behind : rec.records.length ≤ place) (count : Nat) :
    recordRead rec place count = [] := by
  rw [recordRead, List.drop_eq_nil_of_le behind, List.take_nil]

theorem searchForward_of_le {place : Nat} (behind : rec.records.length ≤ place)
    (rounds base : Nat) : searchForward rec filter rounds place base = none := by
  cases rounds with
  | zero => rfl
  | succ rounds =>
    rw [searchForward, recordRead_of_le behind]
    rfl

theorem searchForward_eq (never : ∀ entry, filter entry ≠ .stop) {rounds place : Nat}
    (covers : rec.records.length ≤ place + rounds * rec.block) :
    searchForward rec filter rounds place place = firstMatch filter (rec.entriesFrom place) := by
  induction rounds generalizing place with
  | zero =>
    rw [searchForward, entriesFrom_of_le (by omega)]
    rfl
  | succ rounds ih =>
    rw [Nat.succ_mul] at covers
    have length := length_recordRead rec place rec.block
    rw [searchForward, entriesFrom_eq rec place rec.block, firstMatch_append]
    generalize recordRead rec place rec.block = buf at length
    cases buf with
    | nil =>
      have positive := rec.block_pos
      rw [List.length_nil] at length
      rw [entriesFrom_of_le (by rw [List.length_nil]; omega)]
      rfl
    | cons record rest =>
      simp only [List.isEmpty_cons, Bool.false_eq_true, if_false, firstAnswer_eq never]
      cases firstMatch filter ((record :: rest).zipIdx place) with
      | some entry => rfl
      | none =>
        rw [Option.map_none, Option.none_or]
        by_cases full : (record :: rest).length = rec.block
        · rw [full, ih (by omega)]
        · rw [entriesFrom_of_le (by omega)]
          exact searchForward_of_le (by omega) rounds _

theorem bases_succ (rec : RecordFile Record) (rounds : Nat) :
    rec.bases (rounds + 1) = rounds * rec.block :: rec.bases rounds := by
  rw [RecordFile.bases, List.range_succ_eq_map, List.map_cons, List.map_map]
  congr 1
  apply List.map_congr_left
  intro i _
  rw [Function.comp_apply, show rounds + 1 - 1 - i.succ = rounds - 1 - i by omega]

theorem searchReverse_eq (never : ∀ entry, filter entry ≠ .stop) {all rounds place : Nat}
    (reaches : ∀ k < rounds, k * rec.block < min all rec.records.length)
    (fits : ∀ k < rounds, k * rec.block * rec.rlen < 2 ^ 31) :
    searchReverse rec filter all (rec.bases rounds) place =
      some (firstMatch filter
        (rec.entriesDown 0 (min (rounds * rec.block) (min all rec.records.length)))) := by
  induction rounds generalizing place with
  | zero =>
    rw [Nat.zero_mul, Nat.zero_min]
    rfl
  | succ rounds ih =>
    have positive := rec.block_pos
    have inside := reaches rounds (Nat.lt_succ_self rounds)
    have next : (rounds + 1) * rec.block = rounds * rec.block + rec.block := Nat.succ_mul ..
    have earlier := @ih (rounds * rec.block +
        (recordRead rec (rounds * rec.block) rec.block).length)
      (fun k below => reaches k (Nat.lt_succ_of_lt below))
      (fun k below => fits k (Nat.lt_succ_of_lt below))
    have fit := fits rounds (Nat.lt_succ_self rounds)
    rw [bases_succ, next]
    generalize rounds * rec.block = base at inside earlier fit ⊢
    have length := length_recordRead rec base rec.block
    -- The block ends at the end of the file, or where the search starts.
    have range : (recordRead rec base rec.block).take
        (if all - base < (recordRead rec base rec.block).length then all - base
          else (recordRead rec base rec.block).length) =
        recordRead rec base (min (base + rec.block) (min all rec.records.length) - base) := by
      rw [length, recordRead, recordRead, List.take_take, List.take_eq_take_iff,
        List.length_drop]
      split <;> omega
    have nonempty : (recordRead rec base rec.block).isEmpty = false := by
      rw [← Bool.not_eq_true, List.isEmpty_iff_length_eq_zero]
      omega
    rw [Nat.min_eq_left (by omega)] at earlier
    rw [searchReverse, recordReadAfter, recordSeek_ofNat, if_pos fit, Option.map_some]
    have down : ((recordRead rec base
        (min (base + rec.block) (min all rec.records.length) - base)).zipIdx base).reverse =
          rec.entriesDown base (min (base + rec.block) (min all rec.records.length)) := rfl
    simp only [nonempty, Bool.false_eq_true, if_false, range, down, firstAnswer_eq never]
    rw [entriesDown_eq rec (Nat.zero_le base) (by omega) (by omega), firstMatch_append, earlier]
    cases firstMatch filter
        (rec.entriesDown base (min (base + rec.block) (min all rec.records.length))) with
    | none => rfl
    | some entry => rfl

/-- A reverse search from behind the end of the file may not begin in it. -/
theorem searchReverse_outside {base all place : Nat} {bases : List Nat}
    (behind : rec.records.length ≤ base) (fits : base * rec.rlen < 2 ^ 31) :
    searchReverse rec filter all (base :: bases) place = some none := by
  rw [searchReverse, recordReadAfter, recordSeek_ofNat, if_pos fits, Option.map_some,
    recordRead_of_le behind]
  rfl

theorem searchReverse_overflow {base all place : Nat} {bases : List Nat}
    (overflow : ¬base * rec.rlen < 2 ^ 31) :
    searchReverse rec filter all (base :: bases) place = none := by
  rw [searchReverse, recordReadAfter, recordSeek_ofNat, if_neg overflow]
  rfl

theorem pairwise_zipIdx (records : List Record) (start : Nat) :
    (records.zipIdx start).Pairwise fun entry other => entry.2 ≤ other.2 := by
  have indexes : ((records.zipIdx start).map Prod.snd).Pairwise (· ≤ ·) := by
    rw [List.zipIdx_map_snd]
    exact List.pairwise_le_range' 1
  exact List.pairwise_map.mp indexes

/-- The first match of a list of all records that may be found, in the right order. -/
theorem nearest_firstMatch {offset : Int} {reverse : Bool} {entries : List (Record × Nat)}
    (members : ∀ entry, entry ∈ entries ↔
      InRange rec offset reverse entry.2 ∧ rec.records[entry.2]? = some entry.1)
    (order : entries.Pairwise fun entry other =>
      if reverse then other.2 ≤ entry.2 else entry.2 ≤ other.2) :
    Nearest filter rec offset reverse (firstMatch filter entries) := by
  cases found : firstMatch filter entries with
  | none =>
    intro index record isRecord inRange isMatch
    have none := List.find?_eq_none.mp found (record, index)
      ((members (record, index)).mpr ⟨inRange, isRecord⟩)
    exact none (decide_eq_true isMatch)
  | some entry =>
    obtain ⟨isMatch, before, after, parts, earlier⟩ := List.find?_eq_some_iff_append.mp found
    have member : entry ∈ entries := by
      rw [parts]
      exact List.mem_append_right before List.mem_cons_self
    obtain ⟨inRange, isRecord⟩ := (members entry).mp member
    refine ⟨isRecord, inRange, of_decide_eq_true isMatch, ?_⟩
    intro index record otherRecord otherRange otherMatch
    have otherMember := (members (record, index)).mpr ⟨otherRange, otherRecord⟩
    rw [parts] at otherMember order
    rcases List.mem_append.mp otherMember with isBefore | isAfter
    · have notMatch := earlier (record, index) isBefore
      rw [decide_eq_true otherMatch] at notMatch
      cases notMatch
    · rcases List.mem_cons.mp isAfter with rfl | isAfter
      · split <;> exact Nat.le_refl _
      · have sorted := (List.pairwise_append.mp order).2.1
        exact (List.pairwise_cons.mp sorted).1 (record, index) isAfter

/-- Where the first round of a search reads. -/
def firstPlace (rec : RecordFile Record) (offset : Int) (reverse : Bool) : Nat :=
  if reverse then ((searchAll rec offset reverse).toNat - 1) / rec.block * rec.block
  else (offset + 1).toNat

/-- There is nothing to search; or the number of records and the first position are `int`s,
and the first round reads inside the file or no record matches. -/
def SearchesWell (filter : Record × Nat → Reply) (rec : RecordFile Record) (offset : Int)
    (reverse : Bool) : Prop :=
  searchAll rec offset reverse ≤ 0 ∨
    ((searchAll rec offset reverse).toNat + rec.block - 1 < 2 ^ 31 ∧
      firstPlace rec offset reverse * rec.rlen < 2 ^ 31 ∧
      (firstPlace rec offset reverse < rec.records.length ∨
        ∀ index record, rec.records[index]? = some record → filter (record, index) ≠ .found))

theorem isInt_ofNat (n : Nat) : isInt n = decide (n < 2 ^ 31) :=
  rfl

/-- Nothing is in range when nothing is searched. -/
theorem not_inRange {offset : Int} {reverse : Bool} (none : searchAll rec offset reverse ≤ 0)
    (index : Nat) : ¬InRange rec offset reverse index := by
  rintro ⟨inside, near⟩
  rw [searchAll, recordCount] at none
  cases reverse <;> simp only [Bool.false_eq_true, if_true, if_false] at none near <;>
    split at none <;> omega

theorem recordSearchCopy_eq {offset : Int} {reverse : Bool}
    (more : ¬searchAll rec offset reverse ≤ 0) :
    recordSearchCopy filter offset reverse rec =
      if (searchAll rec offset reverse).toNat + rec.block - 1 < 2 ^ 31 then
        let rounds := ((searchAll rec offset reverse).toNat + rec.block - 1) / rec.block
        if reverse then
          searchReverse rec filter (searchAll rec offset reverse).toNat (rec.bases rounds) 0
        else
          (recordSeek rec 0 ((offset + 1).toNat : Int)).map fun place =>
            searchForward rec filter rounds place (offset + 1).toNat
      else none := by
  have start : (if offset + 1 < 0 then 0 else offset + 1) = ((offset + 1).toNat : Int) := by
    split <;> omega
  have sum : searchAll rec offset reverse + rec.block - 1 =
      (((searchAll rec offset reverse).toNat + rec.block - 1 : Nat) : Int) := by
    omega
  rw [recordSearchCopy]
  simp only [if_neg more, sum, isInt_ofNat, start, Int.toNat_natCast]
  by_cases fits : (searchAll rec offset reverse).toNat + rec.block - 1 < 2 ^ 31
  · rw [if_pos fits, decide_eq_true fits]
    rfl
  · rw [if_neg fits, decide_eq_false fits]
    rfl

theorem searchForward_nearest_iff (never : ∀ entry, filter entry ≠ .stop) {offset : Int}
    (more : ¬searchAll rec offset false ≤ 0)
    (fits : (searchAll rec offset false).toNat + rec.block - 1 < 2 ^ 31) :
    (∃ result, recordSearchCopy filter offset false rec = some result ∧
        Nearest filter rec offset false result) ↔ SearchesWell filter rec offset false := by
  have positive := rec.block_pos
  have all : searchAll rec offset false =
      if offset ≥ 0 then (rec.records.length : Int) - offset - 1 else rec.records.length := rfl
  have inside : firstPlace rec offset false < rec.records.length := by
    change (offset + 1).toNat < rec.records.length
    split at all <;> omega
  have rounded := Nat.lt_div_mul_add
    (a := (searchAll rec offset false).toNat + rec.block - 1) positive
  have covers : rec.records.length ≤ (offset + 1).toNat +
      ((searchAll rec offset false).toNat + rec.block - 1) / rec.block * rec.block := by
    split at all <;> omega
  have members : ∀ entry, entry ∈ rec.entriesFrom (offset + 1).toNat ↔
      InRange rec offset false entry.2 ∧ rec.records[entry.2]? = some entry.1 := by
    intro entry
    rw [mem_entriesFrom]
    apply and_congr_left
    intro found
    have bound := (List.getElem?_eq_some_iff.mp found).1
    simp only [InRange, bound, Bool.false_eq_true, if_false, true_and]
    omega
  have nearest : Nearest filter rec offset false
      (firstMatch filter (rec.entriesFrom (offset + 1).toNat)) :=
    nearest_firstMatch members (pairwise_zipIdx _ _)
  rw [recordSearchCopy_eq more, if_pos fits, recordSeek_ofNat]
  simp only [Bool.false_eq_true, if_false]
  by_cases seeks : (offset + 1).toNat * rec.rlen < 2 ^ 31
  · rw [if_pos seeks, Option.map_some, searchForward_eq never covers]
    exact iff_of_true ⟨_, rfl, nearest⟩ (.inr ⟨fits, seeks, .inl inside⟩)
  · rw [if_neg seeks]
    apply iff_of_false
    · rintro ⟨result, absent, -⟩
      cases absent
    · rintro (none | ⟨-, seeks', -⟩)
      · exact more none
      · exact seeks seeks'

theorem searchReverse_nearest_iff (never : ∀ entry, filter entry ≠ .stop) {offset : Int}
    (more : ¬searchAll rec offset true ≤ 0)
    (fits : (searchAll rec offset true).toNat + rec.block - 1 < 2 ^ 31) :
    (∃ result, recordSearchCopy filter offset true rec = some result ∧
        Nearest filter rec offset true result) ↔ SearchesWell filter rec offset true := by
  have positive := rec.block_pos
  have allEq : searchAll rec offset true = if offset ≥ 0 then offset else rec.records.length := rfl
  rw [recordSearchCopy_eq more, if_pos fits]
  simp only [if_true]
  generalize whole : (searchAll rec offset true).toNat = all at fits
  have last : (all + rec.block - 1) / rec.block = (all - 1) / rec.block + 1 := by
    rw [show all + rec.block - 1 = all - 1 + rec.block by omega, Nat.add_div_right _ positive]
  have place : firstPlace rec offset true = (all - 1) / rec.block * rec.block := by
    rw [firstPlace, if_pos rfl, whole]
  have low := Nat.div_mul_le_self (all - 1) rec.block
  have high := Nat.lt_div_mul_add (a := all - 1) positive
  rw [SearchesWell, or_iff_right more, whole, and_iff_right fits, place, last]
  generalize (all - 1) / rec.block = rounds at last low high
  by_cases seeks : rounds * rec.block * rec.rlen < 2 ^ 31
  · rw [and_iff_right seeks]
    by_cases inside : rounds * rec.block < rec.records.length
    · have top : min ((rounds + 1) * rec.block) (min all rec.records.length) =
          min all rec.records.length := by
        rw [Nat.succ_mul]
        omega
      have below : ∀ k < rounds + 1, k * rec.block ≤ rounds * rec.block :=
        fun k less => Nat.mul_le_mul_right rec.block (Nat.le_of_lt_succ less)
      rw [searchReverse_eq never (fun k less => by have := below k less; omega)
        (fun k less => Nat.lt_of_le_of_lt (Nat.mul_le_mul_right rec.rlen (below k less)) seeks),
        top]
      refine iff_of_true ⟨_, rfl, nearest_firstMatch ?_ ?_⟩ (.inl inside)
      · intro entry
        rw [mem_entriesDown, and_iff_right (Nat.zero_le entry.2)]
        apply and_congr_left
        intro found
        have bound := (List.getElem?_eq_some_iff.mp found).1
        simp only [InRange, bound, if_true, true_and]
        split at allEq <;> omega
      · exact List.pairwise_reverse.mpr (pairwise_zipIdx _ _)
    · -- All records are below the offset, and none is read.
      rw [bases_succ, searchReverse_outside (Nat.le_of_not_lt inside) seeks, or_iff_right inside]
      have inRange : ∀ index < rec.records.length, InRange rec offset true index := by
        intro index bound
        refine ⟨bound, ?_⟩
        simp only [if_true]
        split at allEq <;> omega
      constructor
      · rintro ⟨result, missed, nearest⟩ index record found
        obtain rfl := Option.some.inj missed
        exact nearest index record found (inRange index (List.getElem?_eq_some_iff.mp found).1)
      · intro noMatch
        exact ⟨none, rfl, fun index record found _ => noMatch index record found⟩
  · rw [bases_succ, searchReverse_overflow seeks]
    apply iff_of_false
    · rintro ⟨result, absent, -⟩
      cases absent
    · rintro ⟨seeks', -⟩
      exact seeks seeks'

/-- `record_search_copy` finds the nearest match exactly if it searches well. -/
theorem recordSearchCopy_nearest_iff {filter : Record × Nat → Reply}
    (never : ∀ entry, filter entry ≠ .stop) (offset : Int) (reverse : Bool)
    (rec : RecordFile Record) :
    (∃ result, recordSearchCopy filter offset reverse rec = some result ∧
        Nearest filter rec offset reverse result) ↔
      SearchesWell filter rec offset reverse := by
  by_cases none : searchAll rec offset reverse ≤ 0
  · have nearest : Nearest filter rec offset reverse .none :=
      fun index _ _ inRange => absurd inRange (not_inRange none index)
    exact iff_of_true ⟨.none, if_pos none, nearest⟩ (.inl none)
  by_cases fits : (searchAll rec offset reverse).toNat + rec.block - 1 < 2 ^ 31
  · cases reverse with
    | true => exact searchReverse_nearest_iff never none fits
    | false => exact searchForward_nearest_iff never none fits
  · rw [recordSearchCopy_eq none, if_neg fits]
    apply iff_of_false
    · rintro ⟨result, absent, -⟩
      cases absent
    · rintro (none' | ⟨fits', -⟩)
      · exact none none'
      · exact fits fits'

/-- In front of the last record the second one is the nearest with its number. -/
theorem recordSearchCopy_nearest_threeRecords :
    recordSearchCopy (fun entry => if entry.1 = 6 then .found else .next) 3 true threeRecords =
        some (some (6, 1)) ∧
      Nearest (fun entry => if entry.1 = 6 then .found else .next) threeRecords 3 true
        (some (6, 1)) := by
  have searched : recordSearchCopy (fun entry => if entry.1 = 6 then .found else .next) 3 true
      threeRecords = some (some (6, 1)) := by decide
  have never : ∀ entry : Int × Nat, (if entry.1 = 6 then Reply.found else .next) ≠ .stop := by
    intro entry
    split <;> decide
  obtain ⟨result, returned, nearest⟩ := (recordSearchCopy_nearest_iff never 3 true threeRecords).mpr
    (.inr ⟨by decide, by decide, .inl (by decide)⟩)
  obtain rfl := Option.some.inj (returned.symm.trans searched)
  exact ⟨searched, nearest⟩

/-- From the fifth record on, the reverse search reads behind the end of the file. -/
theorem threeRecords_missed :
    ¬∃ result, recordSearchCopy (fun entry => if entry.1 = 6 then .found else .next) 5 true
          threeRecords = some result ∧
        Nearest (fun entry => if entry.1 = 6 then .found else .next) threeRecords 5 true
          result := by
  rintro ⟨result, searched, nearest⟩
  have missed : recordSearchCopy (fun entry => if entry.1 = 6 then .found else .next) 5 true
      threeRecords = some none := by decide
  obtain rfl := Option.some.inj (searched.symm.trans missed)
  exact nearest 1 6 rfl ⟨by decide, .inr (by decide)⟩ rfl

end Search

end RecordScan

end Fbbs
