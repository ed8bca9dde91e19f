import Fbbs.GbkText
import Fbbs.Parcel
import Mathlib.Algebra.Group.Nat.Defs

/-!
# Searching GBK texts

`strcasestr_gbk` of `lib/string.c` looks for a text in another at the characters of the other and
ignores the case of letters.  The second byte of a character may be a letter, whose case is not
ignored.
-/

namespace Fbbs

namespace GbkSearch

open AsciiBytes GbkText

/-- `strncasecmp_gbk` with the memory from its pointers on, after some bytes; `none` where it
reads behind the memory. -/
def strncasecmpFrom (n : Int) : Bytes → Bytes → Nat → Option Int
  | [], _, _ => none
  | x :: s1, s2, l =>
    if x = 0 then some (if l = n then 0 else -1)
    else
      match s2 with
      | [] => none
      | y :: s2 =>
        if y = 0 ∨ n ≤ l then some (if l = n then 0 else -1)
        else if tolower x ≠ tolower y then some ((tolower x).toNat - (tolower y).toNat)
        else if tolower x &&& 0x80 ≠ 0 then
          match s1, s2 with
          | x :: s1, y :: s2 =>
            if x = y then strncasecmpFrom n s1 s2 (l + 2)
            else some (x.toInt8.toInt - y.toInt8.toInt)
          | _, _ => none
        else strncasecmpFrom n s1 s2 (l + 1)

def strncasecmpGbk (s1 s2 : Bytes) (n : Int) : Option Int :=
  strncasecmpFrom n s1 s2 0

/-- The loop of `strcasestr_gbk`. -/
def searchFrom (haystack needle : Bytes) (nlength last : Int) (i : Nat) : Option (Option Nat) :=
  if i ≤ last then
    match strncasecmpGbk (haystack.drop i) needle nlength, haystack[i]? with
    | some order, some c =>
      if order = 0 then some (some i)
      else if c &&& 0x80 ≠ 0 then searchFrom haystack needle nlength last (i + 2)
      else searchFrom haystack needle nlength last (i + 1)
    | _, _ => none
  else some none
termination_by (last + 1 - i).toNat

/-- The length of a string as an `int`. -/
def intLength (string : CString) : Int :=
  (string.bytes.length : Int).bmod (2 ^ 32)

/-- The position of the needle or `NULL`; pointers may be `NULL`. -/
def strcasestrGbk : Option CString → Option CString → Option (Option Nat)
  | some haystack, some needle =>
    let nlength := intLength needle
    let hlength := intLength haystack
    if nlength > hlength then some none
    else if hlength ≤ 0 then some none
    else if nlength ≤ 0 then some (some 0)
    else searchFrom (haystack.bytes ++ [0]) (needle.bytes ++ [0]) nlength (hlength - nlength) 0
  | _, _ => some none

/-- A character without the case of a letter. -/
def folded : Symbol → Bytes
  | .ascii byte _ => [tolower byte]
  | .pair lead trail _ _ => [lead, trail]

/-- A text begins with the needle when case is ignored. -/
def Starts (needle text : List Symbol) : Prop :=
  needle.map folded <+: text.map folded

instance (needle text : List Symbol) : Decidable (Starts needle text) :=
  inferInstanceAs (Decidable (needle.map folded <+: text.map folded))

/-- The needle is in a text from a position on at which a character of the text begins. -/
def OccursAt (needle text : List Symbol) (p : Nat) : Prop :=
  ∃ front back, text = front ++ back ∧ p = (encode front).length ∧ Starts needle back

/-- The first position from a place on at which the needle is found. -/
def firstFrom (needle : List Symbol) (i : Nat) : List Symbol → Option Nat
  | [] => none
  | symbol :: back =>
    if Starts needle (symbol :: back) then some i
    else firstFrom needle (i + symbol.bytes.length) back

theorem length_folded (symbol : Symbol) : (folded symbol).length = symbol.bytes.length := by
  cases symbol <;> rfl

theorem length_encode (symbols : List Symbol) :
    (encode symbols).length = ((symbols.map folded).map List.length).sum := by
  induction symbols with
  | nil => rfl
  | cons symbol symbols ih =>
    rw [encode_cons, List.length_append, ih, List.map_cons, List.map_cons, List.sum_cons,
      length_folded]

theorem Starts.length_le {needle text : List Symbol} (starts : Starts needle text) :
    (encode needle).length ≤ (encode text).length := by
  obtain ⟨rest, split⟩ := starts
  rw [length_encode, length_encode, ← split, List.map_append, List.sum_append]
  exact Nat.le_add_right _ _

theorem starts_cons_iff {x y : Symbol} {needle text : List Symbol} :
    Starts (y :: needle) (x :: text) ↔ folded y = folded x ∧ Starts needle text := by
  rw [Starts, List.map_cons, List.map_cons, List.cons_prefix_cons, Starts]

section Comparison

variable {n : Int} {x y : UInt8} {s1 s2 : Bytes} {l : Nat}

theorem strncasecmpFrom_end (s1 s2 : Bytes) (l : Nat) :
    strncasecmpFrom n (0 :: s1) s2 l = some (if l = n then 0 else -1) := by
  rw [strncasecmpFrom.eq_def]
  simp only [if_true]

theorem strncasecmpFrom_needle_end (nonzero : x ≠ 0) (s1 s2 : Bytes) (l : Nat) :
    strncasecmpFrom n (x :: s1) (0 :: s2) l = some (if l = n then 0 else -1) := by
  rw [strncasecmpFrom.eq_def]
  simp only [if_neg nonzero, true_or, if_true]

theorem strncasecmpFrom_step (xNonzero : x ≠ 0) (yNonzero : y ≠ 0) (below : l < n) :
    strncasecmpFrom n (x :: s1) (y :: s2) l =
      if tolower x ≠ tolower y then some ((tolower x).toNat - (tolower y).toNat : Int)
      else if tolower x &&& 0x80 ≠ 0 then
        match s1, s2 with
        | x :: s1, y :: s2 =>
          if x = y then strncasecmpFrom n s1 s2 (l + 2)
          else some (x.toInt8.toInt - y.toInt8.toInt)
        | _, _ => none
      else strncasecmpFrom n s1 s2 (l + 1) := by
  have more : ¬(y = 0 ∨ n ≤ l) := not_or.mpr ⟨yNonzero, Int.not_le.mpr below⟩
  rw [strncasecmpFrom.eq_def]
  simp only [if_neg xNonzero, if_neg more]
  rfl

/-- Bytes that differ order their strings. -/
theorem strncasecmpFrom_differ (xNonzero : x ≠ 0) (yNonzero : y ≠ 0) (below : l < n)
    (differ : tolower x ≠ tolower y) :
    ∃ order, strncasecmpFrom n (x :: s1) (y :: s2) l = some order ∧ order ≠ 0 := by
  rw [strncasecmpFrom_step xNonzero yNonzero below, if_pos differ]
  refine ⟨_, rfl, fun same => differ ?_⟩
  apply UInt8.toNat_inj.mp
  omega

theorem strncasecmpFrom_ascii (xNonzero : x ≠ 0) (yNonzero : y ≠ 0) (below : l < n)
    (low : x < 0x80) (same : tolower x = tolower y) :
    strncasecmpFrom n (x :: s1) (y :: s2) l = strncasecmpFrom n s1 s2 (l + 1) := by
  have notHigh : ¬(tolower x &&& 0x80 ≠ 0) := not_not.mpr (and_0x80_of_lt (tolower_low low))
  rw [strncasecmpFrom_step xNonzero yNonzero below, if_neg (not_not.mpr same), if_neg notHigh]

theorem strncasecmpFrom_pair {trail trail' : UInt8} (nonzero : x ≠ 0) (below : l < n)
    (high : 0x80 ≤ x) :
    strncasecmpFrom n (x :: trail :: s1) (x :: trail' :: s2) l =
      if trail = trail' then strncasecmpFrom n s1 s2 (l + 2)
      else some (trail.toInt8.toInt - trail'.toInt8.toInt) := by
  have isHigh : tolower x &&& 0x80 ≠ 0 := by
    rw [tolower_high high]
    exact (and_0x80 x).mpr high
  rw [strncasecmpFrom_step nonzero nonzero below, if_neg (not_not.mpr rfl), if_pos isHigh]

theorem nonzero_of_lead {byte : UInt8} (leads : isLead byte = true) : byte ≠ 0 := by
  rintro rfl
  exact absurd leads (by decide)

/-- A low byte and a high one are not the same without case. -/
theorem tolower_ne (low : x < 0x80) (high : 0x80 ≤ y) : tolower x ≠ tolower y := by
  rw [tolower_high high]
  intro same
  have stillLow := tolower_low low
  rw [same] at stillLow
  exact UInt8.not_lt.mpr high stillLow

/-- Where the characters are the same without case the comparison goes on behind them. -/
theorem strncasecmpFrom_same {first second : Symbol} (firstNulFree : (0 : UInt8) ∉ first.bytes)
    (nulFree : (0 : UInt8) ∉ second.bytes) (below : l < n) (same : folded second = folded first) :
    strncasecmpFrom n (first.bytes ++ s1) (second.bytes ++ s2) l =
      strncasecmpFrom n s1 s2 (l + second.bytes.length) := by
  cases first with
  | ascii a low =>
    cases second with
    | ascii b bLow =>
      have aNonzero : a ≠ 0 := by simpa [Symbol.bytes, eq_comm] using firstNulFree
      have bNonzero : b ≠ 0 := by simpa [Symbol.bytes, eq_comm] using nulFree
      exact strncasecmpFrom_ascii aNonzero bNonzero below low (List.cons.inj same).1.symm
    | pair lead trail leads trails => cases same
  | pair lead trail leads trails =>
    cases second with
    | ascii b bLow => cases same
    | pair lead' trail' leads' trails' =>
      cases same
      exact (strncasecmpFrom_pair (nonzero_of_lead leads) below
        ((isLead_iff lead).mp leads).1).trans (if_pos rfl)

theorem strncasecmpFrom_other {first second : Symbol} (firstNulFree : (0 : UInt8) ∉ first.bytes)
    (nulFree : (0 : UInt8) ∉ second.bytes) (below : l < n) (other : folded second ≠ folded first) :
    ∃ order, strncasecmpFrom n (first.bytes ++ s1) (second.bytes ++ s2) l = some order ∧
      order ≠ 0 := by
  cases first with
  | ascii a low =>
    have aNonzero : a ≠ 0 := by simpa [Symbol.bytes, eq_comm] using firstNulFree
    cases second with
    | ascii b bLow =>
      have bNonzero : b ≠ 0 := by simpa [Symbol.bytes, eq_comm] using nulFree
      apply strncasecmpFrom_differ aNonzero bNonzero below
      exact fun same => other (congrArg (fun byte => [byte]) same.symm)
    | pair lead trail leads trails =>
      exact strncasecmpFrom_differ aNonzero (nonzero_of_lead leads) below
        (tolower_ne low ((isLead_iff lead).mp leads).1)
  | pair lead trail leads trails =>
    have high := ((isLead_iff lead).mp leads).1
    cases second with
    | ascii b bLow =>
      have bNonzero : b ≠ 0 := by simpa [Symbol.bytes, eq_comm] using nulFree
      exact strncasecmpFrom_differ (nonzero_of_lead leads) bNonzero below
        (tolower_ne bLow high).symm
    | pair lead' trail' leads' trails' =>
      by_cases sameLead : lead = lead'
      · subst sameLead
        have differ : trail ≠ trail' := fun same => other (by rw [folded, folded, same])
        refine ⟨_, (strncasecmpFrom_pair (nonzero_of_lead leads) below high).trans
          (if_neg differ), fun equal => differ ?_⟩
        have numbers : trail.toInt8.toInt = trail'.toInt8.toInt := by omega
        exact congrArg Int8.toUInt8 (Int8.toInt_inj.mp numbers)
      · apply strncasecmpFrom_differ (nonzero_of_lead leads) (nonzero_of_lead leads') below
        rw [tolower_high high, tolower_high ((isLead_iff lead').mp leads').1]
        exact sameLead

end Comparison

theorem Symbol.length_pos (symbol : Symbol) : 0 < symbol.bytes.length := by
  cases symbol with
  | ascii byte low => exact Nat.zero_lt_one
  | pair lead trail leads trails => exact Nat.zero_lt_two

theorem not_starts_nil {y : Symbol} {needle : List Symbol} : ¬Starts (y :: needle) [] :=
  fun starts => List.cons_ne_nil _ _ (List.prefix_nil.mp starts)

/-- At the start of a character the comparison finds out whether the needle is there. -/
theorem strncasecmpFrom_eq_zero_iff {n : Int} {needle text : List Symbol} {l : Nat}
    (needleNulFree : (0 : UInt8) ∉ encode needle) (nulFree : (0 : UInt8) ∉ encode text)
    (total : n = l + (encode needle).length) :
    ∃ order, strncasecmpFrom n (encode text ++ [0]) (encode needle ++ [0]) l = some order ∧
      (order = 0 ↔ Starts needle text) := by
  induction needle generalizing text l with
  | nil =>
    have same : (l : Int) = n := by
      rw [total]
      exact (Int.add_zero _).symm
    have starts : Starts [] text := List.nil_prefix
    refine ⟨0, ?_, iff_of_true rfl starts⟩
    cases bytes : encode text with
    | nil =>
      rw [List.nil_append, strncasecmpFrom_end, if_pos same]
    | cons x s1 =>
      rw [bytes, List.mem_cons, not_or] at nulFree
      exact (strncasecmpFrom_needle_end (Ne.symm nulFree.1) _ _ _).trans
        (congrArg some (if_pos same))
  | cons y needle ih =>
    rw [encode_cons, List.length_append] at total
    rw [encode_cons, List.mem_append, not_or] at needleNulFree
    have pos := Symbol.length_pos y
    have below : (l : Int) < n := by omega
    cases text with
    | nil =>
      refine ⟨-1, ?_, iff_of_false (by decide) not_starts_nil⟩
      exact (strncasecmpFrom_end _ _ _).trans (congrArg some (if_neg (Int.ne_of_lt below)))
    | cons x text =>
      rw [encode_cons, List.mem_append, not_or] at nulFree
      rw [starts_cons_iff, encode_cons, encode_cons, List.append_assoc, List.append_assoc]
      by_cases same : folded y = folded x
      · obtain ⟨order, compared, iff⟩ :=
          @ih text (l + y.bytes.length) needleNulFree.2 nulFree.2 (by omega)
        rw [strncasecmpFrom_same nulFree.1 needleNulFree.1 below same]
        exact ⟨order, compared, iff.trans (and_iff_right same).symm⟩
      · obtain ⟨order, compared, nonzero⟩ :=
          strncasecmpFrom_other nulFree.1 needleNulFree.1 below same
        exact ⟨order, compared, iff_of_false nonzero fun starts => same starts.1⟩

section First

variable {needle : List Symbol}

theorem firstFrom_eq_none {text : List Symbol}
    (short : (encode text).length < (encode needle).length) (i : Nat) :
    firstFrom needle i text = none := by
  induction text generalizing i with
  | nil => rfl
  | cons symbol back ih =>
    have absent : ¬Starts needle (symbol :: back) := fun starts =>
      Nat.not_lt.mpr starts.length_le short
    rw [encode_cons, List.length_append] at short
    rw [firstFrom, if_neg absent, ih (by omega)]

theorem occursAt_cons_iff {symbol : Symbol} {back : List Symbol} {p : Nat} :
    OccursAt needle (symbol :: back) p ↔
      p = 0 ∧ Starts needle (symbol :: back) ∨
        ∃ q, p = symbol.bytes.length + q ∧ OccursAt needle back q := by
  constructor
  · rintro ⟨front, rest, split, rfl, starts⟩
    cases front with
    | nil =>
      rw [List.nil_append] at split
      rw [split]
      exact .inl ⟨rfl, starts⟩
    | cons x front =>
      obtain ⟨rfl, rfl⟩ := List.cons.inj split
      refine .inr ⟨(encode front).length, ?_, front, rest, rfl, rfl, starts⟩
      rw [encode_cons, List.length_append]
  · rintro (⟨rfl, starts⟩ | ⟨q, rfl, front, rest, rfl, rfl, starts⟩)
    · exact ⟨[], symbol :: back, rfl, rfl, starts⟩
    · refine ⟨symbol :: front, rest, rfl, ?_, starts⟩
      rw [encode_cons, List.length_append]

theorem le_of_firstFrom {text : List Symbol} {i p : Nat}
    (found : firstFrom needle i text = some p) : i ≤ p := by
  induction text generalizing i with
  | nil => cases found
  | cons symbol back ih =>
    rw [firstFrom] at found
    split at found
    · exact Nat.le_of_eq (Option.some.inj found)
    · exact Nat.le_of_add_right_le (ih found)

/-- The place that is found is the first one. -/
theorem firstFrom_eq_some_iff (nonempty : needle ≠ []) {text : List Symbol} {i p : Nat} :
    firstFrom needle i text = some (i + p) ↔
      OccursAt needle text p ∧ ∀ q < p, ¬OccursAt needle text q := by
  induction text generalizing i p with
  | nil =>
    apply iff_of_false
    · exact fun found => by cases found
    · rintro ⟨⟨front, back, split, -, starts⟩, -⟩
      obtain ⟨rfl, rfl⟩ := List.nil_eq_append_iff.mp split
      obtain ⟨y, rest, rfl⟩ := List.exists_cons_of_ne_nil nonempty
      exact not_starts_nil starts
  | cons symbol back ih =>
    have pos := Symbol.length_pos symbol
    rw [firstFrom]
    split
    next starts =>
      have here : OccursAt needle (symbol :: back) 0 := occursAt_cons_iff.mpr (.inl ⟨rfl, starts⟩)
      constructor
      · intro found
        have zero : p = 0 := by
          have equal := Option.some.inj found
          omega
        subst zero
        exact ⟨here, fun q below => absurd below (Nat.not_lt_zero q)⟩
      · rintro ⟨-, noEarlier⟩
        have zero : p = 0 := Nat.eq_zero_of_not_pos fun later => noEarlier 0 later here
        rw [zero, Nat.add_zero]
    next absent =>
      have later : ∀ {q}, OccursAt needle (symbol :: back) q ↔
          ∃ q', q = symbol.bytes.length + q' ∧ OccursAt needle back q' := by
        intro q
        rw [occursAt_cons_iff, or_iff_right fun here => absent here.2]
      rw [later]
      constructor
      · intro found
        have behind := le_of_firstFrom found
        obtain ⟨q, rfl⟩ := Nat.exists_eq_add_of_le (Nat.add_le_add_iff_left.mp behind)
        rw [← Nat.add_assoc, ih] at found
        refine ⟨⟨q, rfl, found.1⟩, fun r below early => ?_⟩
        obtain ⟨r', rfl, inBack⟩ := later.mp early
        exact found.2 r' (by omega) inBack
      · rintro ⟨⟨q, rfl, occurs⟩, noEarlier⟩
        rw [← Nat.add_assoc, ih]
        refine ⟨occurs, fun q' below early => noEarlier (symbol.bytes.length + q') (by omega) ?_⟩
        exact later.mpr ⟨q', rfl, early⟩

theorem firstFrom_eq_none_iff (nonempty : needle ≠ []) {text : List Symbol} {i : Nat} :
    firstFrom needle i text = none ↔ ∀ p, ¬OccursAt needle text p := by
  constructor
  · intro absent p occurs
    classical
    obtain ⟨q, here, noEarlier⟩ := Nat.findX ⟨p, occurs⟩
    rw [(firstFrom_eq_some_iff nonempty).mpr ⟨here, noEarlier⟩] at absent
    cases absent
  · intro never
    cases found : firstFrom needle i text with
    | none => rfl
    | some p =>
      obtain ⟨q, rfl⟩ := Nat.exists_eq_add_of_le (le_of_firstFrom found)
      exact absurd ((firstFrom_eq_some_iff nonempty).mp found).1 (never q)

end First

section Loop

variable {needle : List Symbol} {nlength last : Int}

theorem first_byte (front : List Symbol) (symbol : Symbol) (back : List Symbol) :
    ∃ c, (encode (front ++ symbol :: back) ++ [0])[(encode front).length]? = some c ∧
      symbol.bytes.length = if c &&& 0x80 ≠ 0 then 2 else 1 := by
  rw [encode_append, encode_cons]
  cases symbol with
  | ascii byte low =>
    have notHigh : ¬(byte &&& 0x80 ≠ 0) := not_not.mpr (and_0x80_of_lt low)
    refine ⟨byte, ?_, ?_⟩
    · simp [Symbol.bytes]
    · rw [if_neg notHigh]
      rfl
  | pair lead trail leads trails =>
    refine ⟨lead, ?_, ?_⟩
    · simp [Symbol.bytes]
    · rw [if_pos ((and_0x80 lead).mpr ((isLead_iff lead).mp leads).1)]
      rfl

/-- The loop goes from character to character. -/
theorem searchFrom_eq (needleNulFree : (0 : UInt8) ∉ encode needle) (nonempty : needle ≠ [])
    (front back : List Symbol) (nulFree : (0 : UInt8) ∉ encode back)
    (count : nlength = (encode needle).length)
    (stop : last = (encode front).length + (encode back).length - nlength) :
    searchFrom (encode (front ++ back) ++ [0]) (encode needle ++ [0]) nlength last
      (encode front).length = some (firstFrom needle (encode front).length back) := by
  induction back generalizing front with
  | nil =>
    obtain ⟨y, rest, rfl⟩ := List.exists_cons_of_ne_nil nonempty
    have pos := Symbol.length_pos y
    rw [encode_cons, List.length_append] at count
    have empty : (encode []).length = 0 := rfl
    rw [searchFrom, if_neg (by omega)]
    rfl
  | cons symbol back ih =>
    have memory : encode (front ++ symbol :: back) ++ [0] =
        encode front ++ (encode (symbol :: back) ++ [0]) := by
      rw [encode_append, List.append_assoc]
    have moved : encode (front ++ symbol :: back) ++ [0] =
        encode ((front ++ [symbol]) ++ back) ++ [0] := by
      rw [List.append_assoc, List.singleton_append]
    have single : encode (front ++ [symbol]) = encode front ++ symbol.bytes := by
      rw [encode_append, encode, encode, List.flatMap_singleton]
    rw [searchFrom]
    split
    next inside =>
      obtain ⟨order, compared, iff⟩ := @strncasecmpFrom_eq_zero_iff nlength needle
        (symbol :: back) 0 needleNulFree nulFree (by omega)
      obtain ⟨c, here, length⟩ := first_byte front symbol back
      rw [memory, List.drop_left, strncasecmpGbk, compared, ← memory, firstFrom]
      by_cases starts : Starts needle (symbol :: back)
      · simp only [here, if_pos (iff.mpr starts), if_pos starts]
      · rw [encode_cons, List.mem_append, not_or] at nulFree
        have next := ih (front ++ [symbol]) nulFree.2 (by
          rw [stop, single, encode_cons, List.length_append, List.length_append]
          omega)
        rw [← moved, single, List.length_append, length] at next
        simp only [here, if_neg (iff.not.mpr starts), if_neg starts, length]
        split
        next high =>
          rw [if_pos high] at next
          exact next
        next low =>
          rw [if_neg low] at next
          exact next
    next beyond =>
      rw [firstFrom_eq_none (by omega)]

end Loop

theorem intLength_eq {string : CString} (short : string.bytes.length < 2 ^ 31) :
    intLength string = string.bytes.length := by
  unfold intLength
  rw [Int.bmod_eq_iff (by decide)]
  omega

/-- The search finds the first place at a character of the text where the needle is. -/
theorem strcasestrGbk_first {haystack needle : CString} {text word : List Symbol}
    (isText : haystack.bytes = encode text) (isWord : needle.bytes = encode word)
    (nonempty : word ≠ []) (short : haystack.bytes.length < 2 ^ 31)
    (shortWord : needle.bytes.length < 2 ^ 31) :
    ∃ found, strcasestrGbk (some haystack) (some needle) = some found ∧
      (∀ p, found = some p ↔ OccursAt word text p ∧ ∀ q < p, ¬OccursAt word text q) ∧
      (found = none ↔ ∀ p, ¬OccursAt word text p) := by
  refine ⟨firstFrom word 0 text, ?_, fun p => ?_, firstFrom_eq_none_iff nonempty⟩
  · obtain ⟨y, rest, rfl⟩ := List.exists_cons_of_ne_nil nonempty
    have pos : 0 < needle.bytes.length := by
      rw [isWord, encode_cons, List.length_append]
      exact Nat.add_pos_left (Symbol.length_pos y) _
    rw [strcasestrGbk, intLength_eq short, intLength_eq shortWord]
    split
    next longer =>
      rw [isText, isWord] at longer
      rw [firstFrom_eq_none (by omega)]
    next notLonger =>
      rw [if_neg (by omega), if_neg (by omega), isText, isWord]
      have wordNulFree := needle.nulFree
      have nulFree := haystack.nulFree
      rw [isWord] at wordNulFree
      rw [isText] at nulFree
      exact searchFrom_eq wordNulFree nonempty [] text nulFree rfl (by
        have empty : (encode []).length = 0 := rfl
        omega)
  · have first := @firstFrom_eq_some_iff word nonempty text 0 p
    rw [Nat.zero_add] at first
    exact first

section Letters

/-- A character whose second byte is the letter `A`. -/
def pairA : Symbol :=
  .pair 0x81 0x41 rfl rfl

theorem letters_low : (0x41 : UInt8) < 0x80 ∧ (0x61 : UInt8) < 0x80 := by
  decide

def letterA : Symbol :=
  .ascii 0x41 letters_low.1

def smallA : Symbol :=
  .ascii 0x61 letters_low.2

theorem pairNulFree : (0 : UInt8) ∉ encode [pairA, letterA] := by
  decide

theorem smallNulFree : (0 : UInt8) ∉ encode [smallA] := by
  decide

def pairText : CString :=
  ⟨encode [pairA, letterA], pairNulFree⟩

def smallText : CString :=
  ⟨encode [smallA], smallNulFree⟩

/-- The letter in the pair is passed over. -/
theorem pairText_first :
    ∃ found, strcasestrGbk (some pairText) (some smallText) = some found ∧
      (∀ p, found = some p ↔ OccursAt [smallA] [pairA, letterA] p ∧
        ∀ q < p, ¬OccursAt [smallA] [pairA, letterA] q) ∧
      (found = none ↔ ∀ p, ¬OccursAt [smallA] [pairA, letterA] p) :=
  have isText : pairText.bytes = encode [pairA, letterA] := rfl
  have isWord : smallText.bytes = encode [smallA] := rfl
  strcasestrGbk_first isText isWord (List.cons_ne_nil _ _) (by decide) (by decide)

example : firstFrom [smallA] 0 [pairA, letterA] = some 2 := by
  decide

end Letters

end GbkSearch

end Fbbs
