import Mathlib.Data.List.Chain
import Mathlib.Data.Fintype.Basic
import Fbbs.LikePatterns
import Fbbs.RecordCache

/-!
# The two readings of a post filter

Deleting and flagging posts in a batch goes through the statement that
`build_post_filter` builds, while importing, packing and listing them goes
through `post_match_filter` over the records of the board.  The statement knows
three of the flags only, and its `ILIKE` takes the keyword as a pattern.
-/

namespace Fbbs

namespace FilterAgreement

open AsciiBytes Post RecordCache UserCache LikePatterns SqlRows

/-- The bytes of a UTF-8 text that do not begin a character. -/
def continuation (byte : UInt8) : Bool :=
  decide (128 ≤ byte) && decide (byte < 192)

/-- Bytes are compared without case. -/
def sameLetter (left right : UInt8) : Bool :=
  tolower left == tolower right

def percent : UInt8 := 37
def backslash : UInt8 := 92
def underscore : UInt8 := 95

/-- The token of a byte that is not escaped. -/
def plainToken (byte : UInt8) : Token UInt8 :=
  if byte = percent then .sequence
  else if byte = underscore then .single
  else .literal byte

/-- The pattern that the database reads in a string. -/
def patternTokens : Bytes → List (Token UInt8)
  | [] => []
  | [byte] => [plainToken byte]
  | first :: second :: rest =>
    if first = backslash then .literal second :: patternTokens rest
    else plainToken first :: patternTokens (second :: rest)

/-- `title ILIKE '%' || keyword || '%'`. -/
def ilike (title keyword : CString) : Bool :=
  like continuation sameLetter
    (patternTokens ([percent] ++ keyword.bytes ++ [percent])) title.bytes

/-- Whether `strcasestr` finds the needle. -/
def strcasestr (haystack needle : CString) : Bool :=
  haystack.bytes.tails.any fun tail =>
    (needle.bytes.map tolower).isPrefixOf (tail.map tolower)

/-- A `match &= check` under a test. -/
def matchAnd (test check : Bool) : Bool :=
  !test || check

/-- `post_match_filter`. -/
def postMatchFilter (pr : PostRecord) (filter : PostFilter) (offset : Int32) : Bool :=
  matchAnd (filter.uid != 0) (pr.userId == filter.uid) &&
  matchAnd (filter.min != 0) (filter.min ≤ pr.id) &&
  matchAnd (filter.max != 0) (pr.id ≤ filter.max) &&
  matchAnd (filter.tid != 0) (pr.threadId == filter.tid) &&
  matchAnd (filter.flag != 0) (pr.flag &&& filter.flag == filter.flag) &&
  matchAnd (filter.offsetMin != 0) (filter.offsetMin - 1 ≤ offset) &&
  matchAnd (filter.offsetMax != 0) (offset < filter.offsetMax) &&
  matchAnd (filter.type == postListTopic) (pr.id == pr.threadId) &&
  matchAnd (filter.utf8Keyword.str.bytes != [])
    (strcasestr pr.utf8Title.str filter.utf8Keyword.str)

/-- The bytes with a meaning in a pattern. -/
def special (byte : UInt8) : Bool :=
  byte == percent || byte == underscore || byte == backslash

/-- No character of the text begins with a continuation byte, and none follows
an ASCII character; every UTF-8 text is such a text. -/
def Aligned (text : Bytes) : Prop :=
  List.IsChain (fun previous byte => previous < 128 → continuation byte = false)
    (0 :: text)

/-- What the sample title has for a `_`. -/
def filler : UInt8 := 120

/-- A title that the pattern of a keyword matches. -/
def sampleBytes (keyword : Bytes) : Bytes :=
  sampleText filler (patternTokens (keyword ++ [percent]))

theorem plainToken_of_not_special {byte : UInt8} (plain : special byte = false) :
    plainToken byte = .literal byte := by
  simp only [special, Bool.or_eq_false_iff, beq_eq_false_iff_ne] at plain
  rw [plainToken, if_neg plain.1.1, if_neg plain.1.2]

/-- The sample takes at most one byte for a byte of the string. -/
theorem length_sampleText_plainToken (byte : UInt8) (pattern : List (Token UInt8)) :
    (sampleText filler (plainToken byte :: pattern)).length ≤
      1 + (sampleText filler pattern).length := by
  unfold plainToken
  split
  · exact Nat.le_add_left _ _
  · split <;> exact (Nat.add_comm _ _).le

theorem length_sampleBytes_le (keyword : Bytes) :
    (sampleBytes keyword).length ≤ keyword.length := by
  unfold sampleBytes
  induction keyword using patternTokens.induct with
  | case1 => exact Nat.le_refl 0
  | case2 byte =>
    change (sampleText filler (patternTokens [byte, percent])).length ≤ 1
    rw [patternTokens]
    split
    · exact Nat.le_refl 1
    · exact length_sampleText_plainToken byte _
  | case3 second rest ih =>
    rw [List.cons_append, List.cons_append, patternTokens, if_pos rfl]
    simp only [sampleText, List.length_cons]
    omega
  | case4 first second rest notEscape ih =>
    rw [List.cons_append, List.cons_append, patternTokens, if_neg notEscape]
    have short := length_sampleText_plainToken first
      (patternTokens (second :: (rest ++ [percent])))
    simp only [List.cons_append, List.length_cons] at ih ⊢
    omega

/-- A sample that is the keyword itself, up to case, shows that the keyword has
no special bytes. -/
theorem plain_of_sampleBytes_eq {keyword : Bytes}
    (equal : (sampleBytes keyword).map tolower = keyword.map tolower) :
    keyword.all (fun byte => !special byte) = true := by
  induction keyword using patternTokens.induct with
  | case1 => rfl
  | case2 byte =>
    change (sampleText filler (patternTokens [byte, percent])).map tolower = _ at equal
    rw [patternTokens] at equal
    split at equal
    · subst byte
      cases equal
    · unfold plainToken at equal
      split at equal
      · cases equal
      · split at equal
        · subst byte
          cases equal
        · simp [special, *]
  | case3 second rest ih =>
    have lengths := congrArg List.length equal
    have short := length_sampleBytes_le rest
    rw [sampleBytes, List.cons_append, List.cons_append, patternTokens,
      if_pos rfl] at lengths
    simp only [sampleText, List.length_map, List.length_cons] at lengths
    unfold sampleBytes at short
    omega
  | case4 first second rest notEscape ih =>
    have short := length_sampleBytes_le (second :: rest)
    rw [sampleBytes, List.cons_append, List.cons_append, patternTokens,
      if_neg notEscape] at equal
    rw [sampleBytes, List.cons_append] at short
    unfold plainToken at equal
    split at equal
    · have lengths := congrArg List.length equal
      simp only [sampleText, List.length_map, List.length_cons] at lengths short
      omega
    · split at equal
      · subst first
        rw [sampleText, List.map_cons, List.map_cons, List.cons.injEq] at equal
        exact absurd equal.1 (by decide)
      · rw [sampleText, List.map_cons, List.map_cons, List.cons.injEq] at equal
        rw [List.all_cons, ih equal.2]
        simp [special, *]

/-- Without special bytes the pattern consists of the bytes of the string. -/
theorem patternTokens_of_plain {keyword : Bytes}
    (plain : keyword.all (fun byte => !special byte) = true) :
    patternTokens (keyword ++ [percent]) = keyword.map .literal ++ [.sequence] := by
  induction keyword with
  | nil => rfl
  | cons byte rest ih =>
    rw [List.all_cons, Bool.and_eq_true, Bool.not_eq_true'] at plain
    have notEscape : byte ≠ backslash := by
      rintro rfl
      cases plain.1
    have split : patternTokens (byte :: rest ++ [percent]) =
        plainToken byte :: patternTokens (rest ++ [percent]) := by
      cases rest with
      | nil => exact if_neg notEscape
      | cons second rest => exact if_neg notEscape
    rw [split, ih plain.2, plainToken_of_not_special plain.1]
    rfl

theorem mem_sampleText {byte : UInt8} {text : Bytes}
    (member : byte ∈ sampleText filler (patternTokens text)) :
    byte ∈ text ∨ byte = filler := by
  induction text using patternTokens.induct with
  | case1 => cases member
  | case2 first =>
    rw [patternTokens, plainToken] at member
    split at member
    · cases member
    · split at member
      · exact Or.inr (List.mem_singleton.mp member)
      · exact Or.inl member
  | case3 second rest ih =>
    rw [patternTokens, if_pos rfl, sampleText, List.mem_cons] at member
    obtain rfl | later := member
    · simp
    · exact (ih later).imp_left fun inRest => by simp [inRest]
  | case4 first second rest notEscape ih =>
    rw [patternTokens, if_neg notEscape, plainToken] at member
    split at member
    · exact (ih member).imp_left (List.mem_cons_of_mem first)
    · split at member
      · rw [sampleText, List.mem_cons] at member
        obtain rfl | later := member
        · exact Or.inr rfl
        · exact (ih later).imp_left (List.mem_cons_of_mem first)
      · rw [sampleText, List.mem_cons] at member
        obtain rfl | later := member
        · exact Or.inl List.mem_cons_self
        · exact (ih later).imp_left (List.mem_cons_of_mem first)

def sampleTitle (keyword : CString) : CString where
  bytes := sampleBytes keyword.bytes
  nulFree member := by
    obtain inKeyword | isFiller := mem_sampleText member
    · rw [List.mem_append, List.mem_singleton] at inKeyword
      obtain inKeyword | isPercent := inKeyword
      · exact keyword.nulFree inKeyword
      · exact absurd isPercent (by decide)
    · exact absurd isFiller (by decide)

section Alignment

variable {text : Bytes}

/-- After an ASCII byte the sample goes on with a character. -/
theorem boundary_sampleText {previous : UInt8} (ascii : previous < 128)
    (chain : List.IsChain
      (fun previous byte => previous < 128 → continuation byte = false)
      (previous :: text)) :
    boundary continuation (sampleText filler (patternTokens text)) = true := by
  induction text using patternTokens.induct generalizing previous with
  | case1 => rfl
  | case2 byte =>
    have begins := (List.isChain_cons_cons.mp chain).1 ascii
    rw [patternTokens, plainToken]
    split
    · rfl
    · split
      · rfl
      · simpa [sampleText, boundary] using begins
  | case3 second rest ih =>
    have later := (List.isChain_cons_cons.mp chain).2
    have begins := (List.isChain_cons_cons.mp later).1 (by decide)
    rw [patternTokens, if_pos rfl]
    simpa [sampleText, boundary] using begins
  | case4 first second rest notEscape ih =>
    obtain ⟨begins, later⟩ := List.isChain_cons_cons.mp chain
    rw [patternTokens, if_neg notEscape, plainToken]
    split
    · subst first
      exact ih (by decide) later
    · split
      · rfl
      · simpa [sampleText, boundary] using begins ascii

theorem settled_patternTokens
    (chain : List.IsChain
      (fun previous byte => previous < 128 → continuation byte = false) text) :
    Settled continuation filler (patternTokens text) := by
  induction text using patternTokens.induct with
  | case1 => trivial
  | case2 byte =>
    rw [patternTokens, plainToken]
    split
    · trivial
    · split
      · exact ⟨rfl, trivial⟩
      · trivial
  | case3 second rest ih =>
    rw [patternTokens, if_pos rfl]
    exact ih (List.isChain_cons_cons.mp chain).2.tail
  | case4 first second rest notEscape ih =>
    have settled := ih (List.isChain_cons_cons.mp chain).2
    rw [patternTokens, if_neg notEscape, plainToken]
    split
    · exact settled
    · split
      · subst first
        exact ⟨boundary_sampleText (by decide) chain, settled⟩
      · exact settled

theorem patternTokens_percent (keyword : Bytes) :
    patternTokens ([percent] ++ keyword ++ [percent]) =
      .sequence :: patternTokens (keyword ++ [percent]) := by
  cases keyword <;> rfl

/-- The pattern of an aligned keyword matches its sample. -/
theorem ilike_sampleTitle {keyword : CString} (aligned : Aligned keyword.bytes) :
    ilike (sampleTitle keyword) keyword = true := by
  have chain : List.IsChain
      (fun previous byte => previous < 128 → continuation byte = false)
      (keyword.bytes ++ [percent]) := by
    rw [List.isChain_append]
    refine ⟨aligned.tail, List.isChain_singleton percent, ?_⟩
    intro _ _ byte isLast _
    rw [List.head?_cons, Option.mem_some_iff] at isLast
    subst byte
    rfl
  rw [ilike, patternTokens_percent, like, List.any_eq_true]
  refine ⟨_, List.mem_cons_self, ?_⟩
  exact like_sampleText (fun byte => beq_self_eq_true (tolower byte)) (settled_patternTokens chain)

end Alignment

theorem strcasestr_iff {haystack needle : CString} :
    strcasestr haystack needle = true ↔
      ∃ before front back, haystack.bytes = before ++ (front ++ back) ∧
        needle.bytes.map tolower = front.map tolower := by
  rw [strcasestr, List.any_eq_true]
  constructor
  · rintro ⟨tail, isTail, isPrefix⟩
    obtain ⟨before, textEq⟩ := (List.mem_tails _ _).mp isTail
    obtain ⟨rest, mapEq⟩ := List.isPrefixOf_iff_prefix.mp isPrefix
    obtain ⟨front, back, rfl, frontEq, -⟩ := List.map_eq_append_iff.mp mapEq.symm
    exact ⟨before, front, back, textEq.symm, frontEq.symm⟩
  · rintro ⟨before, front, back, textEq, equal⟩
    refine ⟨front ++ back, (List.mem_tails _ _).mpr ⟨before, textEq.symm⟩, ?_⟩
    rw [List.isPrefixOf_iff_prefix, equal, List.map_append]
    exact List.prefix_append _ _

theorem strcasestr_empty {needle : CString} (nonempty : needle.bytes ≠ []) :
    strcasestr .empty needle = false := by
  cases bytes : needle.bytes with
  | nil => exact absurd bytes nonempty
  | cons first rest =>
    rw [strcasestr, bytes]
    rfl

theorem forall₂_sameLetter_iff {left right : Bytes} :
    List.Forall₂ (fun first second => sameLetter first second = true) left right ↔
      left.map tolower = right.map tolower := by
  rw [← List.forall₂_eq_eq_eq, List.forall₂_map_left_iff, List.forall₂_map_right_iff]
  simp only [sameLetter, beq_iff_eq]

/-- Only ASCII letters change their case. -/
theorem continuation_tolower (byte : UInt8) :
    continuation (tolower byte) = continuation byte := by
  unfold tolower
  split
  · simp only [continuation, UInt8.le_iff_toNat_le, UInt8.lt_iff_toNat_lt] at *
    rw [UInt8.toNat_add]
    simp only [UInt8.reduceToNat] at *
    congr 2 <;> rw [eq_iff_iff] <;> omega
  · rfl

/-- A keyword without special bytes is looked for by both sides alike. -/
theorem ilike_eq_strcasestr {keyword : CString}
    (plain : keyword.bytes.all (fun byte => !special byte) = true)
    (aligned : Aligned keyword.bytes) (nonempty : keyword.bytes ≠ [])
    (title : CString) : ilike title keyword = strcasestr title keyword := by
  have whole : patternTokens ([percent] ++ keyword.bytes ++ [percent]) =
      .sequence :: keyword.bytes.map .literal ++ [.sequence] := by
    rw [patternTokens_percent, patternTokens_of_plain plain]
    rfl
  rw [ilike, whole, Bool.eq_iff_iff, like_contains, strcasestr_iff]
  simp only [forall₂_sameLetter_iff]
  constructor
  · rintro ⟨before, front, back, textEq, -, equal⟩
    exact ⟨before, front, back, textEq, equal⟩
  · rintro ⟨before, front, back, textEq, equal⟩
    refine ⟨before, front, back, textEq, Or.inr ?_, equal⟩
    cases bytes : keyword.bytes with
    | nil => exact absurd bytes nonempty
    | cons first rest =>
      rw [Aligned, bytes, List.isChain_cons_cons] at aligned
      cases front with
      | nil =>
        rw [bytes] at equal
        cases equal
      | cons byte front =>
        rw [bytes, List.map_cons, List.map_cons, List.cons.injEq] at equal
        rw [List.cons_append, boundary, ← continuation_tolower, ← equal.1,
          continuation_tolower, aligned.1 (by decide)]
        rfl

theorem selectsRecent_append (first second : List Condition) (row : PostRow) :
    selectsRecent ilike (first ++ second) row =
      (selectsRecent ilike first row && selectsRecent ilike second row) := by
  simp only [selectsRecent, selects, List.map_append, List.all_append]

theorem selectsRecent_queryAnd (test : Bool) (condition : Condition) (row : PostRow) :
    selectsRecent ilike (queryAnd test condition) row =
      matchAnd test (condition.eval ilike row none == some true) := by
  cases test <;> simp [queryAnd, selectsRecent, selects, matchAnd]

theorem matchAnd_eq_true {test check : Bool} :
    matchAnd test check = true ↔ (test = true → check = true) := by
  cases test <;> simp [matchAnd]

/-- The conditions on author, id and thread, which both sides have. -/
structure Admits (filter : PostFilter) (row : PostRow) : Prop where
  uid : filter.uid ≠ 0 → row.userId = some filter.uid
  min : filter.min ≠ 0 → filter.min ≤ row.id
  max : filter.max ≠ 0 → row.id ≤ filter.max
  tid : filter.tid ≠ 0 → row.threadId = some filter.tid
  topic : filter.type = postListTopic → row.threadId = some row.id

/-- The conditions on the flags that the statement has. -/
structure HasFlags (flag : Int32) (row : PostRow) : Prop where
  digest : flag &&& postFlagDigest ≠ 0 → row.digest = some true
  marked : flag &&& postFlagMarked ≠ 0 → row.marked = some true
  water : flag &&& postFlagWater ≠ 0 → row.water = some true

theorem selectsRecent_iff {filter : PostFilter} (recent : isDeleted filter.type = false)
    (unthreaded : filter.type ≠ postListThread) (row : PostRow) :
    selectsRecent ilike (buildPostFilter filter) row = true ↔
      Admits filter row ∧ HasFlags filter.flag row ∧
        (filter.utf8Keyword.str.bytes ≠ [] →
          ∃ title, row.title = some title ∧
            ilike title filter.utf8Keyword.str = true) := by
  have notTrash : (filter.type == postListTrash) = false :=
    (Bool.or_eq_false_iff.mp recent).1
  have notJunk : (filter.type == postListJunk) = false :=
    (Bool.or_eq_false_iff.mp recent).2
  simp only [buildPostFilter, filterRange, if_neg unthreaded, recent, notTrash, notJunk,
    selectsRecent_append, selectsRecent_queryAnd, Bool.and_eq_true, matchAnd_eq_true,
    bne_iff_ne, beq_iff_eq, Condition.eval, Bool.and_false, Bool.false_eq_true,
    compare_eq_left_iff, compare_eq_right_iff, Option.map_eq_some_iff, Option.some.injEq,
    decide_eq_true_eq, false_implies, true_and, and_true]
  constructor
  · rintro ⟨⟨⟨⟨⟨⟨digest, marked⟩, water⟩, uid⟩, keyword⟩, topic⟩, ⟨min, max⟩, tid⟩
    exact ⟨⟨uid, min, max, tid, topic⟩, ⟨digest, marked, water⟩, keyword⟩
  · rintro ⟨⟨uid, min, max, tid, topic⟩, ⟨digest, marked, water⟩, keyword⟩
    exact ⟨⟨⟨⟨⟨⟨digest, marked⟩, water⟩, uid⟩, keyword⟩, topic⟩, ⟨min, max⟩, tid⟩

/-- A row as it stands in `post.recent`: titles come from buffers of the size of
`utf8_title`, and ids from the clock. -/
structure Stored (bid : Int32) (row : PostRow) : Prop where
  board : row.boardId = some bid
  positive : 0 < row.id
  title : ∀ title, row.title = some title → title.bytes.length < titleSize

theorem getD_zero_eq_iff {Value : Type} {column : Option Value} {zero value : Value}
    (nonzero : value ≠ zero) : column.getD zero = value ↔ column = some value := by
  cases column with
  | none => exact iff_of_false nonzero.symm (Option.some_ne_none value).symm
  | some other => exact (Option.some_inj (a := other)).symm

/-- The record keeps the title of a stored row. -/
theorem utf8Title_convertPostRecord {bid : Int32} {row : PostRow} (stored : Stored bid row) :
    (convertPostRecord row false).utf8Title.str = row.title.getD .empty := by
  change CString.truncate titleSize _ = _
  apply CString.truncate_of_length_lt
  cases titleEq : row.title with
  | none => decide
  | some title => exact stored.title title titleEq

theorem postMatchFilter_iff {filter : PostFilter} {bid : Int32} {row : PostRow}
    (noMin : filter.offsetMin = 0) (noMax : filter.offsetMax = 0)
    (stored : Stored bid row) (offset : Int32) :
    postMatchFilter (convertPostRecord row false) filter offset = true ↔
      Admits filter row ∧
        (convertPostRecord row false).flag &&& filter.flag = filter.flag ∧
        (filter.utf8Keyword.str.bytes ≠ [] →
          strcasestr (row.title.getD .empty) filter.utf8Keyword.str = true) := by
  have nonzero : row.id ≠ 0 := fun zero => absurd stored.positive (by rw [zero]; decide)
  simp only [postMatchFilter, noMin, noMax, Bool.and_eq_true, matchAnd_eq_true,
    bne_iff_ne, beq_iff_eq, decide_eq_true_eq, utf8Title_convertPostRecord stored]
  constructor
  · rintro ⟨⟨⟨⟨⟨⟨⟨⟨uid, min⟩, max⟩, tid⟩, flag⟩, -⟩, -⟩, topic⟩, keyword⟩
    refine ⟨⟨fun test => (getD_zero_eq_iff test).mp (uid test), min, max,
      fun test => (getD_zero_eq_iff test).mp (tid test),
      fun test => (getD_zero_eq_iff nonzero).mp (topic test).symm⟩, ?_, keyword⟩
    by_cases none : filter.flag = 0
    · rw [none, Int32.and_zero]
    · exact flag none
  · rintro ⟨admits, flag, keyword⟩
    refine ⟨⟨⟨⟨⟨⟨⟨⟨?_, admits.min⟩, admits.max⟩, ?_⟩, fun _ => flag⟩, ?_⟩, ?_⟩, ?_⟩, keyword⟩
    · exact fun test => (getD_zero_eq_iff test).mpr (admits.uid test)
    · exact fun test => (getD_zero_eq_iff test).mpr (admits.tid test)
    · exact absurd rfl
    · exact absurd rfl
    · exact fun test => ((getD_zero_eq_iff nonzero).mpr (admits.topic test)).symm

def knownFlags : Int32 :=
  postFlagDigest ||| postFlagMarked ||| postFlagWater

theorem and_not_eq_zero_iff {mask flag : Int32} :
    flag &&& ~~~mask = 0 ↔ mask &&& flag = flag := by
  simp only [← Int32.toBitVec_inj, Int32.toBitVec_and, Int32.toBitVec_not]
  constructor
  · intro none
    apply BitVec.eq_of_getLsbD_eq
    intro i bound
    have noBit := congrArg (BitVec.getLsbD · i) none
    simp [bound] at noBit ⊢
    exact noBit
  · intro every
    apply BitVec.eq_of_getLsbD_eq
    intro i bound
    have bit := congrArg (BitVec.getLsbD · i) every
    simp [bound] at bit ⊢
    exact bit

/-- A flag of one bit is either there or not. -/
theorem and_eq_zero_or_self (flag bit : Int32) (i : Nat)
    (single : bit.toBitVec = BitVec.twoPow 32 i) : flag &&& bit = 0 ∨ flag &&& bit = bit := by
  simp only [← Int32.toBitVec_inj, Int32.toBitVec_and, single, BitVec.and_twoPow]
  split
  · exact Or.inr rfl
  · exact Or.inl rfl

/-- Known flags are the union of their three bits. -/
theorem flag_eq_union {flag : Int32} (known : flag &&& ~~~knownFlags = 0) :
    flag = flag &&& postFlagDigest ||| flag &&& postFlagMarked ||| flag &&& postFlagWater := by
  have union := and_not_eq_zero_iff.mp known
  rw [← Int32.toBitVec_inj] at union ⊢
  rw [Int32.and_comm] at union
  simp only [Int32.toBitVec_or, Int32.toBitVec_and, ← BitVec.and_or_distrib_left]
  exact union.symm

/-- On known flags the records say what the columns say. -/
theorem hasFlags_iff {flag : Int32} (known : flag &&& ~~~knownFlags = 0) (row : PostRow) :
    HasFlags flag row ↔ (convertPostRecord row false).flag &&& flag = flag := by
  have bits : ∀ column : Option Bool, column = some true ↔ column.getD false = true := by
    intro column
    cases column <;> simp
  have split : HasFlags flag row ↔
      (flag &&& postFlagDigest ≠ 0 → row.digest.getD false = true) ∧
      (flag &&& postFlagMarked ≠ 0 → row.marked.getD false = true) ∧
      (flag &&& postFlagWater ≠ 0 → row.water.getD false = true) := by
    simp only [← bits]
    exact ⟨fun has => ⟨has.digest, has.marked, has.water⟩,
      fun ⟨digest, marked, water⟩ => ⟨digest, marked, water⟩⟩
  rw [split, flag_eq_union known]
  simp only [convertPostRecord, flagBit]
  generalize row.digest.getD false = digest
  generalize row.marked.getD false = marked
  generalize row.locked.getD false = locked
  generalize row.imported.getD false = imported
  generalize row.water.getD false = water
  obtain one | one := and_eq_zero_or_self flag postFlagDigest 0 rfl <;>
    obtain two | two := and_eq_zero_or_self flag postFlagMarked 1 rfl <;>
    obtain three | three := and_eq_zero_or_self flag postFlagWater 5 rfl <;>
    rw [one, two, three] <;>
    cases locked <;> cases imported <;>
    revert digest marked water <;>
    decide

/-- Some id of a post meets the conditions on ids. -/
def Satisfiable (filter : PostFilter) : Prop :=
  ∃ id : PostId, 0 < id ∧ (filter.min ≠ 0 → filter.min ≤ id) ∧
    (filter.max ≠ 0 → id ≤ filter.max) ∧
    (filter.type = postListTopic → filter.tid ≠ 0 → id = filter.tid)

/-- The filter has no flag that the statement does not know, and no byte that
is special in a pattern. -/
structure Plain (filter : PostFilter) : Prop where
  flags : filter.flag &&& ~~~knownFlags = 0
  keyword : filter.utf8Keyword.str.bytes.all (fun byte => !special byte) = true

theorem Admits.satisfiable {filter : PostFilter} {bid : Int32} {row : PostRow}
    (admits : Admits filter row) (stored : Stored bid row) : Satisfiable filter := by
  refine ⟨row.id, stored.positive, admits.min, admits.max, fun topic test => ?_⟩
  have same := (admits.topic topic).symm.trans (admits.tid test)
  exact Option.some.inj same

/-- A post that the statement selects. -/
def selectedRow (filter : PostFilter) (id : PostId) : PostRow where
  id := id
  replyId := some id
  threadId := some (if filter.tid ≠ 0 then filter.tid else id)
  userId := some filter.uid
  userIdReplied := some 0
  realUserId := some filter.uid
  userName := none
  boardId := some filter.bid
  boardName := none
  digest := some true
  marked := some true
  locked := some false
  imported := some false
  water := some true
  attachment := some false
  sticky := some false
  title := some (sampleTitle filter.utf8Keyword.str)

section SelectedRow

variable {filter : PostFilter} {id : PostId}

theorem stored_selectedRow (positive : 0 < id) :
    Stored filter.bid (selectedRow filter id) where
  board := rfl
  positive := positive
  title title titleEq := by
    cases titleEq
    calc
      (sampleBytes filter.utf8Keyword.str.bytes).length
          ≤ filter.utf8Keyword.str.bytes.length := length_sampleBytes_le _
      _ < titleSize := filter.utf8Keyword.fits.trans (by decide)

theorem admits_selectedRow (min : filter.min ≠ 0 → filter.min ≤ id)
    (max : filter.max ≠ 0 → id ≤ filter.max)
    (topic : filter.type = postListTopic → filter.tid ≠ 0 → id = filter.tid) :
    Admits filter (selectedRow filter id) where
  uid _ := rfl
  min := min
  max := max
  tid test := congrArg some (if_pos test)
  topic isTopic := by
    apply congrArg some
    split
    · exact (topic isTopic ‹_›).symm
    · rfl

theorem flag_selectedRow :
    (convertPostRecord (selectedRow filter id) false).flag = knownFlags := by
  change flagBit (some true) postFlagDigest ||| flagBit (some true) postFlagMarked |||
    flagBit (some false) postFlagLocked ||| flagBit (some false) postFlagImport |||
    flagBit (some true) postFlagWater ||| 0 = knownFlags
  decide

/-- If the record of that post matches as well, the filter is plain. -/
theorem plain_of_selectedRow
    (flag : (convertPostRecord (selectedRow filter id) false).flag &&& filter.flag =
      filter.flag)
    (keyword : filter.utf8Keyword.str.bytes ≠ [] →
      strcasestr (sampleTitle filter.utf8Keyword.str) filter.utf8Keyword.str = true) :
    Plain filter where
  flags := and_not_eq_zero_iff.mpr (flag_selectedRow ▸ flag)
  keyword := by
    by_cases empty : filter.utf8Keyword.str.bytes = []
    · rw [empty]
      rfl
    · obtain ⟨before, front, back, textEq, equal⟩ := strcasestr_iff.mp (keyword empty)
      change sampleBytes _ = _ at textEq
      have lengths := congrArg List.length textEq
      have short := length_sampleBytes_le filter.utf8Keyword.str.bytes
      have sameLength := congrArg List.length equal
      simp only [List.length_append, List.length_map] at lengths sameLength
      have noBefore : before = [] := List.length_eq_zero_iff.mp (by omega)
      have noBack : back = [] := List.length_eq_zero_iff.mp (by omega)
      subst noBefore noBack
      rw [List.nil_append, List.append_nil] at textEq
      exact plain_of_sampleBytes_eq (textEq ▸ equal.symm)

end SelectedRow

/-- The statement and the records select the same posts of every board exactly
if the filter is plain, or selects nothing at all. -/
theorem selected_eq_matched_iff {filter : PostFilter}
    (recent : isDeleted filter.type = false) (unthreaded : filter.type ≠ postListThread)
    (noMin : filter.offsetMin = 0) (noMax : filter.offsetMax = 0)
    (aligned : Aligned filter.utf8Keyword.str.bytes) :
    (∀ (bid : Int32) (rows : List PostRow), (∀ row ∈ rows, Stored bid row) →
      ∀ offset : PostRow → Int32,
        rows.filter (selectsRecent ilike (buildPostFilter filter)) =
          rows.filter fun row =>
            postMatchFilter (convertPostRecord row false) filter (offset row)) ↔
      ¬Satisfiable filter ∨ Plain filter := by
  constructor
  · intro agree
    by_cases satisfiable : Satisfiable filter
    · right
      obtain ⟨id, positive, min, max, topic⟩ := satisfiable
      have stored : Stored filter.bid (selectedRow filter id) := stored_selectedRow positive
      have selected : selectsRecent ilike (buildPostFilter filter)
          (selectedRow filter id) = true :=
        (selectsRecent_iff recent unthreaded _).mpr
          ⟨admits_selectedRow min max topic, ⟨fun _ => rfl, fun _ => rfl, fun _ => rfl⟩,
            fun _ => ⟨_, rfl, ilike_sampleTitle aligned⟩⟩
      have same := agree filter.bid [selectedRow filter id]
        (List.forall_mem_singleton.mpr stored) fun _ => 0
      rw [List.filter_cons_of_pos selected] at same
      have matched := List.mem_filter.mp (same ▸ List.mem_cons_self)
      obtain ⟨-, flag, keyword⟩ :=
        (postMatchFilter_iff noMin noMax stored 0).mp matched.2
      exact plain_of_selectedRow flag keyword
    · exact Or.inl satisfiable
  · intro condition bid rows stored offset
    apply List.filter_congr
    intro row member
    rw [Bool.eq_iff_iff, selectsRecent_iff recent unthreaded,
      postMatchFilter_iff noMin noMax (stored row member)]
    apply and_congr_right
    intro admits
    have plain := condition.resolve_left
      (not_not_intro (admits.satisfiable (stored row member)))
    rw [hasFlags_iff plain.flags]
    apply and_congr_right
    intro _
    apply imp_congr_right
    intro nonempty
    cases row.title with
    | none =>
      rw [Option.getD_none, strcasestr_empty nonempty]
      simp
    | some title =>
      simp [ilike_eq_strcasestr plain.keyword aligned nonempty]

/-- The batch of the posts with a letter in their titles. -/
def letterFilter : PostFilter :=
  { sampleFilter 0 with
    uid := 0
    utf8Keyword := ⟨.ofBytes [120], Nat.succ_lt_succ (Nat.zero_lt_succ 75)⟩ }

/-- A post with the letter in its title. -/
def letterRow : PostRow :=
  { selectedRow letterFilter 1 with title := some (.ofBytes [97, 88]) }

theorem selected_eq_matched_letter :
    (∀ (bid : Int32) (rows : List PostRow), (∀ row ∈ rows, Stored bid row) →
      ∀ offset : PostRow → Int32,
        rows.filter (selectsRecent ilike (buildPostFilter letterFilter)) =
          rows.filter fun row =>
            postMatchFilter (convertPostRecord row false) letterFilter (offset row)) ∧
      [letterRow, { letterRow with title := none }].filter
        (selectsRecent ilike (buildPostFilter letterFilter)) = [letterRow] :=
  ⟨(@selected_eq_matched_iff letterFilter rfl (by decide) rfl rfl
    (by unfold Aligned; decide)).mpr (.inr ⟨by decide, by decide⟩), by decide⟩

/-- The batch of the posts with a percent sign in their titles. -/
def percentFilter : PostFilter :=
  { sampleFilter 0 with
    uid := 0
    utf8Keyword := ⟨.ofBytes [percent], Nat.succ_lt_succ (Nat.zero_lt_succ 75)⟩ }

/-- A post without a percent sign. -/
def percentRow : PostRow :=
  { selectedRow percentFilter 1 with title := some (.ofBytes [120]) }

/-- The statement selects posts without a percent sign as well. -/
theorem selected_ne_matched_percent :
    ¬∀ filter : PostFilter, isDeleted filter.type = false →
      filter.type ≠ postListThread → filter.offsetMin = 0 → filter.offsetMax = 0 →
      ∀ (bid : Int32) (rows : List PostRow), (∀ row ∈ rows, row.boardId = some bid) →
        ∀ offset : PostRow → Int32,
          rows.filter (selectsRecent ilike (buildPostFilter filter)) =
            rows.filter fun row =>
              postMatchFilter (convertPostRecord row false) filter (offset row) := by
  intro agree
  have same := agree percentFilter rfl (by decide) rfl rfl 1 [percentRow]
    (List.forall_mem_singleton.mpr rfl) fun _ => 0
  revert same
  decide

end FilterAgreement

end Fbbs
