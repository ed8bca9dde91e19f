import Fbbs.Notifications
import Fbbs.TextScan

/-!
# Uploaded files

`check_upload` of `fcgi/bbsupload.c` looks for the file in the body of a request.  It ends lines
and names by writing zeros into its buffer, and it counts back from the end of the body to the
end of the file.  `none` is an access outside of the buffer, and `some none` a refusal.
-/

namespace Fbbs

namespace UploadParsing

open Notifications TextScan

/-- `"filename=\""`. -/
def filenameString : Bytes := [102, 105, 108, 101, 110, 97, 109, 101, 61, 34]

/-- `".JPEG"`, `".JPG"`, `".GIF"`, `".PNG"` and `".PDF"`. -/
def allowedExtensions : List Bytes :=
  [[46, 74, 80, 69, 71], [46, 74, 80, 71], [46, 71, 73, 70], [46, 80, 78, 71], [46, 80, 68, 70]]

section Buffer

variable (buf : Bytes)

/-- The position of the zero that ends the string at a position. -/
def stringEnd (s : Nat) : Option Nat :=
  find buf (· == 0) s (buf.length + 1)

def strstr (s : Nat) (word : Bytes) : Option (Option Nat) :=
  (stringEnd buf s).map fun e => indexWord buf word s e

def strrchr (s : Nat) (c : UInt8) : Option (Option Nat) :=
  (stringEnd buf s).bind fun e => findLast buf c s e

def strchr (s : Nat) (c : UInt8) : Option (Option Nat) :=
  (stringEnd buf s).bind fun e => findSymbol buf c s e

/-- Whether the string at a position is one of the extensions. -/
def isAllowed (s : Nat) : Option Bool :=
  (stringEnd buf s).map fun e => allowedExtensions.any (strcaseeq (slice buf s e))

/-- The file name in a line: the buffer, in which the name ends with a zero, and the position of
the extension. -/
def parseFilename (fname : Nat) : Option (Option (Bytes × Nat)) := do
  match ← strstr buf fname filenameString with
  | none => some none
  | some fname =>
    -- Behind the last backslash of a path, or behind the quotation mark.
    let fname := (← strrchr buf fname 92).elim (fname + filenameString.length) (· + 1)
    let buf := (← strchr buf fname 34).elim buf (buf.set · 0)
    match ← strrchr buf fname 46 with
    | none => some none
    | some p => if ← isAllowed buf p then some (some (buf, p)) else some none

/-- The position behind two lines. -/
def skipLines (p bufend : Nat) : Option (Option Nat) := do
  match ← findSymbol buf 13 p bufend with
  | none => some none
  | some p =>
    if p + 1 = bufend then some none
    else
      match ← findSymbol buf 13 (p + 1) bufend with
      | none => some none
      | some p => if p + 2 ≥ bufend then some none else some (some (p + 2))

end Buffer

/-- Where the file begins and ends, and where its extension stands. -/
structure Upload where
  begin : Nat
  fin : Int
  fileext : Nat
  deriving DecidableEq

def checkUpload (size : Nat) (stdin : Bytes) : Option (Option Upload) := do
  if stdin.length < size then some none
  else
    let buf := stdin.take size
    let bufend := size
    match ← findSymbol buf 13 0 bufend with
    | none => some none
    | some p =>
      let buf := buf.set p 0
      let fname := p + 2
      if fname > bufend then some none
      else
        match ← findSymbol buf 13 fname bufend with
        | none => some none
        | some p =>
          match ← parseFilename (buf.set p 0) fname with
          | none => some none
          | some (buf, fileext) =>
            match ← skipLines buf fileext bufend with
            | none => some none
            | some begin =>
              let fin := (bufend : Int) - 4 - (← stringEnd buf 0)
              if fin < begin + 1 then some none else some (some ⟨begin, fin, fileext⟩)

/-! ## Bodies with one file -/

/-- The parts of a body: the boundary without its hyphens, the line with the name of the file,
another line and the file. -/
structure Body where
  boundary : Bytes
  disposition : Bytes
  header : Bytes
  content : Bytes
  boundary_line : 13 ∉ boundary
  disposition_line : 13 ∉ disposition
  header_line : 13 ∉ header

/-- What stands in front of the file. -/
def Body.front (body : Body) : Bytes :=
  [45, 45] ++ body.boundary ++ [13, 10] ++ body.disposition ++ [13, 10] ++ body.header ++
    [13, 10, 13, 10]

def Body.bytes (body : Body) : Bytes :=
  body.front ++ body.content ++ [13, 10, 45, 45] ++ body.boundary ++ [45, 45, 13, 10]

/-- The file is found with its first and its last byte. -/
def ParsesUpload (body : Body) : Prop :=
  ∃ fileext, checkUpload body.bytes.length body.bytes =
    some (some ⟨body.front.length, body.front.length + body.content.length, fileext⟩)

section Strings

variable {buf : Bytes} {s m e : Nat}

theorem stringEnd_of_zero (order : s ≤ m) (zero : buf[m]? = some 0) :
    ∃ e, stringEnd buf s = some e ∧ s ≤ e ∧ e ≤ m ∧ buf[e]? = some 0 := by
  have inside := (List.getElem?_eq_some_iff.mp zero).1
  have stops := @first_le_of_stop _ buf (· == 0) s buf.length m 0 order inside zero (by decide)
  have before : first buf (· == 0) s buf.length < buf.length := Nat.lt_of_le_of_lt stops inside
  obtain ⟨c, here, isZero⟩ := stop_first before (by omega) (Nat.le_refl _)
  rw [beq_iff_eq.mp isZero] at here
  refine ⟨first buf (· == 0) s buf.length, ?_, le_first _ _ _ _, stops, here⟩
  rw [stringEnd, find_beyond (by omega), if_pos before]

theorem strrchr_of_zero (order : s ≤ m) (zero : buf[m]? = some 0) (c : UInt8) :
    ∃ found, strrchr buf s c = some found ∧
      ∀ p, found = some p → s ≤ p ∧ p < m ∧ buf[p]? = some c := by
  obtain ⟨e, ends, low, high, here⟩ := stringEnd_of_zero order zero
  have inside := (List.getElem?_eq_some_iff.mp here).1
  refine ⟨lastIndex buf c s e, ?_, ?_⟩
  · rw [strrchr, ends, Option.bind_some, findLast_eq (Nat.le_of_lt inside)]
  · intro p found
    obtain ⟨after, before, symbol⟩ := lastIndex_eq_some found
    exact ⟨after, by omega, symbol⟩

theorem strchr_of_zero (order : s ≤ m) (zero : buf[m]? = some 0) (c : UInt8) :
    ∃ found, strchr buf s c = some found ∧
      ∀ p, found = some p → s ≤ p ∧ p < m ∧ buf[p]? = some c := by
  obtain ⟨e, ends, low, high, here⟩ := stringEnd_of_zero order zero
  have inside := (List.getElem?_eq_some_iff.mp here).1
  refine ⟨index buf c s e, ?_, ?_⟩
  · rw [strchr, ends, Option.bind_some, findSymbol_eq low (Nat.le_of_lt inside)]
  · intro p found
    obtain ⟨after, before, symbol⟩ := index_eq_some low (Nat.le_of_lt inside) found
    exact ⟨after, by omega, symbol⟩

theorem isAllowed_of_zero (order : s ≤ m) (zero : buf[m]? = some 0) :
    ∃ allowed, isAllowed buf s = some allowed := by
  obtain ⟨e, ends, -⟩ := stringEnd_of_zero order zero
  exact ⟨_, by rw [isAllowed, ends]; rfl⟩

theorem set_zero {p : Nat} (zero : buf[m]? = some 0) : (buf.set p 0)[m]? = some 0 := by
  rw [List.getElem?_set]
  by_cases same : p = m
  · have inside := (List.getElem?_eq_some_iff.mp zero).1
    rw [if_pos same, if_pos (same ▸ inside)]
  · rw [if_neg same, zero]

end Strings

/-- What is left of the buffer when a name has been found. -/
structure Named (buf buf' : Bytes) (s m p : Nat) : Prop where
  length : buf'.length = buf.length
  zeros : ∀ k : Nat, buf[k]? = some 0 → buf'[k]? = some 0
  after : s ≤ p
  before : p < m

section Steps

variable {buf : Bytes} {s m p bufend : Nat}

/-- The search for the name stays in its line. -/
theorem parseFilename_named (order : s ≤ m) (zero : buf[m]? = some 0) :
    ∃ result, parseFilename buf s = some result ∧
      ∀ buf' p, result = some (buf', p) → Named buf buf' s m p := by
  obtain ⟨e, ends, low, high, here⟩ := stringEnd_of_zero order zero
  have found : strstr buf s filenameString = some (indexWord buf filenameString s e) := by
    rw [strstr, ends]
    rfl
  rw [parseFilename]
  simp only [Option.bind_eq_bind]
  rw [found, Option.bind_some]
  cases word : indexWord buf filenameString s e with
  | none => exact ⟨none, rfl, fun _ _ none => nomatch none⟩
  | some fname =>
    obtain ⟨after, before, -⟩ := indexWord_eq_some word
    have inLine : fname ≤ m := by omega
    obtain ⟨backslash, search, isInside⟩ := strrchr_of_zero inLine zero 92
    simp only
    rw [search, Option.bind_some]
    have position : ∃ name, name = backslash.elim (fname + filenameString.length) (· + 1) ∧
        s ≤ name ∧ name ≤ m := by
      refine ⟨_, rfl, ?_⟩
      cases backslash with
      | none =>
        rw [Option.elim_none]
        omega
      | some p =>
        obtain ⟨low, high, -⟩ := isInside p rfl
        rw [Option.elim_some]
        omega
    obtain ⟨name, same, afterLine, nameInside⟩ := position
    rw [← same]
    obtain ⟨quote, search, -⟩ := strchr_of_zero nameInside zero 34
    rw [search, Option.bind_some]
    have ended : ∃ buf', buf' = quote.elim buf (buf.set · 0) ∧ buf'.length = buf.length ∧
        ∀ k : Nat, buf[k]? = some 0 → buf'[k]? = some 0 := by
      refine ⟨_, rfl, ?_⟩
      cases quote with
      | none => exact ⟨rfl, fun _ zero => zero⟩
      | some p => exact ⟨List.length_set, fun _ zero => set_zero zero⟩
    obtain ⟨buf', same, length, zeros⟩ := ended
    rw [← same]
    obtain ⟨dot, search, isInside⟩ := strrchr_of_zero nameInside (zeros m zero) 46
    rw [search, Option.bind_some]
    cases dot with
    | none => exact ⟨none, rfl, fun _ _ none => nomatch none⟩
    | some p =>
      obtain ⟨low, high, -⟩ := isInside p rfl
      obtain ⟨allowed, decided⟩ := isAllowed_of_zero (Nat.le_of_lt high) (zeros m zero)
      simp only
      rw [decided, Option.bind_some]
      cases allowed with
      | false => exact ⟨none, rfl, fun _ _ none => nomatch none⟩
      | true =>
        refine ⟨some (buf', p), rfl, ?_⟩
        intro _ _ same
        obtain ⟨rfl, rfl⟩ := Prod.mk.inj (Option.some.inj same)
        exact ⟨length, zeros, by omega, high⟩

theorem skipLines_inside (order : p ≤ bufend) (inside : bufend ≤ buf.length) :
    ∃ result, skipLines buf p bufend = some result := by
  rw [skipLines]
  simp only [Option.bind_eq_bind]
  rw [findSymbol_eq order inside, Option.bind_some]
  cases found : index buf 13 p bufend with
  | none => exact ⟨none, rfl⟩
  | some lineEnd =>
    obtain ⟨-, before, -⟩ := index_eq_some order inside found
    simp only
    split
    · exact ⟨none, rfl⟩
    · rw [findSymbol_eq (by omega) inside, Option.bind_some]
      cases index buf 13 (lineEnd + 1) bufend with
      | none => exact ⟨none, rfl⟩
      | some second =>
        simp only
        split <;> exact ⟨_, rfl⟩

/-- Every access is inside of the buffer, and the end of the file is counted from the end of
the first line. -/
theorem checkUpload_inside (size : Nat) (stdin : Bytes) :
    ∃ result, checkUpload size stdin = some result ∧
      ∀ upload, result = some upload → ∃ p e, index (stdin.take size) 13 0 size = some p ∧
        e ≤ p ∧ upload.fin = (size : Int) - 4 - e := by
  rw [checkUpload]
  by_cases short : stdin.length < size
  · exact ⟨none, if_pos short, fun _ none => nomatch none⟩
  rw [if_neg short]
  have length : (stdin.take size).length = size := by
    rw [List.length_take, Nat.min_eq_left (Nat.le_of_not_lt short)]
  generalize stdin.take size = buf at length
  simp only [Option.bind_eq_bind]
  rw [findSymbol_eq (Nat.zero_le _) (Nat.le_of_eq length.symm), Option.bind_some]
  cases found : index buf 13 0 size with
  | none => exact ⟨none, rfl, fun _ none => nomatch none⟩
  | some p =>
    obtain ⟨-, pInside, -⟩ := index_eq_some (Nat.zero_le _) (Nat.le_of_eq length.symm) found
    simp only
    by_cases behind : p + 2 > size
    · exact ⟨none, if_pos behind, fun _ none => nomatch none⟩
    have zero : (buf.set p 0)[p]? = some 0 := by
      rw [List.getElem?_set, if_pos rfl, if_pos (by omega)]
    have length' : size ≤ (buf.set p 0).length := by
      rw [List.length_set, length]
    rw [if_neg behind, findSymbol_eq (by omega) length', Option.bind_some]
    cases line : index (buf.set p 0) 13 (p + 2) size with
    | none => exact ⟨none, rfl, fun _ none => nomatch none⟩
    | some q =>
      obtain ⟨low, qInside, -⟩ := index_eq_some (by omega) length' line
      have zero' : ((buf.set p 0).set q 0)[q]? = some 0 := by
        rw [List.getElem?_set, if_pos rfl, if_pos (by omega)]
      obtain ⟨named, parsed, names⟩ := parseFilename_named low zero'
      simp only
      rw [parsed, Option.bind_some]
      cases named with
      | none => exact ⟨none, rfl, fun _ none => nomatch none⟩
      | some named =>
        obtain ⟨buf', fileext⟩ := named
        have isNamed := names buf' fileext rfl
        have before := isNamed.before
        have length'' : size ≤ buf'.length := by
          rw [isNamed.length, List.length_set, List.length_set, length]
        obtain ⟨begin, skipped⟩ := skipLines_inside (p := fileext) (by omega) length''
        simp only
        rw [skipped, Option.bind_some]
        cases begin with
        | none => exact ⟨none, rfl, fun _ none => nomatch none⟩
        | some begin =>
          obtain ⟨e, ends, -, eBefore, -⟩ := stringEnd_of_zero (Nat.zero_le p)
            (isNamed.zeros p (set_zero zero))
          simp only
          rw [ends, Option.bind_some]
          split
          · exact ⟨none, rfl, fun _ none => nomatch none⟩
          · refine ⟨_, rfl, ?_⟩
            intro upload same
            exact ⟨p, e, rfl, eBefore, by rw [← Option.some.inj same]⟩

end Steps

theorem Body.length_bytes (body : Body) :
    body.bytes.length =
      body.front.length + body.content.length + body.boundary.length + 8 := by
  simp only [Body.bytes, List.length_append, List.length_cons, List.length_nil]
  omega

/-- The first line of a body ends behind the boundary and its hyphens. -/
theorem Body.index_boundary (body : Body) :
    index body.bytes 13 0 body.bytes.length = some (body.boundary.length + 2) := by
  have line : body.bytes = ([45, 45] ++ body.boundary) ++ 13 :: body.bytes.drop
      (body.boundary.length + 3) := by
    simp [Body.bytes, Body.front]
  have noBreak : ∀ c ∈ [45, 45] ++ body.boundary, (!(c == (13 : UInt8))) = true := by
    intro c member
    have other : c ≠ 13 := by
      rintro rfl
      rcases List.mem_append.mp member with hyphen | inBoundary
      · revert hyphen
        decide
      · exact body.boundary_line inBoundary
    simpa using other
  have passed : body.bytes.takeWhile (fun c => !(c == 13)) = [45, 45] ++ body.boundary := by
    rw [line, List.takeWhile_append_of_pos noBreak]
    simp
  have stop : first body.bytes (· == 13) 0 body.bytes.length = body.boundary.length + 2 := by
    rw [first, slice, List.take_length, List.drop_zero, passed, List.length_append]
    simp only [List.length_cons, List.length_nil]
    omega
  rw [index, stop]
  exact if_neg (by rw [body.length_bytes]; omega)

/-- Nothing outside of the buffer is read or written, and the end of the file is never found:
the line break behind it is taken for a part of it. -/
theorem checkUpload_never (size : Nat) (stdin : Bytes) (body : Body) :
    (checkUpload size stdin).isSome = true ∧ ¬ParsesUpload body := by
  constructor
  · obtain ⟨result, inside, -⟩ := checkUpload_inside size stdin
    rw [inside]
    rfl
  · rintro ⟨fileext, parsed⟩
    obtain ⟨result, inside, counted⟩ := checkUpload_inside body.bytes.length body.bytes
    rw [inside] at parsed
    obtain ⟨p, e, line, before, fin⟩ := counted _ (Option.some.inj parsed)
    rw [List.take_length, body.index_boundary] at line
    have same := Option.some.inj line
    have length := body.length_bytes
    simp only at fin
    omega

/-! ## What is found -/

/-- A body whose line names a file with an allowed extension. -/
structure NamedBody extends Body where
  lead : Bytes
  stem : Bytes
  extension : Bytes
  trail : Bytes
  disposition_eq : disposition = lead ++ filenameString ++ (stem ++ extension) ++ 34 :: trail
  boundary_nulFree : 0 ∉ boundary
  disposition_nulFree : 0 ∉ disposition
  lead_other : ∀ k < lead.length, ¬filenameString <+: (lead ++ filenameString).drop k
  name_unquoted : 34 ∉ stem ++ extension
  noBackslash : 92 ∉ disposition
  allowed : allowedExtensions.any (strcaseeq extension) = true
  extension_eq : ∃ rest, extension = 46 :: rest ∧ 46 ∉ rest

section Pieces

variable {before piece after : Bytes} {c : UInt8} {e : Nat}

/-- A symbol behind a piece of a text that does not have it. -/
theorem index_piece (other : c ∉ piece) (inside : before.length + piece.length < e) :
    index (before ++ (piece ++ c :: after)) c before.length e =
      some (before.length + piece.length) := by
  have noStop : ∀ x ∈ piece, (!(x == c)) = true := by
    intro x member
    have different : x ≠ c := fun same => other (same ▸ member)
    simpa using different
  have long : e - before.length = piece.length + (e - before.length - piece.length - 1 + 1) := by
    omega
  have behind : slice (before ++ (piece ++ c :: after)) before.length e =
      piece ++ c :: after.take (e - before.length - piece.length - 1) := by
    rw [slice, List.take_append, List.take_of_length_le (by omega), List.drop_left, long,
      List.take_length_add_append, List.take_succ_cons]
    congr 3
    omega
  have stop : first (before ++ (piece ++ c :: after)) (· == c) before.length e =
      before.length + piece.length := by
    rw [first, behind, List.takeWhile_append_of_pos noStop]
    simp
  rw [index, stop]
  exact if_neg (by omega)

theorem stringEnd_piece (before after : Bytes) (other : 0 ∉ piece) :
    stringEnd (before ++ (piece ++ 0 :: after)) before.length =
      some (before.length + piece.length) := by
  have length : (before ++ (piece ++ 0 :: after)).length =
      before.length + piece.length + 1 + after.length := by
    simp only [List.length_append, List.length_cons]
    omega
  have found := @index_piece before piece after 0
    (before.length + piece.length + 1 + after.length) other (by omega)
  rw [index] at found
  split at found
  · cases found
  · rename_i stops
    rw [stringEnd, find_beyond (by omega), length, Option.some.inj found, if_pos (by omega)]

/-- The last of some symbols in a string. -/
theorem strrchr_piece {rest : Bytes} (before after : Bytes) (other : 0 ∉ piece ++ c :: rest)
    (last : c ∉ rest) :
    strrchr (before ++ ((piece ++ c :: rest) ++ 0 :: after)) before.length c =
      some (some (before.length + piece.length)) := by
  have ends := stringEnd_piece before after other
  have text : before ++ ((piece ++ c :: rest) ++ 0 :: after) =
      (before ++ piece ++ [c]) ++ (rest ++ 0 :: after) := by simp
  rw [strrchr, ends, Option.bind_some, findLast_eq (by simp), Option.some.injEq]
  apply lastIndex_of_last (by omega) (by simp)
  · rw [text, List.getElem?_append_left (by simp), List.getElem?_append_right (by simp)]
    simp
  · intro q after' before' here
    rw [text] at here
    apply last
    apply mem_piece (p := q) _ _ here
    · simp only [List.length_append, List.length_singleton]
      omega
    · simp only [List.length_append, List.length_cons, List.length_nil] at before' ⊢
      omega

theorem strrchr_absent (before after : Bytes) (other : 0 ∉ piece) (absent : c ∉ piece) :
    strrchr (before ++ (piece ++ 0 :: after)) before.length c = some none := by
  rw [strrchr, stringEnd_piece before after other, Option.bind_some, findLast_eq (by simp),
    Option.some.injEq]
  rw [lastIndex_eq_none_iff]
  intro q low high here
  exact absent (mem_piece low high here)

/-- The first of some symbols in a string. -/
theorem strchr_piece {rest : Bytes} (before after : Bytes) (other : 0 ∉ piece ++ c :: rest)
    (first : c ∉ piece) :
    strchr (before ++ ((piece ++ c :: rest) ++ 0 :: after)) before.length c =
      some (some (before.length + piece.length)) := by
  have ends := stringEnd_piece before after other
  have text : before ++ ((piece ++ c :: rest) ++ 0 :: after) =
      before ++ (piece ++ c :: (rest ++ 0 :: after)) := by simp
  rw [strchr, ends, Option.bind_some, findSymbol_eq (by omega) (by simp), text,
    index_piece first (by simp)]

/-- The first place of a word in a string. -/
theorem strstr_piece {word rest : Bytes} (before after : Bytes) (nonempty : 0 < word.length)
    (other : 0 ∉ piece ++ (word ++ rest))
    (first : ∀ k < piece.length, ¬word <+: (piece ++ word).drop k) :
    strstr (before ++ ((piece ++ (word ++ rest)) ++ 0 :: after)) before.length word =
      some (some (before.length + piece.length)) := by
  have ends := stringEnd_piece before after other
  have text : before ++ ((piece ++ (word ++ rest)) ++ 0 :: after) =
      (before ++ piece) ++ (word ++ (rest ++ 0 :: after)) := by simp
  rw [strstr, ends, Option.map_some, Option.some.injEq]
  apply indexWord_of_first (by omega)
  · simp only [List.length_append]
    omega
  · rw [wordAt_iff, text, ← List.length_append, slice_piece]
    refine ⟨?_, rfl⟩
    simp only [List.length_append]
    omega
  · intro q low high
    rw [← Bool.not_eq_true, wordAt_iff]
    rintro ⟨-, same⟩
    apply first (q - before.length) (by omega)
    have behind : (before ++ ((piece ++ (word ++ rest)) ++ 0 :: after)).drop q =
        (piece ++ word).drop (q - before.length) ++ (rest ++ 0 :: after) := by
      have split : before ++ ((piece ++ (word ++ rest)) ++ 0 :: after) =
          before ++ ((piece ++ word) ++ (rest ++ 0 :: after)) := by simp
      rw [split, List.drop_append, List.drop_eq_nil_of_le low, List.nil_append,
        List.drop_append_of_le_length (by rw [List.length_append]; omega)]
    rw [slice_eq_take, behind, List.take_append_of_le_length (by
      rw [List.length_drop, List.length_append]
      omega)] at same
    have isPrefix := List.take_prefix word.length ((piece ++ word).drop (q - before.length))
    rwa [same] at isPrefix

end Pieces

/-- Writing a zero over a symbol behind a piece of a text. -/
theorem set_piece (before after : Bytes) (c : UInt8) :
    (before ++ c :: after).set before.length 0 = before ++ 0 :: after := by
  rw [List.set_append_right _ _ (Nat.le_refl _), Nat.sub_self, List.set_cons_zero]

namespace NamedBody

variable (body : NamedBody)

/-- The boundary and its hyphens. -/
def first : Bytes :=
  [45, 45] ++ body.boundary

/-- The name of the file, with its extension. -/
def name : Bytes :=
  body.stem ++ body.extension

/-- What stands in the first line and in the next one in front of the name. -/
def opening : Bytes :=
  body.first ++ [0, 10] ++ body.lead ++ filenameString

/-- What stands behind the line with the name. -/
def behind : Bytes :=
  10 :: body.header ++ [13, 10, 13, 10] ++ body.content ++ [13, 10, 45, 45] ++ body.boundary ++
    [45, 45, 13, 10]

/-- The buffer after the name has been found. -/
def named : Bytes :=
  body.opening ++ (body.name ++ 0 :: (body.trail ++ 0 :: body.behind))

theorem mem_disposition {c : UInt8} (member : c ∈ body.name ∨ c ∈ body.trail) :
    c ∈ body.disposition := by
  rw [body.disposition_eq]
  simp only [List.mem_append, List.mem_cons]
  rcases member with inName | inTrail
  · exact .inl (.inr (List.mem_append.mp inName))
  · exact .inr (.inr inTrail)

/-- The name is found in its line. -/
theorem parseFilename_eq :
    parseFilename (body.first ++ [0, 10] ++ (body.disposition ++ 0 :: body.behind))
        (body.first ++ [0, 10]).length =
      some (some (body.named, body.opening.length + body.stem.length)) := by
  have noZero := body.disposition_nulFree
  have noBackslash := body.noBackslash
  obtain ⟨rest, extension, onlyDot⟩ := body.extension_eq
  have line : body.disposition =
      body.lead ++ (filenameString ++ (body.name ++ 34 :: body.trail)) := by
    rw [body.disposition_eq, name]
    simp
  have word := @strstr_piece body.lead filenameString (body.name ++ 34 :: body.trail)
    (body.first ++ [0, 10]) body.behind (by decide) (line ▸ noZero) body.lead_other
  rw [← line] at word
  -- No path is in front of the name.
  have text : body.first ++ [0, 10] ++ (body.disposition ++ 0 :: body.behind) =
      (body.first ++ [0, 10] ++ body.lead) ++
        ((filenameString ++ (body.name ++ 34 :: body.trail)) ++ 0 :: body.behind) := by
    rw [line]
    simp
  have zeroBehind : 0 ∉ filenameString ++ (body.name ++ 34 :: body.trail) := by
    intro member
    rw [line] at noZero
    exact noZero (List.mem_append_right _ member)
  have backslashBehind : 92 ∉ filenameString ++ (body.name ++ 34 :: body.trail) := by
    intro member
    rw [line] at noBackslash
    exact noBackslash (List.mem_append_right _ member)
  have path := strrchr_absent (body.first ++ [0, 10] ++ body.lead) body.behind zeroBehind
    backslashBehind
  rw [← text, List.length_append] at path
  -- The name ends at the quotation mark.
  have text' : body.first ++ [0, 10] ++ (body.disposition ++ 0 :: body.behind) =
      body.opening ++ ((body.name ++ 34 :: body.trail) ++ 0 :: body.behind) := by
    rw [text, opening]
    simp
  have zeroInName : 0 ∉ body.name ++ 34 :: body.trail :=
    fun member => zeroBehind (List.mem_append_right _ member)
  have quote := strchr_piece body.opening body.behind zeroInName body.name_unquoted
  have written : (body.opening ++ ((body.name ++ 34 :: body.trail) ++ 0 :: body.behind)).set
      (body.opening.length + body.name.length) 0 = body.named := by
    have parts : body.opening ++ ((body.name ++ 34 :: body.trail) ++ 0 :: body.behind) =
        (body.opening ++ body.name) ++ 34 :: (body.trail ++ 0 :: body.behind) := by simp
    rw [parts, ← List.length_append, set_piece, named, List.append_assoc]
  have nameEq : body.name = body.stem ++ 46 :: rest := by
    rw [name, extension]
  have zeroInStem : 0 ∉ body.stem ++ 46 :: rest := by
    rw [← nameEq]
    exact fun member => zeroInName (List.mem_append_left _ member)
  have dot := strrchr_piece body.opening (body.trail ++ 0 :: body.behind) zeroInStem onlyDot
  rw [← nameEq] at dot
  have allowed : isAllowed body.named (body.opening.length + body.stem.length) = some true := by
    have parts : body.named = (body.opening ++ body.stem) ++
        (body.extension ++ 0 :: (body.trail ++ 0 :: body.behind)) := by
      rw [named, name]
      simp
    have zeroInExtension : 0 ∉ body.extension := by
      rw [extension]
      exact fun member => zeroInStem (List.mem_append_right _ member)
    have ends := stringEnd_piece (body.opening ++ body.stem) (body.trail ++ 0 :: body.behind)
      zeroInExtension
    rw [isAllowed, parts, ← List.length_append, ends, Option.map_some, slice_piece, body.allowed]
  have length : body.opening.length =
      (body.first ++ [0, 10]).length + body.lead.length + filenameString.length := by
    rw [opening, List.length_append, List.length_append]
  rw [parseFilename]
  simp only [Option.bind_eq_bind]
  rw [word, Option.bind_some]
  simp only
  rw [path, Option.bind_some, Option.elim_none, ← length, text', quote, Option.bind_some,
    Option.elim_some, written]
  change ((strrchr body.named body.opening.length 46).bind fun dot => _) = _
  rw [named, dot, Option.bind_some]
  simp only
  rw [← named, allowed]
  rfl

theorem bytes_eq :
    body.bytes = body.first ++ 13 :: 10 :: (body.disposition ++ 13 :: body.behind) := by
  simp [Body.bytes, Body.front, first, behind]

theorem length_first : body.first.length = body.boundary.length + 2 := by
  simp only [first, List.length_append, List.length_cons, List.length_nil]
  omega

/-- The file begins behind two lines. -/
theorem skipLines_eq :
    skipLines body.named (body.opening.length + body.stem.length) body.bytes.length =
      some (some body.front.length) := by
  obtain ⟨rest, extension, -⟩ := body.extension_eq
  let tail := body.content ++ [13, 10, 45, 45] ++ body.boundary ++ [45, 45, 13, 10]
  let line := body.extension ++ 0 :: body.trail ++ 0 :: 10 :: body.header
  have text : body.named =
      (body.opening ++ body.stem) ++ (line ++ 13 :: (10 :: 13 :: 10 :: tail)) := by
    simp [named, name, behind, line, tail]
  have text' : body.named = (body.opening ++ body.stem ++ line ++ [13]) ++
      ([10] ++ 13 :: (10 :: tail)) := by
    rw [text]
    simp
  have noBreak : 13 ∉ line := by
    intro member
    simp only [line, List.mem_append, List.mem_cons] at member
    have noLine := body.disposition_line
    rcases member with (inExtension | isZero | inTrail) | isZero | isFeed | inHeader
    · exact noLine (body.mem_disposition (.inl (List.mem_append_right body.stem inExtension)))
    · exact absurd isZero (by decide)
    · exact noLine (body.mem_disposition (.inr inTrail))
    · exact absurd isZero (by decide)
    · exact absurd isFeed (by decide)
    · exact body.header_line inHeader
  have front : body.front.length = (body.opening ++ body.stem).length + line.length + 4 := by
    simp only [Body.front, opening, first, line, body.disposition_eq, List.length_append,
      List.length_cons, List.length_nil]
    omega
  have length := body.length_bytes
  have total : body.named.length = body.bytes.length := by
    rw [length, front, text]
    simp only [tail, List.length_append, List.length_cons, List.length_nil]
    omega
  have firstLine := @index_piece (body.opening ++ body.stem) line (10 :: 13 :: 10 :: tail) 13
    body.bytes.length noBreak (by omega)
  rw [← text] at firstLine
  have secondLine := @index_piece (body.opening ++ body.stem ++ line ++ [13]) [10] (10 :: tail) 13
    body.bytes.length (by decide) (by
      simp only [List.length_append, List.length_cons, List.length_nil] at front length ⊢
      omega)
  rw [← text'] at secondLine
  have next : (body.opening ++ body.stem ++ line ++ [13]).length =
      (body.opening ++ body.stem).length + line.length + 1 := by
    simp only [List.length_append, List.length_cons, List.length_nil]
  rw [next, List.length_singleton] at secondLine
  rw [skipLines, ← List.length_append]
  simp only [Option.bind_eq_bind]
  rw [findSymbol_eq (by omega) (Nat.le_of_eq total.symm), Option.bind_some, firstLine]
  simp only
  rw [if_neg (by omega), findSymbol_eq (by omega) (Nat.le_of_eq total.symm), Option.bind_some,
    secondLine]
  simp only
  rw [if_neg (by omega), front]

/-- The file is found, with the line break behind it. -/
theorem checkUpload_eq :
    checkUpload body.bytes.length body.bytes =
      some (some ⟨body.front.length, body.front.length + body.content.length + 2,
        body.opening.length + body.stem.length⟩) := by
  have length := body.length_bytes
  have line := body.index_boundary
  rw [← body.length_first] at line
  have ended : body.bytes.set body.first.length 0 =
      body.first ++ [0, 10] ++ (body.disposition ++ 13 :: body.behind) := by
    rw [body.bytes_eq, set_piece]
    simp
  have fname : body.first.length + 2 = (body.first ++ [0, 10]).length := by
    rw [List.length_append]
    rfl
  have total : (body.first ++ [0, 10] ++ (body.disposition ++ 13 :: body.behind)).length =
      body.bytes.length := by
    rw [← ended, List.length_set]
  have nextLine := @index_piece (body.first ++ [0, 10]) body.disposition body.behind 13
    body.bytes.length body.disposition_line (by
      rw [← total]
      simp only [List.length_append, List.length_cons, List.length_nil]
      omega)
  have ended' : (body.first ++ [0, 10] ++ (body.disposition ++ 13 :: body.behind)).set
      ((body.first ++ [0, 10]).length + body.disposition.length) 0 =
        body.first ++ [0, 10] ++ (body.disposition ++ 0 :: body.behind) := by
    rw [← List.append_assoc, ← List.length_append, set_piece, List.append_assoc]
  have inside : (body.first ++ [0, 10]).length ≤ body.bytes.length := by
    rw [← total]
    exact (List.sublist_append_left _ _).length_le
  have boundaryEnd : stringEnd body.named 0 = some body.first.length := by
    have text : body.named = [] ++ (body.first ++ 0 :: (10 :: (body.lead ++ filenameString ++
        (body.name ++ 0 :: (body.trail ++ 0 :: body.behind))))) := by
      simp [named, opening]
    have noZero : 0 ∉ body.first := by
      intro member
      rcases List.mem_append.mp member with hyphen | inBoundary
      · revert hyphen
        decide
      · exact body.boundary_nulFree inBoundary
    have ends := stringEnd_piece [] (10 :: (body.lead ++ filenameString ++
      (body.name ++ 0 :: (body.trail ++ 0 :: body.behind)))) noZero
    rwa [← text, List.length_nil, Nat.zero_add] at ends
  have start := body.length_first
  rw [checkUpload, if_neg (Nat.lt_irrefl _), List.take_length]
  simp only [Option.bind_eq_bind]
  rw [findSymbol_eq (Nat.zero_le _) (Nat.le_refl _), line, Option.bind_some]
  simp only
  rw [ended, fname, if_neg (by omega),
    findSymbol_eq inside (Nat.le_of_eq total.symm), nextLine, Option.bind_some]
  simp only
  rw [ended', body.parseFilename_eq, Option.bind_some]
  simp only
  rw [body.skipLines_eq, Option.bind_some]
  simp only
  rw [boundaryEnd, Option.bind_some]
  have fin : (body.bytes.length : Int) - 4 - body.first.length =
      body.front.length + body.content.length + 2 := by
    omega
  rw [fin, if_neg (by omega)]

end NamedBody

theorem oneByte_boundary_nulFree : (0 : UInt8) ∉ [120] := by
  decide

def oneByte : NamedBody where
  boundary := [120]
  disposition := filenameString ++ [97, 46, 103, 105, 102, 34]
  header := [58]
  content := [71]
  lead := []
  stem := [97]
  extension := [46, 103, 105, 102]
  trail := []
  boundary_line := by decide
  disposition_line := by decide
  header_line := by decide
  disposition_eq := rfl
  boundary_nulFree := oneByte_boundary_nulFree
  disposition_nulFree := by decide
  lead_other := fun _ negative => absurd negative (Nat.not_lt_zero _)
  name_unquoted := by decide
  noBackslash := by decide
  allowed := by decide
  extension_eq := ⟨[103, 105, 102], rfl, by decide⟩

/-- Instead of one byte, three are taken for the file. -/
theorem oneByte_not_parsed :
    ¬ParsesUpload oneByte.toBody ∧ checkUpload oneByte.bytes.length oneByte.bytes =
      some (some ⟨28, 31, 16⟩) := by
  have upload := oneByte.checkUpload_eq
  constructor
  · rintro ⟨fileext, parsed⟩
    rw [upload] at parsed
    have fin := congrArg Upload.fin (Option.some.inj (Option.some.inj parsed))
    simp only at fin
    omega
  · exact upload

end UploadParsing

end Fbbs
