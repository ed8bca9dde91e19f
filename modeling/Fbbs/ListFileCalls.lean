import Fbbs.DecimalText
import Fbbs.ListFiles

/-!
# One call on a list file

`add_to_file` and `del_from_file` of `lib/helper.c` with the names of the file and of its copy,
when no other process uses the file.
-/

namespace Fbbs

namespace ListFiles

abbrev Files := Bytes → Option Bytes

def Files.write (files : Files) (path contents : Bytes) : Files :=
  Function.update files path (some contents)

def Files.unlink (files : Files) (path : Bytes) : Files :=
  Function.update files path none

def Files.rename (files : Files) (path path' : Bytes) : Files :=
  Function.update (Function.update files path none) path' (files path)

/-- `HOMELEN`. -/
def homelen : Nat := 80

/-- `"%s.%d"` of the file and the process. -/
def copyName (file : CString) (pid : Nat) : Bytes :=
  file.bytes ++ 46 :: DecimalText.digits pid

def addToFile (files : Files) (pid : Nat) (file str : CString) (len : Nat) (overwrite : Bool)
    (equal : Option Equal) : Int × Files :=
  let fnew := copyName file pid
  if homelen ≤ fnew.length then (-1, files)
  else
    let opened := files.write fnew []
    let buf := (files file.bytes).elim [] fun _ =>
      fgetsAll lineBufsize ((opened file.bytes).getD [])
    let (exist, copy) := addLoop str len overwrite equal false buf
    let written := opened.write fnew (copy ++ if exist then [] else str.bytes)
    if !overwrite && exist then (bbsElexist, written.unlink fnew)
    else (0, written.rename fnew file.bytes)

/-- There is no result if `buf[len]` is outside of the buffer. -/
def delFromFile (files : Files) (pid : Nat) (file str : CString) : Option (Int × Files) :=
  match files file.bytes with
  | none => some (-1, files)
  | some _ =>
    let fnew := (copyName file pid).take (homelen - 1)
    let opened := files.write fnew []
    let buf := fgetsAll delBufsize ((opened file.bytes).getD [])
    if buf ≠ [] ∧ delBufsize ≤ str.bytes.length then none
    else
      let (deleted, copy) := delLoop str false buf
      let written := opened.write fnew copy
      if deleted then
        if copy = [] then some (0, written.unlink file.bytes)
        else some (0, written.rename fnew file.bytes)
      else some (-1, written.unlink fnew)

/-! ## What the calls should do -/

/-- A line with its newline, shorter than the buffer that it is read into. -/
structure IsLine (size : Nat) (line : Bytes) : Prop where
  ends : ∃ text, line = text ++ [10] ∧ 10 ∉ text
  nulFree : 0 ∉ line
  short : line.length < size

/-- The key comes first, and a blank or the newline behind it. -/
def isEntry (key : CString) (line : Bytes) : Bool :=
  (key.bytes ++ [32]).isPrefixOf line || (key.bytes ++ [10]).isPrefixOf line

/-- A file that was not there, or not like this, is not there any more. -/
def NothingLeft (before after : Files) (file : CString) : Prop :=
  ∀ path, path ≠ file.bytes → after path ≠ before path → after path = none

def contents (files : Files) (file : CString) : Bytes :=
  (files file.bytes).getD []

/-- A file with these lines gets another one at its end, or in place of the first equal one. -/
def Adds (files after : Files) (file str : CString) (len : Nat) (overwrite : Bool)
    (equal : Option Equal) (lines : List Bytes) (ret : Int) : Prop :=
  match lines.findIdx? fun line => equal.any fun equal => equal (.ofBytes line) str len with
  | none => ret = 0 ∧ contents after file = lines.flatten ++ str.bytes
  | some i =>
    if overwrite then ret = 0 ∧ contents after file = (lines.set i str.bytes).flatten
    else ret = bbsElexist ∧ after file.bytes = files file.bytes

/-- A file with these lines loses the first one with the key. -/
def Deletes (files after : Files) (file key : CString) (lines : List Bytes) (ret : Int) : Prop :=
  match lines.findIdx? (isEntry key) with
  | none => ret = -1 ∧ after file.bytes = files file.bytes
  | some i => ret = 0 ∧ contents after file = (lines.eraseIdx i).flatten

def Call.bufsize : Call → Nat
  | .addToFile _ _ _ _ => lineBufsize
  | .delFromFile _ => delBufsize

/-- The law of a call on a file with these lines. -/
def Call.Lawful (files : Files) (pid : Nat) (file : CString) (lines : List Bytes) : Call → Prop
  | .addToFile str len overwrite equal =>
    let (ret, after) := ListFiles.addToFile files pid file str len overwrite equal
    Adds files after file str len overwrite equal lines ret ∧ NothingLeft files after file
  | .delFromFile key =>
    ∃ ret after, ListFiles.delFromFile files pid file key = some (ret, after) ∧
      Deletes files after file key lines ret ∧ NothingLeft files after file

/-- The name of the copy fits.  A key that is looked for fits into the buffer and is not a whole
line with its newline, the copy has another name than the file, and the only line of a file is not
deleted, unless an empty copy was there before. -/
def Call.Proper (files : Files) (pid : Nat) (file : CString) (lines : List Bytes) : Call → Prop
  | .addToFile _ _ _ _ => (copyName file pid).length < homelen
  | .delFromFile key =>
    files file.bytes = none ∨
      file.bytes.length ≠ homelen - 1 ∧ (lines = [] ∨ key.bytes.length < delBufsize) ∧
        key.bytes ∉ lines ∧
        (files ((copyName file pid).take (homelen - 1)) = some [] ∨
          ∀ line, lines = [line] → isEntry key line = false)

/-! ## The loops -/

section Loops

theorem fgetsLines_line {room left : Nat} {acc text : Bytes} (plain : 10 ∉ text)
    (fits : text.length < left) (rest : Bytes) :
    Notifications.fgetsLines room left acc (text ++ 10 :: rest) =
      (acc ++ (text ++ [10])) :: Notifications.fgetsLines room room [] rest := by
  induction text generalizing left acc with
  | nil => rw [List.nil_append, Notifications.fgetsLines, if_pos (.inl rfl)]; rfl
  | cons byte text ih =>
    have other : byte ≠ 10 := fun same => plain (same ▸ List.mem_cons_self)
    have plain' : 10 ∉ text := fun member => plain (List.mem_cons_of_mem _ member)
    rw [List.length_cons] at fits
    rw [List.cons_append, Notifications.fgetsLines,
      if_neg (not_or.mpr ⟨other, by omega⟩), ih plain' (by omega)]
    simp

theorem fgetsAll_flatten {size : Nat} {lines : List Bytes}
    (isLine : ∀ line ∈ lines, IsLine size line) : fgetsAll size lines.flatten = lines := by
  unfold fgetsAll
  induction lines with
  | nil => simp [Notifications.fgetsLines]
  | cons line lines ih =>
    obtain ⟨⟨text, rfl, plain⟩, -, short⟩ := isLine line List.mem_cons_self
    rw [List.length_append, List.length_singleton] at short
    rw [List.flatten_cons, List.append_assoc, List.singleton_append,
      fgetsLines_line plain (by omega), ih fun other member =>
        isLine other (List.mem_cons_of_mem _ member)]
    rfl

theorem fputs_line {size : Nat} {line : Bytes} (isLine : IsLine size line) : fputs line = line :=
  List.takeWhile_eq_self_iff.mpr (CString.byte_bne_zero ⟨line, isLine.nulFree⟩)

variable {size : Nat} {lines : List Bytes} {str : CString} {len : Nat} {overwrite : Bool}
  {equal : Option Equal}

theorem addLoop_exist (isLine : ∀ line ∈ lines, IsLine size line) :
    addLoop str len overwrite equal true lines = (true, lines.flatten) := by
  induction lines with
  | nil => rfl
  | cons line lines ih =>
    have others := ih fun other member => isLine other (List.mem_cons_of_mem _ member)
    simp [addLoop, others, fputs_line (isLine line List.mem_cons_self)]

/-- What the loop of `add_to_file` finds and copies. -/
theorem addLoop_eq (isLine : ∀ line ∈ lines, IsLine size line) :
    match lines.findIdx? fun line => equal.any fun equal => equal (.ofBytes line) str len with
    | none => addLoop str len overwrite equal false lines = (false, lines.flatten)
    | some i => (addLoop str len overwrite equal false lines).1 = true ∧
        (overwrite = true → (addLoop str len overwrite equal false lines).2 =
          (lines.set i str.bytes).flatten) := by
  induction lines with
  | nil => rfl
  | cons line lines ih =>
    have isLines : ∀ other ∈ lines, IsLine size other :=
      fun other member => isLine other (List.mem_cons_of_mem _ member)
    have others := ih isLines
    have here := fputs_line (isLine line List.mem_cons_self)
    rw [List.findIdx?_cons]
    by_cases found : equal.any (fun equal => equal (.ofBytes line) str len) = true
    · simp only [found, if_true]
      constructor
      · cases overwrite <;> simp [addLoop, found, addLoop_exist isLines]
      · rintro rfl
        simp [addLoop, found, addLoop_exist isLines]
    · simp only [found, Bool.false_eq_true, if_false]
      revert others
      cases lines.findIdx? fun line => equal.any fun equal => equal (.ofBytes line) str len with
      | none =>
        intro others
        simp [addLoop, found, others, here]
      | some i =>
        rintro ⟨exist, copy⟩
        simp only [Option.map_some, addLoop, found, Bool.not_false, Bool.true_and,
          Bool.false_eq_true, if_false]
        refine ⟨exist, fun replaces => ?_⟩
        rw [copy replaces, here]
        rfl

/-- A line with the key, if the key is not the whole line. -/
theorem delMatches_eq {key : CString} {line : Bytes} (isLine : IsLine size line)
    (part : key.bytes ≠ line) : delMatches key line = isEntry key line := by
  have plain : (CString.ofBytes line).bytes = line := fputs_line isLine
  rw [delMatches, plain, Bool.eq_iff_iff, isEntry]
  simp only [Bool.and_eq_true, Bool.or_eq_true, List.isPrefixOf_iff_prefix]
  constructor
  · rintro ⟨⟨behind, rfl⟩, next⟩
    rw [List.drop_left] at next
    cases behind with
    | nil => exact absurd (List.append_nil _).symm part
    | cons c behind =>
      simp only [Bool.or_eq_true, beq_iff_eq] at next
      rcases next with rfl | rfl
      · exact .inl ⟨behind, by simp⟩
      · exact .inr ⟨behind, by simp⟩
  · rintro (⟨behind, rfl⟩ | ⟨behind, rfl⟩)
    · exact ⟨⟨32 :: behind, by simp⟩, by simp⟩
    · exact ⟨⟨10 :: behind, by simp⟩, by simp⟩

theorem delLoop_deleted {key : CString} (isLine : ∀ line ∈ lines, IsLine size line) :
    delLoop key true lines = (true, lines.flatten) := by
  induction lines with
  | nil => rfl
  | cons line lines ih =>
    have others := ih fun other member => isLine other (List.mem_cons_of_mem _ member)
    simp [delLoop, others, fputs_line (isLine line List.mem_cons_self)]

/-- What the loop of `del_from_file` finds and copies. -/
theorem delLoop_eq {key : CString} (isLine : ∀ line ∈ lines, IsLine size line) :
    delLoop key false lines =
      match lines.findIdx? (delMatches key) with
      | none => (false, lines.flatten)
      | some i => (true, (lines.eraseIdx i).flatten) := by
  induction lines with
  | nil => rfl
  | cons line lines ih =>
    have isLines : ∀ other ∈ lines, IsLine size other :=
      fun other member => isLine other (List.mem_cons_of_mem _ member)
    have others := ih isLines
    have here := fputs_line (isLine line List.mem_cons_self)
    rw [List.findIdx?_cons]
    by_cases found : delMatches key line = true
    · simp [delLoop, found, delLoop_deleted isLines]
    · simp only [found, delLoop, Bool.not_false, Bool.true_and, Bool.false_eq_true, if_false,
        others, here]
      cases lines.findIdx? (delMatches key) <;> simp

end Loops

section Names

variable {files : Files} {file : CString} {fnew first copy : Bytes}

theorem nothingLeft_unlink :
    NothingLeft files (((files.write fnew first).write fnew copy).unlink fnew) file := by
  intro path _ changed
  by_cases isCopy : path = fnew
  · simp [Files.unlink, isCopy]
  · exact absurd (by simp [Files.unlink, Files.write, isCopy]) changed

theorem nothingLeft_rename :
    NothingLeft files (((files.write fnew first).write fnew copy).rename fnew file.bytes) file := by
  intro path other changed
  by_cases isCopy : path = fnew
  · rw [Files.rename, Function.update_of_ne other, isCopy, Function.update_self]
  · exact absurd (by simp [Files.rename, Files.write, isCopy, other]) changed

theorem unlink_file (other : file.bytes ≠ fnew) :
    ((files.write fnew first).write fnew copy).unlink fnew file.bytes = files file.bytes := by
  simp [Files.unlink, Files.write, other]

theorem contents_rename :
    contents (((files.write fnew first).write fnew copy).rename fnew file.bytes) file = copy := by
  simp [contents, Files.rename, Files.write]

theorem copyName_ne (file : CString) (pid : Nat) : file.bytes ≠ copyName file pid := by
  intro same
  have length := congrArg List.length same
  rw [copyName, List.length_append, List.length_cons] at length
  omega

end Names

theorem lines_eq_nil {size : Nat} {lines : List Bytes} (isLine : ∀ line ∈ lines, IsLine size line)
    (empty : lines.flatten = []) : lines = [] := by
  cases lines with
  | nil => rfl
  | cons line lines =>
    obtain ⟨⟨text, rfl, -⟩, -, -⟩ := isLine line List.mem_cons_self
    simp at empty

section Calls

variable {files : Files} {pid : Nat} {file : CString} {lines : List Bytes}

theorem addToFile_lawful_iff {str : CString} {len : Nat} {overwrite : Bool}
    {equal : Option Equal} (holds : contents files file = lines.flatten)
    (isLine : ∀ line ∈ lines, IsLine lineBufsize line) :
    (Call.addToFile str len overwrite equal).Lawful files pid file lines ↔
      (copyName file pid).length < homelen := by
  have other := copyName_ne file pid
  have opened : (files.write (copyName file pid) []) file.bytes = files file.bytes := by
    simp [Files.write, other]
  have buf : ((files file.bytes).elim [] fun _ =>
      fgetsAll lineBufsize ((files file.bytes).getD [])) = lines := by
    cases here : files file.bytes with
    | none =>
      rw [contents, here] at holds
      exact (lines_eq_nil isLine holds.symm).symm
    | some bytes =>
      rw [contents, here] at holds
      have same : bytes = lines.flatten := holds
      simp only [Option.elim_some, Option.getD_some, same]
      exact fgetsAll_flatten isLine
  have loop := @addLoop_eq _ _ str len overwrite equal isLine
  simp only [Call.Lawful, ListFiles.addToFile, opened, buf]
  by_cases long : homelen ≤ (copyName file pid).length
  · rw [if_pos long]
    refine iff_of_false ?_ (Nat.not_lt.mpr long)
    rintro ⟨adds, -⟩
    unfold Adds at adds
    split at adds
    next =>
      have ret : (-1 : Int) = 0 := adds.1
      omega
    next =>
      split at adds
      · have ret : (-1 : Int) = 0 := adds.1
        omega
      · have ret : (-1 : Int) = -24 := adds.1
        omega
  · rw [if_neg long]
    refine iff_of_true ?_ (Nat.not_le.mp long)
    unfold Adds
    split
    next missing =>
      simp only [missing] at loop
      simp only [loop, Bool.and_false, Bool.false_eq_true, if_false]
      exact ⟨⟨trivial, contents_rename⟩, nothingLeft_rename⟩
    next i found =>
      simp only [found] at loop
      simp only [loop.1, Bool.and_true, if_true, List.append_nil]
      cases overwrite with
      | false =>
        simp only [Bool.not_false, if_true, Bool.false_eq_true, if_false]
        exact ⟨⟨trivial, unlink_file other⟩, nothingLeft_unlink⟩
      | true =>
        simp only [Bool.not_true, Bool.false_eq_true, if_false, if_true]
        exact ⟨⟨trivial, contents_rename.trans (loop.2 rfl)⟩, nothingLeft_rename⟩

/-- The file is emptied before it is read if the copy has its name. -/
theorem not_deletes_of_same_name {key : CString} (there : files file.bytes ≠ none)
    (same : (copyName file pid).take (homelen - 1) = file.bytes) :
    ¬(Call.delFromFile key).Lawful files pid file lines := by
  rintro ⟨ret, after, result, deletes, -⟩
  obtain ⟨bytes, here⟩ := Option.ne_none_iff_exists'.mp there
  have empty : fgetsAll delBufsize
      (((files.write file.bytes []) file.bytes).getD []) = [] := by
    simp [Files.write, fgetsAll, Notifications.fgetsLines]
  simp only [ListFiles.delFromFile, here, same, empty, delLoop, ne_eq, not_true, false_and,
    if_false, Bool.false_eq_true, Option.some.injEq, Prod.mk.injEq] at result
  obtain ⟨rfl, rfl⟩ := result
  unfold Deletes at deletes
  split at deletes
  next =>
    have gone := deletes.2
    simp [Files.unlink, here] at gone
  next =>
    have zero : (-1 : Int) = 0 := deletes.1
    omega

theorem take_copyName_ne (length : file.bytes.length ≠ homelen - 1) :
    (copyName file pid).take (homelen - 1) ≠ file.bytes := by
  intro same
  have lengths := congrArg List.length same
  rw [List.length_take, copyName, List.length_append, List.length_cons] at lengths
  omega

theorem buf_eq {bytes : Bytes} (here : files file.bytes = some bytes)
    (length : file.bytes.length ≠ homelen - 1) (isFile : bytes = lines.flatten)
    (isLine : ∀ line ∈ lines, IsLine delBufsize line) :
    fgetsAll delBufsize (((files.write ((copyName file pid).take (homelen - 1)) [])
      file.bytes).getD []) = lines := by
  have other := (@take_copyName_ne pid file length).symm
  rw [Files.write, Function.update_of_ne other, here, isFile]
  exact fgetsAll_flatten isLine

/-- The key is longer than the buffer. -/
theorem delFromFile_eq_none {key : CString} {bytes : Bytes}
    (here : files file.bytes = some bytes) (length : file.bytes.length ≠ homelen - 1)
    (isFile : bytes = lines.flatten) (isLine : ∀ line ∈ lines, IsLine delBufsize line)
    (long : ¬(lines = [] ∨ key.bytes.length < delBufsize)) :
    delFromFile files pid file key = none := by
  have outside : lines ≠ [] ∧ delBufsize ≤ key.bytes.length :=
    ⟨fun none => long (.inl none), Nat.not_lt.mp fun short => long (.inr short)⟩
  simp only [delFromFile, here, buf_eq here length isFile isLine, if_pos outside]

theorem delFromFile_eq {key : CString} {bytes : Bytes} (here : files file.bytes = some bytes)
    (length : file.bytes.length ≠ homelen - 1) (isFile : bytes = lines.flatten)
    (isLine : ∀ line ∈ lines, IsLine delBufsize line)
    (fits : lines = [] ∨ key.bytes.length < delBufsize) :
    delFromFile files pid file key =
      let fnew := (copyName file pid).take (homelen - 1)
      match lines.findIdx? (delMatches key) with
      | none => some (-1, ((files.write fnew []).write fnew lines.flatten).unlink fnew)
      | some i =>
        let copy := (lines.eraseIdx i).flatten
        let written := (files.write fnew []).write fnew copy
        if copy = [] then some (0, written.unlink file.bytes)
        else some (0, written.rename fnew file.bytes) := by
  have room : ¬(lines ≠ [] ∧ delBufsize ≤ key.bytes.length) := by
    rintro ⟨nonempty, long⟩
    have short := fits.resolve_left nonempty
    omega
  simp only [delFromFile, here, buf_eq here length isFile isLine, if_neg room, delLoop_eq isLine]
  cases lines.findIdx? (delMatches key) <;> rfl

theorem findIdx?_congr {α : Type*} {p q : α → Bool} {list : List α}
    (same : ∀ a ∈ list, p a = q a) : list.findIdx? p = list.findIdx? q := by
  induction list with
  | nil => rfl
  | cons a list ih =>
    have others := ih fun b member => same b (List.mem_cons_of_mem _ member)
    rw [List.findIdx?_cons, List.findIdx?_cons, same a List.mem_cons_self, others]

/-- A key that is a whole line with its newline is not in front of anything. -/
theorem isEntry_of_mem {key : CString} (isLine : ∀ line ∈ lines, IsLine delBufsize line)
    (whole : key.bytes ∈ lines) : ∀ line ∈ lines, isEntry key line = false := by
  intro line member
  obtain ⟨⟨text, isKey, -⟩, -, -⟩ := isLine _ whole
  obtain ⟨⟨text', rfl, plain⟩, -, -⟩ := isLine _ member
  have behind : ∀ c rest, text ++ [10] ++ [c] ++ rest ≠ text' ++ [10] := by
    intro c rest same
    apply plain
    have dropped := congrArg List.dropLast same
    rw [List.append_assoc, List.dropLast_append_of_ne_nil (by simp), List.dropLast_concat]
      at dropped
    rw [← dropped]
    simp
  rw [isEntry, Bool.or_eq_false_iff, isKey]
  constructor
  · rw [Bool.eq_false_iff, ne_eq, List.isPrefixOf_iff_prefix]
    rintro ⟨rest, same⟩
    exact behind _ _ same
  · rw [Bool.eq_false_iff, ne_eq, List.isPrefixOf_iff_prefix]
    rintro ⟨rest, same⟩
    exact behind _ _ same

theorem delMatches_self {key : CString} (isLine : ∀ line ∈ lines, IsLine delBufsize line)
    (whole : key.bytes ∈ lines) : delMatches key key.bytes = true := by
  have plain : (CString.ofBytes key.bytes).bytes = key.bytes := fputs_line (isLine _ whole)
  simp [delMatches, plain]

theorem not_deletes_of_mem {key : CString} {bytes : Bytes}
    (here : files file.bytes = some bytes) (length : file.bytes.length ≠ homelen - 1)
    (isFile : bytes = lines.flatten) (isLine : ∀ line ∈ lines, IsLine delBufsize line)
    (fits : lines = [] ∨ key.bytes.length < delBufsize) (whole : key.bytes ∈ lines) :
    ¬(Call.delFromFile key).Lawful files pid file lines := by
  rintro ⟨ret, after, result, deletes, -⟩
  rw [delFromFile_eq here length isFile isLine fits] at result
  have noEntry : lines.findIdx? (isEntry key) = none :=
    List.findIdx?_eq_none_iff.mpr (isEntry_of_mem isLine whole)
  simp only [Deletes, noEntry] at deletes
  cases found : lines.findIdx? (delMatches key) with
  | none =>
    have missing := List.findIdx?_eq_none_iff.mp found _ whole
    rw [delMatches_self isLine whole] at missing
    cases missing
  | some i =>
    simp only [found] at result
    have ret : ret = 0 := by
      split at result
      · cases result
        rfl
      · cases result
        rfl
    omega

/-- The copy is left if it is empty. -/
theorem nothingLeft_iff {fnew : Bytes} (other : file.bytes ≠ fnew) :
    NothingLeft files (((files.write fnew []).write fnew []).unlink file.bytes) file ↔
      files fnew = some [] := by
  constructor
  · intro nothing
    by_contra changed
    have gone := nothing fnew other.symm
    simp only [Files.unlink, Files.write, ne_eq, other.symm, not_false_eq_true,
      Function.update_of_ne, Function.update_self] at gone
    cases gone (fun same => changed same.symm)
  · intro before path notFile changed
    by_cases isCopy : path = fnew
    · exact absurd (by simp [Files.unlink, Files.write, isCopy, other.symm, before]) changed
    · exact absurd (by simp [Files.unlink, Files.write, isCopy, notFile]) changed

theorem eraseIdx_flatten_iff (isLine : ∀ line ∈ lines, IsLine delBufsize line) {i : Nat}
    (inside : i < lines.length) : (lines.eraseIdx i).flatten = [] ↔ lines.length = 1 := by
  have length := List.length_eraseIdx_of_lt inside
  constructor
  · intro empty
    rw [lines_eq_nil (fun line member => isLine line (List.mem_of_mem_eraseIdx member)) empty,
      List.length_nil] at length
    omega
  · intro single
    rw [single] at length
    rw [List.eq_nil_of_length_eq_zero length, List.flatten_nil]

theorem delFromFile_lawful_iff {key : CString} (holds : contents files file = lines.flatten)
    (isLine : ∀ line ∈ lines, IsLine delBufsize line) :
    (Call.delFromFile key).Lawful files pid file lines ↔
      (Call.delFromFile key).Proper files pid file lines := by
  simp only [Call.Proper]
  cases here : files file.bytes with
  | none =>
    refine iff_of_true ⟨-1, files, ?_, ?_, fun _ _ changed => absurd rfl changed⟩ (.inl rfl)
    · rw [ListFiles.delFromFile, here]
    · rw [contents, here] at holds
      rw [lines_eq_nil isLine holds.symm]
      exact ⟨rfl, rfl⟩
  | some bytes =>
    rw [contents, here] at holds
    have isFile : bytes = lines.flatten := holds
    rw [or_iff_right (Option.some_ne_none bytes)]
    by_cases length : file.bytes.length = homelen - 1
    · refine iff_of_false (not_deletes_of_same_name (by simp [here]) ?_) fun proper =>
        proper.1 length
      exact List.take_left' length
    by_cases fits : lines = [] ∨ key.bytes.length < delBufsize
    swap
    · refine iff_of_false ?_ fun proper => fits proper.2.1
      rintro ⟨ret, after, result, -, -⟩
      cases (delFromFile_eq_none here length isFile isLine fits).symm.trans result
    by_cases whole : key.bytes ∈ lines
    · exact iff_of_false (not_deletes_of_mem here length isFile isLine fits whole)
        fun proper => proper.2.2.1 whole
    have same : lines.findIdx? (delMatches key) = lines.findIdx? (isEntry key) :=
      findIdx?_congr fun line member =>
        delMatches_eq (isLine line member) fun equal => whole (equal ▸ member)
    have other := (@take_copyName_ne pid file length).symm
    rw [and_iff_right length, and_iff_right fits, and_iff_right whole, Call.Lawful,
      delFromFile_eq here length isFile isLine fits, same]
    cases found : lines.findIdx? (isEntry key) with
    | none =>
      refine iff_of_true ⟨_, _, rfl, ?_, nothingLeft_unlink⟩ (.inr fun line single => ?_)
      · simp only [Deletes, found]
        exact ⟨trivial, unlink_file other⟩
      · exact List.findIdx?_eq_none_iff.mp found line (single ▸ List.mem_singleton_self line)
    | some i =>
      obtain ⟨inside, isHere, -⟩ := List.findIdx?_eq_some_iff_getElem.mp found
      simp only
      by_cases empty : (lines.eraseIdx i).flatten = []
      · have single := (eraseIdx_flatten_iff isLine inside).mp empty
        rw [if_pos empty, empty]
        have entry : ¬∀ line, lines = [line] → isEntry key line = false := by
          intro none
          obtain ⟨line, isSingle⟩ := List.length_eq_one_iff.mp single
          have missing := none line isSingle
          have member : lines[i] ∈ lines := List.getElem_mem inside
          generalize lines[i] = first at isHere member
          rw [isSingle, List.mem_singleton] at member
          rw [member, missing] at isHere
          cases isHere
        rw [or_iff_left entry, ← nothingLeft_iff other]
        constructor
        · rintro ⟨ret, after, result, -, nothing⟩
          cases result
          exact nothing
        · intro nothing
          refine ⟨_, _, rfl, ?_, nothing⟩
          simp only [Deletes, found, empty]
          exact ⟨trivial, by simp [contents, Files.unlink]⟩
      · rw [if_neg empty]
        refine iff_of_true ⟨_, _, rfl, ?_, nothingLeft_rename⟩ (.inr fun line single => ?_)
        · simp only [Deletes, found]
          exact ⟨trivial, contents_rename⟩
        · refine absurd ((eraseIdx_flatten_iff isLine inside).mpr ?_) empty
          rw [single, List.length_singleton]

end Calls

/-- A call keeps the law if and only if its names, its key and its copy are proper. -/
theorem lawful_iff (files : Files) (pid : Nat) (file : CString) (call : Call)
    {lines : List Bytes} (holds : contents files file = lines.flatten)
    (isLine : ∀ line ∈ lines, IsLine call.bufsize line) :
    call.Lawful files pid file lines ↔ call.Proper files pid file lines := by
  cases call with
  | addToFile str len overwrite equal => exact addToFile_lawful_iff holds isLine
  | delFromFile key => exact delFromFile_lawful_iff holds isLine

/-- `l`. -/
def listName : CString :=
  ⟨[108], by decide⟩

/-- `a`. -/
def listKey : CString :=
  .ofBytes [97]

/-- A list with an entry for `l`, and one for `a` with a remark. -/
def twoEntries : Files :=
  fun path => if path = [108] then some [108, 10, 97, 32, 120, 10] else none

theorem twoEntries_isLine : ∀ line ∈ [[108, 10], [97, 32, 120, 10]], IsLine delBufsize line := by
  intro line member
  obtain rfl | rfl := List.mem_pair.mp member
  · exact ⟨⟨[108], rfl, by decide⟩, by decide, by decide⟩
  · exact ⟨⟨[97, 32, 120], rfl, by decide⟩, by decide, by decide⟩

/-- The entry of `a` is found and deleted. -/
theorem listKey_lawful :
    (Call.delFromFile listKey).Lawful twoEntries 7 listName [[108, 10], [97, 32, 120, 10]] ∧
      (delFromFile twoEntries 7 listName listKey).map (fun result => result.2 [108]) =
        some (some [108, 10]) :=
  ⟨(lawful_iff twoEntries 7 listName (.delFromFile listKey) rfl twoEntries_isLine).mpr
    (.inr ⟨by decide, .inr (by decide), by decide, .inr fun line single => nomatch single⟩),
    by decide⟩

/-- A list with one entry, and nothing else. -/
def oneEntry : Files :=
  fun path => if path = [108] then some [97, 10] else none

theorem oneEntry_isLine : ∀ line ∈ [[97, 10]], IsLine delBufsize line := by
  intro line member
  rw [List.mem_singleton.mp member]
  exact ⟨⟨[97], rfl, by decide⟩, by decide, by decide⟩

/-- The only entry is deleted, and the empty copy `l.7` is left. -/
theorem listKey_not_lawful :
    ¬(Call.delFromFile listKey).Lawful oneEntry 7 listName [[97, 10]] ∧
      (delFromFile oneEntry 7 listName listKey).map (fun result => result.2 [108, 46, 55]) =
        some (some []) := by
  constructor
  · rw [delFromFile_lawful_iff rfl oneEntry_isLine]
    rintro (missing | ⟨-, -, -, before | kept⟩)
    · cases missing
    · exact absurd before (by decide)
    · exact absurd (kept _ rfl) (by decide)
  · decide

end ListFiles

end Fbbs
