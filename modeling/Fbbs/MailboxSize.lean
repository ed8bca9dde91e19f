import Fbbs.DecimalText
import Fbbs.RegistrationCode
import Fbbs.SysconfText
import Fbbs.TransitionRuns

/-!
# The size of a mailbox

`getmailsize` of `lib/mail.c` adds up an index of mails and the files that it lists.  The sum is
kept in a file that only depends on the owner, and the listed files are looked up in the mailbox
of the user who asks.
-/

namespace Fbbs

namespace Mailbox

open RegistrationCode (initial homeLen)

/-- What `stat` and `fopen` find under a path. -/
structure Entry where
  contents : Bytes
  ctime : Int

abbrev Disk := Bytes → Option Entry

/-- `mail/`. -/
def mailPrefix : Bytes := [109, 97, 105, 108, 47]

/-- `"mail/%c/%s/%s"`. -/
def mailPath (userid : CString) (filename : Bytes) : Bytes :=
  mailPrefix ++ initial userid :: 47 :: userid.bytes ++ 47 :: filename

/-- An array of `HOMELEN` holds the path. -/
def Fits (path : Bytes) : Prop := path.length + 1 ≤ homeLen

instance (path : Bytes) : Decidable (Fits path) := inferInstanceAs (Decidable (_ ≤ _))

/-- There is no result if the path overflows the array. -/
def setmfile (userid filename : CString) : Option Bytes :=
  let path := mailPath userid filename.bytes
  if Fits path then some path else none

/-- `.DIR`. -/
def dotDir : Bytes := [46, 68, 73, 82]

def setmdir (userid : CString) : Option Bytes :=
  let path := mailPath userid dotDir
  if Fits path then some path else none

/-- `"tmp/%s.mailsize"`, cut by `snprintf`. -/
def sizePath (user : CString) : Bytes :=
  ([116, 109, 112, 47] ++ user.bytes ++ [46, 109, 97, 105, 108, 115, 105, 122, 101]).take
    (homeLen - 1)

/-- `sizeof(struct fileheader)`. -/
def fileheaderSize : Nat := 256

/-- The records of an index, of which the names are used. -/
def filenames (index : Bytes) : List CString :=
  (List.range (index.length / fileheaderSize)).map fun i =>
    CString.ofBytes ((index.drop (fileheaderSize * i)).take fileheaderSize)

/-- The loop over the records. -/
def addSizes (disk : Disk) (userid : CString) : List CString → Int32 → Option Int32
  | [], size => some size
  | filename :: rest, size => do
    let file ← setmfile userid filename
    match disk file with
    | none => addSizes disk userid rest size
    | some st => addSizes disk userid rest (size + Int32.ofNat st.contents.length)

/-- The kept sum, unless it is missing, empty or older than the index. -/
def keptSize (disk : Disk) (user : CString) (index : Entry) : Option Bytes :=
  (disk (sizePath user)).bind fun st =>
    if st.contents ≠ [] ∧ index.ctime ≤ st.ctime then some st.contents else none

def getmailsize (disk : Disk) (currentuser user : CString) (now : Int) :
    Option (Int32 × Disk) := do
  let path ← setmdir user
  match disk path with
  | none => some (0, disk)
  | some index =>
    if index.contents = [] then some (0, disk)
    else
      match keptSize disk user index with
      | some text => some (Sysconf.atoi text, disk)
      | none =>
        let sum ← addSizes disk currentuser (filenames index.contents)
          (Int32.ofNat index.contents.length)
        let size := sum / 1024
        some (size, Function.update disk (sizePath user)
          (some ⟨DecimalText.ofInt size.toInt, now⟩))

/-! ## The size -/

def fileSize (disk : Disk) (path : Bytes) : Nat :=
  (disk path).elim 0 fun st => st.contents.length

/-- The bytes of the index and of the owner's files that it lists. -/
def mailboxSize (disk : Disk) (user : CString) : Nat :=
  (disk (mailPath user dotDir)).elim 0 fun index =>
    index.contents.length +
      ((filenames index.contents).map fun filename =>
        fileSize disk (mailPath user filename.bytes)).sum

def kilobytes (disk : Disk) (user : CString) : Int :=
  (mailboxSize disk user / 1024 : Nat)

/-- A sum that would be used is the right one. -/
def KeptRight (disk : Disk) (user : CString) : Prop :=
  ∀ index text, disk (mailPath user dotDir) = some index → keptSize disk user index = some text →
    (Sysconf.atoi text).toInt = kilobytes disk user

/-- The paths of the index, of the listed files and of the kept sum. -/
def Belongs (disk : Disk) (user : CString) (path : Bytes) : Prop :=
  path = mailPath user dotDir ∨ path = sizePath user ∨
    ∃ index, disk (mailPath user dotDir) = some index ∧
      ∃ filename ∈ filenames index.contents, path = mailPath user filename.bytes

/-! ## Runs -/

structure State where
  disk : Disk
  /-- What the calls have returned, the last one first. -/
  sizes : List Int32

inductive Label
  | call (currentuser : CString) (now : Int)
  | write (path : Bytes) (entry : Option Entry)

/-- The size of the mailbox of `user` is asked for, or some file changes. -/
def step (user : CString) (state : State) : Label → Option State
  | .call currentuser now =>
    (getmailsize state.disk currentuser user now).map fun (size, disk) =>
      ⟨disk, size :: state.sizes⟩
  | .write path entry => some { state with disk := Function.update state.disk path entry }

/-- A sum that has to be made is less than `2 ^ 31`, and the mailbox of the user who asks has
files of the same sizes under the listed names. -/
def SameView (disk : Disk) (currentuser user : CString) : Prop :=
  Fits (mailPath user dotDir) ∧
    ∀ index, disk (mailPath user dotDir) = some index → index.contents ≠ [] →
      keptSize disk user index = none →
        mailboxSize disk user < 2147483648 ∧
          ∀ filename ∈ filenames index.contents,
            Fits (mailPath currentuser filename.bytes) ∧
              fileSize disk (mailPath currentuser filename.bytes) =
                fileSize disk (mailPath user filename.bytes)

/-- The mailbox stays as it is. -/
def Guard (user : CString) (state : State) : Label → Prop
  | .call currentuser _ => SameView state.disk currentuser user
  | .write path _ => ¬Belongs state.disk user path

/-! ## Numbers in text -/

section Numbers

theorem digitValue_of_isDigit {byte : UInt8} (digit : DecimalText.isDigit byte = true) :
    Sysconf.digitValue byte = byte.toNat - 48 := by
  simp only [DecimalText.isDigit, Bool.and_eq_true, decide_eq_true_eq] at digit
  simp [Sysconf.digitValue, digit]

theorem strtol_of_digits {text : Bytes} (nonempty : text ≠ [])
    (digit : ∀ byte ∈ text, DecimalText.isDigit byte = true) :
    Sysconf.strtol (some 10) text = (min (DecimalText.value text) (2 ^ 63 - 1) : Nat) := by
  obtain ⟨byte, rest, rfl⟩ := List.exists_cons_of_ne_nil nonempty
  have first := digit byte List.mem_cons_self
  simp only [DecimalText.isDigit, Bool.and_eq_true, decide_eq_true_eq,
    UInt8.le_iff_toNat_le] at first
  have low : 48 ≤ byte.toNat := first.1
  have notBlank : (decide (byte = 32) || (decide (9 ≤ byte) && decide (byte ≤ 13))) = false := by
    simp only [Bool.or_eq_false_iff, Bool.and_eq_false_iff, decide_eq_false_iff_not,
      ← UInt8.toNat_inj, UInt8.le_iff_toNat_le, UInt8.reduceToNat]
    omega
  have notMinus : byte ≠ 45 := by
    rintro rfl
    exact absurd low (by decide)
  have notPlus : byte ≠ 43 := by
    rintro rfl
    exact absurd low (by decide)
  have all : ((byte :: rest).takeWhile (Sysconf.digitValue · < 10)) = byte :: rest := by
    apply List.takeWhile_eq_self_iff.mpr
    intro other member
    have isDigit := digit other member
    rw [digitValue_of_isDigit isDigit, decide_eq_true_eq]
    simp only [DecimalText.isDigit, Bool.and_eq_true, decide_eq_true_eq,
      UInt8.le_iff_toNat_le] at isDigit
    have high : other.toNat ≤ 57 := isDigit.2
    omega
  have value : (byte :: rest).foldl (fun sum c => 10 * sum + Sysconf.digitValue c) 0 =
      DecimalText.value (byte :: rest) := by
    apply List.foldl_ext
    intro sum c member
    rw [digitValue_of_isDigit (digit c member)]
  simp [Sysconf.strtol, notBlank, notMinus, notPlus, all, value]

theorem atoi_ofInt {size : Nat} (small : size < 2147483648) :
    (Sysconf.atoi (DecimalText.ofInt size)).toInt = size := by
  have printed : DecimalText.ofInt size = DecimalText.digits size := by
    simp [DecimalText.ofInt]
  rw [Sysconf.atoi, printed, strtol_of_digits (DecimalText.digits_ne_nil size)
    fun byte => DecimalText.isDigit_of_mem_digits, DecimalText.value_digits,
    Nat.min_eq_left (by omega)]
  exact Int32.toInt_ofNat_of_lt small

theorem toInt_kilobytes {size : Nat} (small : size < 2147483648) :
    (Int32.ofNat size / 1024).toInt = (size / 1024 : Nat) := by
  rw [Int32.toInt_div_of_ne_right _ _ (by decide), Int32.toInt_ofNat_of_lt small]
  rfl

end Numbers

/-! ## Files -/

section Files

variable {disk : Disk} {user : CString}

theorem sizePath_ne_mailPath (userid : CString) (filename : Bytes) :
    sizePath user ≠ mailPath userid filename := by
  intro same
  have first := congrArg List.head? same
  simp [sizePath, mailPath, mailPrefix, homeLen] at first

/-- Only the index and the listed files count. -/
theorem mailboxSize_update {path : Bytes} (entry : Option Entry)
    (index : path ≠ mailPath user dotDir)
    (listed : ∀ index, disk (mailPath user dotDir) = some index →
      ∀ filename ∈ filenames index.contents, path ≠ mailPath user filename.bytes) :
    mailboxSize (Function.update disk path entry) user = mailboxSize disk user := by
  rw [mailboxSize, mailboxSize, Function.update_of_ne index.symm]
  cases found : disk (mailPath user dotDir) with
  | none => rfl
  | some index =>
    have same : ∀ filename ∈ filenames index.contents,
        fileSize (Function.update disk path entry) (mailPath user filename.bytes) =
          fileSize disk (mailPath user filename.bytes) := by
      intro filename member
      rw [fileSize, fileSize, Function.update_of_ne (listed index found filename member).symm]
    simp only [Option.elim_some]
    rw [List.map_congr_left same]

theorem mailboxSize_update_sizePath (disk : Disk) (user : CString) (entry : Option Entry) :
    mailboxSize (Function.update disk (sizePath user) entry) user = mailboxSize disk user :=
  mailboxSize_update entry (sizePath_ne_mailPath user dotDir)
    fun _ _ filename _ => sizePath_ne_mailPath user filename.bytes

theorem addSizes_eq {currentuser : CString} {names : List CString} {size : Nat}
    (same : ∀ filename ∈ names, Fits (mailPath currentuser filename.bytes) ∧
      fileSize disk (mailPath currentuser filename.bytes) =
        fileSize disk (mailPath user filename.bytes)) :
    addSizes disk currentuser names (Int32.ofNat size) =
      some (Int32.ofNat (size +
        (names.map fun filename => fileSize disk (mailPath user filename.bytes)).sum)) := by
  induction names generalizing size with
  | nil => rfl
  | cons filename rest ih =>
    obtain ⟨fits, equal⟩ := same filename List.mem_cons_self
    have later := fun other member => same other (List.mem_cons_of_mem filename member)
    rw [addSizes, setmfile, if_pos fits, List.map_cons, List.sum_cons, ← equal, fileSize]
    simp only [Option.bind_eq_bind, Option.bind_some]
    cases found : disk (mailPath currentuser filename.bytes) with
    | none => simpa using ih later
    | some st =>
      simp only [Option.elim_some]
      rw [← Int32.ofNat_add, ih later, Nat.add_assoc]

end Files

/-! ## Calls -/

section Calls

variable {disk : Disk} {user : CString}

/-- A call returns the size and leaves a right sum. -/
theorem getmailsize_spec {currentuser : CString} (now : Int) (kept : KeptRight disk user)
    (view : SameView disk currentuser user) :
    ∃ size after, getmailsize disk currentuser user now = some (size, after) ∧
      size.toInt = kilobytes disk user ∧
      mailboxSize after user = mailboxSize disk user ∧ KeptRight after user := by
  obtain ⟨fits, sums⟩ := view
  simp only [getmailsize, setmdir, if_pos fits, Option.bind_eq_bind, Option.bind_some]
  cases found : disk (mailPath user dotDir) with
  | none => exact ⟨0, disk, rfl, by simp [kilobytes, mailboxSize, found], rfl, kept⟩
  | some index =>
    simp only
    by_cases empty : index.contents = []
    · have zero : kilobytes disk user = 0 := by
        simp [kilobytes, mailboxSize, found, empty, filenames]
      exact ⟨0, disk, if_pos empty, zero.symm, rfl, kept⟩
    · rw [if_neg empty]
      cases text : keptSize disk user index with
      | some text' => exact ⟨_, disk, rfl, kept index text' found text, rfl, kept⟩
      | none =>
        obtain ⟨small, same⟩ := sums index found empty text
        have whole : addSizes disk currentuser (filenames index.contents)
            (Int32.ofNat index.contents.length) =
              some (Int32.ofNat (mailboxSize disk user)) := by
          rw [addSizes_eq same, mailboxSize, found]
          rfl
        have value := toInt_kilobytes small
        have unchanged := mailboxSize_update_sizePath disk user
          (some ⟨DecimalText.ofInt (Int32.ofNat (mailboxSize disk user) / 1024).toInt, now⟩)
        simp only [whole, Option.bind_some]
        refine ⟨_, _, rfl, value, unchanged, ?_⟩
        intro index' text' found' used
        simp only [keptSize, Function.update_self, Option.bind_some] at used
        rw [Option.ite_none_right_eq_some, Option.some.injEq] at used
        rw [← used.2, kilobytes, unchanged, value, atoi_ofInt (by omega)]

theorem keptRight_write {path : Bytes} (entry : Option Entry) (kept : KeptRight disk user)
    (outside : ¬Belongs disk user path) :
    mailboxSize (Function.update disk path entry) user = mailboxSize disk user ∧
      KeptRight (Function.update disk path entry) user := by
  obtain ⟨other, another, listed⟩ : path ≠ mailPath user dotDir ∧ path ≠ sizePath user ∧
      ∀ index, disk (mailPath user dotDir) = some index →
        ∀ filename ∈ filenames index.contents, path ≠ mailPath user filename.bytes :=
    ⟨fun same => outside (.inl same), fun same => outside (.inr (.inl same)),
      fun index found filename member same =>
        outside (.inr (.inr ⟨index, found, filename, member, same⟩))⟩
  have unchanged := mailboxSize_update entry other listed
  refine ⟨unchanged, fun index text found used => ?_⟩
  rw [Function.update_of_ne other.symm] at found
  rw [keptSize, Function.update_of_ne another.symm] at used
  rw [kilobytes, unchanged]
  exact kept index text found used

end Calls

/-- The mailbox is the one at the start, and what was returned and kept is right. -/
def RightSoFar (disk : Disk) (user : CString) (state : State) : Prop :=
  mailboxSize state.disk user = mailboxSize disk user ∧ KeptRight state.disk user ∧
    ∀ size ∈ state.sizes, size.toInt = kilobytes disk user

theorem rightSoFar_step {disk : Disk} {user : CString} (state : State) (label : Label)
    (before : RightSoFar disk user state) (allowed : Guard user state label) :
    ∃ next, step user state label = some next ∧ RightSoFar disk user next := by
  obtain ⟨unchanged, kept, right⟩ := before
  cases label with
  | call currentuser now =>
    obtain ⟨size, after, returned, value, same, kept'⟩ := getmailsize_spec now kept allowed
    rw [kilobytes, unchanged] at value
    rw [unchanged] at same
    have stepped : step user state (.call currentuser now) =
        some ⟨after, size :: state.sizes⟩ := by
      rw [step, returned]
      rfl
    exact ⟨_, stepped, same, kept', List.forall_mem_cons.mpr ⟨value, right⟩⟩
  | write path entry =>
    obtain ⟨same, kept'⟩ := keptRight_write entry kept allowed
    exact ⟨_, rfl, same.trans unchanged, kept', right⟩

/-- Whoever asks and in which order, the size is that of the owner's mailbox. -/
theorem getmailsize_of_sameView {user : CString} {disk : Disk} {labels : List Label}
    (kept : KeptRight disk user)
    (guarded : TransitionRuns.Guarded (step user) (Guard user) labels ⟨disk, []⟩) :
    ∃ final, TransitionRuns.run (step user) labels ⟨disk, []⟩ = some final ∧
      ∀ size ∈ final.sizes, size.toInt = kilobytes disk user := by
  have initial : RightSoFar disk user ⟨disk, []⟩ := ⟨rfl, kept, by simp⟩
  obtain ⟨final, runs, -, -, right⟩ :=
    TransitionRuns.exists_run_of_guarded (RightSoFar disk user) rightSoFar_step initial guarded
  exact ⟨final, runs, right⟩

def owner : CString := .ofBytes [97]

def visitor : CString := .ofBytes [98]

/-- An index of one mail, `M.1`. -/
def oneRecord : Entry := ⟨[77, 46, 49] ++ List.replicate 253 0, 1⟩

/-- A mailbox of 1024 bytes. -/
def oneMail : Disk := fun path =>
  if path = mailPath owner dotDir then some oneRecord
  else if path = mailPath owner [77, 46, 49] then some ⟨List.replicate 768 65, 1⟩
  else none

set_option maxRecDepth 4000 in
theorem filenames_oneRecord :
    (filenames oneRecord.contents).map CString.bytes = [[77, 46, 49]] := by
  decide

/-- The disk after the owner has asked. -/
def keptMail : Disk :=
  Function.update oneMail (sizePath owner) (some ⟨[49], 2⟩)

theorem oneMail_kept : KeptRight oneMail owner := by
  intro index text _ used
  have missing : oneMail (sizePath owner) = none := by decide
  rw [keptSize, missing] at used
  cases used

set_option maxRecDepth 4000 in
theorem owner_sameView : SameView oneMail owner owner := by
  refine ⟨by decide, fun index found _ _ => ?_⟩
  obtain rfl : oneRecord = index := Option.some.inj found
  refine ⟨by decide, fun filename member => ⟨?_, rfl⟩⟩
  have name := List.mem_map_of_mem (f := CString.bytes) member
  rw [filenames_oneRecord, List.mem_singleton] at name
  rw [name]
  decide

theorem visitor_sameView : SameView keptMail visitor owner := by
  refine ⟨by decide, fun index found _ unused => ?_⟩
  obtain rfl : oneRecord = index := Option.some.inj found
  exact absurd unused (by decide)

set_option maxRecDepth 8000 in
theorem owner_asks :
    step owner ⟨oneMail, []⟩ (.call owner 2) = some ⟨keptMail, [1]⟩ := by
  rfl

theorem oneMail_asked :
    ∃ final, TransitionRuns.run (step owner) [.call owner 2, .call visitor 3] ⟨oneMail, []⟩ =
        some final ∧ ∀ size ∈ final.sizes, size.toInt = kilobytes oneMail owner :=
  getmailsize_of_sameView oneMail_kept
    (TransitionRuns.guarded_cons owner_sameView owner_asks
      ⟨visitor_sameView, fun _ _ => trivial⟩)

set_option maxRecDepth 8000 in
/-- The owner sees one kilobyte.  After a visitor has asked, the owner sees none. -/
theorem oneMail_sizes :
    kilobytes oneMail owner = 1 ∧
      ((TransitionRuns.run (step owner) [.call owner 2] ⟨oneMail, []⟩).map State.sizes =
        some [1]) ∧
      ((TransitionRuns.run (step owner) [.call visitor 2, .call owner 3] ⟨oneMail, []⟩).map
        State.sizes = some [0, 0]) := by
  decide

end Mailbox

end Fbbs
