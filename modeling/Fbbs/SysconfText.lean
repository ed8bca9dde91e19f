import Fbbs.DecimalText
import Fbbs.LineFraming
import Fbbs.Parcel

/-!
# The menu configuration

The text that `lib/sysconf.c` compiles.  `sysconf_parse` reads a file line by line; which
functions it calls, and with which strings, depends on the text alone.  Here a file becomes the
list of these calls, and included files are put in their places.
-/

namespace Fbbs

namespace Sysconf

open LineFraming

/-- `LINE_BUFSIZE`. -/
def lineBufsize : Nat := 256

/-- A string of the program. -/
def lit (chars : List Char) : CString :=
  .ofBytes (chars.map Char.toUInt8)

/-! ## Tokens -/

def isBlank (c : UInt8) : Bool :=
  c = 32 || c = 9

/-- The delimiters ` \t\n`. -/
def isSpace (c : UInt8) : Bool :=
  c = 32 || c = 9 || c = 10

/-- A call of `strtok`: the token, and where the next call goes on. -/
def strtok (delimiter : UInt8 → Bool) (text : Bytes) : Option (Bytes × Bytes) :=
  match text.dropWhile delimiter with
  | [] => none
  | start =>
    some (start.takeWhile (!delimiter ·), (start.dropWhile (!delimiter ·)).drop 1)

/-- A string after `strtok` has been called on it. -/
def cutToken (delimiter : UInt8 → Bool) (text : Bytes) : Bytes :=
  text.takeWhile delimiter ++ (text.dropWhile delimiter).takeWhile (!delimiter ·)

def skipBlanks (text : Bytes) : Bytes :=
  text.dropWhile isBlank

/-! ## Numbers -/

def digitValue (c : UInt8) : Nat :=
  if 48 ≤ c ∧ c ≤ 57 then c.toNat - 48
  else if 97 ≤ c ∧ c ≤ 122 then c.toNat - 87
  else if 65 ≤ c ∧ c ≤ 90 then c.toNat - 55
  else 36

/-- The digits of a number after its sign, with their base. -/
def withBase (text : Bytes) : Nat × Bytes :=
  match text with
  | 48 :: x :: digit :: rest =>
    if (x = 120 ∨ x = 88) ∧ digitValue digit < 16 then (16, digit :: rest) else (8, text)
  | 48 :: _ => (8, text)
  | _ => (10, text)

/-- `strtol` with a `long` of 64 bits; the base is given or found. -/
def strtol (base : Option Nat) (text : Bytes) : Int :=
  let text := text.dropWhile fun c => c = 32 || (9 ≤ c && c ≤ 13)
  let negative := text.head? = some 45
  let text := if text.head? = some 45 ∨ text.head? = some 43 then text.drop 1 else text
  let (base, digits) := base.elim (withBase text) (·, text)
  let value := (digits.takeWhile (digitValue · < base)).foldl
    (fun sum c => base * sum + digitValue c) 0
  if negative then -(min value (2 ^ 63) : Nat) else (min value (2 ^ 63 - 1) : Nat)

def atoi (text : Bytes) : Int32 :=
  .ofInt (strtol (some 10) text)

/-! ## Calls -/

inductive Value
  | number (val : Int32)
  | flags (names : List CString)
  | menu

/-- A line of a menu: its command and its arguments. -/
structure MenuLine where
  cmd : CString
  arg : Nat → CString

/-- The calls of `sysconf_parse`, with the lines that the called function reads. -/
inductive Call
  | addstr (str : CString)
  | addkey (key : CString) (str : Option CString) (val : Value)
  | addmenu (key : CString) (lines : List MenuLine)
  | addblock (key : CString) (lines : List CString)
  | parse (fname : CString)

/-- An argument of a menu line: between quotes, or up to a blank. -/
def menuArg (text : Bytes) : CString :=
  match skipBlanks text with
  | 34 :: quoted => .ofBytes (quoted.takeWhile (· ≠ 34))
  | word => .ofBytes (word.takeWhile (!isBlank ·))

/-- At most `count` arguments of a menu line. -/
def menuArgs : Nat → Bytes → List CString
  | 0, _ => []
  | count + 1, text =>
    match strtok (fun c => c = 44 || c = 10) text with
    | none => []
    | some (arg, rest) => menuArg arg :: menuArgs count rest

/-- A line of a menu, unless it is empty or a comment. -/
def menuLine (buf : CString) : Option MenuLine :=
  match strtok isSpace buf.bytes with
  | none => none
  | some (cmd, rest) =>
    if cmd.head? = some 35 then none
    else some ⟨.ofBytes cmd, fun n => (menuArgs 5 rest).getD n .empty⟩

/-- The lines of a group, up to one that begins with `%`, and the rest of the file. -/
def groupLines : Nat → Bytes → List CString × Bytes
  | 0, stream => ([], stream)
  | fuel + 1, stream =>
    match fgets lineBufsize stream with
    | none => ([], stream)
    | some (line, rest) =>
      let buf := CString.ofBytes line
      if buf.bytes.head? = some 37 then ([], rest)
      else
        let lines := groupLines fuel rest
        (buf :: lines.1, lines.2)

/-- The tokens of a value that are not in quotes. -/
def valueNames : Nat → Bytes → List CString
  | 0, _ => []
  | fuel + 1, text =>
    match strtok (fun c => c = 44 || isBlank c) text with
    | none => []
    | some (name, rest) => .ofBytes name :: valueNames fuel rest

/-- A line `key = value`. -/
def keyLine (ptr : Bytes) : List Call :=
  match strtok (fun c => c = 61 || c = 35 || c = 10) ptr with
  | none => []
  | some (key, rest) =>
    match strtok (fun c => c = 35 || c = 10) rest with
    | none => []
    | some (str, _) =>
      let key := CString.ofBytes (cutToken isBlank key)
      match skipBlanks str with
      | 34 :: quoted =>
        let str := cutToken (· = 34) quoted
        [.addkey key (some (.ofBytes str)) (.number (atoi str))]
      | str => [.addkey key none (.flags (valueNames str.length str))]

/-- The loop of `sysconf_parse`. -/
def parseLines : Nat → Bytes → List Call
  | 0, _ => []
  | fuel + 1, stream =>
    match fgets lineBufsize stream with
    | none => []
    | some (line, rest) =>
      let ptr := skipBlanks (CString.ofBytes line).bytes
      match ptr.head? with
      | some 37 =>
        let name := ptr.takeWhile (!isSpace ·)
        if name = (lit ['%', 'm', 'e', 'n', 'u']).bytes then
          match strtok isSpace (ptr.drop (name.length + 1)) with
          | none => parseLines fuel rest
          | some (str, _) =>
            let group := groupLines rest.length rest
            .addmenu (.ofBytes str) (group.1.filterMap menuLine) ::
              parseLines fuel group.2
        else
          let group := groupLines rest.length rest
          .addblock (.ofBytes (name.drop 1)) group.1 :: parseLines fuel group.2
      | some 35 =>
        match strtok (fun c => isSpace c || c = 34) ptr with
        | none => parseLines fuel rest
        | some (key, more) =>
          match strtok (fun c => isSpace c || c = 34) more with
          | none => parseLines fuel rest
          | some (str, _) =>
            if key = (lit ['#', 'i', 'n', 'c', 'l', 'u', 'd', 'e']).bytes then
              .parse (.ofBytes str) :: parseLines fuel rest
            else parseLines fuel rest
      | some 10 => parseLines fuel rest
      | _ => keyLine ptr ++ parseLines fuel rest

/-- What a pointer to nothing points to. -/
def nullString : CString :=
  lit ['(', 'n', 'u', 'l', 'l', ' ', 'p', 't', 'r', ')']

/-- The calls that a file makes after it has been opened. -/
def fileCalls (contents : Bytes) : List Call :=
  .addstr nullString :: parseLines contents.length contents

/-! ## Included files -/

section Files

-- The files that can be opened.
variable (files : CString → Option Bytes)

/-- `sysconf_parse`, where files are included up to some depth. -/
def sysconfParse : Nat → CString → Option (List Call)
  | 0, _ => none
  | depth + 1, fname =>
    match files fname with
    | none => some []
    | some contents =>
      ((fileCalls contents).mapM fun (call : Call) =>
        match call with
        | .parse included => sysconfParse depth included
        | call => some [call]).map List.flatten

/-- Every file has a rank above that of the files it includes. -/
def Acyclic (rank : CString → Nat) : Prop :=
  ∀ fname contents included, files fname = some contents →
    Call.parse included ∈ fileCalls contents → rank included < rank fname

variable {files}

theorem mapM_isSome {α β : Type} {f : α → Option β} {list : List α}
    (each : ∀ a ∈ list, ∃ b, f a = some b) : ∃ results, list.mapM f = some results := by
  induction list with
  | nil => exact ⟨[], rfl⟩
  | cons a list ih =>
    obtain ⟨⟨b, first⟩, others⟩ := List.forall_mem_cons.mp each
    obtain ⟨results, rest⟩ := ih others
    refine ⟨b :: results, ?_⟩
    rw [List.mapM_cons, first, rest]
    rfl

/-- Files that include each other without a cycle are parsed; the first string that is added is
the null string. -/
theorem sysconfParse_isSome {rank : CString → Nat} (acyclic : Acyclic files rank) {depth : Nat}
    {fname : CString} (deep : rank fname < depth) :
    ∃ calls, sysconfParse files depth fname = some calls ∧
      (calls = [] ∨ ∃ rest, calls = .addstr nullString :: rest) := by
  induction depth generalizing fname with
  | zero => cases deep
  | succ depth ih =>
    rw [sysconfParse]
    cases opened : files fname with
    | none => exact ⟨[], rfl, Or.inl rfl⟩
    | some contents =>
      obtain ⟨results, all⟩ := @mapM_isSome Call (List Call) (fun call =>
        match call with
        | .parse included => sysconfParse files depth included
        | call => some [call]) (parseLines contents.length contents) (by
          intro call member
          split
          · rename_i included
            have less := acyclic fname contents included opened
              (List.mem_cons_of_mem _ member)
            obtain ⟨calls, parsed, -⟩ := @ih included (by omega)
            exact ⟨calls, parsed⟩
          · exact ⟨_, rfl⟩)
      refine ⟨.addstr nullString :: results.flatten, ?_, Or.inr ⟨_, rfl⟩⟩
      simp only
      rw [fileCalls, List.mapM_cons, all]
      rfl

end Files

end Sysconf

end Fbbs
