import Mathlib.Logic.Function.Basic
import Fbbs.DecimalText
import Fbbs.LineFraming
import Fbbs.PostMarkup

/-!
# Message files

`src/sendmsg.c`: a message is a line with the sender and the time, and a line of text.  Both
are put into a buffer of fixed size and appended to the message file of the receiver, once for
each session that can be told.  The reader takes two lines for a message and counts from the
end.
-/

namespace Fbbs

namespace MessageFile

open LineFraming

def maxMsgSize : Nat := 239

def maxMsgLine : Nat := 2

def lineLen : Nat := 78

/-- `LINE_BUFSIZE`. -/
def lineBufsize : Nat := 256

inductive MsgType
  | normal
  | login
  | logout
  | broadcast
  deriving DecidableEq

/-- The text of `ctime` before its newline. -/
structure CTime where
  bytes : Bytes
  length_eq : bytes.length = 24
  plain : 10 ∉ bytes

/-- The session that sends a message. -/
structure Sender where
  userid : CString
  plain : 10 ∉ userid.bytes
  pid : Nat
  pid_lt : pid < 2 ^ 31
  /-- `HAS_PERM(PERM_SEECLOAK)`. -/
  seeCloak : Bool

/-- What a user types: one line that is not empty. -/
structure Text where
  bytes : Bytes
  nulFree : 0 ∉ bytes
  plain : 10 ∉ bytes
  pos : 1 ≤ bytes.length
  le : bytes.length ≤ maxMsgLine * lineLen

/-! ## Writing -/

/-- A string of the program. -/
def lit (chars : List Char) : Bytes :=
  chars.map Char.toUInt8

/-- `%-<width>.<width>s`. -/
def leftText (width : Nat) (bytes : Bytes) : Bytes :=
  bytes.take width ++ List.replicate (width - bytes.length) 32

/-- `%<width>.<width>s`. -/
def rightText (width : Nat) (bytes : Bytes) : Bytes :=
  List.replicate (width - bytes.length) 32 ++ bytes.take width

/-- What `snprintf` stores in a buffer. -/
def snprintf (size : Nat) (bytes : Bytes) : Bytes :=
  bytes.take (size - 1)

/-- The line before the text, without its newline. -/
def headLine (sender : Sender) (time : CTime) : MsgType → Bytes
  | .normal | .login =>
    lit ['\x1b', '[', '0', ';', '1', ';', '4', '4', ';', '3', '6', 'm'] ++
    leftText 12 sender.userid.bytes ++
    lit ['\x1b', '[', '3', '3', 'm', '(', '\x1b', '[', '3', '6', 'm'] ++
    leftText 24 (time.bytes ++ [10]) ++
    lit ['\x1b', '[', '3', '3', 'm', ')', ':', '\x1b', '[', '3', '7', 'm'] ++
    leftText 34 [32] ++
    lit ['\x1b', '[', '3', '1', 'm', '(', '^', 'Z'] ++ [0xbb, 0xd8] ++
    lit [')', '\x1b', '[', 'm', '\x1b', '['] ++ DecimalText.zeroPadded 5 sender.pid ++
    lit ['m']
  | .logout =>
    lit ['\x1b', '[', '0', ';', '1', ';', '4', '5', ';', '3', '6', 'm'] ++
    leftText 12 sender.userid.bytes ++
    lit ['\x1b', '[', '3', '6', 'm'] ++
    [0xcf, 0xf2, 0xc4, 0xfa, 0xb8, 0xe6, 0xb1, 0xf0] ++
    lit ['(', '\x1b', '[', '1', ';', '3', '6', ';', '4', '5', 'm'] ++
    rightText 24 (time.bytes ++ [10]) ++
    lit ['\x1b', '[', '3', '6', 'm', ')'] ++ [0xa3, 0xba] ++ lit ['\x1b', '[', 'm'] ++
    lit ['\x1b', '[', '1', ';', '3', '6', ';', '4', '5', 'm'] ++ leftText 38 [32] ++
    lit ['\x1b', '[', 'm', '\x1b', '['] ++ DecimalText.zeroPadded 5 0 ++ lit ['m']
  | .broadcast =>
    lit ['\x1b', '[', '1', ';', '5', ';', '4', '4', ';', '3', '3', 'm'] ++
    [0xd5, 0xbe, 0xb3, 0xa4, 0x20, 0xd3, 0xda] ++
    lit ['\x1b', '[', '3', '6', 'm', ' '] ++
    rightText 24 (time.bytes ++ [10]) ++
    lit [' ', '\x1b', '[', '3', '3', 'm'] ++ [0xb9, 0xe3, 0xb2, 0xa5, 0xa3, 0xba] ++
    lit ['\x1b', '[', 'm', '\x1b', '[', '1', ';', '3', '7', ';', '4', '4', 'm'] ++
    leftText 39 [32] ++
    lit ['\x1b', '[', 'm', '\x1b', '['] ++ DecimalText.zeroPadded 5 sender.pid ++ lit ['m']

structure Message where
  sender : Sender
  time : CTime
  type : MsgType
  text : Text

def Message.head (message : Message) : Bytes :=
  headLine message.sender message.time message.type

def generateFullMsg (message : Message) : Bytes :=
  let head := snprintf (maxMsgSize + 2) (message.head ++ [10])
  snprintf (maxMsgSize + 2) (head ++ message.text.bytes ++ [10])

/-- `ST_BBSNET`, `ST_LOCKSCREEN`, and all other states of a session. -/
inductive Status
  | bbsnet
  | lockscreen
  | other
  deriving DecidableEq

/-- A row of `sessions` with what is found out about its user. -/
structure MsgSession where
  web : Bool
  visible : Bool
  uname : CString
  status : Status
  /-- `DEF_LOGINFROM` and `DEF_LOGOFFMSG`, when `getuserec` finds the user. -/
  receiver : Option (Bool × Bool)

def sessionMsgable (sender : Sender) (s : MsgSession) (type : MsgType) : Bool :=
  if s.uname = sender.userid then false
  else if !s.visible && !sender.seeCloak then false
  else if s.web then false
  else if s.status = .bbsnet ∨ s.status = .lockscreen then false
  else
    match type with
    | .login => s.receiver.any Prod.fst
    | .logout => s.receiver.any Prod.snd
    | _ => true

/-- The message file of each user. -/
abbrev Files := CString → Option Bytes

/-- `file_append`. -/
def fileAppend (files : Files) (uname : CString) (msg : Bytes) : Files :=
  Function.update files uname (some ((files uname).getD [] ++ msg))

/-- A call of `send_msg`. -/
structure Call where
  message : Message
  sessions : List MsgSession

def Call.msgable (call : Call) (s : MsgSession) : Bool :=
  sessionMsgable call.message.sender s call.message.type

def sendMsg (files : Files) (call : Call) : Files :=
  call.sessions.foldl (fun files s =>
    if call.msgable s then fileAppend files s.uname (generateFullMsg call.message) else files)
    files

/-! ## Reading -/

/-- The loop of `get_num_msgs`. -/
def countMsgs : Nat → Bytes → Nat
  | 0, _ => 0
  | fuel + 1, stream =>
    match fgets 256 stream with
    | none => 0
    | some (_, rest) =>
      match fgets (maxMsgSize + 2) rest with
      | none => 0
      | some (_, rest) => countMsgs fuel rest + 1

def getNumMsgs (file : Option Bytes) : Nat :=
  match file with
  | none => 0
  | some contents => countMsgs contents.length contents

/-- The loop of `get_msg3`: the two buffers, and whether `j` is negative after it. -/
def readMsgs (hsize size : Nat) : Nat → Bytes → Bytes → Bytes → Bytes × Bytes × Bool
  | 0, head, buf, _ => (head, buf, true)
  | rounds + 1, head, buf, stream =>
    match fgets hsize stream with
    | none => (head, buf, rounds = 0)
    | some (head, rest) =>
      match fgets size rest with
      | none => (head, buf, rounds = 0)
      | some (buf, rest) => readMsgs hsize size rounds head buf rest

def lastNumber (head : Bytes) : Int :=
  if 91 ∈ head then
    (PostMarkup.strtol ((head.reverse.takeWhile (· ≠ 91)).reverse ++ [0]) 0).getD 0
  else 0

/-- The result of `get_msg3`, the number it uses, and its two buffers. -/
structure Shown where
  pid : Int
  num : Int
  head : Bytes
  buf : Bytes

def getMsg3 (file : Option Bytes) (num : Int) (head buf : Bytes) : Shown :=
  let all := getNumMsgs file
  let num := min (max num 1) all
  match file with
  | none => ⟨0, num, head, buf⟩
  | some contents =>
    let read := readMsgs lineBufsize lineBufsize (all - num + 1).toNat head buf contents
    ⟨if read.2.2 then lastNumber read.1 else 0, num, read.1, read.2.1⟩

/-! ## What the file should be -/

/-- All calls of `send_msg`, beginning without any files. -/
def filesAfter (calls : List Call) : Files :=
  calls.foldl sendMsg fun _ => none

/-- How often a message is appended to the file of a user. -/
def copies (user : CString) (call : Call) : Nat :=
  call.sessions.countP fun s => s.uname = user ∧ call.msgable s = true

/-- The messages that are delivered to a user. -/
def delivered (user : CString) (calls : List Call) : List Message :=
  (calls.filter fun call => 0 < copies user call).map Call.message

def Message.lines (message : Message) : List Bytes :=
  [message.head, message.text.bytes]

structure Framed (user : CString) (calls : List Call) : Prop where
  lines : (filesAfter calls user).getD [] =
    unlines ((delivered user calls).flatMap Message.lines)
  single : ∀ line ∈ (delivered user calls).flatMap Message.lines, 10 ∉ line
  count : getNumMsgs (filesAfter calls user) = (delivered user calls).length
  read : ∀ (k : Nat) (message : Message), (delivered user calls).reverse[k]? = some message →
    ∀ head buf, ∃ pid, getMsg3 (filesAfter calls user) (k + 1 : Nat) head buf =
      ⟨pid, (k + 1 : Nat), message.head ++ [10], message.text.bytes ++ [10]⟩

/-- The length of the longest text that fits beside the head and two newlines. -/
def maxText (pid : Nat) : MsgType → Nat
  | .normal | .login => 116 - max 5 (DecimalText.digits pid).length
  | .logout => 96
  | .broadcast => 119 - max 5 (DecimalText.digits pid).length

/-- The text fits in the buffer. -/
def Message.Fits (message : Message) : Prop :=
  message.text.bytes.length ≤ maxText message.sender.pid message.type

/-! ## The head -/

@[simp] theorem length_leftText (width : Nat) (bytes : Bytes) :
    (leftText width bytes).length = width := by
  rw [leftText, List.length_append, List.length_take, List.length_replicate]
  omega

@[simp] theorem length_rightText (width : Nat) (bytes : Bytes) :
    (rightText width bytes).length = width := by
  rw [rightText, List.length_append, List.length_take, List.length_replicate]
  omega

theorem length_zeroPadded (pid : Nat) :
    (DecimalText.zeroPadded 5 pid).length = max 5 (DecimalText.digits pid).length := by
  have natural : ¬(pid : Int) < 0 := by omega
  simp only [DecimalText.zeroPadded, natural, if_false, List.nil_append, List.length_append,
    List.length_replicate, List.length_nil, Int.natAbs_natCast]
  omega

theorem length_zeroPadded_zero : (DecimalText.zeroPadded 5 0).length = 5 := by
  decide

/-- The length of the line before the text. -/
def headLength (pid : Nat) : MsgType → Nat
  | .normal | .login => 122 + max 5 (DecimalText.digits pid).length
  | .logout => 142
  | .broadcast => 119 + max 5 (DecimalText.digits pid).length

theorem length_head (message : Message) :
    message.head.length = headLength message.sender.pid message.type := by
  rw [Message.head]
  cases message.type <;>
    simp [headLine, headLength, lit, length_zeroPadded, length_zeroPadded_zero] <;> omega

theorem length_digits_pid (sender : Sender) : (DecimalText.digits sender.pid).length ≤ 10 := by
  have small := sender.pid_lt
  exact DecimalText.length_digits_le 10 (by omega) (by omega)

theorem length_head_bounds (message : Message) :
    124 ≤ message.head.length ∧ message.head.length ≤ 142 := by
  have digits := length_digits_pid message.sender
  rw [length_head]
  cases message.type <;> simp only [headLength] <;> omega

theorem plain_leftText {width : Nat} {bytes : Bytes} (plain : 10 ∉ bytes.take width) :
    10 ∉ leftText width bytes := by
  rw [leftText, List.mem_append, not_or]
  exact ⟨plain, fun blank => absurd (List.eq_of_mem_replicate blank) (by decide)⟩

theorem plain_rightText {width : Nat} {bytes : Bytes} (plain : 10 ∉ bytes.take width) :
    10 ∉ rightText width bytes := by
  rw [rightText, List.mem_append, not_or]
  exact ⟨fun blank => absurd (List.eq_of_mem_replicate blank) (by decide), plain⟩

theorem plain_zeroPadded (width : Nat) (number : Int) :
    10 ∉ DecimalText.zeroPadded width number := by
  intro newline
  exact absurd (DecimalText.isNumberByte_of_mem_zeroPadded newline) (by decide)

theorem plain_time (time : CTime) : 10 ∉ (time.bytes ++ [10]).take 24 := by
  rw [List.take_left' time.length_eq]
  exact time.plain

/-- The head of a message is one line. -/
theorem plain_head (message : Message) : 10 ∉ message.head := by
  have name : 10 ∉ leftText 12 message.sender.userid.bytes :=
    plain_leftText fun newline => message.sender.plain (List.mem_of_mem_take newline)
  have leftTime := plain_leftText (plain_time message.time)
  have rightTime := plain_rightText (plain_time message.time)
  have blanks : ∀ width, 10 ∉ leftText width [32] := fun width =>
    plain_leftText fun newline =>
      absurd (List.mem_singleton.mp (List.mem_of_mem_take newline)) (by decide)
  have number := plain_zeroPadded 5 message.sender.pid
  rw [Message.head]
  cases message.type with
  | normal | login =>
    simp only [headLine, List.mem_append, not_or]
    exact ⟨⟨⟨⟨⟨⟨⟨⟨⟨⟨by decide, name⟩, by decide⟩, leftTime⟩, by decide⟩, blanks 34⟩, by decide⟩,
      by decide⟩, by decide⟩, number⟩, by decide⟩
  | logout =>
    simp only [headLine, List.mem_append, not_or]
    exact ⟨⟨⟨⟨⟨⟨⟨⟨⟨⟨⟨⟨⟨by decide, name⟩, by decide⟩, by decide⟩, by decide⟩, rightTime⟩,
      by decide⟩, by decide⟩, by decide⟩, by decide⟩, blanks 38⟩, by decide⟩,
      plain_zeroPadded 5 0⟩, by decide⟩
  | broadcast =>
    simp only [headLine, List.mem_append, not_or]
    exact ⟨⟨⟨⟨⟨⟨⟨⟨⟨⟨by decide, by decide⟩, by decide⟩, rightTime⟩, by decide⟩, by decide⟩,
      by decide⟩, blanks 39⟩, by decide⟩, number⟩, by decide⟩

/-! ## The two lines of a message -/

theorem snprintf_head (message : Message) :
    snprintf (maxMsgSize + 2) (message.head ++ [10]) = message.head ++ [10] := by
  have short := (length_head_bounds message).2
  apply List.take_of_length_le
  rw [List.length_append, List.length_singleton, maxMsgSize]
  omega

theorem fits_iff (message : Message) :
    message.Fits ↔ message.head.length + message.text.bytes.length ≤ 238 := by
  have digits := length_digits_pid message.sender
  rw [Message.Fits, length_head]
  cases message.type <;> simp only [headLength, maxText] <;> omega

theorem unlines_lines (message : Message) :
    unlines message.lines = message.head ++ 10 :: (message.text.bytes ++ [10]) := by
  simp [unlines, Message.lines]

theorem generateFullMsg_of_fits {message : Message} (fits : message.Fits) :
    generateFullMsg message = unlines message.lines := by
  have short := (fits_iff message).mp fits
  rw [generateFullMsg, snprintf_head, unlines_lines]
  simp only [List.append_assoc, List.singleton_append]
  apply List.take_of_length_le
  simp only [List.length_append, List.length_cons, List.length_nil, maxMsgSize]
  omega

/-- A text that does not fit loses its newline. -/
theorem generateFullMsg_of_not_fits {message : Message} (long : ¬message.Fits) :
    ∃ start, generateFullMsg message = message.head ++ 10 :: start ∧ 10 ∉ start ∧
      97 ≤ start.length := by
  rw [fits_iff] at long
  have short := (length_head_bounds message).2
  refine ⟨message.text.bytes.take (239 - message.head.length), ?_, ?_, ?_⟩
  · have whole : (message.head ++ [10]).length = message.head.length + 1 := by simp
    rw [generateFullMsg, snprintf_head, snprintf, maxMsgSize, List.append_assoc,
      List.take_append, List.take_of_length_le (by omega), whole, List.append_assoc,
      List.singleton_append, List.take_append_of_le_length (by omega)]
    congr 3
    omega
  · exact fun newline => message.text.plain (List.mem_of_mem_take newline)
  · rw [List.length_take]
    omega

/-! ## The whole file -/

/-- The messages in the file, a message as often as it was appended. -/
def deliveries (user : CString) (calls : List Call) : List Message :=
  calls.flatMap fun call => List.replicate (copies user call) call.message

theorem fileAppend_getD (files : Files) (uname user : CString) (msg : Bytes) :
    (fileAppend files uname msg user).getD [] =
      (files user).getD [] ++ if uname = user then msg else [] := by
  rw [fileAppend, Function.update_apply]
  by_cases same : user = uname
  · subst same
    rw [if_pos rfl, if_pos rfl]
    rfl
  · rw [if_neg same, if_neg (Ne.symm same), List.append_nil]

theorem sendMsg_getD (files : Files) (call : Call) (user : CString) :
    (sendMsg files call user).getD [] = (files user).getD [] ++
      (List.replicate (copies user call) call.message).flatMap generateFullMsg := by
  rw [sendMsg, copies]
  induction call.sessions generalizing files with
  | nil => simp
  | cons s sessions ih =>
    rw [List.foldl_cons, ih, List.countP_cons]
    by_cases told : call.msgable s = true
    · rw [if_pos told, fileAppend_getD]
      by_cases same : s.uname = user
      · simp [told, same, List.replicate_succ, List.append_assoc]
      · simp [same]
    · simp [told]

theorem deliveries_cons (user : CString) (call : Call) (calls : List Call) :
    deliveries user (call :: calls) =
      List.replicate (copies user call) call.message ++ deliveries user calls :=
  List.flatMap_cons ..

theorem filesAfter_getD (user : CString) (calls : List Call) :
    (filesAfter calls user).getD [] = (deliveries user calls).flatMap generateFullMsg := by
  have general : ∀ files : Files, (calls.foldl sendMsg files user).getD [] =
      (files user).getD [] ++ (deliveries user calls).flatMap generateFullMsg := by
    intro files
    induction calls generalizing files with
    | nil => simp [deliveries]
    | cons call calls ih =>
      rw [List.foldl_cons, ih, sendMsg_getD, deliveries_cons, List.flatMap_append,
        List.append_assoc]
  exact general fun _ => none

theorem unlines_cons (message : Message) (messages : List Message) :
    unlines ((message :: messages).flatMap Message.lines) =
      message.head ++ 10 :: (message.text.bytes ++
        10 :: unlines (messages.flatMap Message.lines)) := by
  simp [unlines, Message.lines]

/-- Only messages whose texts fit make up lines, one message for each two of them. -/
theorem fits_of_lines {stored messages : List Message}
    (same : stored.flatMap generateFullMsg = unlines (messages.flatMap Message.lines)) :
    (∀ message ∈ stored, message.Fits) ∧ stored.length = messages.length := by
  induction stored generalizing messages with
  | nil =>
    cases messages with
    | nil => exact ⟨fun _ => nofun, rfl⟩
    | cons message messages =>
      rw [unlines_cons] at same
      simp at same
  | cons first stored ih =>
    rw [List.flatMap_cons] at same
    cases messages with
    | nil =>
      have nonempty := (length_head_bounds first).1
      have length := congrArg List.length same
      by_cases fits : first.Fits
      · rw [generateFullMsg_of_fits fits, unlines_lines] at length
        simp [unlines] at length
      · obtain ⟨start, full, -⟩ := generateFullMsg_of_not_fits fits
        rw [full] at length
        simp [unlines] at length
    | cons message messages =>
      rw [unlines_cons] at same
      have fits : first.Fits := by
        by_contra long
        obtain ⟨start, full, plain, startLength⟩ := generateFullMsg_of_not_fits long
        rw [full, List.append_assoc, List.cons_append] at same
        obtain ⟨-, rest⟩ := line_unique (plain_head first) (plain_head message) same
        have textLength := message.text.le
        -- What follows the text is the head of the next message, or nothing.
        cases stored with
        | nil =>
          rw [List.flatMap_nil, List.append_nil] at rest
          have newline : 10 ∈ start := by
            rw [rest]
            simp
          exact plain newline
        | cons second stored =>
          have secondLength := (length_head_bounds second).1
          have startsWith : ∃ more, generateFullMsg second = second.head ++ more := by
            by_cases fits : second.Fits
            · exact ⟨_, (generateFullMsg_of_fits fits).trans (unlines_lines second)⟩
            · obtain ⟨start, full, -⟩ := generateFullMsg_of_not_fits fits
              exact ⟨_, full⟩
          obtain ⟨more, secondFull⟩ := startsWith
          rw [List.flatMap_cons, secondFull, List.append_assoc, ← List.append_assoc] at rest
          have bothPlain : 10 ∉ start ++ second.head := by
            rw [List.mem_append, not_or]
            exact ⟨plain, plain_head second⟩
          have bound := length_le_line bothPlain rest
          rw [List.length_append] at bound
          rw [maxMsgLine, lineLen] at textLength
          omega
      rw [generateFullMsg_of_fits fits, unlines_lines, List.append_assoc, List.cons_append,
        List.append_assoc, List.singleton_append] at same
      obtain ⟨-, texts⟩ := line_unique (plain_head first) (plain_head message) same
      obtain ⟨-, rest⟩ := line_unique first.text.plain message.text.plain texts
      obtain ⟨allFit, length⟩ := ih rest
      exact ⟨List.forall_mem_cons.mpr ⟨fits, allFit⟩, congrArg Nat.succ length⟩

theorem flatMap_generateFullMsg {messages : List Message}
    (fits : ∀ message ∈ messages, message.Fits) :
    messages.flatMap generateFullMsg = unlines (messages.flatMap Message.lines) := by
  induction messages with
  | nil => rfl
  | cons message messages ih =>
    obtain ⟨first, others⟩ := List.forall_mem_cons.mp fits
    rw [List.flatMap_cons, ih others, generateFullMsg_of_fits first, unlines_cons,
      unlines_lines]
    simp

/-! ## Copies -/

theorem delivered_cons (user : CString) (call : Call) (calls : List Call) :
    delivered user (call :: calls) =
      (if 0 < copies user call then [call.message] else []) ++ delivered user calls := by
  rw [delivered, List.filter_cons]
  split <;> simp_all [delivered]

theorem length_delivered_le (user : CString) (calls : List Call) :
    (delivered user calls).length ≤ (deliveries user calls).length := by
  induction calls with
  | nil => exact Nat.le_refl _
  | cons call calls ih =>
    rw [delivered_cons, deliveries_cons, List.length_append, List.length_append,
      List.length_replicate]
    split <;> simp only [List.length_singleton, List.length_nil] <;> omega

/-- Each message is in the file once when there are as many as have been delivered. -/
theorem copies_of_length {user : CString} {calls : List Call}
    (same : (deliveries user calls).length = (delivered user calls).length) :
    ∀ call ∈ calls, copies user call ≤ 1 := by
  induction calls with
  | nil => exact fun _ => nofun
  | cons call calls ih =>
    have rest := length_delivered_le user calls
    rw [delivered_cons, deliveries_cons, List.length_append, List.length_append,
      List.length_replicate] at same
    have bound : (if 0 < copies user call then [call.message] else []).length ≤ 1 := by
      split <;> simp
    have none : copies user call = 0 →
        (if 0 < copies user call then [call.message] else []).length = 0 := by
      intro zero
      rw [zero]
      rfl
    refine List.forall_mem_cons.mpr ⟨by omega, ih ?_⟩
    omega

theorem deliveries_eq {user : CString} {calls : List Call}
    (once : ∀ call ∈ calls, copies user call ≤ 1) :
    deliveries user calls = delivered user calls := by
  induction calls with
  | nil => rfl
  | cons call calls ih =>
    obtain ⟨here, others⟩ := List.forall_mem_cons.mp once
    rw [delivered_cons, deliveries_cons, ih others]
    congr 1
    split
    · rename_i positive
      rw [show copies user call = 1 by omega]
      rfl
    · rename_i zero
      rw [show copies user call = 0 by omega]
      rfl

theorem mem_deliveries {user : CString} {calls : List Call} {call : Call} (member : call ∈ calls)
    (reached : 0 < copies user call) : call.message ∈ deliveries user calls := by
  refine List.mem_flatMap.mpr ⟨call, member, ?_⟩
  exact List.mem_replicate.mpr ⟨by omega, rfl⟩

/-! ## Reading the lines back -/

theorem countMsgs_lines {messages : List Message} {fuel : Nat} (enough : messages.length ≤ fuel) :
    countMsgs fuel (unlines (messages.flatMap Message.lines)) = messages.length := by
  induction messages generalizing fuel with
  | nil => cases fuel <;> rfl
  | cons message messages ih =>
    cases fuel with
    | zero => cases enough
    | succ fuel =>
      have headLength := (length_head_bounds message).2
      have textLength := message.text.le
      rw [maxMsgLine, lineLen] at textLength
      rw [unlines_cons, countMsgs, fgets_line (plain_head message) (by omega)]
      simp only
      rw [fgets_line message.text.plain (by rw [maxMsgSize]; omega)]
      simp only
      rw [ih (Nat.le_of_succ_le_succ enough), List.length_cons]

theorem readMsgs_lines {messages : List Message} {index : Nat} {message : Message}
    (place : messages[index]? = some message) (head buf : Bytes) :
    readMsgs lineBufsize lineBufsize (index + 1) head buf
        (unlines (messages.flatMap Message.lines)) =
      (message.head ++ [10], message.text.bytes ++ [10], true) := by
  induction messages generalizing index head buf with
  | nil => cases place
  | cons first messages ih =>
    have headLength := (length_head_bounds first).2
    have textLength := first.text.le
    rw [maxMsgLine, lineLen] at textLength
    rw [unlines_cons, readMsgs, lineBufsize, fgets_line (plain_head first) (by omega)]
    simp only
    rw [fgets_line first.text.plain (by omega)]
    simp only
    cases index with
    | zero =>
      cases place
      rfl
    | succ index => exact ih place _ _

theorem length_le_lines (messages : List Message) :
    messages.length ≤ (unlines (messages.flatMap Message.lines)).length := by
  induction messages with
  | nil => exact Nat.zero_le _
  | cons message messages ih =>
    rw [unlines_cons]
    simp only [List.length_append, List.length_cons]
    omega

theorem getNumMsgs_lines {file : Option Bytes} {messages : List Message}
    (lines : file.getD [] = unlines (messages.flatMap Message.lines)) :
    getNumMsgs file = messages.length := by
  have bound := length_le_lines messages
  rw [← lines] at bound
  cases file with
  | none =>
    rw [getNumMsgs]
    exact (Nat.le_zero.mp bound).symm
  | some contents =>
    rw [getNumMsgs]
    change contents = _ at lines
    rw [lines] at bound ⊢
    exact countMsgs_lines bound

theorem getMsg3_lines {file : Option Bytes} {messages : List Message}
    (lines : file.getD [] = unlines (messages.flatMap Message.lines)) {k : Nat} {message : Message}
    (place : messages.reverse[k]? = some message) (head buf : Bytes) :
    ∃ pid, getMsg3 file (k + 1 : Nat) head buf =
      ⟨pid, (k + 1 : Nat), message.head ++ [10], message.text.bytes ++ [10]⟩ := by
  have count := getNumMsgs_lines lines
  have inside : k < messages.length := by
    have := (List.getElem?_eq_some_iff.mp place).1
    rwa [List.length_reverse] at this
  rw [List.getElem?_reverse inside] at place
  cases file with
  | none =>
    have bound := length_le_lines messages
    rw [← lines] at bound
    exact absurd (Nat.lt_of_lt_of_le inside bound) (Nat.not_lt_zero k)
  | some contents =>
    change contents = _ at lines
    have clamped : min (max ((k + 1 : Nat) : Int) 1) messages.length = (k + 1 : Nat) := by omega
    have rounds : ((messages.length : Int) - (k + 1 : Nat) + 1).toNat =
        messages.length - 1 - k + 1 := by omega
    simp only [getMsg3, count, clamped, rounds]
    rw [lines, readMsgs_lines place head buf]
    exact ⟨_, rfl⟩

theorem fits_of_framed {user : CString} {calls : List Call} (framed : Framed user calls)
    {call : Call} (member : call ∈ calls) (reached : 0 < copies user call) :
    call.message.Fits ∧ copies user call = 1 := by
  have lines := framed.lines
  rw [filesAfter_getD] at lines
  obtain ⟨fits, length⟩ := fits_of_lines lines
  have once := copies_of_length length call member
  exact ⟨fits _ (mem_deliveries member reached), by omega⟩

/-- The message file of a user has two lines for each message, and all of them can be read
back, exactly when each message that is delivered to the user fits in the buffer and is told
to a single session of the user. -/
theorem framed_iff (user : CString) (calls : List Call) :
    Framed user calls ↔ ∀ call ∈ calls, 0 < copies user call →
      call.message.Fits ∧ copies user call = 1 := by
  refine ⟨fun framed call member reached => fits_of_framed framed member reached, ?_⟩
  intro each
  have once : ∀ call ∈ calls, copies user call ≤ 1 := by
    intro call member
    by_cases reached : 0 < copies user call
    · exact (each call member reached).2.le
    · omega
  have fits : ∀ message ∈ delivered user calls, message.Fits := by
    intro message member
    obtain ⟨call, isCall, rfl⟩ := List.mem_map.mp member
    obtain ⟨inCalls, reached⟩ := List.mem_filter.mp isCall
    exact (each call inCalls (of_decide_eq_true reached)).1
  have lines : (filesAfter calls user).getD [] =
      unlines ((delivered user calls).flatMap Message.lines) := by
    rw [filesAfter_getD, deliveries_eq once, flatMap_generateFullMsg fits]
  refine ⟨lines, ?_, getNumMsgs_lines lines, fun k message => getMsg3_lines lines⟩
  intro line member
  obtain ⟨message, -, isLine⟩ := List.mem_flatMap.mp member
  rcases List.mem_pair.mp isLine with rfl | rfl
  · exact plain_head message
  · exact message.text.plain

def alice : Sender where
  userid := ⟨lit ['a', 'l', 'i', 'c', 'e'], by decide⟩
  plain := by decide
  pid := 12345
  pid_lt := by omega
  seeCloak := false

def noon : CTime where
  bytes := lit ['M', 'o', 'n', ' ', 'J', 'a', 'n', ' ', ' ', '6', ' ', '1', '2', ':', '0', '0', ':',
    '0', '0', ' ', '2', '0', '1', '4']
  length_eq := rfl
  plain := by decide

def longText : Text where
  bytes := List.replicate 112 97
  nulFree := by decide
  plain := by decide
  pos := by decide
  le := by decide

def bobSession : MsgSession where
  web := false
  visible := true
  uname := ⟨lit ['b', 'o', 'b'], by decide⟩
  status := .other
  receiver := none

/-- A text of 112 bytes does not fit beside the head of a normal message. -/
theorem long_text_not_framed :
    ¬∀ (user : CString) (calls : List Call), Framed user calls := by
  intro framed
  have fits := (fits_of_framed (framed bobSession.uname
    [⟨⟨alice, noon, .normal, longText⟩, [bobSession]⟩]) (List.mem_singleton_self _) (by decide)).1
  revert fits
  unfold Message.Fits
  decide

end MessageFile

end Fbbs
