import Fbbs.PostTables
import Fbbs.UserCache

/-!
# Notifications of a new post

`backend_post_new` tells two kinds of users about a post: the one it replies to,
through the tables `post.reply_*`, and those its text mentions after an `@`,
through the tables `post.mention_*`.  A mentioned name is looked up, and the
account that is found must be able to read the board.  For the reply the name
that is looked up is the one of the poster.
-/

namespace Fbbs

/-- The fields of `struct userec` that permissions look at. -/
structure Profile where
  userid : CharArray (idLen + 1)
  userlevel : UInt32
  deriving DecidableEq

/-- The user cache with these fields of its records. -/
structure Accounts extends UserCache where
  profile : Nat → Profile

namespace Notifications

open AsciiBytes Post UserCache

/-- `getuserec`; `none` also where the search does not end. -/
def getuserec (accounts : Accounts) (userid : CString) : Option Profile :=
  match searchuser accounts.toUserCache userid with
  | some (slot + 1) => some (accounts.profile slot)
  | _ => none

/-- `board_t`, as far as reading permissions look at it. -/
structure BoardAccess extends Board where
  perm : UInt32
  name : CharArray 18
  bms : CharArray 56
  deriving DecidableEq

def boardFlagNozap : Int32 := 2
def boardFlagClub : Int32 := 64
def boardFlagRead : Int32 := 128
def boardFlagPost : Int32 := 256

def permBoards : UInt32 := 0x40
def permOboards : UInt32 := 0x80
def permOclub : UInt32 := 0x100
def permSysops : UInt32 := 0x2000
def permBlevels : UInt32 := permSysops ||| permOboards

/-- The delimiters of `is_bm`; the literal has more, but behind a terminator. -/
def bmDelimiter (byte : UInt8) : Bool :=
  [44, 58, 32, 59, 124, 38, 40, 41].contains byte

/-- The tokens of `strtok`. -/
def strtokTokens (delimiter : UInt8 → Bool) (text : Bytes) : List Bytes :=
  (text.splitOnP delimiter).filter (· != [])

def isBm (up : Profile) (bp : BoardAccess) : Bool :=
  (if bp.flag &&& boardFlagClub != 0 then up.userlevel &&& permOclub != 0
    else up.userlevel &&& permBlevels != 0) ||
  (up.userlevel &&& permBoards != 0 &&
    (strtokTokens bmDelimiter bp.bms.str.bytes).contains up.userid.str.bytes)

/-- The lines that `fgets` reads into a buffer with `room` bytes before the
terminator. -/
def fgetsLines (room : Nat) : Nat → Bytes → Bytes → List Bytes
  | _, line, [] => if line = [] then [] else [line]
  | left, line, byte :: rest =>
    if byte = 10 ∨ left ≤ 1 then (line ++ [byte]) :: fgetsLines room room [] rest
    else fgetsLines room (left - 1) (line ++ [byte]) rest

/-- The delimiters of `isclubmember`. -/
def blank (byte : UInt8) : Bool :=
  [32, 13, 10, 9].contains byte

/-- What a call of `strtok` leaves of a string: leading delimiters and the first
token. -/
def strtokFirst (delimiter : UInt8 → Bool) (text : Bytes) : Bytes :=
  text.takeWhile delimiter ++
    (text.dropWhile delimiter).takeWhile fun byte => !delimiter byte

def strcaseeq (left right : Bytes) : Bool :=
  left.map tolower == right.map tolower

/-- `isclubmember`, given the file `club_users` of the board. -/
def isclubmember (clubUsers : Option Bytes) (member : CString) : Bool :=
  (fgetsLines 255 255 [] (clubUsers.getD [])).any fun line =>
    strcaseeq member.bytes
      (strtokFirst blank ((CString.ofBytes line).truncate (idLen + 1)).bytes)

/-- A row of `alive_users`. -/
structure UserRow where
  id : UserId
  name : CString
  deriving DecidableEq

/-- What the handler reads about users and boards: the user cache, the table
`users`, the hash `user_id` of redis, the files of the clubs and the boards. -/
structure Site where
  accounts : Accounts
  aliveUsers : List UserRow
  userIds : Bytes → Option UserId
  clubUsers : CString → Option Bytes
  getBoardByBid : Int32 → Option BoardAccess

/-- `user_has_read_perm`. -/
def userHasReadPerm (site : Site) (up : Profile) (bp : BoardAccess) : Bool :=
  !(bp.flag &&& boardFlagClub != 0 && bp.flag &&& boardFlagRead != 0 &&
      !isBm up bp && !isclubmember (site.clubUsers bp.name.str) up.userid.str) &&
    (bp.perm == 0 || bp.flag &&& (boardFlagPost ||| boardFlagNozap) != 0 ||
      up.userlevel &&& bp.perm != 0)

/-- `get_user_id`. -/
def getUserId (site : Site) (name : CString) : UserId :=
  let cached := (site.userIds ((name.truncate (idLen + 1)).bytes.map tolower)).getD (-1)
  if cached ≠ -1 then cached
  else
    ((site.aliveUsers.find? fun row => strcaseeq row.name.bytes name.bytes).map
      UserRow.id).getD 0

def newline : UInt8 := 10

/-- `strstr`: the rest of the text from the first occurrence on. -/
def strstr (needle : Bytes) : Bytes → Option Bytes
  | [] => if needle = [] then some [] else none
  | byte :: rest =>
    if needle.isPrefixOf (byte :: rest) then some (byte :: rest) else strstr needle rest

/-- The lines of a text, each up to its `get_line_end`. -/
def textLines : Bytes → Bytes → List Bytes
  | line, [] => if line = [] then [] else [line]
  | line, byte :: rest =>
    if byte = newline then (line ++ [byte]) :: textLines [] rest
    else textLines (line ++ [byte]) rest

def isalpha (byte : UInt8) : Bool :=
  (decide (65 ≤ byte) && decide (byte ≤ 90)) || (decide (97 ≤ byte) && decide (byte ≤ 122))

def atSign : UInt8 := 64
def dot : UInt8 := 46

/-- The names that the calls of `next_mention` find in a line; `at` holds the
letters since the last `@`. -/
def nextMentions : Option Bytes → Bytes → List Bytes
  | _, [] => []
  | at_, byte :: rest =>
    match at_ with
    | some letters =>
      if isalpha byte then nextMentions (some (letters ++ [byte])) rest
      else
        (if byte ≠ dot ∧ 2 ≤ letters.length ∧ letters.length < idLen + 1 then [letters]
          else []) ++
        nextMentions (if byte = atSign then some [] else none) rest
    | none => nextMentions (if byte = atSign then some [] else none) rest

/-- `POST_MENTION_LIMIT`. -/
def postMentionLimit : Nat := 10

/-- `process_mention`, on the names that have been handled.  Once the table is
full no name is handled, whatever the comparison reads behind its end. -/
def processMention (handled : List Bytes) (name : Bytes) : List Bytes :=
  if handled.any (strcaseeq name) then handled
  else if handled.length < postMentionLimit then handled ++ [name]
  else handled

/-- The part of a post that is searched: not the head of a reply, and not the
signature. -/
def mentionText (title content : Bytes) : Bytes :=
  let begin :=
    if [82, 101, 58, 32].isPrefixOf title then strstr [newline, newline] content
    else some content
  match begin with
  | none => []
  | some begin =>
    match strstr [newline, 45, 45, newline] begin with
    | none => begin
    | some signature => begin.take (begin.length - signature.length + 1)

/-- A line of a quotation. -/
def quoted (line : Bytes) : Bool :=
  [58, 32].isPrefixOf line

/-- `post_scan_for_mentions`: the names that its handler is called with. -/
def postScanForMentions (title content : CString) : List CString :=
  let lines := (textLines [] (mentionText title.bytes content.bytes)).filter (!quoted ·)
  ((lines.flatMap (nextMentions none)).foldl processMention []).map .ofBytes

/-- The tables of notifications, with the number of the partition. -/
inductive Table
  | reply (partition : Int32)
  | mention (partition : Int32)
  deriving DecidableEq

/-- The row that `_insert_reply_record` inserts. -/
structure ReplyRow where
  postId : PostId
  replyId : PostId
  threadId : PostId
  userIdReplied : UserId
  userId : UserId
  userName : Option CString
  boardId : Int32
  boardName : Option CString
  title : Option CString
  isRead : Bool
  deriving DecidableEq

def insertReplyRecord (req : BackendRequestPostNew) (postId : PostId) (userId : UserId) :
    ReplyRow where
  postId := postId
  replyId := if req.replyId ≠ 0 then req.replyId else postId
  threadId := if req.threadId ≠ 0 then req.threadId else postId
  userIdReplied := userId
  userId := if req.hideUserId ∨ req.anonymous then 0 else req.userId
  userName := req.userName
  boardId := req.boardId
  boardName := req.boardName
  title := req.title
  isRead := false

/-- The partition of a user's notifications. -/
def partitionOf (partitions : Int32) (userId : UserId) : Int32 :=
  userId % (if partitions < 1 then 1 else partitions)

/-- The configured numbers of partitions. -/
structure Partitions where
  reply : Int32
  mention : Int32

section Handler

variable (site : Site) (partitions : Partitions) (req : BackendRequestPostNew)
variable (postId : PostId) (board : BoardAccess)

def notifyNewReply : List (Table × ReplyRow) :=
  match getuserec site.accounts (req.userName.getD .empty) with
  | some urec =>
    if userHasReadPerm site urec board then
      [(.reply (partitionOf partitions.reply req.userIdReplied),
        insertReplyRecord req postId req.userIdReplied)]
    else []
  | none => []

def handleMention (userName : CString) : List (Table × ReplyRow) :=
  match getuserec site.accounts userName with
  | some urec =>
    let userId := getUserId site userName
    if userHasReadPerm site urec board ∧ 0 < userId ∧ userId ≠ req.userId then
      [(.mention (partitionOf partitions.mention userId),
        insertReplyRecord req postId userId)]
    else []
  | none => []

/-- The notifications that `backend_post_new` inserts after the post itself. -/
def backendPostNewNotices : List (Table × ReplyRow) :=
  if postId = 0 then []
  else
    match site.getBoardByBid req.boardId with
    | none => []
    | some board =>
      (if 0 < req.userIdReplied ∧ req.userId ≠ req.userIdReplied then
          notifyNewReply site partitions req postId board
        else []) ++
      (if req.anonymous then []
        else
          (postScanForMentions (req.title.getD .empty) (req.content.getD .empty)).flatMap
            (handleMention site partitions req postId board))

end Handler

/-- The hash of redis agrees with the table: ids are put there when they are
found in it, and removed with the account. -/
def Coherent (site : Site) : Prop :=
  ∀ key uid, site.userIds key = some uid →
    ∃ row ∈ site.aliveUsers, row.id = uid ∧ row.name.bytes.map tolower = key

/-- The user exists, and its account can read the board. -/
def MayRead (site : Site) (board : BoardAccess) (uid : UserId) : Prop :=
  ∃ row ∈ site.aliveUsers, row.id = uid ∧
    ∃ profile, getuserec site.accounts row.name = some profile ∧
      userHasReadPerm site profile board = true

/-- The tests before a reply is told to the user it replies to. -/
def RepliesTo (site : Site) (board : BoardAccess) (req : BackendRequestPostNew) : Prop :=
  0 < req.userIdReplied ∧ req.userId ≠ req.userIdReplied ∧
    ∃ profile, getuserec site.accounts (req.userName.getD .empty) = some profile ∧
      userHasReadPerm site profile board = true

theorem length_of_mem_nextMentions {at_ : Option Bytes} {line name : Bytes}
    (found : name ∈ nextMentions at_ line) : name.length ≤ idLen := by
  induction line generalizing at_ with
  | nil => cases found
  | cons byte rest ih =>
    cases at_ with
    | none => exact ih found
    | some letters =>
      rw [nextMentions] at found
      split at found
      · exact ih found
      · obtain here | later := List.mem_append.mp found
        · split at here
          · rw [List.mem_singleton] at here
            subst here
            exact Nat.le_of_lt_succ (by tauto)
          · cases here
        · exact ih later

/-- Only names of the text are handled. -/
theorem mem_foldl_processMention {names handled : List Bytes} {name : Bytes}
    (member : name ∈ names.foldl processMention handled) :
    name ∈ handled ∨ name ∈ names := by
  induction names generalizing handled with
  | nil => exact Or.inl member
  | cons first names ih =>
    obtain before | later := ih member
    · unfold processMention at before
      split at before
      · exact Or.inl before
      · split at before
        · obtain before | here := List.mem_append.mp before
          · exact Or.inl before
          · exact Or.inr (List.mem_cons.mpr (Or.inl (List.mem_singleton.mp here)))
        · exact Or.inl before
    · exact Or.inr (List.mem_cons_of_mem first later)

theorem length_of_mem_postScanForMentions {title content name : CString}
    (mentioned : name ∈ postScanForMentions title content) :
    name.bytes.length ≤ idLen := by
  obtain ⟨letters, handled, rfl⟩ := List.mem_map.mp mentioned
  have inText := (mem_foldl_processMention handled).resolve_left List.not_mem_nil
  obtain ⟨line, -, found⟩ := List.mem_flatMap.mp inText
  exact (List.takeWhile_prefix _).length_le.trans (length_of_mem_nextMentions found)

/-- An id that is found belongs to a user of that name. -/
theorem exists_of_getUserId {site : Site} (coherent : Coherent site) {name : CString}
    (short : name.bytes.length ≤ idLen) (positive : 0 < getUserId site name) :
    ∃ row ∈ site.aliveUsers, row.id = getUserId site name ∧
      row.name.bytes.map tolower = name.bytes.map tolower := by
  have whole : name.truncate (idLen + 1) = name :=
    CString.truncate_of_length_lt (Nat.lt_succ_of_le short)
  simp only [getUserId, whole] at positive ⊢
  split
  · rename_i cached
    cases cachedEq : site.userIds (name.bytes.map tolower) with
    | none =>
      rw [cachedEq] at cached
      exact absurd rfl cached
    | some uid =>
      obtain ⟨row, alive, idEq, nameEq⟩ := coherent _ _ cachedEq
      exact ⟨row, alive, idEq, nameEq⟩
  · rename_i uncached
    rw [if_neg uncached] at positive
    cases foundEq : site.aliveUsers.find? fun row => strcaseeq row.name.bytes name.bytes with
    | none =>
      rw [foundEq] at positive
      exact absurd positive (by decide)
    | some row =>
      have sameName := List.find?_some foundEq
      exact ⟨row, List.mem_of_find?_eq_some foundEq, rfl, beq_iff_eq.mp sameName⟩

section Insertions

variable {site : Site} {partitions : Partitions} {req : BackendRequestPostNew}
variable {postId : PostId} {board : BoardAccess}

theorem getuserec_congr (accounts : Accounts) {left right : CString}
    (same : left.bytes.map tolower = right.bytes.map tolower) :
    getuserec accounts left = getuserec accounts right := by
  rw [getuserec, getuserec, searchuser_congr accounts.toUserCache same]

/-- A mention goes to another user, who can read the board. -/
theorem mayRead_of_handleMention (coherent : Coherent site) {name : CString}
    (short : name.bytes.length ≤ idLen) {table : Table} {row : ReplyRow}
    (inserted : (table, row) ∈ handleMention site partitions req postId board name) :
    MayRead site board row.userIdReplied ∧ row.userIdReplied ≠ req.userId := by
  unfold handleMention at inserted
  split at inserted
  · rename_i urec found
    simp only at inserted
    split at inserted
    · rename_i allowed
      rw [List.mem_singleton, Prod.mk.injEq] at inserted
      obtain ⟨-, rfl⟩ := inserted
      obtain ⟨user, alive, idEq, nameEq⟩ := exists_of_getUserId coherent short allowed.2.1
      have sameRecord := (getuserec_congr site.accounts nameEq).trans found
      exact ⟨⟨user, alive, idEq, urec, sameRecord, allowed.1⟩, allowed.2.2⟩
    · cases inserted
  · cases inserted

/-- A reply is told to the user it names, after the tests on the poster. -/
theorem mem_notifyNewReply {table : Table} {row : ReplyRow} :
    (table, row) ∈ notifyNewReply site partitions req postId board ↔
      (∃ profile, getuserec site.accounts (req.userName.getD .empty) = some profile ∧
        userHasReadPerm site profile board = true) ∧
      table = .reply (partitionOf partitions.reply req.userIdReplied) ∧
      row = insertReplyRecord req postId req.userIdReplied := by
  unfold notifyNewReply
  split
  · rename_i urec found
    split
    · rename_i allowed
      simp [found, allowed]
    · rename_i refused
      simp [found, refused]
  · rename_i missing
    simp [missing]

/-- Notifications go to other users who can read the board exactly if the user
that a post replies to can read it whenever the poster can. -/
theorem notices_mayRead_iff (coherent : Coherent site) :
    (∀ table row, (table, row) ∈ backendPostNewNotices site partitions req postId →
      row.userIdReplied ≠ req.userId ∧
        ∃ board, site.getBoardByBid req.boardId = some board ∧
          MayRead site board row.userIdReplied) ↔
      (postId ≠ 0 → ∀ board, site.getBoardByBid req.boardId = some board →
        RepliesTo site board req → MayRead site board req.userIdReplied) := by
  unfold backendPostNewNotices
  by_cases failed : postId = 0
  · simp [failed]
  rw [if_neg failed]
  cases found : site.getBoardByBid req.boardId with
  | none => simp
  | some board =>
    simp only [Option.some.injEq, exists_eq_left']
    constructor
    · rintro allowed - _ rfl ⟨replies, apart, poster⟩
      have inserted : (.reply (partitionOf partitions.reply req.userIdReplied),
          insertReplyRecord req postId req.userIdReplied) ∈
            notifyNewReply site partitions req postId board :=
        mem_notifyNewReply.mpr ⟨poster, rfl, rfl⟩
      rw [if_pos ⟨replies, apart⟩] at allowed
      exact (allowed _ _ (List.mem_append_left _ inserted)).2
    · intro condition table row member
      obtain reply | mention := List.mem_append.mp member
      · split at reply
        · rename_i tests
          obtain ⟨poster, -, rfl⟩ := mem_notifyNewReply.mp reply
          exact ⟨tests.2.symm, condition failed board rfl ⟨tests.1, tests.2, poster⟩⟩
        · cases reply
      · split at mention
        · cases mention
        · obtain ⟨name, mentioned, inserted⟩ := List.mem_flatMap.mp mention
          exact (mayRead_of_handleMention coherent
            (length_of_mem_postScanForMentions mentioned) inserted).symm

end Insertions

def restrictedUserid (slot : Nat) : CharArray (idLen + 1) :=
  if slot = 0 then ⟨.ofBytes [97, 98], Nat.lt_of_sub_pos (Nat.zero_lt_succ 10)⟩
  else ⟨.ofBytes [99, 100], Nat.lt_of_sub_pos (Nat.zero_lt_succ 10)⟩

/-- The users `ab` and `cd`, and a board for administrators, who only `ab` is. -/
def restrictedSite : Site where
  accounts :=
    { userid := restrictedUserid
      next := fun _ => 0
      hash := fun a1 a2 _ =>
        if a1 = 0 ∧ a2 = 1 then 1 else if a1 = 2 ∧ a2 = 3 then 2 else 0
      passwd := fun _ => ⟨0⟩
      profile := fun slot =>
        ⟨restrictedUserid slot, if slot = 0 then permSysops else 0⟩ }
  aliveUsers := [⟨7, .ofBytes [97, 98]⟩, ⟨8, .ofBytes [99, 100]⟩]
  userIds := fun _ => none
  clubUsers := fun _ => none
  getBoardByBid := fun _ =>
    some ⟨⟨0⟩, permSysops, ⟨.empty, Nat.zero_lt_succ 17⟩, ⟨.empty, Nat.zero_lt_succ 55⟩⟩

/-- A post of `ab` in reply to one of `cd`. -/
def restrictedReply : BackendRequestPostNew where
  replyId := 1
  threadId := 1
  title := none
  userName := some (.ofBytes [97, 98])
  boardName := none
  content := none
  userId := 7
  userIdReplied := 8
  boardId := 1
  marked := false
  locked := false
  hideUserId := false
  anonymous := false

theorem coherent_restrictedSite : Coherent restrictedSite := by
  intro key uid cached
  cases cached

/-- The same users, and a board that everyone can read. -/
def openSite : Site :=
  { restrictedSite with
    getBoardByBid := fun _ =>
      some ⟨⟨0⟩, 0, ⟨.empty, Nat.zero_lt_succ 17⟩, ⟨.empty, Nat.zero_lt_succ 55⟩⟩ }

/-- The user `cd` is told about the reply. -/
theorem notices_mayRead_openSite :
    (.reply 0, insertReplyRecord restrictedReply 2 8) ∈
        backendPostNewNotices openSite ⟨1, 1⟩ restrictedReply 2 ∧
      ∀ table row, (table, row) ∈ backendPostNewNotices openSite ⟨1, 1⟩ restrictedReply 2 →
        row.userIdReplied ≠ restrictedReply.userId ∧
          ∃ board, openSite.getBoardByBid restrictedReply.boardId = some board ∧
            MayRead openSite board row.userIdReplied := by
  have coherent : Coherent openSite := by
    intro key uid cached
    cases cached
  refine ⟨by decide, (notices_mayRead_iff coherent).mpr ?_⟩
  rintro - board ⟨⟩ -
  exact ⟨⟨8, .ofBytes [99, 100]⟩, by decide, rfl, _, rfl, by decide⟩

/-- The user `cd` is told about a reply on a board that it cannot read. -/
theorem notice_without_permission :
    ¬∀ (site : Site) (partitions : Partitions) (req : BackendRequestPostNew)
        (postId : PostId), Coherent site →
      ∀ table row, (table, row) ∈ backendPostNewNotices site partitions req postId →
        row.userIdReplied ≠ req.userId ∧
          ∃ board, site.getBoardByBid req.boardId = some board ∧
            MayRead site board row.userIdReplied := by
  intro allowed
  obtain ⟨-, board, found, user, alive, idEq, profile, recordEq, perm⟩ :=
    allowed restrictedSite ⟨1, 1⟩ restrictedReply 2 coherent_restrictedSite
      (.reply 0) (insertReplyRecord restrictedReply 2 8) (by decide)
  cases found
  obtain rfl | rfl : user = ⟨7, .ofBytes [97, 98]⟩ ∨ user = ⟨8, .ofBytes [99, 100]⟩ := by
    simpa [restrictedSite] using alive
  · exact absurd idEq (by decide)
  · cases recordEq
    exact absurd perm (by decide)

end Notifications

end Fbbs
