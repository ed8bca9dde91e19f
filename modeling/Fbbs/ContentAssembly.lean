import Fbbs.DecimalText
import Fbbs.FreshMemory
import Fbbs.ListFiles
import Fbbs.Retitling

/-!
# Assembling the content of a post

`generate_content` of `lib/post.c` adds up the lengths of the header, the text, the signature
and the source line, and copies them behind each other.  The text is measured by the given
length, if there is one, but copied up to its final zero.
-/

namespace Fbbs

namespace ContentAssembly

open FreshMemory ListFiles Notifications Retitling

inductive ConvertType
  | none
  | u2g
  | g2u
  deriving DecidableEq

/-- The two sites that `site.h` knows. -/
inductive Site
  | fdquan
  | standard

/-- `BBSNAME_UTF8`. -/
def Site.bbsnameUtf8 : Site → Bytes
  | .fdquan => [229, 164, 141, 230, 151, 166, 230, 179, 137]
  | .standard => [230, 151, 165, 230, 156, 136, 229, 133, 137, 229, 141, 142]

/-- `BBSNAME`. -/
def Site.bbsname : Site → Bytes
  | .fdquan => [184, 180, 181, 169, 200, 170]
  | .standard => [200, 213, 212, 194, 185, 226, 187, 170]

/-- `BBSHOST`. -/
def Site.bbshost : Site → Bytes
  | .fdquan => [49, 48, 46, 56, 46, 50, 50, 53, 46, 57]
  | .standard => [98, 98, 115, 46, 102, 117, 100, 97, 110, 46, 101, 100, 117, 46, 99, 110]

/-- The fields of `post_request_t` that are read.  The bytes are those from the start of the
content up to the end of the memory it lies in. -/
structure PostRequest where
  boardName : CString
  title : CString
  content : Bytes
  length : UInt64
  convertType : ConvertType
  sig : Int
  web : Bool
  crosspost : Bool

/-- What else decides the content: the site, the conversion of a string into a buffer of some
size, the file with the signatures of the user, the time and the random number. -/
structure Environment where
  site : Site
  convert : ConvertType → CString → Nat → CString
  signatures : Option Bytes
  time : CString
  rand : Nat

/-- `MAXSIGLINES`. -/
def maxSigLines : Nat := 6

/-- `SIGNATURE_LINE_LEN`. -/
def signatureLineLen : Nat := 256

/-- The size of `signature`. -/
def signatureSize : Nat := maxSigLines * signatureLineLen + 5

/-- The size of `utf8_signature`. -/
def utf8SignatureSize : Nat := signatureSize * 2 + 1

/-- The size of `source`. -/
def sourceSize : Nat := 256

/-- An `int` that has been computed; an overflow is `none`. -/
def checkedInt (value : Int) : Option Int :=
  if asInt value = value then some value else none

/-- The string that `snprintf` leaves in a buffer. -/
def snprintf (size : Nat) (bytes : Bytes) : CString :=
  (CString.ofBytes bytes).truncate size

/-- What a buffer holds: a string, its final zero and cells that are not written. -/
def buffer (size : Nat) (string : CString) : Memory UInt8 :=
  filled (string.bytes ++ [0]) (size - (string.bytes.length + 1))

/-- `strappend` to what a buffer holds. -/
def strappend (size : Nat) (out src : Bytes) : Bytes :=
  (out ++ src).take (size - 1)

/-- The lines with a word in them do not go into a signature. -/
def Site.sourceWord (site : Site) : Bytes :=
  [58, 161, 164] ++ site.bbsname ++ [32] ++ site.bbshost ++ [161, 164, 91, 70, 82, 79, 77, 58]

/-- The second loop of `read_signature_legacy`. -/
def signatureLoop (site : Site) (size : Nat) : Nat → Nat → Bytes → List Bytes → Bytes
  | 0, _, out, _ => out
  | _, _, out, [] => out
  | lines + 1, blank, out, line :: rest =>
    let buf := (CString.ofBytes line).bytes
    if buf.head? = some 10 ∨ buf = [13, 10] then
      signatureLoop site size lines (blank + 1) out rest
    else
      let out := (List.replicate blank [10]).foldl (strappend size) out
      signatureLoop site size lines 0
        (if (strstr site.sourceWord buf).isSome then out else strappend size out buf) rest

/-- `read_signature_legacy`. -/
def readSignatureLegacy (site : Site) (signatures : Option Bytes) (offset : Int)
    (size : Nat) : Option CString :=
  let out := strappend size [] [10, 45, 45, 10]
  if offset ≤ 0 then some (.ofBytes out)
  else
    match signatures with
    | none => some (.ofBytes out)
    | some contents =>
      (checkedInt ((offset - 1) * maxSigLines)).map fun skipped =>
        .ofBytes (signatureLoop site size maxSigLines 0 out
          ((fgetsAll signatureLineLen contents).drop skipped.toNat))

namespace Environment

/-- The string in `header`. -/
def header (env : Environment) (pr : PostRequest) (uname nick : CString) : CString :=
  let utf8Nick := env.convert .g2u nick (40 * 4 + 1)
  snprintf 512 ([229, 143, 145, 228, 191, 161, 228, 186, 186, 58, 32] ++ uname.bytes ++
    [32, 40] ++ utf8Nick.bytes ++ [41, 44, 32, 228, 191, 161, 229, 140, 186, 58, 32] ++
    pr.boardName.bytes ++ [10, 230, 160, 135, 32, 32, 233, 162, 152, 58, 32] ++
    pr.title.bytes ++ [10, 229, 143, 145, 228, 191, 161, 231, 171, 153, 58, 32] ++
    env.site.bbsnameUtf8 ++ [32, 40] ++ env.time.bytes ++ [41, 10, 10])

/-- The string in `utf8_signature`. -/
def utf8Signature (env : Environment) (pr : PostRequest) (anony : Bool) : Option CString :=
  if !anony && pr.sig > 0 then
    (readSignatureLegacy env.site env.signatures pr.sig signatureSize).map fun signature =>
      env.convert .g2u signature utf8SignatureSize
  else some ((CString.ofBytes [10, 45, 45]).truncate utf8SignatureSize)

/-- The string in `source`. -/
def source (env : Environment) (pr : PostRequest) (ip : Option CString) : CString :=
  match ip with
  | none => .empty
  | some ip =>
    let utf8Ip := env.convert .g2u ip 80
    snprintf sourceSize ([27, 91, 109, 27, 91, 49, 59] ++
      DecimalText.spacePadded 2 ((31 + env.rand % 7 : Nat) : Int) ++
      [109, 226, 128, 187, 32] ++
      (if pr.crosspost then [232, 189, 172, 232, 189, 189]
        else [230, 157, 165, 230, 186, 144]) ++
      [58, 194, 183] ++ env.site.bbsnameUtf8 ++ [32] ++ env.site.bbshost ++ [194, 183] ++
      (if pr.web then [72, 84, 84, 80, 32] else []) ++ [91, 70, 82, 79, 77, 58, 32] ++
      utf8Ip.bytes ++ [93, 27, 91, 109, 10])

end Environment

/-- `content_len`. -/
def PostRequest.contentLen (pr : PostRequest) (length : UInt64) : Option Int :=
  let contentLen :=
    if length = 0 then (readUntil 0 (pr.content.map some)).map fun text => asInt text.length
    else some (asInt length.toNat)
  if pr.convertType = .none then contentLen else contentLen.bind fun len => checkedInt (len * 2)

/-- The copy of the text, by `convert` or `strlcpy`; both read it up to its final zero. -/
def writeText (env : Environment) (pr : PostRequest) (content : Memory UInt8)
    (position size : Nat) : Option (Memory UInt8) := do
  let text ← readUntil 0 (pr.content.map some)
  if pr.convertType = .none then
    if size = 0 then some content
    else
      let copied := text.take (size - 1) ++ [0]
      copy content position (copied.map some) copied.length
  else
    let converted := (env.convert pr.convertType (.ofBytes text) size).bytes
    copy content position ((converted ++ [0]).map some) (converted.length + 1)

/-- The rest of the block is filled from a buffer, if there is a rest. -/
def copyRest (content : Memory UInt8) (len totalLen : Nat) (source : Memory UInt8) :
    Option (Memory UInt8) :=
  if len < totalLen then copy content len source (totalLen - len) else some content

/-- A newline, unless the byte in front of it is one. -/
def endLine (content : Memory UInt8) (len totalLen : Nat) : Option (Memory UInt8 × Nat) :=
  -- the header is not empty, and so the position is not negative
  content[len - 1]?.join.bind fun last =>
    if last ≠ 10 ∧ len < totalLen then (store content len 10).map (·, len + 1)
    else some (content, len)

/-- `generate_content` behind the text: the signature, a newline and the source line. -/
def finish (content : Memory UInt8) (totalLen : Nat) (utf8Signature source : CString) :
    Option (Memory UInt8) := do
  let len := (← readUntil 0 content).length
  let content ← copyRest content len totalLen (buffer utf8SignatureSize utf8Signature)
  let (content, len) ← endLine content (len + utf8Signature.bytes.length) totalLen
  let content ← copyRest content len totalLen (buffer sourceSize source)
  store content (len + source.bytes.length) 0

/-- `generate_content` from the allocation on. -/
def fill (env : Environment) (pr : PostRequest) (header utf8Signature source : CString)
    (totalLen : Nat) : Option (Memory UInt8) := do
  let content ← copy (malloc totalLen) 0 (buffer 512 header) header.bytes.length
  let content ← writeText env pr content header.bytes.length (totalLen - header.bytes.length)
  finish content totalLen utf8Signature source

/-- `generate_content`.  The result is `none` if an `int` overflows, the memory is not
allocated, or memory outside of a block or not yet written is used. -/
def generateContent (env : Environment) (pr : PostRequest) (uname nick : CString)
    (ip : Option CString) (anony : Bool) (length : UInt64) : Option (Memory UInt8) := do
  let header := env.header pr uname nick
  let contentLen ← pr.contentLen length
  let utf8Signature ← env.utf8Signature pr anony
  let source := env.source pr ip
  let totalLen ← checkedInt (header.bytes.length + contentLen + utf8Signature.bytes.length +
    source.bytes.length + 2)
  if totalLen < 0 then none
  else fill env pr header utf8Signature source totalLen.toNat

/-- A newline, unless the text ends with one. -/
def newlineAfter (text : Bytes) : Bytes :=
  if text.getLast? = some 10 then [] else [10]

/-- The parts of a content behind each other. -/
def assembled (header : CString) (body : Bytes) (signature source : CString) : Bytes :=
  let text := header.bytes ++ body ++ signature.bytes
  text ++ newlineAfter text ++ source.bytes

/-- The body is as long as the request says, or the whole string. -/
def PostRequest.body (pr : PostRequest) : Option Bytes :=
  if pr.length = 0 then readUntil 0 (pr.content.map some)
  else some (pr.content.take pr.length.toNat)

section Finish

variable {content result : Memory UInt8} {written : Bytes} {totalLen : Nat}
  {signature source : CString}

theorem front_buffer (size : Nat) (string : CString) :
    (string.bytes ++ [0]).map some <+: buffer size string :=
  List.prefix_append _ _

theorem length_buffer {size : Nat} {string : CString} (fits : string.bytes.length < size) :
    (buffer size string).length = size := by
  rw [buffer, length_filled, List.length_append, List.length_singleton]
  omega

theorem length_newlineAfter_le (text : Bytes) : (newlineAfter text).length ≤ 1 := by
  unfold newlineAfter
  split <;> simp

theorem zero_notMem_newlineAfter (text : Bytes) : 0 ∉ newlineAfter text := by
  unfold newlineAfter
  split <;> simp

theorem newlineAfter_append (written : Bytes) {signature : CString}
    (nonempty : signature.bytes ≠ []) :
    newlineAfter (written ++ signature.bytes) = newlineAfter signature.bytes := by
  rw [newlineAfter, newlineAfter, List.getLast?_append_of_ne_nil _ nonempty]

/-- What is copied is there as a whole, if something behind it is inside of the block. -/
theorem front_copyRest {text : CString} {bufferSize : Nat} (front : written.map some <+: content)
    (size : content.length = totalLen) (inside : written.length + text.bytes.length ≤ totalLen)
    (copied : copyRest content written.length totalLen (buffer bufferSize text) = some result) :
    (written ++ text.bytes).map some <+: result ∧ result.length = totalLen := by
  unfold copyRest at copied
  split at copied
  · refine ⟨front_copy front ?_ rfl (by omega) copied, (length_copy copied).trans size⟩
    exact ((List.prefix_append _ [0]).map some).trans (front_buffer bufferSize text)
  · obtain rfl := Option.some.inj copied
    have empty : text.bytes = [] := List.eq_nil_of_length_eq_zero (by omega)
    exact ⟨by rwa [empty, List.append_nil], size⟩

theorem length_copyRest {len : Nat} {source : Memory UInt8}
    (copied : copyRest content len totalLen source = some result) :
    result.length = content.length := by
  unfold copyRest at copied
  split at copied
  · exact length_copy copied
  · rw [Option.some.inj copied]

theorem length_endLine {len next : Nat}
    (ended : endLine content len totalLen = some (result, next)) :
    result.length = content.length ∧ len ≤ next := by
  unfold endLine at ended
  obtain ⟨last, -, ended⟩ := Option.bind_eq_some_iff.mp ended
  split at ended
  · obtain ⟨_, stored, same⟩ := Option.map_eq_some_iff.mp ended
    obtain ⟨rfl, rfl⟩ := Prod.mk.inj same
    exact ⟨length_store stored, Nat.le_succ len⟩
  · obtain ⟨rfl, rfl⟩ := Prod.mk.inj (Option.some.inj ended)
    exact ⟨rfl, Nat.le_refl len⟩

theorem newlineAfter_of_ne_nil {text : Bytes} (nonempty : text ≠ []) :
    newlineAfter text = if text.getLast nonempty = 10 then [] else [10] := by
  simp only [newlineAfter, List.getLast?_eq_some_getLast nonempty, Option.some.injEq]

theorem endLine_eq (front : written.map some <+: content) (nonempty : written ≠ [])
    (size : content.length = totalLen) (short : written.length < totalLen) :
    ∃ result, endLine content written.length totalLen =
        some (result, (written ++ newlineAfter written).length) ∧
      (written ++ newlineAfter written).map some <+: result ∧ result.length = totalLen := by
  have positive : 0 < written.length := List.length_pos_iff.mpr nonempty
  rw [endLine, getElem?_of_front front (by omega), ← List.getLast?_eq_getElem?,
    List.getLast?_eq_some_getLast nonempty, Option.bind_some, newlineAfter_of_ne_nil nonempty]
  by_cases newline : written.getLast nonempty = 10
  · rw [if_neg (fun fresh => fresh.1 newline), if_pos newline, List.append_nil]
    exact ⟨content, rfl, front, size⟩
  · obtain ⟨result, stored⟩ : ∃ result, store content written.length 10 = some result :=
      Option.isSome_iff_exists.mp (isSome_store_iff.mpr (Nat.lt_of_lt_of_eq short size.symm))
    rw [if_pos ⟨newline, short⟩, if_neg newline, stored, List.length_append,
      List.length_singleton]
    exact ⟨result, rfl, front_store front rfl stored, (length_store stored).trans size⟩

/-- What `finish` leaves if it stays inside of the block. -/
theorem finish_eq_some (front : (written ++ [0]).map some <+: content) (nulFree : 0 ∉ written)
    (size : content.length = totalLen) (nonempty : signature.bytes ≠ [])
    (finished : finish content totalLen signature source = some result) :
    let text := written ++ signature.bytes
    (text ++ newlineAfter text ++ source.bytes).length < totalLen ∧
      readUntil 0 result = some (text ++ newlineAfter text ++ source.bytes) := by
  intro text
  have atEnd : readUntil 0 content = some written := readUntil_eq_some_iff.mpr ⟨nulFree, front⟩
  have writtenFront : written.map some <+: content :=
    ((List.prefix_append written [0]).map some).trans front
  have length : text.length = written.length + signature.bytes.length := List.length_append
  have textNonempty : text ≠ [] := List.append_ne_nil_of_right_ne_nil written nonempty
  unfold finish at finished
  rw [atEnd] at finished
  simp only [Option.bind_eq_bind, Option.bind_some] at finished
  obtain ⟨signed, copied, finished⟩ := Option.bind_eq_some_iff.mp finished
  obtain ⟨⟨broken, len⟩, ended, finished⟩ := Option.bind_eq_some_iff.mp finished
  obtain ⟨sourced, copiedSource, stored⟩ := Option.bind_eq_some_iff.mp finished
  rw [← length] at ended
  -- the last store is inside of the block, and so are the copies in front of it
  have inside : len + source.bytes.length < totalLen := by
    have last := isSome_store_iff.mp (Option.isSome_of_eq_some stored)
    rwa [length_copyRest copiedSource, (length_endLine ended).1, length_copyRest copied,
      size] at last
  have ordered : text.length ≤ len := (length_endLine ended).2
  obtain ⟨signedFront, signedSize⟩ := front_copyRest writtenFront size (by omega) copied
  have short : text.length < totalLen := by omega
  obtain ⟨_, same, brokenFront, brokenSize⟩ :=
    endLine_eq signedFront textNonempty signedSize short
  rw [ended] at same
  obtain ⟨rfl, rfl⟩ := Prod.mk.inj (Option.some.inj same)
  obtain ⟨sourcedFront, -⟩ := front_copyRest brokenFront brokenSize (by omega) copiedSource
  rw [← List.length_append] at inside stored
  refine ⟨inside, readUntil_eq_some_iff.mpr ⟨?_, front_store sourcedFront rfl stored⟩⟩
  simp only [text, List.mem_append, not_or]
  exact ⟨⟨⟨nulFree, signature.nulFree⟩, zero_notMem_newlineAfter _⟩, source.nulFree⟩

/-- The copy of a buffer that is long enough. -/
theorem copyRest_eq {len bufferSize : Nat} {text : CString} (size : content.length = totalLen)
    (short : text.bytes.length < bufferSize)
    (enough : totalLen ≤ len + bufferSize) :
    ∃ result, copyRest content len totalLen (buffer bufferSize text) = some result := by
  unfold copyRest
  split
  · refine Option.isSome_iff_exists.mp (isSome_copy_iff.mpr ?_)
    rw [length_buffer short]
    omega
  · exact ⟨content, rfl⟩

/-- Inside of the block, and with long buffers, `finish` succeeds. -/
theorem exists_finish (front : (written ++ [0]).map some <+: content) (nulFree : 0 ∉ written)
    (size : content.length = totalLen) (nonempty : signature.bytes ≠ [])
    (shortSignature : signature.bytes.length < utf8SignatureSize)
    (shortSource : source.bytes.length < sourceSize)
    (signatureEnough : totalLen ≤ written.length + utf8SignatureSize)
    (sourceEnough : totalLen ≤ written.length + signature.bytes.length + sourceSize)
    (inside : (written ++ signature.bytes ++ newlineAfter (written ++ signature.bytes) ++
      source.bytes).length < totalLen) :
    ∃ result, finish content totalLen signature source = some result := by
  have atEnd : readUntil 0 content = some written := readUntil_eq_some_iff.mpr ⟨nulFree, front⟩
  have writtenFront : written.map some <+: content :=
    ((List.prefix_append written [0]).map some).trans front
  have length : (written ++ signature.bytes).length = written.length + signature.bytes.length :=
    List.length_append
  rw [List.length_append, List.length_append] at inside
  obtain ⟨signed, copied⟩ : ∃ signed, copyRest content written.length totalLen
      (buffer utf8SignatureSize signature) = some signed :=
    copyRest_eq size shortSignature signatureEnough
  obtain ⟨signedFront, signedSize⟩ := front_copyRest writtenFront size (by omega) copied
  have short : (written ++ signature.bytes).length < totalLen := by omega
  obtain ⟨broken, ended, brokenFront, brokenSize⟩ :=
    endLine_eq signedFront (List.append_ne_nil_of_right_ne_nil written nonempty) signedSize short
  generalize isBroken : written ++ signature.bytes ++
    newlineAfter (written ++ signature.bytes) = line at *
  have brokenLength : line.length = (written ++ signature.bytes).length +
      (newlineAfter (written ++ signature.bytes)).length := by
    rw [← isBroken, List.length_append]
  obtain ⟨sourced, copiedSource⟩ : ∃ sourced, copyRest broken line.length totalLen
      (buffer sourceSize source) = some sourced :=
    copyRest_eq brokenSize shortSource (by omega)
  obtain ⟨result, stored⟩ : ∃ result,
      store sourced (line.length + source.bytes.length) 0 = some result := by
    refine Option.isSome_iff_exists.mp (isSome_store_iff.mpr ?_)
    rw [length_copyRest copiedSource, brokenSize]
    omega
  refine ⟨result, ?_⟩
  rw [finish, atEnd]
  simp only [Option.bind_eq_bind, Option.bind_some]
  rw [copied, Option.bind_some, ← length, ended, Option.bind_some, copiedSource,
    Option.bind_some, stored]

end Finish

/-- What the code relies on in `iconv`: a string in a buffer ends inside of it, two bytes
become at most three, and ASCII stays what it is. -/
structure Conversion (convert : ConvertType → CString → Nat → CString) : Prop where
  fits : ∀ type string size, 0 < size → (convert type string size).bytes.length < size
  grows : ∀ string size, 2 * (convert .g2u string size).bytes.length ≤ 3 * string.bytes.length
  ascii : ∀ string size byte, string.bytes.head? = some byte → byte < 128 → 1 < size →
    (convert .g2u string size).bytes.head? = some byte

section Strings

variable {env : Environment} {pr : PostRequest} {anony : Bool}

theorem length_ofBytes_le (bytes : Bytes) : (CString.ofBytes bytes).bytes.length ≤ bytes.length :=
  (List.takeWhile_sublist _).length_le

theorem length_snprintf_lt {size : Nat} (positive : 0 < size) (bytes : Bytes) :
    (snprintf size bytes).bytes.length < size := by
  rw [snprintf, CString.truncate, List.length_take]
  omega

theorem length_snprintf_le (size : Nat) (bytes : Bytes) :
    (snprintf size bytes).bytes.length ≤ bytes.length := by
  have whole := length_ofBytes_le bytes
  rw [snprintf, CString.truncate, List.length_take]
  omega

/-- A signature begins with a newline and stays in its buffer. -/
structure InBuffer (size : Nat) (out : Bytes) : Prop where
  begins : out.head? = some 10
  short : out.length < size

theorem inBuffer_strappend {size : Nat} {out : Bytes} (inBuffer : InBuffer size out)
    (src : Bytes) : InBuffer size (strappend size out src) := by
  have short := inBuffer.short
  constructor
  · obtain ⟨rest, rfl⟩ := List.head?_eq_some_iff.mp inBuffer.begins
    rw [List.length_cons] at short
    obtain ⟨more, isSucc⟩ : ∃ more, size - 1 = more + 1 := ⟨size - 2, by omega⟩
    rw [strappend, isSucc]
    rfl
  · rw [strappend, List.length_take]
    omega

theorem inBuffer_signatureLoop {site : Site} {size : Nat} (lines : Nat) {blank : Nat}
    {out : Bytes} (inBuffer : InBuffer size out) (rest : List Bytes) :
    InBuffer size (signatureLoop site size lines blank out rest) := by
  induction lines generalizing blank out rest with
  | zero =>
    cases rest <;> exact inBuffer
  | succ lines ih =>
    cases rest with
    | nil => exact inBuffer
    | cons line rest =>
      have blanks : InBuffer size ((List.replicate blank [10]).foldl (strappend size) out) := by
        generalize List.replicate blank ([10] : Bytes) = blanks
        induction blanks generalizing out with
        | nil => exact inBuffer
        | cons blank blanks next => exact next (inBuffer_strappend inBuffer blank)
      rw [signatureLoop]
      split
      · exact ih inBuffer rest
      · refine ih ?_ rest
        split
        · exact blanks
        · exact inBuffer_strappend blanks _

theorem inBuffer_readSignatureLegacy {site : Site} {signatures : Option Bytes} {offset : Int}
    {signature : CString}
    (read : readSignatureLegacy site signatures offset signatureSize = some signature) :
    InBuffer signatureSize signature.bytes := by
  have start : InBuffer signatureSize (strappend signatureSize [] [10, 45, 45, 10]) :=
    ⟨by decide, by decide⟩
  have cut : ∀ {out : Bytes}, InBuffer signatureSize out →
      InBuffer signatureSize (CString.ofBytes out).bytes := by
    intro out inBuffer
    refine ⟨?_, (length_ofBytes_le out).trans_lt inBuffer.short⟩
    obtain ⟨rest, rfl⟩ := List.head?_eq_some_iff.mp inBuffer.begins
    rfl
  unfold readSignatureLegacy at read
  split at read
  · rw [← Option.some.inj read]
    exact cut start
  · cases signatures with
    | none =>
      rw [← Option.some.inj read]
      exact cut start
    | some contents =>
      obtain ⟨skipped, -, rfl⟩ := Option.map_eq_some_iff.mp read
      exact cut (inBuffer_signatureLoop maxSigLines start _)

/-- The converted signature is not empty, and not too long for its buffer. -/
theorem utf8Signature_bounds (conversion : Conversion env.convert) {signature : CString}
    (read : env.utf8Signature pr anony = some signature) :
    signature.bytes ≠ [] ∧ signature.bytes.length ≤ 2310 := by
  unfold Environment.utf8Signature at read
  split at read
  · obtain ⟨gbk, legacy, rfl⟩ := Option.map_eq_some_iff.mp read
    have inBuffer := inBuffer_readSignatureLegacy legacy
    have short := inBuffer.short
    have begins := conversion.ascii gbk utf8SignatureSize 10 inBuffer.begins (by decide) (by decide)
    have grows := conversion.grows gbk utf8SignatureSize
    have size : signatureSize = 1541 := rfl
    constructor
    · intro empty
      rw [empty] at begins
      cases begins
    · omega
  · rw [← Option.some.inj read]
    decide

/-- The source line fills its buffer at most up to one byte. -/
theorem length_source_le (conversion : Conversion env.convert) (pr : PostRequest)
    (ip : Option CString) : (env.source pr ip).bytes.length ≤ 254 := by
  cases ip with
  | none => exact Nat.zero_le 254
  | some ip =>
    refine (length_snprintf_le _ _).trans ?_
    have address := conversion.fits .g2u ip 80 (by decide)
    have colour : (DecimalText.spacePadded 2 ((31 + env.rand % 7 : Nat) : Int)).length ≤ 2 := by
      have digits : (DecimalText.digits (31 + env.rand % 7)).length ≤ 2 :=
        DecimalText.length_digits_le 2 (by decide) (by omega)
      rw [DecimalText.spacePadded, DecimalText.ofInt, if_neg (by omega), List.nil_append,
        Int.natAbs_natCast, List.length_append, List.length_replicate]
      omega
    have name : env.site.bbsnameUtf8.length ≤ 12 := by
      cases env.site <;> decide
    have host : env.site.bbshost.length ≤ 16 := by
      cases env.site <;> decide
    simp only [List.length_append, List.length_cons, List.length_nil]
    split <;> split <;> simp only [List.length_cons, List.length_nil] <;> omega

end Strings

/-- The content is made of the parts that are asked for, inside of its memory. -/
def Assembles (env : Environment) (pr : PostRequest) (uname nick : CString)
    (ip : Option CString) (anony : Bool) : Prop :=
  ∃ signature body content, env.utf8Signature pr anony = some signature ∧ pr.body = some body ∧
    generateContent env pr uname nick ip anony pr.length = some content ∧
    readUntil 0 content =
      some (assembled (env.header pr uname nick) body signature (env.source pr ip))

/-- The string is as long as the request says, and the parts can be counted. -/
structure Countable (env : Environment) (pr : PostRequest) (uname nick : CString)
    (ip : Option CString) (anony : Bool) : Prop where
  skips : anony = true ∨ pr.sig ≤ 0 ∨ env.signatures = none ∨
    (pr.sig - 1) * maxSigLines < 2 ^ 31
  measured : ∃ text, readUntil 0 (pr.content.map some) = some text ∧
    (pr.length = 0 ∨ text.length = pr.length.toNat) ∧
    ∀ signature, env.utf8Signature pr anony = some signature →
      (env.header pr uname nick).bytes.length + text.length + signature.bytes.length +
        (env.source pr ip).bytes.length + 2 < 2 ^ 31

section Contents

variable {env : Environment} {pr : PostRequest} {uname nick : CString} {ip : Option CString}
  {anony : Bool}

theorem asInt_eq_self_iff {value : Int} :
    asInt value = value ↔ -2 ^ 31 ≤ value ∧ value < 2 ^ 31 := by
  rw [asInt, Int.bmod_eq_iff (by decide)]
  omega

theorem checkedInt_eq_some_iff {value int : Int} :
    checkedInt value = some int ↔ (-2 ^ 31 ≤ value ∧ value < 2 ^ 31) ∧ int = value := by
  rw [checkedInt, ← asInt_eq_self_iff]
  by_cases same : asInt value = value
  · rw [if_pos same, Option.some.injEq, and_iff_right same, eq_comm]
  · rw [if_neg same]
    exact ⟨fun isNone => absurd isNone (Option.some_ne_none int).symm,
      fun other => absurd other.1 same⟩

/-- The signature can be read if the lines in front of it can be counted. -/
theorem utf8Signature_isSome_iff :
    (env.utf8Signature pr anony).isSome ↔ anony = true ∨ pr.sig ≤ 0 ∨ env.signatures = none ∨
      (pr.sig - 1) * maxSigLines < 2 ^ 31 := by
  unfold Environment.utf8Signature
  split
  · next signed =>
    rw [Bool.and_eq_true, Bool.not_eq_true', decide_eq_true_eq] at signed
    have positive : ¬pr.sig ≤ 0 := Int.not_le.mpr signed.2
    unfold readSignatureLegacy
    simp only [Option.isSome_map, if_neg positive]
    cases env.signatures with
    | none => simp
    | some contents =>
      simp only [Option.isSome_map]
      rw [signed.1, or_iff_right (by decide), or_iff_right positive,
        or_iff_right (Option.some_ne_none contents), Option.isSome_iff_exists]
      constructor
      · rintro ⟨skipped, checked⟩
        exact (checkedInt_eq_some_iff.mp checked).1.2
      · intro small
        have low : -2 ^ 31 ≤ (pr.sig - 1) * (maxSigLines : Int) := by
          rw [show (maxSigLines : Int) = 6 from rfl]
          omega
        exact ⟨_, checkedInt_eq_some_iff.mpr ⟨⟨low, small⟩, rfl⟩⟩
  · next unsigned =>
    rw [Bool.and_eq_true, Bool.not_eq_true', decide_eq_true_eq] at unsigned
    simp only [Option.isSome_some, true_iff]
    cases anony with
    | true => exact .inl rfl
    | false => exact .inr (.inl (Int.not_lt.mp fun positive => unsigned ⟨rfl, positive⟩))

theorem contentLen_plain (plain : pr.convertType = .none) {len : Int}
    (counted : pr.contentLen pr.length = some len) {text : Bytes}
    (string : readUntil 0 (pr.content.map some) = some text) :
    len = asInt (if pr.length = 0 then text.length else pr.length.toNat : Nat) := by
  rw [PostRequest.contentLen, if_pos plain, string] at counted
  split at counted
  · next zero => rw [if_pos zero, ← Option.some.inj counted]
  · next given => rw [if_neg given, ← Option.some.inj counted]

/-- The text in the block, up to its end. -/
theorem front_writeText (plain : pr.convertType = .none) {content result : Memory UInt8}
    {header : CString} {size : Nat} (front : header.bytes.map some <+: content)
    (positive : 0 < size)
    (written : writeText env pr content header.bytes.length size = some result) :
    ∃ text, readUntil 0 (pr.content.map some) = some text ∧ result.length = content.length ∧
      (header.bytes ++ text.take (size - 1) ++ [0]).map some <+: result := by
  unfold writeText at written
  obtain ⟨text, string, written⟩ := Option.bind_eq_some_iff.mp written
  rw [if_pos plain, if_neg (Nat.ne_of_gt positive)] at written
  refine ⟨text, string, length_copy written, ?_⟩
  rw [List.append_assoc]
  exact front_copy front (List.prefix_refl _) rfl (Nat.le_refl _) written

theorem readUntil_full {text : Bytes} (nulFree : 0 ∉ text) :
    readUntil 0 (text.map some) = none := by
  rw [Option.eq_none_iff_forall_ne_some]
  intro string read
  have front := (readUntil_eq_some_iff.mp read).2
  rw [List.map_append] at front
  obtain ⟨value, member, same⟩ := List.mem_map.mp
    (front.subset (List.mem_append_right _ List.mem_cons_self))
  exact nulFree (Option.some.inj same ▸ member)

/-- What is filled in, if it stays inside of the memory. -/
theorem fill_eq_some (plain : pr.convertType = .none) {header signature source : CString}
    {totalLen : Nat} {content : Memory UInt8} (nonempty : signature.bytes ≠ [])
    (filled : fill env pr header signature source totalLen = some content) :
    ∃ text, readUntil 0 (pr.content.map some) = some text ∧
      readUntil 0 content = some (assembled header text signature source) ∧
      (assembled header text signature source).length < totalLen := by
  unfold fill at filled
  obtain ⟨headed, copied, filled⟩ := Option.bind_eq_some_iff.mp filled
  obtain ⟨texted, written, finished⟩ := Option.bind_eq_some_iff.mp filled
  have headedFront : header.bytes.map some <+: headed := by
    exact front_copy (front_nil _)
      (((List.prefix_append header.bytes [0]).map some).trans (front_buffer 512 header)) rfl
      (Nat.le_refl _) copied
  have headedSize : headed.length = totalLen := (length_copy copied).trans List.length_replicate
  have long : header.bytes.length ≤ totalLen := by
    rw [← headedSize, ← List.length_map (f := some)]
    exact headedFront.length_le
  rcases Nat.eq_zero_or_pos (totalLen - header.bytes.length) with zero | room
  · -- only the header fits, and its end is not found
    have full : headed = header.bytes.map some :=
      (headedFront.eq_of_length (by rw [List.length_map]; omega)).symm
    unfold writeText at written
    obtain ⟨text, -, written⟩ := Option.bind_eq_some_iff.mp written
    rw [if_pos plain, if_pos zero] at written
    rw [← Option.some.inj written, full, finish, readUntil_full header.nulFree] at finished
    cases finished
  · obtain ⟨text, string, textedSize, front⟩ := front_writeText plain headedFront room written
    have nulFree : 0 ∉ header.bytes ++ text.take (totalLen - header.bytes.length - 1) := by
      rw [List.mem_append, not_or]
      exact ⟨header.nulFree, fun member =>
        (readUntil_eq_some_iff.mp string).1 (List.mem_of_mem_take member)⟩
    obtain ⟨inside, whole⟩ :=
      finish_eq_some front nulFree (textedSize.trans headedSize) nonempty finished
    -- a text that has been cut would leave no place for the signature
    have uncut : text.take (totalLen - header.bytes.length - 1) = text := by
      have positive : 0 < signature.bytes.length := List.length_pos_iff.mpr nonempty
      simp only [List.length_append, List.length_take] at inside
      refine List.take_of_length_le ?_
      omega
    rw [uncut] at inside whole
    exact ⟨text, string, whole, inside⟩

/-- Inside of its memory, everything is filled in. -/
theorem exists_fill (plain : pr.convertType = .none) {header signature source : CString}
    {totalLen : Nat} {text : Bytes} (string : readUntil 0 (pr.content.map some) = some text)
    (nonempty : signature.bytes ≠ []) (shortHeader : header.bytes.length < 512)
    (shortSignature : signature.bytes.length ≤ 2310) (shortSource : source.bytes.length ≤ 254)
    (total : totalLen = header.bytes.length + text.length + signature.bytes.length +
      source.bytes.length + 2) :
    ∃ content, fill env pr header signature source totalLen = some content := by
  obtain ⟨headed, copied⟩ : ∃ headed, copy (malloc totalLen) 0 (buffer 512 header)
      header.bytes.length = some headed := by
    refine Option.isSome_iff_exists.mp (isSome_copy_iff.mpr ⟨?_, ?_⟩)
    · rw [length_buffer shortHeader]
      exact shortHeader.le
    · rw [malloc, List.length_replicate]
      omega
  have headedSize : headed.length = totalLen := (length_copy copied).trans List.length_replicate
  have headedFront : header.bytes.map some <+: headed := by
    exact front_copy (front_nil _)
      (((List.prefix_append header.bytes [0]).map some).trans (front_buffer 512 header)) rfl
      (Nat.le_refl _) copied
  have uncut : text.take (totalLen - header.bytes.length - 1) = text :=
    List.take_of_length_le (by omega)
  obtain ⟨texted, written⟩ : ∃ texted, writeText env pr headed header.bytes.length
      (totalLen - header.bytes.length) = some texted := by
    rw [writeText, string]
    simp only [Option.bind_eq_bind, Option.bind_some]
    rw [if_pos plain, if_neg (by omega), uncut]
    refine Option.isSome_iff_exists.mp (isSome_copy_iff.mpr ?_)
    rw [List.length_map, List.length_append, List.length_singleton]
    omega
  obtain ⟨_, same, textedSize, front⟩ := front_writeText plain headedFront (by omega) written
  rw [string] at same
  obtain rfl := Option.some.inj same
  rw [uncut] at front
  have nulFree : 0 ∉ header.bytes ++ text := by
    rw [List.mem_append, not_or]
    exact ⟨header.nulFree, (readUntil_eq_some_iff.mp string).1⟩
  have newline := length_newlineAfter_le (header.bytes ++ text ++ signature.bytes)
  have length : (header.bytes ++ text).length = header.bytes.length + text.length :=
    List.length_append
  obtain ⟨content, finished⟩ : ∃ content, finish texted totalLen signature source =
      some content := exists_finish front nulFree (textedSize.trans headedSize) nonempty
    (Nat.lt_of_le_of_lt shortSignature (by decide)) (Nat.lt_of_le_of_lt shortSource (by decide))
    (by
      rw [show utf8SignatureSize = 3083 from rfl]
      omega)
    (by
      rw [show sourceSize = 256 from rfl]
      omega)
    (by
      simp only [List.length_append] at newline ⊢
      omega)
  refine ⟨content, ?_⟩
  rw [fill, copied]
  simp only [Option.bind_eq_bind, Option.bind_some]
  rw [written, Option.bind_some, finished]

/-- What `generate_content` makes without a conversion, if it stays inside of its memory. -/
theorem generateContent_eq_some (conversion : Conversion env.convert)
    (plain : pr.convertType = .none) {content : Memory UInt8}
    (made : generateContent env pr uname nick ip anony pr.length = some content) :
    ∃ text signature, readUntil 0 (pr.content.map some) = some text ∧
      env.utf8Signature pr anony = some signature ∧
      readUntil 0 content =
        some (assembled (env.header pr uname nick) text signature (env.source pr ip)) ∧
      let total : Int := (env.header pr uname nick).bytes.length +
        asInt (if pr.length = 0 then text.length else pr.length.toNat : Nat) +
        signature.bytes.length + (env.source pr ip).bytes.length + 2
      ((assembled (env.header pr uname nick) text signature (env.source pr ip)).length : Int) <
        total ∧ total < 2 ^ 31 := by
  unfold generateContent at made
  simp only [Option.bind_eq_bind] at made
  obtain ⟨contentLen, counted, made⟩ := Option.bind_eq_some_iff.mp made
  obtain ⟨signature, read, made⟩ := Option.bind_eq_some_iff.mp made
  obtain ⟨totalLen, checked, made⟩ := Option.bind_eq_some_iff.mp made
  obtain ⟨⟨-, small⟩, isTotal⟩ := checkedInt_eq_some_iff.mp checked
  split at made
  · cases made
  · obtain ⟨text, string, whole, inside⟩ :=
      fill_eq_some plain (utf8Signature_bounds conversion read).1 made
    refine ⟨text, signature, string, read, whole, ?_⟩
    rw [← contentLen_plain plain counted string]
    exact ⟨by omega, small⟩

/-- A content without a final zero is read beyond its memory. -/
theorem not_assembles_of_nulFree (conversion : Conversion env.convert)
    (plain : pr.convertType = .none) (nulFree : 0 ∉ pr.content) :
    ¬Assembles env pr uname nick ip anony := by
  rintro ⟨-, -, content, -, -, made, -⟩
  obtain ⟨text, -, string, -⟩ := generateContent_eq_some conversion plain made
  rw [readUntil_full nulFree] at string
  cases string

/-- The header, the signature and the source line leave the text only one place. -/
theorem assembled_injective {header signature source : CString} {first second : Bytes}
    (nonempty : signature.bytes ≠ [])
    (same : assembled header first signature source = assembled header second signature source) :
    first = second := by
  simp only [assembled] at same
  rw [newlineAfter_append _ nonempty, newlineAfter_append _ nonempty] at same
  simp only [List.append_assoc] at same
  exact List.append_cancel_right (List.append_cancel_left same)

/-- A number that is stored in an `int` does not grow. -/
theorem asInt_natCast (n : Nat) : asInt n = n ∨ asInt n + 2 ^ 32 ≤ n := by
  rw [asInt, Int.bmod_def]
  split <;> omega

theorem le_length_assembled (header : CString) (body : Bytes) (signature source : CString) :
    header.bytes.length + body.length + signature.bytes.length + source.bytes.length ≤
      (assembled header body signature source).length := by
  simp only [assembled, List.length_append]
  omega

/-- The parts are assembled if they can be counted, and only then. -/
theorem assembles_iff (conversion : Conversion env.convert) (plain : pr.convertType = .none) :
    Assembles env pr uname nick ip anony ↔ Countable env pr uname nick ip anony := by
  constructor
  · rintro ⟨signature, body, content, read, isBody, made, whole⟩
    obtain ⟨text, _, string, sameSignature, other, inside, small⟩ :=
      generateContent_eq_some conversion plain made
    rw [read] at sameSignature
    obtain rfl := Option.some.inj sameSignature
    rw [whole] at other
    obtain rfl := assembled_injective (utf8Signature_bounds conversion read).1
      (Option.some.inj other)
    have long := le_length_assembled (env.header pr uname nick) body signature (env.source pr ip)
    have length : (if pr.length = 0 then body.length else pr.length.toNat) = body.length := by
      split
      · rfl
      · next given =>
        rw [PostRequest.body, if_neg given] at isBody
        have front := (readUntil_eq_some_iff.mp string).2.length_le
        have taken := congrArg List.length (Option.some.inj isBody)
        rw [List.length_take] at taken
        rw [List.length_map, List.length_map, List.length_append, List.length_singleton] at front
        omega
    rw [length] at inside small
    have exact : asInt body.length = body.length := by
      rcases asInt_natCast body.length with exact | wrapped
      · exact exact
      · omega
    refine ⟨utf8Signature_isSome_iff.mp (Option.isSome_of_eq_some read), body, string, ?_, ?_⟩
    · split at length
      · next zero => exact .inl zero
      · exact .inr length.symm
    · intro _ same
      rw [read] at same
      obtain rfl := Option.some.inj same
      omega
  · rintro ⟨skips, text, string, length, small⟩
    obtain ⟨signature, read⟩ := Option.isSome_iff_exists.mp (utf8Signature_isSome_iff.mpr skips)
    obtain ⟨nonempty, shortSignature⟩ := utf8Signature_bounds conversion read
    have total := small signature read
    have exact : asInt text.length = text.length := asInt_eq_self_iff.mpr ⟨by omega, by omega⟩
    have counted : pr.contentLen pr.length = some (text.length : Int) := by
      rw [PostRequest.contentLen, if_pos plain, string]
      split
      · rw [Option.map_some, exact]
      · next given => rw [← length.resolve_left given, exact]
    obtain ⟨content, filled⟩ := exists_fill plain string nonempty
      (show (env.header pr uname nick).bytes.length < 512 from length_snprintf_lt (by decide) _)
      shortSignature (length_source_le conversion pr ip) rfl
    have made : generateContent env pr uname nick ip anony pr.length = some content := by
      unfold generateContent
      simp only [Option.bind_eq_bind]
      rw [counted, Option.bind_some, read, Option.bind_some,
        checkedInt_eq_some_iff.mpr ⟨⟨by omega, by omega⟩, rfl⟩, Option.bind_some, if_neg (by omega)]
      exact filled
    obtain ⟨_, _, otherString, otherRead, whole, -⟩ :=
      generateContent_eq_some conversion plain made
    rw [string] at otherString
    rw [read] at otherRead
    obtain rfl := Option.some.inj otherString
    obtain rfl := Option.some.inj otherRead
    refine ⟨signature, text, content, read, ?_, made, whole⟩
    rw [PostRequest.body]
    split
    · exact string
    · next given =>
      have front : text <+: pr.content := by
        have whole := (List.prefix_map_iff_of_injective (Option.some_injective UInt8)).mp
          (readUntil_eq_some_iff.mp string).2
        exact (List.prefix_append text [0]).trans whole
      rw [← length.resolve_left given, ← List.prefix_iff_eq_take.mp front]

end Contents

def asciiEnvironment : Environment where
  site := .standard
  convert := fun _ string size => string.truncate size
  signatures := none
  time := .empty
  rand := 0

theorem conversion_ascii : Conversion asciiEnvironment.convert where
  fits := fun _ string size positive => by
    change (string.bytes.take (size - 1)).length < size
    rw [List.length_take]
    omega
  grows := fun string size => by
    change 2 * (string.bytes.take (size - 1)).length ≤ 3 * string.bytes.length
    rw [List.length_take]
    omega
  ascii := fun string size byte head _ large => by
    obtain ⟨rest, split⟩ := List.head?_eq_some_iff.mp head
    change (string.bytes.take (size - 1)).head? = some byte
    obtain ⟨more, isSucc⟩ : ∃ more, size - 1 = more + 1 := ⟨size - 2, by omega⟩
    rw [split, isSucc]
    rfl

/-- A request for some bytes of a content, from the web and without a signature. -/
def requestFor (content : Bytes) (length : UInt64) : PostRequest where
  boardName := .empty
  title := .empty
  content := content
  length := length
  convertType := .none
  sig := 0
  web := true
  crosspost := false

/-- A user with a signature of one line. -/
def signedEnvironment : Environment :=
  { asciiEnvironment with signatures := some [115, 10], time := .ofBytes [116] }

/-- A post on the board `b` with a title, the content `hi` and the first signature. -/
def signedRequest : PostRequest :=
  { requestFor [104, 105, 0] 2 with
    boardName := .ofBytes [98]
    title := .ofBytes [116]
    sig := 1 }

theorem signedRequest_assembles :
    Assembles signedEnvironment signedRequest (.ofBytes [117]) (.ofBytes [110])
      (some (.ofBytes [49])) false := by
  have conversion : Conversion signedEnvironment.convert := conversion_ascii
  refine (assembles_iff conversion rfl).mpr ⟨.inr (.inr (.inr (by decide))), [104, 105], rfl,
    .inr rfl, fun signature read => ?_⟩
  have short := (utf8Signature_bounds conversion read).2
  have source := length_source_le conversion signedRequest (some (.ofBytes [49]))
  have inBuffer : (signedEnvironment.header signedRequest (.ofBytes [117])
      (.ofBytes [110])).bytes.length < 512 := length_snprintf_lt (by decide) _
  change _ + 2 + _ + _ + 2 < _
  omega

/-- A file of one page, as `pack_posts` maps it into memory. -/
def mappedPage : Bytes :=
  List.replicate 4096 120

theorem zero_notMem_mappedPage : 0 ∉ mappedPage :=
  fun member => absurd (List.eq_of_mem_replicate member) (by decide)

/-- The page has no final zero; and a string that is two bytes longer than the request says does
not fit. -/
theorem page_not_assembled :
    ¬Assembles asciiEnvironment (requestFor mappedPage 4096) .empty .empty none false ∧
      ¬Assembles asciiEnvironment (requestFor [120, 120, 120, 0] 1) .empty .empty none false := by
  constructor
  · exact not_assembles_of_nulFree conversion_ascii rfl zero_notMem_mappedPage
  · rintro ⟨-, -, content, -, -, made, -⟩
    obtain ⟨text, signature, string, -, -, inside, -⟩ :=
      generateContent_eq_some conversion_ascii rfl made
    obtain rfl : text = [120, 120, 120] := (Option.some.inj string).symm
    have long := le_length_assembled
      (asciiEnvironment.header (requestFor [120, 120, 120, 0] 1) .empty .empty) [120, 120, 120]
      signature (asciiEnvironment.source (requestFor [120, 120, 120, 0] 1) none)
    have given : (requestFor [120, 120, 120, 0] 1).length ≠ 0 := by
      change (1 : UInt64) ≠ 0
      decide
    have one : asInt ((requestFor [120, 120, 120, 0] 1).length.toNat : Nat) = 1 :=
      (asInt_eq_self_iff : asInt 1 = 1 ↔ _).mpr (by decide)
    rw [if_neg given, one] at inside
    simp only [List.length_cons, List.length_nil] at long
    omega

end ContentAssembly

end Fbbs
