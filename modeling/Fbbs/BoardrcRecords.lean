import Fbbs.ReadMarks
import Mathlib.Algebra.Order.BigOperators.Group.List

/-!
# Records in the read mark buffer

A `.boardrc` file and the buffer in memory are sequences of records: the board
name in a field of `BRC_STRLEN` bytes, the number of entries, and the entries.
`strlcpy` writes the name and its terminator only, so the rest of the field
keeps whatever was there.  A scan ends at the end of the used part or at a
record whose name does not start with a printable character.
-/

namespace Fbbs

namespace Boardrc

open WordEncodings

def brcBufsize : Nat := 50000

def brcStrlen : Nat := 20

/-- The bytes of a record with `BRC_MAXNUM` entries. -/
def brcItemsize : Nat := brcStrlen + 1 + brcMaxnum * 4

structure Record where
  name : CString
  items : List Item
  deriving DecidableEq

/-- How far a pointer moves over the record. -/
def Record.byteSize (record : Record) : Nat :=
  brcStrlen + 1 + record.items.length * 4

def Brc.record (brc : Brc) : Record :=
  ⟨brc.name, brc.items⟩

def encodeItems (items : List Item) : Bytes :=
  items.flatMap fun item => LittleEndian.bytes 4 item.toNat

def decodeItems : Nat → Bytes → List Item
  | 0, _ => []
  | count + 1, bytes =>
    UInt32.ofNat (LittleEndian.value (bytes.take 4)) ::
      decodeItems count (bytes.drop 4)

/-- `brc_get_record`: the record at a pointer, and the memory behind it.  The
count is a `char`, whose negative values become large. -/
def brcGetRecord (ptr : Bytes) : Record × Bytes :=
  let name := (CString.ofBytes ptr).truncate brcStrlen
  let ptr := ptr.drop brcStrlen
  let size := min (ptr.headD 0).toNat brcMaxnum
  (⟨name, decodeItems size (ptr.drop 1)⟩, ptr.drop (1 + size * 4))

/-- `brc_put_record`: the bytes that are written over the memory at a pointer,
and the memory behind them. -/
def brcPutRecord (ptr : Bytes) (record : Record) : Bytes × Bytes :=
  if record.items = [] then ([], ptr)
  else
    let size := min record.items.length brcMaxnum
    let name := record.name.truncate brcStrlen
    (name.bytes ++ 0 :: (ptr.take brcStrlen).drop (name.bytes.length + 1) ++
        UInt8.ofNat size :: encodeItems (record.items.take size),
      ptr.drop (brcStrlen + 1 + size * 4))

/-- `*ptr >= ' ' && *ptr <= '~'`. -/
def printable (byte : UInt8) : Bool :=
  0x20 ≤ byte && byte ≤ 0x7e

/-- The records that a loop over `remaining` bytes visits.  Every record takes
at least one byte, so `remaining` rounds are enough. -/
def scanRecords : Nat → Bytes → Nat → List Record
  | 0, _, _ => []
  | fuel + 1, ptr, remaining =>
    if remaining ≠ 0 ∧ printable (ptr.headD 0) then
      let (record, rest) := brcGetRecord ptr
      record :: scanRecords fuel rest (remaining - record.byteSize)
    else []

/-- Writing records one after another. -/
def putRecords : Bytes → List Record → Bytes × Bytes
  | ptr, [] => ([], ptr)
  | ptr, record :: records =>
    let (written, ptr) := brcPutRecord ptr record
    let (more, ptr) := putRecords ptr records
    (written ++ more, ptr)

/-- What `brc_put_record` is given: a name that fits and some entries. -/
structure Record.Valid (record : Record) : Prop where
  name : record.name.bytes.length < brcStrlen
  nonempty : record.items ≠ []
  length_le : record.items.length ≤ brcMaxnum

/-- A record with given bytes behind the terminator of its name. -/
def Record.bytes (padding : Bytes) (record : Record) : Bytes :=
  record.name.bytes ++ 0 :: padding ++
    UInt8.ofNat record.items.length :: encodeItems record.items

/-- The bytes are the given records, with any padding. -/
inductive Encodes : Bytes → List Record → Prop
  | nil : Encodes [] []
  | cons {record : Record} {padding bytes : Bytes} {records : List Record}
      (valid : record.Valid)
      (padded : record.name.bytes.length + 1 + padding.length = brcStrlen)
      (rest : Encodes bytes records) :
      Encodes (record.bytes padding ++ bytes) (record :: records)

/-- A scan goes on after this record. -/
def Record.visible (record : Record) : Bool :=
  printable (record.name.bytes.headD 0)

theorem encodeItems_length (items : List Item) :
    (encodeItems items).length = items.length * 4 := by
  induction items with
  | nil => rfl
  | cons item items ih =>
    rw [encodeItems, List.flatMap_cons, List.length_append,
      LittleEndian.bytes_length, ← encodeItems, ih, List.length_cons]
    omega

theorem decodeItems_encodeItems (items : List Item) (rest : Bytes) :
    decodeItems items.length (encodeItems items ++ rest) = items := by
  induction items with
  | nil => rfl
  | cons item items ih =>
    have lengthEq : (LittleEndian.bytes 4 item.toNat).length = 4 :=
      LittleEndian.bytes_length 4 item.toNat
    have decoded : LittleEndian.value (LittleEndian.bytes 4 item.toNat) =
        item.toNat :=
      LittleEndian.value_bytes_of_lt item.toNat_lt
    have split : encodeItems (item :: items) ++ rest =
        LittleEndian.bytes 4 item.toNat ++ (encodeItems items ++ rest) := by
      simp [encodeItems]
    rw [List.length_cons, decodeItems, split, List.take_left' lengthEq,
      List.drop_left' lengthEq, decoded, ih, UInt32.ofNat_toNat]

theorem Record.bytes_length {record : Record} {padding : Bytes}
    (padded : record.name.bytes.length + 1 + padding.length = brcStrlen) :
    (record.bytes padding).length = record.byteSize := by
  simp only [Record.bytes, Record.byteSize, List.length_append, List.length_cons,
    encodeItems_length]
  omega

/-- Reading a record back, whatever stands behind the terminator of its name. -/
theorem brcGetRecord_bytes {record : Record} {padding : Bytes}
    (valid : record.Valid)
    (padded : record.name.bytes.length + 1 + padding.length = brcStrlen)
    (rest : Bytes) : brcGetRecord (record.bytes padding ++ rest) = (record, rest) := by
  have nameField : record.bytes padding ++ rest =
      (record.name.bytes ++ 0 :: padding) ++
        (UInt8.ofNat record.items.length :: (encodeItems record.items ++ rest)) := by
    simp [Record.bytes]
  have fieldLength : (record.name.bytes ++ 0 :: padding).length = brcStrlen := by
    rw [List.length_append, List.length_cons]
    omega
  have nameEq : (CString.ofBytes (record.bytes padding ++ rest)).truncate brcStrlen =
      record.name := by
    rw [nameField, List.append_assoc, List.cons_append, CString.ofBytes_append]
    exact CString.truncate_of_length_lt valid.name
  have countEq : min (UInt8.ofNat record.items.length).toNat brcMaxnum =
      record.items.length := by
    have length_le := valid.length_le
    have small : record.items.length < 256 :=
      lt_of_le_of_lt length_le (by decide)
    rw [UInt8.toNat_ofNat', Nat.mod_eq_of_lt small, Nat.min_eq_left length_le]
  simp only [brcGetRecord, nameEq]
  rw [nameField, List.drop_left' fieldLength]
  simp only [List.headD_cons, countEq, List.drop_succ_cons, List.drop_zero,
    decodeItems_encodeItems, Nat.add_comm 1]
  rw [List.drop_left' (encodeItems_length record.items)]

/-- Writing a record over memory that has room for it. -/
theorem brcPutRecord_eq {record : Record} (valid : record.Valid) {ptr : Bytes}
    (room : record.byteSize ≤ ptr.length) :
    ∃ padding, record.name.bytes.length + 1 + padding.length = brcStrlen ∧
      brcPutRecord ptr record = (record.bytes padding, ptr.drop record.byteSize) := by
  have nameFits := valid.name
  refine ⟨(ptr.take brcStrlen).drop (record.name.bytes.length + 1), ?_, ?_⟩
  · unfold Record.byteSize at room
    rw [List.length_drop, List.length_take]
    omega
  · unfold brcPutRecord
    rw [if_neg valid.nonempty]
    simp only [CString.truncate_of_length_lt nameFits,
      Nat.min_eq_left valid.length_le, List.take_length, Record.bytes,
      Record.byteSize]

def totalSize (records : List Record) : Nat :=
  (records.map Record.byteSize).sum

theorem Encodes.length {bytes : Bytes} {records : List Record}
    (encodes : Encodes bytes records) : bytes.length = totalSize records := by
  induction encodes with
  | nil => rfl
  | cons valid padded rest ih =>
    rw [List.length_append, Record.bytes_length padded, ih, totalSize, totalSize,
      List.map_cons, List.sum_cons]

theorem Encodes.valid {bytes : Bytes} {records : List Record}
    (encodes : Encodes bytes records) : ∀ record ∈ records, record.Valid := by
  induction encodes with
  | nil => simp
  | cons valid padded rest ih =>
    intro record member
    rcases List.mem_cons.mp member with rfl | later
    · exact valid
    · exact ih record later

theorem totalSize_sublist {fewer records : List Record}
    (sublist : fewer.Sublist records) : totalSize fewer ≤ totalSize records :=
  (sublist.map Record.byteSize).sum_le_sum fun _ _ => Nat.zero_le _

/-- The written records can be read back, and the memory behind is unchanged. -/
theorem putRecords_spec {records : List Record}
    (valid : ∀ record ∈ records, record.Valid) {ptr : Bytes}
    (room : totalSize records ≤ ptr.length) :
    ∃ written, putRecords ptr records = (written, ptr.drop (totalSize records)) ∧
      Encodes written records := by
  induction records generalizing ptr with
  | nil => exact ⟨[], rfl, .nil⟩
  | cons record records ih =>
    have sizeEq : totalSize (record :: records) =
        record.byteSize + totalSize records := rfl
    have first := valid record List.mem_cons_self
    have firstRoom : record.byteSize ≤ ptr.length := by omega
    have restRoom : totalSize records ≤ (ptr.drop record.byteSize).length := by
      rw [List.length_drop]
      omega
    obtain ⟨padding, padded, putEq⟩ := brcPutRecord_eq first firstRoom
    obtain ⟨written, restEq, encodes⟩ :=
      ih (fun other member => valid other (List.mem_cons_of_mem record member))
        restRoom
    refine ⟨record.bytes padding ++ written, ?_, .cons first padded encodes⟩
    simp only [putRecords, putEq, restEq, List.drop_drop, sizeEq]

theorem Record.visible_iff {record : Record} (padding rest : Bytes) :
    printable ((record.bytes padding ++ rest).headD 0) = record.visible := by
  unfold Record.visible Record.bytes
  cases record.name.bytes with
  | nil => rfl
  | cons byte bytes => rfl

/-- A scan of encoded records visits them up to the first invisible one. -/
theorem scanRecords_eq {bytes : Bytes} {records : List Record}
    (encodes : Encodes bytes records) (beyond : Bytes) {fuel : Nat}
    (enough : bytes.length ≤ fuel) :
    scanRecords fuel (bytes ++ beyond) bytes.length =
      records.takeWhile Record.visible := by
  induction encodes generalizing fuel with
  | nil => cases fuel <;> simp [scanRecords]
  | @cons record padding bytes records valid padded rest ih =>
    have lengthEq := Record.bytes_length padded
    have positive : 0 < record.byteSize := by
      unfold Record.byteSize
      omega
    rw [List.length_append, lengthEq] at enough ⊢
    cases fuel with
    | zero => omega
    | succ fuel =>
      have restEnough : bytes.length ≤ fuel := by omega
      have next := ih restEnough
      rw [scanRecords, List.append_assoc, Record.visible_iff,
        List.takeWhile_cons]
      cases record.visible with
      | false => simp
      | true =>
        rw [if_pos ⟨by omega, rfl⟩, brcGetRecord_bytes valid padded]
        simp only [Nat.add_sub_cancel_left, next, if_true]

end Boardrc

end Fbbs
