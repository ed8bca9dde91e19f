import Fbbs.CallbackScan
import Mathlib.Algebra.Group.Nat.Defs

/-!
# Scans of record files

`record_foreach`, `record_reverse_foreach` and `record_search_copy` of `lib/record.c`.  A
file is a list of records, and positions in it are counted in records.  A sum or product
that overflows an `int` is undefined, which is `none` here; reading does not fail.
-/

namespace Fbbs

namespace RecordScan

open CallbackScan

def recordBufferSize : Nat := 8192

/-- A file of records of one length. -/
structure RecordFile (Record : Type*) where
  records : List Record
  rlen : Nat
  rlen_pos : 0 < rlen
  rlen_le : rlen ≤ recordBufferSize
  count_lt : records.length < 2 ^ 31

variable {Record State : Type*}

/-- The number can be held by an `int`. -/
def isInt : Int → Bool
  | .ofNat n => n < 2 ^ 31
  | .negSucc n => n < 2 ^ 31

/-- How many records the buffer holds. -/
def RecordFile.block (rec : RecordFile Record) : Nat :=
  recordBufferSize / rec.rlen

def recordCount (rec : RecordFile Record) : Int :=
  rec.records.length

/-- The position after `record_seek`; `lseek` leaves it as it is when it should be
negative. -/
def recordSeek (rec : RecordFile Record) (place : Nat) (offset : Int) : Option Nat :=
  if isInt (offset * rec.rlen) then some (if offset < 0 then place else offset.toNat)
  else none

/-- The records that `record_read` reads at a position. -/
def recordRead (rec : RecordFile Record) (place count : Nat) : List Record :=
  (rec.records.drop place).take count

section Loops

variable (callback : State → Record × Nat → Reply × State)

/-- The loop of `record_foreach`: whether the first record has been compared with `ptr`, the
position in the file, and the index of the next record.  A restart goes on with the test at
the end of the loop. -/
def foreachLoop (rec : RecordFile Record) (greater : Record → Bool) :
    Nat → Bool → Nat → Nat → Scan State (Record × Nat) → Scan State (Record × Nat)
  | 0, _, _, _, scan => scan
  | fuel + 1, checked, place, offset, scan =>
    let buf := recordRead rec place rec.block
    if !checked && (buf.isEmpty || buf.head?.any greater) then
      if buf.length = rec.block then foreachLoop rec greater fuel true 0 0 scan else scan
    else
      let scan := visitAll callback scan (buf.zipIdx offset)
      if scan.stopped then scan
      else if buf.length = rec.block then
        foreachLoop rec greater fuel true (place + buf.length) (offset + buf.length) scan
      else scan

def recordForeach (cmp : Record → Record → Int) (ptr : Option Record) (offset : Nat)
    (args : State) (rec : RecordFile Record) : Option (Scan State (Record × Nat)) :=
  (recordSeek rec 0 offset).map fun place =>
    foreachLoop callback rec (fun record => ptr.any fun other => cmp record other > 0)
      (rec.records.length + 2) ptr.isNone place offset (.start args)

/-- `record_read_after`. -/
def recordReadAfter (rec : RecordFile Record) (place count : Nat) (offset : Int) :
    Option (List Record × Nat) :=
  (recordSeek rec place offset).map fun place =>
    (recordRead rec place count, place + (recordRead rec place count).length)

/-- The loop of `record_reverse_foreach`. -/
def reverseLoop (rec : RecordFile Record) :
    Nat → Nat → Int → Scan State (Record × Nat) → Option (Scan State (Record × Nat))
  | 0, _, _, scan => some scan
  | fuel + 1, place, offset, scan =>
    let offset := if offset - rec.block < 0 then 0 else offset - rec.block
    match recordReadAfter rec place rec.block offset with
    | none => none
    | some (buf, place) =>
      if buf.isEmpty then some scan
      else
        let scan := visitAll callback scan (buf.zipIdx offset.toNat).reverse
        if scan.stopped then some scan
        else if offset > 0 then reverseLoop rec fuel place offset scan
        else some scan

def recordReverseForeach (args : State) (rec : RecordFile Record) :
    Option (Scan State (Record × Nat)) :=
  reverseLoop callback rec (rec.records.length + 1) 0 (recordCount rec) (.start args)

/-- What a filter makes of entries: nothing, a break, or an entry that it has found. -/
def firstAnswer (filter : Record × Nat → Reply) :
    List (Record × Nat) → Option (Option (Record × Nat))
  | [] => none
  | entry :: entries =>
    match filter entry with
    | .found => some (some entry)
    | .stop => some none
    | .next => firstAnswer filter entries

/-- The rounds of a reverse search that are left, given by where they start. -/
def searchReverse (rec : RecordFile Record) (filter : Record × Nat → Reply) (all : Nat) :
    List Nat → Nat → Option (Option (Record × Nat))
  | [], _ => some none
  | base :: bases, place =>
    match recordReadAfter rec place rec.block base with
    | none => none
    | some (buf, place) =>
      if buf.isEmpty then some none
      else
        let count := if all - base < buf.length then all - base else buf.length
        match firstAnswer filter ((buf.take count).zipIdx base).reverse with
        | some answer => some answer
        | none => searchReverse rec filter all bases place

/-- Where the rounds of a reverse search start. -/
def RecordFile.bases (rec : RecordFile Record) (rounds : Nat) : List Nat :=
  (List.range rounds).map fun i => (rounds - 1 - i) * rec.block

def searchForward (rec : RecordFile Record) (filter : Record × Nat → Reply) :
    Nat → Nat → Nat → Option (Record × Nat)
  | 0, _, _ => none
  | rounds + 1, place, base =>
    let buf := recordRead rec place rec.block
    if buf.isEmpty then none
    else
      match firstAnswer filter (buf.zipIdx base) with
      | some answer => answer
      | none => searchForward rec filter rounds (place + buf.length) (base + rec.block)

/-- How many records are searched. -/
def searchAll (rec : RecordFile Record) (offset : Int) (reverse : Bool) : Int :=
  if offset ≥ 0 then if reverse then offset else recordCount rec - offset - 1
  else recordCount rec

/-- The record that is copied and its index; `-1` is `none`. -/
def recordSearchCopy (filter : Record × Nat → Reply) (offset : Int) (reverse : Bool)
    (rec : RecordFile Record) : Option (Option (Record × Nat)) :=
  let all := searchAll rec offset reverse
  if all ≤ 0 then some none
  else if !isInt (all + rec.block - 1) then none
  else
    let rounds := (all.toNat + rec.block - 1) / rec.block
    if reverse then searchReverse rec filter all.toNat (rec.bases rounds) 0
    else
      let offset := if offset + 1 < 0 then 0 else offset + 1
      (recordSeek rec 0 offset).map fun place =>
        searchForward rec filter rounds place offset.toNat

end Loops

end RecordScan

end Fbbs
