import Fbbs.PostCounts

/-!
# Post ids and time stamps

`post.next_id` makes the id of a post from the milliseconds of the clock.  `post_stamp` of
`lib/post.c` takes the seconds out of an id, and `post_id_from_stamp` makes the first id of a
second, with a product of 32 bits.
-/

namespace Fbbs

namespace Post

def postStamp (id : PostId) : UInt32 :=
  ((id >>> 21) / 1000).toUInt64.toUInt32

def postIdFromStamp (stamp : UInt32) : PostId :=
  (stamp * 1000).toUInt64.toInt64 <<< 21

/-- An id of `post.next_id`, from milliseconds and a number below `2 ^ 21`. -/
def idOf (millis seq : Nat) : PostId :=
  Int64.ofNat ((millis <<< 21) + seq)

/-- The stamp of the first id of a second is the second. -/
def KeepsStamp (stamp : UInt32) : Prop :=
  postStamp (postIdFromStamp stamp) = stamp

/-- The ids from the first of a second on are those with such stamps. -/
def OrdersIds (stamp : UInt32) : Prop :=
  ∀ millis seq : Nat, millis / 1000 < 2 ^ 32 → seq < 2 ^ 21 →
    (postIdFromStamp stamp ≤ idOf millis seq ↔ stamp ≤ postStamp (idOf millis seq))

section Values

variable {millis seq : Nat}

theorem toInt_idOf (small : millis / 1000 < 2 ^ 32) (low : seq < 2 ^ 21) :
    (idOf millis seq).toInt = millis * 2 ^ 21 + seq := by
  have bound : (millis <<< 21) + seq < 2 ^ 63 := by
    rw [Nat.shiftLeft_eq]
    omega
  rw [idOf, Int64.toInt_ofNat_of_lt bound, Nat.shiftLeft_eq]
  push_cast
  rfl

theorem toInt_shiftRight (id : PostId) : (id >>> 21).toInt = id.toInt / 2 ^ 21 := by
  rw [← Int64.toInt_toBitVec, Int64.toBitVec_shiftRight, BitVec.toInt_sshiftRight',
    Int64.toInt_toBitVec]
  have places : ((21 : Int64).toBitVec.smod 64).toNat = 21 := by decide
  rw [places, Int.shiftRight_eq_div_pow]
  rfl

theorem toNat_toUInt64 {number : Int64} {value : Nat} (same : number.toInt = value) :
    number.toUInt64.toNat = value := by
  have bits := BitVec.toInt_eq_toNat_cond number.toBitVec
  rw [Int64.toInt_toBitVec, same] at bits
  have bound := number.toBitVec.isLt
  change number.toBitVec.toNat = value
  split at bits <;> omega

theorem toNat_postStamp (small : millis / 1000 < 2 ^ 32) (low : seq < 2 ^ 21) :
    (postStamp (idOf millis seq)).toNat = millis / 1000 := by
  have shifted : (idOf millis seq >>> 21).toInt = millis := by
    rw [toInt_shiftRight, toInt_idOf small low]
    omega
  have seconds : ((idOf millis seq >>> 21) / 1000).toInt = (millis / 1000 : Nat) := by
    rw [Int64.toInt_div_of_ne_right _ _ (by decide), shifted]
    rfl
  rw [postStamp, UInt64.toNat_toUInt32, toNat_toUInt64 seconds, Nat.mod_eq_of_lt small]

/-- The first id of a second has the milliseconds that the product of 32 bits gives. -/
theorem postIdFromStamp_eq (stamp : UInt32) :
    postIdFromStamp stamp = idOf (stamp * 1000).toNat 0 := by
  apply Int64.toBitVec_inj.mp
  apply BitVec.eq_of_toNat_eq
  rw [postIdFromStamp, Int64.toBitVec_shiftLeft, BitVec.shiftLeft_eq', BitVec.toNat_shiftLeft]
  rfl

theorem toNat_millis (stamp : UInt32) :
    (stamp * 1000).toNat = stamp.toNat * 1000 % 2 ^ 32 := by
  rw [UInt32.toNat_mul]
  rfl

theorem postIdFromStamp_le_iff (stamp : UInt32) (small : millis / 1000 < 2 ^ 32)
    (low : seq < 2 ^ 21) :
    postIdFromStamp stamp ≤ idOf millis seq ↔ stamp.toNat * 1000 % 2 ^ 32 ≤ millis := by
  have first : (stamp * 1000).toNat / 1000 < 2 ^ 32 := by
    rw [toNat_millis]
    omega
  rw [postIdFromStamp_eq, Int64.le_iff_toInt_le, toInt_idOf first (by decide),
    toInt_idOf small low, toNat_millis]
  omega

theorem le_postStamp_iff (stamp : UInt32) (small : millis / 1000 < 2 ^ 32)
    (low : seq < 2 ^ 21) :
    stamp ≤ postStamp (idOf millis seq) ↔ stamp.toNat * 1000 ≤ millis := by
  rw [UInt32.le_iff_toNat_le, toNat_postStamp small low]
  omega

end Values

theorem keepsStamp_iff (stamp : UInt32) : KeepsStamp stamp ↔ stamp.toNat * 1000 < 2 ^ 32 := by
  have first : (stamp * 1000).toNat / 1000 < 2 ^ 32 := by
    rw [toNat_millis]
    omega
  rw [KeepsStamp, ← UInt32.toNat_inj, postIdFromStamp_eq, toNat_postStamp first (by decide),
    toNat_millis]
  omega

theorem ordersIds_iff (stamp : UInt32) : OrdersIds stamp ↔ stamp.toNat * 1000 < 2 ^ 32 := by
  constructor
  · intro orders
    by_contra large
    -- The id that the code makes has a stamp long before.
    have small : stamp.toNat * 1000 % 2 ^ 32 / 1000 < 2 ^ 32 := by omega
    have order := orders _ 0 small (by decide)
    rw [postIdFromStamp_le_iff stamp small (by decide),
      le_postStamp_iff stamp small (by decide)] at order
    have after := order.mp (Nat.le_refl _)
    omega
  · intro fits millis seq small low
    rw [postIdFromStamp_le_iff stamp small low, le_postStamp_iff stamp small low,
      Nat.mod_eq_of_lt fits]

/-- Ids and stamps agree exactly if the milliseconds of the stamp are a number of 32 bits. -/
theorem stamps_agree_iff (stamp : UInt32) :
    KeepsStamp stamp ∧ OrdersIds stamp ↔ stamp.toNat * 1000 < 2 ^ 32 := by
  rw [keepsStamp_iff, ordersIds_iff, and_self_iff]

/-- The first second whose milliseconds are too large, in February 1970. -/
theorem stamp_lost :
    postStamp (postIdFromStamp 4294968) = 0 ∧ ¬KeepsStamp 4294968 ∧ ¬OrdersIds 4294968 := by
  refine ⟨by decide, ?_, ?_⟩
  · rw [keepsStamp_iff]
    decide
  · rw [ordersIds_iff]
    decide

end Post

end Fbbs
