import Fbbs.AccountTable
import Mathlib.Data.List.Perm.Subperm

/-!
# The chains of the user cache

Every chain of the hash table holds slots whose names have its key, linked in
both directions.  A slot is added at the end of a chain, by `fillucache` and by
`setuserid`, and taken out of it by `del_uidshm`.
-/

namespace Fbbs

namespace UserTable

open UserCache LinkedChains

/-- The link of a slot; slots count from one. -/
def link (table : UserTable) (slot : Nat) : Nat :=
  table.next (slot - 1)

def back (table : UserTable) (slot : Nat) : Nat :=
  table.prev (slot - 1)

def name (table : UserTable) (slot : Nat) : CString :=
  (table.userid (slot - 1)).str

/-- The slot holds an account. -/
def Live (table : UserTable) (slot : Nat) : Prop :=
  1 ≤ slot ∧ slot ≤ maxUsers ∧ (table.name slot).bytes ≠ []

/-- The chains hold the live slots with their key, linked in both directions; only
the name `new` may be missing. -/
structure Threaded (table : UserTable) (chains : Bucket → List Nat) : Prop where
  chain : ∀ bucket, Chain table.link (table.hashAt bucket) (chains bucket)
  backward : ∀ bucket, Backward table.back 0 (chains bucket)
  live : ∀ bucket, ∀ slot ∈ chains bucket, table.Live slot
  key : ∀ bucket, ∀ slot ∈ chains bucket, uhashkey (table.name slot).bytes = some bucket
  linked : ∀ slot, table.Live slot → (table.name slot).bytes ≠ newName →
    ∃ bucket, slot ∈ chains bucket
  loose : ∀ slot, slot ≠ 0 → (∀ bucket, slot ∉ chains bucket) →
    table.link slot = 0 ∧ table.back slot = 0

section Updates

variable (table : UserTable) {slot i : Nat} (target : Nat)

theorem pred_eq_pred_iff (nonzero : slot ≠ 0) (inside : i ≠ 0) : i - 1 = slot - 1 ↔ i = slot := by
  omega

theorem link_setNext (nonzero : slot ≠ 0) (inside : i ≠ 0) :
    (table.setNext slot target).link i = if i = slot then target else table.link i := by
  rw [link, setNext, link]
  dsimp only
  rw [Function.update_apply]
  simp only [pred_eq_pred_iff nonzero inside]

theorem back_setPrev (nonzero : slot ≠ 0) (inside : i ≠ 0) :
    (table.setPrev slot target).back i = if i = slot then target else table.back i := by
  rw [back, setPrev, back]
  dsimp only
  rw [Function.update_apply]
  simp only [pred_eq_pred_iff nonzero inside]

theorem name_setId (userid : CString) (short : userid.bytes.length ≤ idLen) (nonzero : slot ≠ 0)
    (inside : i ≠ 0) :
    (table.setId slot userid).name i = if i = slot then userid else table.name i := by
  rw [name, setId, name]
  dsimp only
  rw [Function.update_apply]
  simp only [pred_eq_pred_iff nonzero inside]
  split
  · exact CString.truncate_of_length_lt (Nat.lt_succ_of_le short)
  · rfl

theorem hashAt_setHash (bucket other : Bucket) :
    (table.setHash bucket target).hashAt other =
      if other = bucket then target else table.hashAt other :=
  rfl

end Updates

namespace Threaded

variable {table table' : UserTable} {chains : Bucket → List Nat}

/-- A slot is in one chain only. -/
theorem bucket_unique (threaded : Threaded table chains) {bucket other : Bucket} {slot : Nat}
    (member : slot ∈ chains bucket) (again : slot ∈ chains other) : bucket = other :=
  Option.some.inj ((threaded.key bucket slot member).symm.trans (threaded.key other slot again))

theorem ne_zero (threaded : Threaded table chains) {bucket : Bucket} {slot : Nat}
    (member : slot ∈ chains bucket) : slot ≠ 0 :=
  Nat.ne_of_gt (threaded.live bucket slot member).1

/-- A chain has at most as many slots as the cache. -/
theorem length_le (threaded : Threaded table chains) (bucket : Bucket) :
    (chains bucket).length ≤ maxUsers := by
  have subset : chains bucket ⊆ List.range' 1 maxUsers := by
    intro slot member
    obtain ⟨positive, bound, -⟩ := threaded.live bucket slot member
    rw [List.mem_range'_1]
    omega
  have short := (List.subperm_of_subset (threaded.chain bucket).nodup subset).length_le
  rwa [List.length_range'] at short

/-- Links are inverse to each other. -/
theorem link_eq_iff_back_eq (threaded : Threaded table chains) {slot other : Nat}
    (nonzero : slot ≠ 0) (otherNonzero : other ≠ 0) :
    table.link slot = other ↔ table.back other = slot := by
  constructor
  · rintro rfl
    by_cases inside : ∃ bucket, slot ∈ chains bucket
    · obtain ⟨bucket, member⟩ := inside
      exact Backward.back_next (threaded.chain bucket) (threaded.backward bucket) member
        otherNonzero
    · exact absurd (threaded.loose slot nonzero (not_exists.mp inside)).1 otherNonzero
  · rintro rfl
    by_cases inside : ∃ bucket, other ∈ chains bucket
    · obtain ⟨bucket, member⟩ := inside
      rcases Backward.next_back (threaded.chain bucket) (threaded.backward bucket) member with
        ⟨-, isZero⟩ | ⟨-, isNext⟩
      · exact absurd isZero nonzero
      · exact isNext
    · exact absurd (threaded.loose other otherNonzero (not_exists.mp inside)).2 nonzero

/-- A slot at the end of a chain. -/
theorem append (threaded : Threaded table chains) {bucket : Bucket} {slot : Nat}
    (free : ∀ bucket, slot ∉ chains bucket) (live : table'.Live slot)
    (key : uhashkey (table'.name slot).bytes = some bucket)
    (names : ∀ i, i ≠ 0 → i ≠ slot → table'.name i = table.name i)
    (hash : ∀ other, table'.hashAt other =
      if other = bucket ∧ chains bucket = [] then slot else table.hashAt other)
    (links : ∀ i, i ≠ 0 → table'.link i = if i = slot then 0
      else if (chains bucket).getLast? = some i then slot else table.link i)
    (backs : ∀ i, i ≠ 0 → table'.back i = if i = slot then (chains bucket).getLastD 0
      else table.back i) :
    Threaded table' (Function.update chains bucket (chains bucket ++ [slot])) := by
  have nonzero : slot ≠ 0 := Nat.ne_of_gt live.1
  have oldName : ∀ other, ∀ i ∈ chains other, table'.name i = table.name i :=
    fun other i member => names i (threaded.ne_zero member)
      (ne_of_mem_of_not_mem member (free other))
  have oldBack : ∀ other, ∀ i ∈ chains other, table'.back i = table.back i := by
    intro other i member
    rw [backs i (threaded.ne_zero member), if_neg (ne_of_mem_of_not_mem member (free other))]
  constructor
  · intro other
    by_cases same : other = bucket
    · subst same
      rw [Function.update_self]
      have rest : Chain table'.link slot [slot] := by
        refine .cons nonzero ?_
        rw [links slot nonzero, if_pos rfl]
        exact .nil
      have whole : Chain table.link (table.hashAt other) (chains other ++ []) := by
        rw [List.append_nil]
        exact threaded.chain other
      have grafted := whole.graft rest fun i member => by
        rw [links i (threaded.ne_zero member), if_neg (ne_of_mem_of_not_mem member (free other))]
      rw [hash other]
      simpa using grafted
    · rw [Function.update_of_ne same, hash other, if_neg (fun both => same both.1)]
      apply (threaded.chain other).congr
      intro i member
      have notLast : (chains bucket).getLast? ≠ some i := fun isLast =>
        same (threaded.bucket_unique member (List.mem_of_getLast? isLast))
      rw [links i (threaded.ne_zero member), if_neg (ne_of_mem_of_not_mem member (free other)),
        if_neg notLast]
  · intro other
    by_cases same : other = bucket
    · subst same
      rw [Function.update_self, Backward.append_iff]
      refine ⟨(threaded.backward other).congr (oldBack other), ?_, trivial⟩
      rw [backs slot nonzero, if_pos rfl]
    · rw [Function.update_of_ne same]
      exact (threaded.backward other).congr (oldBack other)
  · intro other i member
    rcases mem_update_append.mp member with member | ⟨-, rfl⟩
    · rw [Live, oldName other i member]
      exact threaded.live other i member
    · exact live
  · intro other i member
    rcases mem_update_append.mp member with member | ⟨rfl, rfl⟩
    · rw [oldName other i member]
      exact threaded.key other i member
    · exact key
  · intro i isLive notNew
    by_cases same : i = slot
    · exact ⟨bucket, mem_update_append.mpr (Or.inr ⟨rfl, same⟩)⟩
    · rw [names i (Nat.ne_of_gt isLive.1) same] at notNew
      rw [Live, names i (Nat.ne_of_gt isLive.1) same] at isLive
      obtain ⟨other, member⟩ := threaded.linked i isLive notNew
      exact ⟨other, mem_update_append.mpr (Or.inl member)⟩
  · intro i inside absent
    have notSlot : i ≠ slot := by
      rintro rfl
      exact absent bucket (mem_update_append.mpr (Or.inr ⟨rfl, rfl⟩))
    have outside : ∀ other, i ∉ chains other :=
      fun other member => absent other (mem_update_append.mpr (Or.inl member))
    have notLast : (chains bucket).getLast? ≠ some i :=
      fun isLast => outside bucket (List.mem_of_getLast? isLast)
    rw [links i inside, if_neg notSlot, if_neg notLast, backs i inside, if_neg notSlot]
    exact threaded.loose i inside outside

section Unlink

variable {bucket : Bucket} {slot : Nat} {before after : List Nat}

/-- A chain without the slot, beside the other chains as they were. -/
theorem mem_cut (threaded : Threaded table chains)
    (parts : chains bucket = before ++ slot :: after) (other : Bucket) (i : Nat) :
    i ∈ Function.update chains bucket (before ++ after) other ↔ i ∈ chains other ∧ i ≠ slot := by
  have slotMem : slot ∈ chains bucket := by
    rw [parts]
    exact List.mem_append_right _ List.mem_cons_self
  exact mem_update_cut parts (threaded.chain bucket).nodup
    (fun other member => threaded.bucket_unique member slotMem) other i

theorem mem_rest (threaded : Threaded table chains)
    (parts : chains bucket = before ++ slot :: after) {i : Nat} (member : i ∈ before ++ after) :
    i ∈ chains bucket ∧ i ≠ slot := by
  apply (threaded.mem_cut parts bucket i).mp
  rwa [Function.update_self]

/-- A slot outside the chain is not next to the slot that is taken out. -/
theorem not_neighbour (threaded : Threaded table chains)
    (parts : chains bucket = before ++ slot :: after) {i : Nat} (outside : i ∉ chains bucket) :
    before.getLast? ≠ some i ∧ after.head? ≠ some i := by
  constructor
  · intro isLast
    have member := List.mem_append_left after (List.mem_of_getLast? isLast)
    exact outside (threaded.mem_rest parts member).1
  · intro isHead
    have member := List.mem_append_right before (List.mem_of_mem_head? isHead)
    exact outside (threaded.mem_rest parts member).1

/-- Nor does a slot of another chain change its links. -/
theorem elsewhere (threaded : Threaded table chains)
    (parts : chains bucket = before ++ slot :: after) {other : Bucket} (ne : other ≠ bucket)
    {i : Nat} (member : i ∈ chains other) :
    i ≠ slot ∧ before.getLast? ≠ some i ∧ after.head? ≠ some i := by
  have outside : i ∉ chains bucket := fun here => ne (threaded.bucket_unique member here)
  refine ⟨?_, threaded.not_neighbour parts outside⟩
  rintro rfl
  rw [parts] at outside
  exact outside (List.mem_append_right _ List.mem_cons_self)

theorem chain_unlink (threaded : Threaded table chains)
    (parts : chains bucket = before ++ slot :: after)
    (hash : ∀ other, table'.hashAt other =
      if other = bucket ∧ before = [] then after.headD 0 else table.hashAt other)
    (links : ∀ i, i ≠ 0 → table'.link i = if i = slot then 0
      else if before.getLast? = some i then after.headD 0 else table.link i) (other : Bucket) :
    Chain table'.link (table'.hashAt other)
      (Function.update chains bucket (before ++ after) other) := by
  by_cases same : other = bucket
  · subst same
    have whole := threaded.chain other
    rw [parts] at whole
    have linked : ∀ i ∈ before ++ after, table'.link i =
        if before.getLast? = some i then after.headD 0 else table.link i := by
      intro i member
      obtain ⟨inChain, notSlot⟩ := threaded.mem_rest parts member
      rw [links i (threaded.ne_zero inChain), if_neg notSlot]
    rw [Function.update_self, hash other]
    simpa using whole.cut linked
  · rw [Function.update_of_ne same, hash other, if_neg (fun both => same both.1)]
    apply (threaded.chain other).congr
    intro i member
    obtain ⟨notSlot, notLast, -⟩ := threaded.elsewhere parts same member
    rw [links i (threaded.ne_zero member), if_neg notSlot, if_neg notLast]

theorem backward_unlink (threaded : Threaded table chains)
    (parts : chains bucket = before ++ slot :: after)
    (backs : ∀ i, i ≠ 0 → table'.back i = if i = slot then 0
      else if after.head? = some i then before.getLastD 0 else table.back i) (other : Bucket) :
    Backward table'.back 0 (Function.update chains bucket (before ++ after) other) := by
  by_cases same : other = bucket
  · subst same
    have whole := threaded.chain other
    have wholeBack := threaded.backward other
    rw [parts] at whole wholeBack
    rw [Function.update_self]
    apply Backward.cut whole.nodup wholeBack
    intro i member
    obtain ⟨inChain, notSlot⟩ := threaded.mem_rest parts member
    rw [backs i (threaded.ne_zero inChain), if_neg notSlot]
  · rw [Function.update_of_ne same]
    apply (threaded.backward other).congr
    intro i member
    obtain ⟨notSlot, -, notHead⟩ := threaded.elsewhere parts same member
    rw [backs i (threaded.ne_zero member), if_neg notSlot, if_neg notHead]

/-- A slot is taken out of its chain and becomes free. -/
theorem unlink (threaded : Threaded table chains)
    (parts : chains bucket = before ++ slot :: after) (dead : (table'.name slot).bytes = [])
    (names : ∀ i, i ≠ 0 → i ≠ slot → table'.name i = table.name i)
    (hash : ∀ other, table'.hashAt other =
      if other = bucket ∧ before = [] then after.headD 0 else table.hashAt other)
    (links : ∀ i, i ≠ 0 → table'.link i = if i = slot then 0
      else if before.getLast? = some i then after.headD 0 else table.link i)
    (backs : ∀ i, i ≠ 0 → table'.back i = if i = slot then 0
      else if after.head? = some i then before.getLastD 0 else table.back i) :
    Threaded table' (Function.update chains bucket (before ++ after)) := by
  have mem_iff := threaded.mem_cut parts
  have oldName : ∀ other, ∀ i ∈ chains other, i ≠ slot → table'.name i = table.name i :=
    fun other i member ne => names i (threaded.ne_zero member) ne
  constructor
  · exact threaded.chain_unlink parts hash links
  · exact threaded.backward_unlink parts backs
  · intro other i member
    obtain ⟨member, ne⟩ := (mem_iff other i).mp member
    rw [Live, oldName other i member ne]
    exact threaded.live other i member
  · intro other i member
    obtain ⟨member, ne⟩ := (mem_iff other i).mp member
    rw [oldName other i member ne]
    exact threaded.key other i member
  · intro i isLive notNew
    have ne : i ≠ slot := by
      rintro rfl
      exact isLive.2.2 dead
    rw [names i (Nat.ne_of_gt isLive.1) ne] at notNew
    rw [Live, names i (Nat.ne_of_gt isLive.1) ne] at isLive
    obtain ⟨other, member⟩ := threaded.linked i isLive notNew
    exact ⟨other, (mem_iff other i).mpr ⟨member, ne⟩⟩
  · intro i nonzero absent
    rw [links i nonzero, backs i nonzero]
    by_cases isSlot : i = slot
    · rw [if_pos isSlot, if_pos isSlot]
      exact ⟨rfl, rfl⟩
    · have outside : ∀ other, i ∉ chains other :=
        fun other member => absent other ((mem_iff other i).mpr ⟨member, isSlot⟩)
      obtain ⟨notLast, notHead⟩ := threaded.not_neighbour parts (outside bucket)
      rw [if_neg isSlot, if_neg notLast, if_neg isSlot, if_neg notHead]
      exact threaded.loose i nonzero outside

end Unlink

end Threaded

end UserTable

end Fbbs
