import Fbbs.AccountChains

/-!
# Operations on the chains of the user cache

The loops of `lib/ucache.c` over a chain end, and what each function writes is
the insertion of a slot at the end of its chain, or the removal of one.
-/

namespace Fbbs

namespace UserTable

open UserCache LinkedChains

variable {table table' : UserTable} {chains : Bucket → List Nat} {nodes : List Nat} {head : Nat}

theorem lastSlot_spec (chain : Chain table.link head nodes) (nonempty : nodes ≠ [])
    {fuel : Nat} (enough : nodes.length ≤ fuel) :
    table.lastSlot fuel head = some (nodes.getLastD 0) := by
  induction nodes generalizing head fuel with
  | nil => exact absurd rfl nonempty
  | cons node nodes ih =>
    rw [List.length_cons] at enough
    obtain ⟨fuel, rfl⟩ := Nat.exists_eq_add_one_of_ne_zero (Nat.ne_zero_of_lt enough)
    cases chain with
    | cons _ rest =>
      rw [lastSlot]
      cases nodes with
      | nil =>
        have ended : table.next (node - 1) = 0 := rest.head_eq
        rw [if_neg (not_not.mpr ended)]
        rfl
      | cons second nodes =>
        have goesOn : table.next (node - 1) ≠ 0 := by
          have isSecond : table.link node = second := rest.head_eq
          change table.link node ≠ 0
          rw [isSecond]
          rintro rfl
          exact rest.zero_notMem List.mem_cons_self
        rw [if_pos goesOn, List.getLastD_cons, List.getLastD_cons]
        have later := ih rest (List.cons_ne_nil _ _) (Nat.le_of_succ_le_succ enough)
        rw [List.getLastD_cons] at later
        exact later

theorem findSlot_spec (chain : Chain table.link head nodes) {num fuel : Nat}
    (enough : nodes.length < fuel) :
    table.findSlot num fuel head = some (if num ∈ nodes then num else 0) := by
  induction nodes generalizing head fuel with
  | nil =>
    obtain ⟨fuel, rfl⟩ := Nat.exists_eq_add_one_of_ne_zero (Nat.ne_zero_of_lt enough)
    have ended : head = 0 := chain.head_eq
    rw [findSlot, ended, if_neg (fun both => Nat.lt_irrefl 0 both.2), if_neg List.not_mem_nil]
  | cons node nodes ih =>
    obtain ⟨fuel, rfl⟩ := Nat.exists_eq_add_one_of_ne_zero (Nat.ne_zero_of_lt enough)
    rw [List.length_cons] at enough
    cases chain with
    | cons nonzero rest =>
      rw [findSlot]
      by_cases found : node = num
      · rw [if_neg (fun both => both.1 found), if_pos (by rw [found]; exact List.mem_cons_self),
          found]
      · rw [if_pos ⟨found, Nat.pos_of_ne_zero nonzero⟩]
        have later := ih rest (Nat.lt_of_succ_lt_succ enough)
        simp only [List.mem_cons, Ne.symm found, false_or]
        exact later

/-- A slot has been put at the end of a chain. -/
structure Appended (table table' : UserTable) (bucket : Bucket) (nodes : List Nat) (num : Nat) :
    Prop where
  hash : ∀ other, table'.hashAt other =
    if other = bucket ∧ nodes = [] then num else table.hashAt other
  links : ∀ i, i ≠ 0 → table'.link i = if i = num then 0
    else if nodes.getLast? = some i then num else table.link i
  backs : ∀ i, i ≠ 0 → table'.back i = if i = num then nodes.getLastD 0 else table.back i
  userid : table'.userid = table.userid
  number : table'.number = table.number
  passwd : table'.passwd = table.passwd
  details : table'.details = table.details

theorem getLast_eq_some (nonempty : nodes ≠ []) (i : Nat) :
    nodes.getLast? = some i ↔ i = nodes.getLastD 0 := by
  rw [List.getLastD_eq_getLast?]
  cases last : nodes.getLast? with
  | none => exact absurd (List.getLast?_eq_none_iff.mp last) nonempty
  | some other => rw [Option.some.injEq, Option.getD_some, eq_comm]

theorem getLastD_ne_zero (nonempty : nodes ≠ []) (zero : 0 ∉ nodes) : nodes.getLastD 0 ≠ 0 := by
  intro isZero
  exact zero (List.mem_of_getLast? ((getLast_eq_some nonempty 0).mpr isZero.symm))

/-- The part of `setuserid` that fills the hash table. -/
theorem chainSlot_spec {bucket : Bucket} (chain : Chain table.link (table.hashAt bucket) nodes)
    (short : nodes.length ≤ maxUsers) {num : Nat} (nonzero : num ≠ 0) :
    ∃ table', table.chainSlot num bucket = some table' ∧
      Appended table table' bucket nodes num := by
  rw [chainSlot]
  cases nodes with
  | nil =>
    have empty : table.hashAt bucket = 0 := chain.head_eq
    rw [if_pos empty]
    refine ⟨_, rfl, ?_, ?_, ?_, rfl, rfl, rfl, rfl⟩
    · intro other
      simp only [and_true]
      exact hashAt_setHash table num bucket other
    · intro i inside
      rw [List.getLast?_nil, if_neg (Option.some_ne_none i).symm]
      exact link_setNext _ 0 nonzero inside
    · intro i inside
      exact back_setPrev _ 0 nonzero inside
  | cons first rest =>
    have occupied : table.hashAt bucket ≠ 0 := by
      rw [chain.head_eq, List.headD_cons]
      rintro rfl
      exact chain.zero_notMem List.mem_cons_self
    have lastNonzero := getLastD_ne_zero (List.cons_ne_nil first rest) chain.zero_notMem
    have last := getLast_eq_some (List.cons_ne_nil first rest)
    rw [if_neg occupied, lastSlot_spec chain (List.cons_ne_nil first rest) short, Option.map_some]
    refine ⟨_, rfl, ?_, ?_, ?_, rfl, rfl, rfl, rfl⟩
    · intro other
      rw [if_neg (fun both => List.cons_ne_nil first rest both.2)]
      rfl
    · intro i inside
      rw [link_setNext _ 0 nonzero inside]
      simp only [last i]
      exact congrArg _ (link_setNext table num lastNonzero inside)
    · intro i inside
      exact back_setPrev _ _ nonzero inside

/-- `fillucache` relies on the links of the slot being zero. -/
theorem fillucache_spec {userid : CString} {bucket : Bucket} {count : Nat}
    (inside : count < maxUsers) (named : userid.bytes ≠ [])
    (key : uhashkey userid.bytes = some bucket)
    (chain : Chain table.link (table.hashAt bucket) nodes) (short : nodes.length ≤ maxUsers)
    (looseNext : table.link (count + 1) = 0) (looseBack : table.back (count + 1) = 0)
    (notLast : nodes.getLast? ≠ some (count + 1)) :
    ∃ table', table.fillucache userid count = some (true, table') ∧
      Appended (table.setId (count + 1) userid) table' bucket nodes (count + 1) := by
  have nonzero := Nat.succ_ne_zero count
  rw [fillucache, if_pos inside]
  dsimp only
  rw [if_pos named, key, Option.bind_some]
  have chainId : Chain (table.setId (count + 1) userid).link
      ((table.setId (count + 1) userid).hashAt bucket) nodes := chain
  cases nodes with
  | nil =>
    have empty : (table.setId (count + 1) userid).hashAt bucket = 0 := chainId.head_eq
    rw [if_pos empty]
    refine ⟨_, rfl, ?_, ?_, ?_, rfl, rfl, rfl, rfl⟩
    · intro other
      simp only [and_true]
      exact hashAt_setHash _ (count + 1) bucket other
    · intro i _
      rw [List.getLast?_nil, if_neg (Option.some_ne_none i).symm]
      split
      · rename_i same
        rw [same]
        exact looseNext
      · rfl
    · intro i _
      split
      · rename_i same
        rw [same]
        exact looseBack
      · rfl
  | cons first rest =>
    have occupied : (table.setId (count + 1) userid).hashAt bucket ≠ 0 := by
      rw [chainId.head_eq, List.headD_cons]
      rintro rfl
      exact chain.zero_notMem List.mem_cons_self
    have lastNonzero := getLastD_ne_zero (List.cons_ne_nil first rest) chain.zero_notMem
    have last := getLast_eq_some (List.cons_ne_nil first rest)
    rw [if_neg occupied, lastSlot_spec chainId (List.cons_ne_nil first rest) short,
      Option.map_some]
    refine ⟨_, rfl, ?_, ?_, ?_, rfl, rfl, rfl, rfl⟩
    · intro other
      rw [if_neg (fun both => List.cons_ne_nil first rest both.2)]
      rfl
    · intro i inside
      have set := link_setNext (table.setId (count + 1) userid) (count + 1) lastNonzero inside
      by_cases same : i = count + 1
      · rw [if_pos same, same]
        rw [same, if_neg (fun isLast => notLast ((last _).mpr isLast))] at set
        exact set.trans looseNext
      · simp only [if_neg same, last i]
        exact set
    · intro i inside
      exact back_setPrev _ _ nonzero inside

section Unchain

variable {bucket : Bucket} {slot : Nat}

/-- What `del_uidshm` writes: the link to the slot, which is in the slot before it
or in the hash table, and the link back to it. -/
theorem unchain_eq (bucket : Bucket) (nonzero : slot ≠ 0) (apart : table.back slot ≠ slot) :
    table.unchain bucket slot =
      let forward := if table.back slot = 0 then table.setHash bucket (table.link slot)
        else table.setNext (table.back slot) (table.link slot)
      if table.link slot = 0 then forward
      else forward.setPrev (table.link slot) (table.back slot) := by
  have isNext : table.next (slot - 1) = table.link slot := rfl
  have isBack : table.prev (slot - 1) = table.back slot := rfl
  rw [unchain, isNext, isBack]
  by_cases last : table.link slot = 0
  · by_cases first : table.back slot = 0
    · simp only [last, first, ne_eq, not_true_eq_false, if_false, if_true]
    · simp only [last, first, ne_eq, not_true_eq_false, not_false_eq_true, if_false, if_true]
  · by_cases first : table.back slot = 0
    · simp only [last, first, ne_eq, not_true_eq_false, not_false_eq_true, if_false, if_true]
      rfl
    · -- The link of the slot is read again after the one before it has been written.
      have kept : (table.setNext (table.back slot) (table.link slot)).next (slot - 1) =
          table.link slot := by
        have set := link_setNext table (table.link slot) first nonzero
        rwa [if_neg (Ne.symm apart)] at set
      simp only [last, first, ne_eq, not_false_eq_true, if_false, if_true, kept]
      rfl

theorem hashAt_unchain (bucket other : Bucket) (nonzero : slot ≠ 0)
    (apart : table.back slot ≠ slot) :
    (table.unchain bucket slot).hashAt other =
      if other = bucket ∧ table.back slot = 0 then table.link slot else table.hashAt other := by
  have forward : (if table.back slot = 0 then table.setHash bucket (table.link slot)
      else table.setNext (table.back slot) (table.link slot)).hashAt other =
      if other = bucket ∧ table.back slot = 0 then table.link slot else table.hashAt other := by
    by_cases first : table.back slot = 0
    · simp only [first, if_true, and_true]
      exact hashAt_setHash table (table.link slot) bucket other
    · simp only [first, if_false, and_false]
      rfl
  rw [unchain_eq bucket nonzero apart, ← forward]
  dsimp only
  split <;> rfl

theorem link_unchain (bucket : Bucket) (nonzero : slot ≠ 0) (apart : table.back slot ≠ slot)
    {i : Nat} (inside : i ≠ 0) :
    (table.unchain bucket slot).link i =
      if i = table.back slot then table.link slot else table.link i := by
  have forward : (if table.back slot = 0 then table.setHash bucket (table.link slot)
      else table.setNext (table.back slot) (table.link slot)).link i =
      if i = table.back slot then table.link slot else table.link i := by
    by_cases first : table.back slot = 0
    · rw [if_pos first, first, if_neg inside]
      rfl
    · rw [if_neg first]
      exact link_setNext table (table.link slot) first inside
  rw [unchain_eq bucket nonzero apart, ← forward]
  dsimp only
  split <;> rfl

theorem back_unchain (bucket : Bucket) (nonzero : slot ≠ 0) (apart : table.back slot ≠ slot)
    {i : Nat} (inside : i ≠ 0) :
    (table.unchain bucket slot).back i =
      if i = table.link slot then table.back slot else table.back i := by
  have forward : (if table.back slot = 0 then table.setHash bucket (table.link slot)
      else table.setNext (table.back slot) (table.link slot)).back i = table.back i := by
    split <;> rfl
  rw [unchain_eq bucket nonzero apart, ← forward]
  dsimp only
  by_cases last : table.link slot = 0
  · rw [if_pos last, last, if_neg inside]
  · rw [if_neg last]
    exact back_setPrev _ (table.back slot) last inside

theorem userid_unchain (table : UserTable) (bucket : Bucket) (slot : Nat) :
    (table.unchain bucket slot).userid = table.userid ∧
      (table.unchain bucket slot).number = table.number := by
  unfold unchain
  split <;> split <;> exact ⟨rfl, rfl⟩

theorem head_eq_some {i : Nat} (inside : i ≠ 0) : nodes.head? = some i ↔ i = nodes.headD 0 := by
  cases nodes with
  | nil => simpa using inside
  | cons node nodes => simp [eq_comm]

/-- The slot that `del_uidshm` removes is taken out between its neighbours. -/
theorem unchain_spec {before after : List Nat}
    (chain : Chain table.link (table.hashAt bucket) (before ++ slot :: after))
    (backward : Backward table.back 0 (before ++ slot :: after)) :
    (∀ other, (table.unchain bucket slot).hashAt other =
      if other = bucket ∧ before = [] then after.headD 0 else table.hashAt other) ∧
    (∀ i, i ≠ 0 → (table.unchain bucket slot).link i =
      if before.getLast? = some i then after.headD 0 else table.link i) ∧
    (∀ i, i ≠ 0 → (table.unchain bucket slot).back i =
      if after.head? = some i then before.getLastD 0 else table.back i) := by
  have isNext : table.link slot = after.headD 0 := by
    have fromSlot : Chain table.link slot (slot :: after) := chain.suffix
    cases fromSlot with
    | cons _ rest => exact rest.head_eq
  have isBack : table.back slot = before.getLastD 0 :=
    (Backward.append_iff.mp backward).2.1
  have zero := chain.zero_notMem
  rw [List.mem_append, List.mem_cons, not_or, not_or] at zero
  obtain ⟨zeroBefore, zeroSlot, -⟩ := zero
  have nonzero : slot ≠ 0 := Ne.symm zeroSlot
  obtain ⟨-, -, distinct⟩ := List.nodup_append.mp chain.nodup
  have first : table.back slot = 0 ↔ before = [] := by
    rw [isBack]
    refine ⟨fun isZero => ?_, fun empty => by rw [empty]; rfl⟩
    by_contra nonempty
    exact getLastD_ne_zero nonempty zeroBefore isZero
  have last : ∀ i, i ≠ 0 → (i = table.back slot ↔ before.getLast? = some i) := by
    intro i inside
    rw [isBack]
    by_cases empty : before = []
    · rw [empty]
      simpa using inside
    · exact (getLast_eq_some empty i).symm
  have apart : table.back slot ≠ slot := by
    intro isSlot
    have member := List.mem_of_getLast? ((last slot nonzero).mp isSlot.symm)
    exact distinct slot member slot List.mem_cons_self rfl
  refine ⟨fun other => ?_, fun i inside => ?_, fun i inside => ?_⟩
  · rw [hashAt_unchain bucket other nonzero apart]
    simp only [first, isNext]
  · rw [link_unchain bucket nonzero apart inside]
    simp only [last i inside, isNext]
  · rw [back_unchain bucket nonzero apart inside]
    simp only [head_eq_some inside, isNext, isBack]

end Unchain

/-- `del_uidshm` for a slot in the chain of its name. -/
theorem delUidshm_linked (threaded : Threaded table chains) {bucket : Bucket} {slot : Nat}
    (member : slot ∈ chains bucket) :
    ∃ table' chains', table.delUidshm slot (table.name slot) = some (true, table') ∧
      Threaded table' chains' ∧ table'.number = table.number ∧
      ∀ i, i ≠ 0 → table'.name i = if i = slot then CString.empty else table.name i := by
  have nonzero := threaded.ne_zero member
  obtain ⟨-, inside, -⟩ := threaded.live bucket slot member
  obtain ⟨before, after, parts⟩ := List.append_of_mem member
  have chain := threaded.chain bucket
  have backward := threaded.backward bucket
  rw [parts] at chain backward
  obtain ⟨hash, links, backs⟩ := unchain_spec chain backward
  obtain ⟨userid, number⟩ := userid_unchain table bucket slot
  have found : table.findSlot slot (maxUsers + 1) (table.hashAt bucket) = some slot := by
    rw [findSlot_spec (threaded.chain bucket) (Nat.lt_succ_of_le (threaded.length_le bucket)),
      if_pos member]
  have occupied : table.hashAt bucket ≠ 0 := by
    intro empty
    have chainWhole := threaded.chain bucket
    rw [empty] at chainWhole
    rw [chainWhole.eq_nil] at member
    exact List.not_mem_nil member
  have names : ∀ i, i ≠ 0 → ((((table.unchain bucket slot).setNext slot 0).setPrev slot 0).setId
      slot CString.empty).name i = if i = slot then CString.empty else table.name i := by
    intro i notZero
    rw [name_setId _ CString.empty (Nat.zero_le _) nonzero notZero]
    split
    · rfl
    · exact congrArg (fun ids => CharArray.str (ids (i - 1))) userid
  refine ⟨(((table.unchain bucket slot).setNext slot 0).setPrev slot 0).setId slot CString.empty,
    Function.update chains bucket (before ++ after), ?_, ?_, number, names⟩
  · rw [delUidshm, if_neg (not_or.mpr ⟨nonzero, Nat.not_lt.mpr inside⟩),
      threaded.key bucket slot member, Option.bind_some, if_neg occupied, found, Option.map_some,
      if_neg (not_or.mpr ⟨not_not.mpr rfl, nonzero⟩)]
  · apply threaded.unlink parts
    · rw [names slot nonzero, if_pos rfl]
      rfl
    · intro i notZero ne
      rw [names i notZero, if_neg ne]
    · exact hash
    · intro i notZero
      refine (link_setNext (table.unchain bucket slot) 0 nonzero notZero).trans ?_
      split
      · rfl
      · exact links i notZero
    · intro i notZero
      refine (back_setPrev ((table.unchain bucket slot).setNext slot 0) 0 nonzero notZero).trans ?_
      split
      · rfl
      · exact backs i notZero

/-- `del_uidshm` does not find a slot that is in no chain. -/
theorem delUidshm_unlinked (threaded : Threaded table chains) {bucket : Bucket} {slot : Nat}
    (key : uhashkey (table.name slot).bytes = some bucket)
    (unlinked : slot ∉ chains bucket) :
    table.delUidshm slot (table.name slot) = some (false, table) := by
  rw [delUidshm]
  split
  · rfl
  · rw [key, Option.bind_some]
    split
    · rfl
    · rw [findSlot_spec (threaded.chain bucket) (Nat.lt_succ_of_le (threaded.length_le bucket)),
        if_neg unlinked, Option.map_some, if_pos (Or.inr rfl)]

/-- The loop of `searchuser` stops at a slot with the name, or at the end. -/
theorem searchChain_spec (chain : Chain table.link head nodes) (userid : CString) {fuel : Nat}
    (enough : nodes.length < fuel) :
    ∃ found, searchChain table.toUserCache userid fuel head = some found ∧
      ((found = 0 ∧ ∀ slot ∈ nodes, strncaseeq (idLen + 1) userid (table.name slot) = false) ∨
        (found ∈ nodes ∧ strncaseeq (idLen + 1) userid (table.name found) = true)) := by
  induction nodes generalizing head fuel with
  | nil =>
    obtain ⟨fuel, rfl⟩ := Nat.exists_eq_add_one_of_ne_zero (Nat.ne_zero_of_lt enough)
    obtain rfl : head = 0 := chain.head_eq
    exact ⟨0, rfl, Or.inl ⟨rfl, fun slot member => absurd member List.not_mem_nil⟩⟩
  | cons node nodes ih =>
    obtain ⟨fuel, rfl⟩ := Nat.exists_eq_add_one_of_ne_zero (Nat.ne_zero_of_lt enough)
    rw [List.length_cons] at enough
    cases chain with
    | cons nonzero rest =>
      obtain ⟨i, rfl⟩ := Nat.exists_eq_add_one_of_ne_zero nonzero
      rw [searchChain]
      by_cases same : strncaseeq (idLen + 1) userid (table.name (i + 1)) = true
      · exact ⟨i + 1, if_pos same, Or.inr ⟨List.mem_cons_self, same⟩⟩
      · obtain ⟨found, searched, result⟩ := ih rest (Nat.lt_of_succ_lt_succ enough)
        refine ⟨found, (if_neg same).trans searched, ?_⟩
        rcases result with ⟨isZero, others⟩ | ⟨member, equal⟩
        · refine Or.inl ⟨isZero, fun slot member => ?_⟩
          rcases List.mem_cons.mp member with rfl | member
          · exact Bool.eq_false_iff.mpr same
          · exact others slot member
        · exact Or.inr ⟨List.mem_cons_of_mem _ member, equal⟩

end UserTable

end Fbbs
