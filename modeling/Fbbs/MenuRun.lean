import Fbbs.Parcel
import Fbbs.TransitionRuns

/-!
# Moving in a menu

`domenu` of `src/comm_lists.c` moves a cursor over the items of a menu and executes the function
of the one that it is on.  The item is read before the cursor is put back into the menu, which
goes wrong when the cursor leaves the menu upwards.
-/

namespace Fbbs

namespace Menu

/-- `menuitem_t`. -/
structure Item where
  line : Int32
  col : Int32
  level : Int32
  name : CString
  func : CString
  arg : CString
  deriving DecidableEq

/-- `HAS_PERM`. -/
def hasPerm (userlevel : UInt32) (level : Int32) : Bool :=
  if level ≠ 0 then userlevel &&& level.toUInt32 != 0 else true

/-- `PERM_ESYSFILE`. -/
def permEsysfile : Int32 := 0x2000

/-- An item that does not end the menu, with its place, and where the next one is drawn. -/
def drawItem (userlevel : UInt32) (line col : Int32) (item : Item) : Item × Int32 × Int32 :=
  if item.level = -2 then (item, line, col)
  else if 0 ≤ item.line ∧ hasPerm userlevel item.level = true then
    if item.line = 0 then ({ item with line, col }, line + 1, col)
    else (item, item.line + 1, item.col)
  else
    let (line, col) := if 0 < item.line then (item.line, item.col) else (line, col)
    ({ item with line := -1 }, line, col)

/-- The items with the places at which they are drawn, and their number.  There is no result if
no item ends the menu. -/
def drawLoop (userlevel : UInt32) : Int32 → Int32 → List Item → Option (List Item × Nat)
  | _, _, [] => none
  | line, col, item :: rest =>
    if item.level = -1 then some (item :: rest, 0)
    else
      let (item, line, col) := drawItem userlevel line col item
      (drawLoop userlevel line col rest).map fun (items, num) => (item :: items, num + 1)

def drawMenu (userlevel : UInt32) (pm : List Item) : Option (List Item × Nat) :=
  drawLoop userlevel 3 0 pm

/-- The level of an item; only those up to the end of the menu may be read. -/
def levelAt (pm : List Item) (size : Nat) (i : Int) : Option Int32 :=
  if 0 ≤ i ∧ i ≤ size then pm[i.toNat]?.map (·.level) else none

/-- The cursor may stay at the item. -/
def selectable (userlevel : UInt32) (pm : List Item) (size : Nat) (i : Int) : Option Bool :=
  (levelAt pm size i).map fun level => !(decide (level < 0) || !hasPerm userlevel level)

/-- A loop that moves the cursor until it may stay. -/
def seek (userlevel : UInt32) (pm : List Item) (size : Nat) (move : Int → Int) :
    Nat → Int → Option Int
  | 0, _ => none
  | fuel + 1, now => do
    if ← selectable userlevel pm size now then some now
    else seek userlevel pm size move fuel (move now)

/-- The loop at the beginning of each round. -/
def forwards (size : Nat) (now : Int) : Int :=
  if now + 1 ≥ size then 0 else now + 1

/-- The loop of `KEY_UP`. -/
def backwards (size : Nat) (now : Int) : Int :=
  if now > 0 then now - 1 else size - 1

/-- The loop of `KEY_PGDN`. -/
def upwards (now : Int) : Int := now - 1

/-- Enough for every loop. -/
def rounds (size : Nat) : Nat := 2 * size + 2

/-- What an executed function leaves: the level of the user, and whether a menu below has loaded
the table again. -/
structure Effect where
  userlevel : UInt32
  reloaded : Bool

inductive Key
  | eof (refscreen : Bool)
  | right
  | enter
  | left
  | down
  | up
  | pgup
  | pgdn
  | tilde (loaded : List Item)
  | bang
  | ctrlT (fullupdate : Bool)
  | other (ch : Int)

/-- A key, and what the function does that it may execute. -/
structure Event where
  key : Key
  effect : Effect

structure State where
  pm : List Item
  size : Nat
  now : Int
  userlevel : UInt32
  /-- The items whose functions were executed, with the level of the user then. -/
  executed : List (Item × UInt32)
  closed : Bool

/-- The name of the menu, and the functions that are known. -/
structure Context where
  topmenu : Bool
  known : CString → Bool

/-- `..`. -/
def backArg : Bytes := [46, 46]

/-- `LeaveBBS`. -/
def leaveBBS : Bytes := [76, 101, 97, 118, 101, 66, 66, 83]

def nameChar (item : Item) : Int :=
  ((item.name.bytes.head?.getD 0).toInt8).toInt

def State.redraw (state : State) : Option State :=
  (drawMenu state.userlevel state.pm).map fun (pm, _) => { state with pm }

def State.item (state : State) : Option Item :=
  if 0 ≤ state.now ∧ state.now ≤ state.size then state.pm[state.now.toNat]? else none

/-- The first item before the end of the menu. -/
def State.find (state : State) (holds : Item → Bool) : Option Nat :=
  (state.pm.take state.size).findIdx? holds

def onEnter (ctx : Context) (effect : Effect) (state : State) : Option State := do
  let item ← state.item
  if item.arg.bytes = backArg then some { state with closed := true }
  else if ctx.known item.func then
    -- The items are in memory that a reload frees.
    if effect.reloaded then none
    else
      State.redraw
        { state with
          userlevel := effect.userlevel
          executed := (item, state.userlevel) :: state.executed }
  else state.redraw

def onRight (ctx : Context) (effect : Effect) (state : State) : Option State := do
  let item ← state.item
  match state.find fun other => other.line = item.line ∧ 0 ≤ other.level ∧ item.col < other.col ∧
      hasPerm state.userlevel other.level = true with
  | some i => some { state with now := i }
  | none => onEnter ctx effect state

def onLeft (state : State) : Option State := do
  let item ← state.item
  match state.find fun other => (other.line = item.line ∧ 0 ≤ other.level ∧
      other.col < item.col ∧ hasPerm state.userlevel other.level = true) ∨
        other.func.bytes = leaveBBS with
  | some i => some { state with now := i }
  | none => some { state with closed := true }

def onOther (ch : Int) (state : State) : State :=
  let ch := if 97 ≤ ch ∧ ch ≤ 122 then ch - 97 + 65 else ch
  match state.find fun item => 0 < item.line ∧ ch = nameChar item ∧
      hasPerm state.userlevel item.level = true with
  | some i => { state with now := i }
  | none => state

/-- The `switch` over the key. -/
def onKey (ctx : Context) (event : Event) (state : State) : Option State :=
  match event.key with
  | .eof refscreen => if refscreen then state.redraw else some { state with closed := true }
  | .right => onRight ctx event.effect state
  | .enter => onEnter ctx event.effect state
  | .left => onLeft state
  | .down => some { state with now := state.now + 1 }
  | .up =>
    (seek state.userlevel state.pm state.size (backwards state.size) (rounds state.size)
      (state.now - 1)).map fun now => { state with now }
  | .pgup => some { state with now := 0 }
  | .pgdn =>
    (seek state.userlevel state.pm state.size upwards (rounds state.size)
      (state.size - 1)).map fun now => { state with now }
  | .tilde loaded =>
    if hasPerm state.userlevel permEsysfile then
      (drawMenu state.userlevel loaded).map fun (pm, size) => { state with pm, size, now := 0 }
    else some state
  | .bang => some (if ctx.topmenu then state else { state with closed := true })
  | .ctrlT fullupdate => if fullupdate then state.redraw else some state
  | .other ch => some (onOther ch state)

/-- The loop before the next key. -/
def settle (state : State) : Option State :=
  if state.closed then some state
  else
    (seek state.userlevel state.pm state.size (forwards state.size) (rounds state.size)
      state.now).map fun now => { state with now }

/-- A round, from one key to the next. -/
def step (ctx : Context) (state : State) (event : Event) : Option State :=
  if state.closed then some state else (onKey ctx event state).bind settle

/-- Mail makes the cursor of the top menu start at the last item with an `M`. -/
def mailItem (pm : List Item) (size : Nat) : Nat :=
  ((pm.take size).zipIdx.foldl
    (fun now entry => if 0 < entry.1.line ∧ entry.1.name.bytes.head? = some 77 then entry.2 else now)
    0)

/-- From the call of `domenu` to the first key. -/
def start (ctx : Context) (mail : Bool) (userlevel : UInt32) (pm : List Item) : Option State := do
  let (pm, size) ← drawMenu userlevel pm
  let now : Int := if ctx.topmenu && mail then mailItem pm size else 0
  settle { pm, size, now, userlevel, executed := [], closed := false }

/-! ## Safe runs -/

/-- The menu ends at the first item of level -1. -/
def Ends (pm : List Item) (size : Nat) : Prop :=
  (∃ item, pm[size]? = some item ∧ item.level = -1) ∧
    ∀ i < size, ∃ item, pm[i]? = some item ∧ item.level ≠ -1

/-- The menu ends, and the cursor may stay at some item. -/
def Usable (userlevel : UInt32) (pm : List Item) (size : Nat) : Prop :=
  Ends pm size ∧ ∃ p < size, selectable userlevel pm size (p : Int) = some true

def Compiled (userlevel : UInt32) (pm : List Item) : Prop :=
  ∃ size, Usable userlevel pm size

/-- The user has some item after a function was executed, and menus that are loaded are
compiled. -/
def Premise (state : State) (event : Event) : Prop :=
  Usable event.effect.userlevel state.pm state.size ∧
    ∀ loaded, event.key = .tilde loaded → Compiled state.userlevel loaded

/-- The key executes a function. -/
def executes (ctx : Context) (state : State) (key : Key) : Bool :=
  let runs := state.item.any fun item => item.arg.bytes ≠ backArg ∧ ctx.known item.func = true
  match key with
  | .enter => runs
  | .right => runs && state.item.all fun item =>
    (state.find fun other => other.line = item.line ∧ 0 ≤ other.level ∧ item.col < other.col ∧
      hasPerm state.userlevel other.level = true).isNone
  | _ => false

/-- The cursor does not leave the first item upwards, and an executed function does not load the
table again. -/
def Guard (ctx : Context) (state : State) (event : Event) : Prop :=
  state.closed = true ∨ (event.key = .up → state.now ≠ 0) ∧
    (executes ctx state event.key = true → event.effect.reloaded = false)

/-- The user had the permission for the item. -/
def Allowed (entry : Item × UInt32) : Prop :=
  0 ≤ entry.1.level ∧ hasPerm entry.2 entry.1.level = true

section Loops

variable {userlevel : UInt32} {pm : List Item} {size : Nat}

theorem levelAt_of_map_eq {pm' : List Item} (same : pm'.map (·.level) = pm.map (·.level)) (i : Int) :
    levelAt pm' size i = levelAt pm size i := by
  rw [levelAt, levelAt, ← List.getElem?_map, ← List.getElem?_map, same]

theorem selectable_of_map_eq {pm' : List Item} (same : pm'.map (·.level) = pm.map (·.level))
    (i : Int) : selectable userlevel pm' size i = selectable userlevel pm size i := by
  rw [selectable, selectable, levelAt_of_map_eq same]

theorem Ends.of_map_eq {pm' : List Item} (same : pm'.map (·.level) = pm.map (·.level))
    (ends : Ends pm size) : Ends pm' size := by
  have levels (i : Nat) : pm'[i]?.map (·.level) = pm[i]?.map (·.level) := by
    rw [← List.getElem?_map, ← List.getElem?_map, same]
  constructor
  · obtain ⟨item, here, last⟩ := ends.1
    have level := levels size
    rw [here, Option.map_some, Option.map_eq_some_iff] at level
    obtain ⟨item', here', same'⟩ := level
    exact ⟨item', here', same'.trans last⟩
  · intro i inside
    obtain ⟨item, here, inner⟩ := ends.2 i inside
    have level := levels i
    rw [here, Option.map_some, Option.map_eq_some_iff] at level
    obtain ⟨item', here', same'⟩ := level
    exact ⟨item', here', same' ▸ inner⟩

theorem Usable.of_map_eq {pm' : List Item} (same : pm'.map (·.level) = pm.map (·.level))
    (usable : Usable userlevel pm size) : Usable userlevel pm' size := by
  obtain ⟨ends, p, inside, target⟩ := usable
  exact ⟨ends.of_map_eq same, p, inside, (selectable_of_map_eq same p).trans target⟩

/-- Up to the end of the menu, every item can be read. -/
theorem exists_selectable (userlevel : UInt32) (ends : Ends pm size) {i : Int} (low : 0 ≤ i) (high : i ≤ size) :
    ∃ answer, selectable userlevel pm size i = some answer := by
  have found : ∃ item, pm[i.toNat]? = some item := by
    by_cases last : i.toNat = size
    · obtain ⟨item, here, -⟩ := ends.1
      exact ⟨item, last ▸ here⟩
    · obtain ⟨item, here, -⟩ := ends.2 i.toNat (by omega)
      exact ⟨item, here⟩
  obtain ⟨item, here⟩ := found
  rw [selectable, levelAt, if_pos ⟨low, high⟩, here]
  exact ⟨_, rfl⟩

theorem selectable_eq_true_iff {i : Int} :
    selectable userlevel pm size i = some true ↔
      (0 ≤ i ∧ i ≤ size) ∧ ∃ item, pm[i.toNat]? = some item ∧ 0 ≤ item.level ∧
        hasPerm userlevel item.level = true := by
  rw [selectable, levelAt]
  by_cases inside : 0 ≤ i ∧ i ≤ size
  · rw [if_pos inside, and_iff_right inside]
    cases pm[i.toNat]? with
    | none => simp
    | some item =>
      simp only [Option.map_some, Option.some.injEq, Bool.not_or, Bool.and_eq_true,
        Bool.not_eq_true', decide_eq_false_iff_not, Int32.not_lt, Bool.not_not]
      constructor
      · exact fun both => ⟨item, rfl, both⟩
      · rintro ⟨_, rfl, both⟩
        exact both
  · rw [if_neg inside]
    exact iff_of_false (by simp) fun both => inside both.1

/-- The cursor does not stay at the end of the menu. -/
theorem lt_of_selectable (ends : Ends pm size) {i : Int}
    (target : selectable userlevel pm size i = some true) : 0 ≤ i ∧ i < size := by
  obtain ⟨⟨low, high⟩, item, here, level, -⟩ := selectable_eq_true_iff.mp target
  refine ⟨low, ?_⟩
  by_contra notBefore
  have last : i.toNat = size := by omega
  obtain ⟨other, there, isLast⟩ := ends.1
  rw [last, there, Option.some.injEq] at here
  rw [← here, isLast] at level
  exact absurd level (by decide)

/-- A loop ends when its moves stay in the menu and come nearer to an item. -/
theorem exists_seek {move : Int → Int} (Inside : Int → Prop) (distance : Int → Nat)
    (moves : ∀ i, Inside i → ∃ answer, selectable userlevel pm size i = some answer ∧
      (answer = false → Inside (move i) ∧ distance (move i) < distance i))
    {fuel : Nat} {now : Int} (inside : Inside now) (enough : distance now < fuel) :
    ∃ i, seek userlevel pm size move fuel now = some i ∧
      selectable userlevel pm size i = some true := by
  induction fuel generalizing now with
  | zero => exact absurd enough (Nat.not_lt_zero _)
  | succ fuel ih =>
    obtain ⟨answer, here, further⟩ := moves now inside
    rw [seek, here, Option.bind_eq_bind, Option.bind_some]
    cases answer with
    | true => exact ⟨now, rfl, here⟩
    | false =>
      obtain ⟨inside', nearer⟩ := further rfl
      exact ih inside' (by omega)

theorem exists_seek_forwards (usable : Usable userlevel pm size) {now : Int} (low : 0 ≤ now)
    (high : now ≤ size) :
    ∃ i, seek userlevel pm size (forwards size) (rounds size) now = some i ∧
      selectable userlevel pm size i = some true := by
  obtain ⟨ends, p, inside, target⟩ := usable
  apply exists_seek (fun i => 0 ≤ i ∧ i ≤ size)
    (fun i => if i ≤ p then (p - i).toNat else (size + 1 - i + p).toNat) _ ⟨low, high⟩
  · rw [rounds]
    split <;> omega
  · intro i bounds
    obtain ⟨answer, here⟩ := exists_selectable userlevel ends bounds.1 bounds.2
    refine ⟨answer, here, fun blocked => ?_⟩
    have other : i ≠ p := by
      rintro rfl
      rw [here, blocked] at target
      cases target
    rw [forwards]
    split <;> refine ⟨by omega, ?_⟩ <;> split <;> split <;> omega

theorem exists_seek_backwards (usable : Usable userlevel pm size) {now : Int} (low : 0 ≤ now)
    (high : now < size) :
    ∃ i, seek userlevel pm size (backwards size) (rounds size) now = some i ∧
      selectable userlevel pm size i = some true := by
  obtain ⟨ends, p, inside, target⟩ := usable
  apply exists_seek (fun i => 0 ≤ i ∧ i < size)
    (fun i => if p ≤ i then (i - p).toNat else (i + size - p).toNat) _ ⟨low, high⟩
  · rw [rounds]
    split <;> omega
  · intro i bounds
    obtain ⟨answer, here⟩ := exists_selectable userlevel ends bounds.1 (by omega)
    refine ⟨answer, here, fun blocked => ?_⟩
    have other : i ≠ p := by
      rintro rfl
      rw [here, blocked] at target
      cases target
    rw [backwards]
    split <;> refine ⟨by omega, ?_⟩ <;> split <;> split <;> omega

theorem exists_seek_upwards (usable : Usable userlevel pm size) :
    ∃ i, seek userlevel pm size upwards (rounds size) (size - 1) = some i ∧
      selectable userlevel pm size i = some true := by
  obtain ⟨ends, p, inside, target⟩ := usable
  apply exists_seek (fun i => p ≤ i ∧ i < size) (fun i => (i - p).toNat) _ (by omega)
  · rw [rounds]
    omega
  · intro i bounds
    obtain ⟨answer, here⟩ :=
      exists_selectable userlevel ends (i := i) (by omega) (by omega)
    refine ⟨answer, here, fun blocked => ?_⟩
    have other : i ≠ p := by
      rintro rfl
      rw [here, blocked] at target
      cases target
    rw [upwards]
    omega

theorem level_drawItem (line col : Int32) (item : Item) :
    (drawItem userlevel line col item).1.level = item.level := by
  rw [drawItem]
  split
  · rfl
  · split
    · split <;> rfl
    · rfl

/-- Drawing finds the end of the menu and keeps the levels. -/
theorem exists_drawLoop (ends : Ends pm size) (line col : Int32) :
    ∃ pm', drawLoop userlevel line col pm = some (pm', size) ∧
      pm'.map (·.level) = pm.map (·.level) := by
  induction pm generalizing size line col with
  | nil =>
    obtain ⟨item, here, -⟩ := ends.1
    cases here
  | cons item rest ih =>
    cases size with
    | zero =>
      obtain ⟨last, here, isLast⟩ := ends.1
      obtain rfl := Option.some.inj here
      exact ⟨item :: rest, by rw [drawLoop, if_pos isLast], rfl⟩
    | succ size =>
      obtain ⟨first, here, inner⟩ := ends.2 0 (Nat.succ_pos size)
      obtain rfl := Option.some.inj here
      have behind : Ends rest size :=
        ⟨ends.1, fun i inside => ends.2 (i + 1) (Nat.succ_lt_succ inside)⟩
      obtain ⟨rest', drawn, levels⟩ :=
        ih behind (drawItem userlevel line col item).2.1 (drawItem userlevel line col item).2.2
      have whole : drawLoop userlevel line col (item :: rest) =
          some ((drawItem userlevel line col item).1 :: rest', size + 1) := by
        rw [drawLoop, if_neg inner]
        simp only [drawn, Option.map_some]
      refine ⟨_, whole, ?_⟩
      rw [List.map_cons, List.map_cons, levels, level_drawItem]

theorem exists_drawMenu (userlevel : UInt32) (ends : Ends pm size) :
    ∃ pm', drawMenu userlevel pm = some (pm', size) ∧
      pm'.map (·.level) = pm.map (·.level) :=
  exists_drawLoop ends 3 0

end Loops

/-! ## Rounds -/

section Rounds

variable {ctx : Context} {state : State} {event : Event}

/-- The cursor is in the menu or at its end, before the loop that moves it on. -/
structure Inside (state : State) : Prop where
  usable : Usable state.userlevel state.pm state.size
  low : 0 ≤ state.now
  high : state.now ≤ state.size

/-- The cursor is at an item where it may stay. -/
structure Ready (state : State) : Prop where
  usable : Usable state.userlevel state.pm state.size
  stays : selectable state.userlevel state.pm state.size state.now = some true

/-- The invariant between the keys. -/
structure Invariant (state : State) : Prop where
  ready : state.closed = true ∨ Ready state
  allowed : ∀ entry ∈ state.executed, Allowed entry

theorem Ready.bounds (ready : Ready state) : 0 ≤ state.now ∧ state.now < state.size :=
  lt_of_selectable ready.usable.1 ready.stays

theorem Ready.item (ready : Ready state) :
    ∃ item, state.item = some item ∧ 0 ≤ item.level ∧ hasPerm state.userlevel item.level = true := by
  obtain ⟨inside, item, here, allowed⟩ := selectable_eq_true_iff.mp ready.stays
  exact ⟨item, (if_pos inside).trans here, allowed⟩

theorem Ready.inside (ready : Ready state) : Inside state :=
  ⟨ready.usable, ready.bounds.1, Int.le_of_lt ready.bounds.2⟩

theorem find_lt {holds : Item → Bool} {i : Nat} (found : state.find holds = some i) :
    i < state.size := by
  have inside := (List.findIdx?_eq_some_iff_findIdx_eq.mp found).1
  rw [List.length_take] at inside
  omega

/-- Drawing the menu again leaves the cursor in it. -/
theorem exists_redraw (inside : Inside state) :
    ∃ next, state.redraw = some next ∧ Inside next ∧ next.executed = state.executed ∧
      next.closed = state.closed := by
  obtain ⟨pm', drawn, levels⟩ :=
    exists_drawMenu state.userlevel inside.usable.1
  refine ⟨{ state with pm := pm' }, by rw [State.redraw, drawn]; rfl, ?_, rfl, rfl⟩
  exact ⟨inside.usable.of_map_eq levels, inside.low, inside.high⟩

/-- The loop before the next key ends at an item where the cursor may stay. -/
theorem exists_settle (inside : state.closed = true ∨ Inside state) :
    ∃ next, settle state = some next ∧ (next.closed = true ∨ Ready next) ∧
      next.executed = state.executed := by
  rw [settle]
  by_cases closed : state.closed = true
  · exact ⟨state, if_pos closed, .inl closed, rfl⟩
  · obtain ⟨usable, low, high⟩ := inside.resolve_left closed
    obtain ⟨i, found, stays⟩ := exists_seek_forwards usable low high
    rw [if_neg closed, found]
    exact ⟨{ state with now := i }, rfl, .inr ⟨usable, stays⟩, rfl⟩

/-- What a round leads to before its last loop. -/
structure Leads (ctx : Context) (event : Event) (state next : State) : Prop where
  pressed : onKey ctx event state = some next
  inside : next.closed = true ∨ Inside next
  allowed : ∀ entry ∈ next.executed, Allowed entry

theorem exists_onEnter (ctx : Context) {effect : Effect} (ready : Ready state)
    (allowed : ∀ entry ∈ state.executed, Allowed entry)
    (after : Usable effect.userlevel state.pm state.size)
    (kept : (state.item.any fun item =>
      item.arg.bytes ≠ backArg ∧ ctx.known item.func = true) = true → effect.reloaded = false) :
    ∃ next, onEnter ctx effect state = some next ∧ (next.closed = true ∨ Inside next) ∧
      ∀ entry ∈ next.executed, Allowed entry := by
  obtain ⟨item, here, permitted⟩ := ready.item
  rw [here] at kept
  rw [onEnter, here, Option.bind_eq_bind, Option.bind_some]
  by_cases back : item.arg.bytes = backArg
  · rw [if_pos back]
    exact ⟨_, rfl, .inl rfl, allowed⟩
  · rw [if_neg back]
    by_cases isKnown : ctx.known item.func = true
    · have notReloaded : effect.reloaded = false := kept (by simp [back, isKnown])
      have inside : Inside { state with
          userlevel := effect.userlevel
          executed := (item, state.userlevel) :: state.executed } :=
        ⟨after, ready.bounds.1, Int.le_of_lt ready.bounds.2⟩
      obtain ⟨next, drawn, inside', executed, -⟩ := exists_redraw inside
      rw [if_pos isKnown, if_neg (by simp [notReloaded])]
      refine ⟨next, drawn, .inr inside', ?_⟩
      rw [executed]
      exact List.forall_mem_cons.mpr ⟨permitted, allowed⟩
    · obtain ⟨next, drawn, inside', executed, -⟩ := exists_redraw ready.inside
      rw [if_neg isKnown]
      exact ⟨next, drawn, .inr inside', executed ▸ allowed⟩

theorem onEnter_eq_none {effect : Effect} (runs : (state.item.any fun item =>
      item.arg.bytes ≠ backArg ∧ ctx.known item.func = true) = true)
    (reloaded : effect.reloaded = true) : onEnter ctx effect state = none := by
  rw [Option.any_eq_true] at runs
  obtain ⟨item, here, both⟩ := runs
  obtain ⟨back, isKnown⟩ := of_decide_eq_true both
  rw [onEnter, here, Option.bind_eq_bind, Option.bind_some, if_neg back, if_pos isKnown,
    if_pos reloaded]

/-- The cursor goes to an item that was found. -/
theorem Ready.inside_found (ready : Ready state) {holds : Item → Bool} {i : Nat}
    (found : state.find holds = some i) : Inside { state with now := i } :=
  ⟨ready.usable, Int.natCast_nonneg i, Int.ofNat_le.mpr (Nat.le_of_lt (find_lt found))⟩

/-- To the right there is another item, or the item is taken. -/
theorem exists_onRight {effect : Effect} (ready : Ready state)
    (allowed : ∀ entry ∈ state.executed, Allowed entry)
    (after : Usable effect.userlevel state.pm state.size)
    (kept : executes ctx state .right = true → effect.reloaded = false) :
    ∃ next, Leads ctx ⟨.right, effect⟩ state next := by
  obtain ⟨item, here, -⟩ := ready.item
  cases found : state.find fun other => other.line = item.line ∧ 0 ≤ other.level ∧
      item.col < other.col ∧ hasPerm state.userlevel other.level = true with
  | some i =>
    have moved : onKey ctx ⟨.right, effect⟩ state = some { state with now := i } := by
      rw [onKey, onRight, here, Option.bind_eq_bind, Option.bind_some, found]
    exact ⟨_, moved, .inr (ready.inside_found found), allowed⟩
  | none =>
    have entered : onKey ctx ⟨.right, effect⟩ state = onEnter ctx effect state := by
      rw [onKey, onRight, here, Option.bind_eq_bind, Option.bind_some, found]
    have none : (state.item.all fun item => (state.find fun other =>
        other.line = item.line ∧ 0 ≤ other.level ∧ item.col < other.col ∧
          hasPerm state.userlevel other.level = true).isNone) = true := by
      rw [here, Option.all_some, found]
      rfl
    obtain ⟨next, pressed, inside', allowed'⟩ := exists_onEnter ctx ready allowed after
      fun runs => kept (Bool.and_eq_true_iff.mpr ⟨runs, none⟩)
    exact ⟨next, entered.trans pressed, inside', allowed'⟩

/-- To the left there is another item, or the menu closes. -/
theorem exists_onLeft (effect : Effect) (ready : Ready state)
    (allowed : ∀ entry ∈ state.executed, Allowed entry) :
    ∃ next, Leads ctx ⟨.left, effect⟩ state next := by
  obtain ⟨item, here, -⟩ := ready.item
  cases found : state.find fun other => (other.line = item.line ∧ 0 ≤ other.level ∧
      other.col < item.col ∧ hasPerm state.userlevel other.level = true) ∨
        other.func.bytes = leaveBBS with
  | some i =>
    have moved : onKey ctx ⟨.left, effect⟩ state = some { state with now := i } := by
      rw [onKey, onLeft, here, Option.bind_eq_bind, Option.bind_some, found]
    exact ⟨_, moved, .inr (ready.inside_found found), allowed⟩
  | none =>
    have closed : onKey ctx ⟨.left, effect⟩ state = some { state with closed := true } := by
      rw [onKey, onLeft, here, Option.bind_eq_bind, Option.bind_some, found]
    exact ⟨_, closed, .inl rfl, allowed⟩

/-- A configuration that was loaded again starts at its first item. -/
theorem exists_onTilde (effect : Effect) {loaded : List Item} (inside : Inside state)
    (allowed : ∀ entry ∈ state.executed, Allowed entry)
    (compiled : Compiled state.userlevel loaded) :
    ∃ next, Leads ctx ⟨.tilde loaded, effect⟩ state next := by
  by_cases sysop : hasPerm state.userlevel permEsysfile = true
  · obtain ⟨size, usable⟩ := compiled
    obtain ⟨pm', drawn, levels⟩ := exists_drawMenu state.userlevel usable.1
    have loads : onKey ctx ⟨.tilde loaded, effect⟩ state =
        some { state with pm := pm', size, now := 0 } :=
      (if_pos sysop).trans (by rw [drawn]; rfl)
    exact ⟨_, loads, .inr ⟨usable.of_map_eq levels, Int.le_refl 0, Int.natCast_nonneg _⟩, allowed⟩
  · exact ⟨state, if_neg sysop, .inr inside, allowed⟩

/-- A loop over the items ends at one where the cursor may stay. -/
theorem leads_of_seek {move : Int → Int} {first i : Int} (usable : Usable state.userlevel state.pm
      state.size) (allowed : ∀ entry ∈ state.executed, Allowed entry)
    (pressed : onKey ctx event state = (seek state.userlevel state.pm state.size move
      (rounds state.size) first).map fun now => { state with now })
    (found : seek state.userlevel state.pm state.size move (rounds state.size) first = some i)
    (stays : selectable state.userlevel state.pm state.size i = some true) :
    Leads ctx event state { state with now := i } := by
  obtain ⟨low, high⟩ := lt_of_selectable usable.1 stays
  rw [found] at pressed
  exact ⟨pressed, .inr ⟨usable, low, Int.le_of_lt high⟩, allowed⟩

theorem exists_onKey (ready : Ready state) (allowed : ∀ entry ∈ state.executed, Allowed entry)
    (premise : Premise state event) (notFirst : event.key = .up → state.now ≠ 0)
    (kept : executes ctx state event.key = true → event.effect.reloaded = false) :
    ∃ next, Leads ctx event state next := by
  obtain ⟨key, effect⟩ := event
  have inside := ready.inside
  have bounds := ready.bounds
  cases key with
  | eof refscreen =>
    cases refscreen with
    | false => exact ⟨_, rfl, .inl rfl, allowed⟩
    | true =>
      obtain ⟨next, drawn, inside', executed, -⟩ := exists_redraw inside
      exact ⟨next, drawn, .inr inside', executed ▸ allowed⟩
  | right => exact exists_onRight ready allowed premise.1 kept
  | enter =>
    obtain ⟨next, pressed, inside', allowed'⟩ := exists_onEnter ctx ready allowed premise.1 kept
    exact ⟨next, pressed, inside', allowed'⟩
  | left => exact exists_onLeft effect ready allowed
  | down => exact ⟨_, rfl, .inr ⟨ready.usable, by simp only; omega, by simp only; omega⟩, allowed⟩
  | up =>
    have positive : state.now ≠ 0 := notFirst rfl
    obtain ⟨i, found, stays⟩ :=
      exists_seek_backwards ready.usable (by omega : 0 ≤ state.now - 1) (by omega)
    exact ⟨_, leads_of_seek ready.usable allowed rfl found stays⟩
  | pgup => exact ⟨_, rfl, .inr ⟨ready.usable, Int.le_refl 0, Int.natCast_nonneg _⟩, allowed⟩
  | pgdn =>
    obtain ⟨i, found, stays⟩ := exists_seek_upwards ready.usable
    exact ⟨_, leads_of_seek ready.usable allowed rfl found stays⟩
  | tilde loaded => exact exists_onTilde effect inside allowed (premise.2 loaded rfl)
  | bang =>
    by_cases top : ctx.topmenu = true
    · exact ⟨state, by rw [onKey, if_pos top], .inr inside, allowed⟩
    · exact ⟨{ state with closed := true }, by rw [onKey, if_neg top], .inl rfl, allowed⟩
  | ctrlT fullupdate =>
    cases fullupdate with
    | false => exact ⟨state, rfl, .inr inside, allowed⟩
    | true =>
      obtain ⟨next, drawn, inside', executed, -⟩ := exists_redraw inside
      exact ⟨next, drawn, .inr inside', executed ▸ allowed⟩
  | other ch =>
    refine ⟨onOther ch state, rfl, ?_, ?_⟩ <;> rw [onOther] <;> split
    · exact .inr (ready.inside_found ‹_›)
    · exact .inr inside
    · exact allowed
    · exact allowed

/-- A round leads from an item to an item. -/
theorem exists_step (before : Invariant state) (premise : state.closed = true ∨ Premise state event)
    (guard : Guard ctx state event) :
    ∃ next, step ctx state event = some next ∧ Invariant next := by
  obtain ⟨ready, allowed⟩ := before
  rw [step]
  by_cases closed : state.closed = true
  · exact ⟨state, if_pos closed, .inl closed, allowed⟩
  · obtain ⟨notFirst, kept⟩ := guard.resolve_left closed
    obtain ⟨middle, pressed, inside, allowed'⟩ := exists_onKey (ready.resolve_left closed) allowed
      (premise.resolve_left closed) notFirst kept
    obtain ⟨next, settled, ready', executed⟩ := exists_settle inside
    rw [if_neg closed, pressed, Option.bind_some]
    exact ⟨next, settled, ready', executed ▸ allowed'⟩

/-- Outside of the condition, an item outside of the menu or freed memory is read. -/
theorem step_eq_none (notGuard : ¬Guard ctx state event) : step ctx state event = none := by
  obtain ⟨key, effect⟩ := event
  rw [Guard, not_or] at notGuard
  obtain ⟨running, broken⟩ := notGuard
  have pressed : onKey ctx ⟨key, effect⟩ state = none := by
    by_cases notFirst : key = .up → state.now ≠ 0
    · have reloads : ¬(executes ctx state key = true → effect.reloaded = false) :=
        fun kept => broken ⟨notFirst, kept⟩
      rw [Classical.not_imp, Bool.not_eq_false] at reloads
      obtain ⟨runs, reloaded⟩ := reloads
      cases key with
      | enter => exact onEnter_eq_none runs reloaded
      | right =>
        obtain ⟨runs, none⟩ := Bool.and_eq_true_iff.mp runs
        rw [onKey, onRight]
        cases here : state.item with
        | none => rfl
        | some item =>
          rw [here, Option.all_some, Option.isNone_iff_eq_none] at none
          rw [Option.bind_eq_bind, Option.bind_some, none]
          exact onEnter_eq_none runs reloaded
      | _ => cases runs
    · rw [Classical.not_imp, not_not] at notFirst
      obtain ⟨rfl, first⟩ := notFirst
      have outside : selectable state.userlevel state.pm state.size (state.now - 1) = none := by
        rw [first]
        rfl
      rw [onKey, rounds, seek, outside]
      rfl
  rw [step, if_neg running, pressed]
  rfl

end Rounds

theorem mailItem_le (pm : List Item) (size : Nat) : mailItem pm size ≤ size := by
  have inside : ∀ entry ∈ (pm.take size).zipIdx, entry.2 ≤ size := by
    intro entry member
    have below := (List.mem_zipIdx' member).1
    rw [List.length_take] at below
    omega
  rw [mailItem]
  generalize (pm.take size).zipIdx = entries at inside
  suffices from_any : ∀ now ≤ size, entries.foldl (fun now entry =>
      if 0 < entry.1.line ∧ entry.1.name.bytes.head? = some 77 then entry.2 else now) now ≤ size
    from from_any 0 (Nat.zero_le size)
  induction entries with
  | nil => exact fun now atMost => atMost
  | cons entry entries ih =>
    intro now atMost
    obtain ⟨here, rest⟩ := List.forall_mem_cons.mp inside
    rw [List.foldl_cons]
    apply ih rest
    split
    · exact here
    · exact atMost

/-- The first key is read at an item where the cursor may stay. -/
theorem exists_start (ctx : Context) (mail : Bool) {userlevel : UInt32} {pm : List Item}
    (compiled : Compiled userlevel pm) :
    ∃ first, start ctx mail userlevel pm = some first ∧ Invariant first := by
  obtain ⟨size, usable⟩ := compiled
  obtain ⟨pm', drawn, levels⟩ := exists_drawMenu userlevel usable.1
  have inside : Inside ⟨pm', size, if ctx.topmenu && mail then mailItem pm' size else 0,
      userlevel, [], false⟩ := by
    have atMost := mailItem_le pm' size
    refine ⟨usable.of_map_eq levels, ?_, ?_⟩ <;> simp only <;> split <;> omega
  obtain ⟨first, settled, ready, executed⟩ := exists_settle (.inr inside)
  refine ⟨first, ?_, ready, ?_⟩
  · rw [start, drawn]
    exact settled
  · rw [executed]
    simp

/-- In every menu that ends and has an item for the user, at every cursor and for all keys, the
reads stay in the menu, the loops end and only items that the user may use are executed, exactly
as long as the cursor does not leave the first item upwards and no executed function loads the
table again. -/
theorem domenu_iff_guarded (ctx : Context) (mail : Bool) {userlevel : UInt32} {pm : List Item}
    (compiled : Compiled userlevel pm) :
    ∃ first, start ctx mail userlevel pm = some first ∧
      ∀ events, TransitionRuns.Guarded (step ctx)
          (fun state event => state.closed = true ∨ Premise state event) events first →
        ((∃ final, TransitionRuns.run (step ctx) events first = some final ∧
            ∀ entry ∈ final.executed, Allowed entry) ↔
          TransitionRuns.Guarded (step ctx) (Guard ctx) events first) := by
  obtain ⟨first, started, initial⟩ := exists_start ctx mail compiled
  refine ⟨first, started, fun events assumed => ?_⟩
  exact TransitionRuns.exists_run_iff_guarded Invariant
    (fun _ _ before premise guard => exists_step before premise guard)
    (fun _ _ _ _ notGuard => step_eq_none notGuard)
    (fun _ after => after.allowed) initial assumed

/-- An item that everyone may use, and the end of its menu. -/
def oneItem : List Item :=
  [⟨0, 0, 0, .empty, .empty, .empty⟩, ⟨0, 0, -1, .empty, .empty, .empty⟩]

def plainContext : Context := ⟨false, fun _ => false⟩

theorem oneItem_compiled : Compiled 0 oneItem := by
  refine ⟨1, ⟨⟨_, rfl, rfl⟩, fun i inside => ?_⟩, 0, Nat.one_pos, by decide⟩
  obtain rfl : i = 0 := by omega
  exact ⟨_, rfl, by decide⟩

theorem oneItem_iff_guarded :
    ∃ first, start plainContext false 0 oneItem = some first ∧
      ∀ events, TransitionRuns.Guarded (step plainContext)
          (fun state event => state.closed = true ∨ Premise state event) events first →
        ((∃ final, TransitionRuns.run (step plainContext) events first = some final ∧
            ∀ entry ∈ final.executed, Allowed entry) ↔
          TransitionRuns.Guarded (step plainContext) (Guard plainContext) events first) :=
  domenu_iff_guarded plainContext false oneItem_compiled

/-- The item before the menu is read when the cursor leaves the first one upwards. -/
theorem oneItem_left :
    Compiled 0 oneItem ∧
      ∃ first, start plainContext false 0 oneItem = some first ∧
        TransitionRuns.Guarded (step plainContext)
          (fun state event => state.closed = true ∨ Premise state event) [⟨.up, ⟨0, false⟩⟩] first ∧
        TransitionRuns.run (step plainContext) [⟨.up, ⟨0, false⟩⟩] first = none := by
  refine ⟨oneItem_compiled, _, rfl, ⟨.inr ⟨⟨?_, 0, Nat.one_pos, by decide⟩, by simp⟩, ?_⟩, rfl⟩
  · refine ⟨⟨_, rfl, rfl⟩, fun i inside => ?_⟩
    obtain rfl : i = 0 := Nat.lt_one_iff.mp inside
    exact ⟨_, rfl, by decide⟩
  · exact fun _ _ => trivial

end Menu

end Fbbs
