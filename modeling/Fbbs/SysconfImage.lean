import Fbbs.SysconfLayout

/-!
# Loading a compiled menu configuration

When the image that has been built is loaded as it was: for every configuration text, exactly
when there is room for its items and strings and the two buffers are not too far apart.
-/

namespace Fbbs

namespace Sysconf

/-! ## Strings of the two buffers -/

theorem takeWhile_append_of_mem {first : Bytes} (zero : 0 ∈ first) (second : Bytes) :
    (first ++ second).takeWhile (· ≠ 0) = first.takeWhile (· ≠ 0) := by
  induction first with
  | nil => cases zero
  | cons byte first ih =>
    rw [List.cons_append, List.takeWhile_cons, List.takeWhile_cons]
    by_cases here : byte = 0
    · simp [here]
    · have later := (List.mem_cons.mp zero).resolve_left (Ne.symm here)
      rw [ih later]

/-- A string that ends within some first bytes is the same in all of them. -/
theorem stringAt_append {first : Bytes} {place : Nat} (zero : 0 ∈ first.drop place)
    (second : Bytes) : stringAt (first ++ second) place = stringAt first place := by
  have inside : place ≤ first.length := by
    by_contra outside
    rw [List.drop_eq_nil_of_le (by omega)] at zero
    cases zero
  rw [stringAt, stringAt, List.drop_append_of_le_length inside, if_pos zero,
    if_pos (List.mem_append_left _ zero), takeWhile_append_of_mem zero]

theorem mem_drop_of_ended {conf : Conf} {place : Nat} (ended : conf.Ended place) :
    0 ∈ ((List.range conf.len).map conf.buf).drop place := by
  obtain ⟨i, start, inside, zero⟩ := ended
  rw [List.mem_iff_getElem?]
  refine ⟨i - place, ?_⟩
  rw [List.getElem?_drop, Nat.add_sub_cancel' start, List.getElem?_map,
    List.getElem?_range inside, Option.map_some, zero]

theorem range_split {len size : Nat} (le : len ≤ size) (memory : Nat → UInt8) :
    ∃ rest, (List.range size).map memory = (List.range len).map memory ++ rest := by
  have first : ((List.range size).map memory).take len = (List.range len).map memory := by
    rw [← List.map_take, List.take_range, Nat.min_eq_left le]
  refine ⟨((List.range size).map memory).drop len, ?_⟩
  rw [← first, List.take_append_drop]

section Loading

variable {conf : Conf} {ptr : Int}

/-- The number that all pointers are moved by. -/
def moved (conf : Conf) (ptr : Int) : Int :=
  ((sysconfLoadImage ptr conf.image).buf - conf.base).bmod (2 ^ 32)

theorem loaded_item (n : Nat) :
    (sysconfLoadImage ptr conf.image).item[n]? =
      if n < conf.items then some ((conf.item n).move (moved conf ptr)) else none := by
  simp only [sysconfLoadImage, Conf.image, moved, List.getElem?_map]
  split
  · rename_i less
    rw [List.getElem?_range less]
    rfl
  · rename_i beyond
    rw [List.getElem?_eq_none (by simpa using beyond)]
    rfl

theorem loaded_var (n : Nat) :
    (sysconfLoadImage ptr conf.image).var[n]? =
      if n < conf.keys then some ((conf.var n).move (moved conf ptr)) else none := by
  simp only [sysconfLoadImage, Conf.image, moved, List.getElem?_map]
  split
  · rename_i less
    rw [List.getElem?_range less]
    rfl
  · rename_i beyond
    rw [List.getElem?_eq_none (by simpa using beyond)]
    rfl

theorem loaded_buf : (sysconfLoadImage ptr conf.image).buf =
    ptr + conf.items * itemBytes + conf.keys * defineBytes := by
  simp [sysconfLoadImage, Conf.image]

theorem sameString_of_ended (inside : conf.len ≤ bufSize) {place : Nat} (ended : conf.Ended place)
    (exact : moved conf ptr = (sysconfLoadImage ptr conf.image).buf - conf.base) :
    SameString conf (sysconfLoadImage ptr conf.image) (conf.base + place)
      (conf.base + place + moved conf ptr) := by
  have zero := mem_drop_of_ended ended
  obtain ⟨rest, split⟩ := range_split inside conf.buf
  refine ⟨place, (((List.range conf.len).map conf.buf).drop place).takeWhile (· ≠ 0), rfl,
    ?_, ?_, ?_⟩
  · rw [exact]
    omega
  · rw [split, stringAt_append zero, stringAt, if_pos zero]
  · exact if_pos zero

/-- In a loaded image that is right, each pointer has been moved to the same string. -/
theorem sameString_of_stored (same : SameConf conf (sysconfLoadImage ptr conf.image))
    {address : Int} (stored : conf.Stored address) :
    SameString conf (sysconfLoadImage ptr conf.image) address (address + moved conf ptr) := by
  rcases stored with ⟨n, less, member⟩ | ⟨n, less, member⟩
  · have item := same.item n _ ((loaded_item n).trans (if_pos less))
    simp only [MenuItem.pointers, List.mem_cons, List.not_mem_nil, or_false] at member
    rcases member with rfl | rfl | rfl | rfl
    · exact item.name
    · exact item.desc
    · exact item.arg
    · exact item.func
  · have var := same.var n _ ((loaded_var n).trans (if_pos less))
    rcases List.mem_pair.mp member with rfl | rfl
    · exact var.key
    · exact var.str

theorem sameConf_of_stored
    (each : ∀ address, conf.Stored address →
      SameString conf (sysconfLoadImage ptr conf.image) address (address + moved conf ptr)) :
    SameConf conf (sysconfLoadImage ptr conf.image) where
  items := by simp [sysconfLoadImage, Conf.image]
  item := by
    intro n item loaded
    rw [loaded_item] at loaded
    split at loaded
    · rename_i less
      cases loaded
      have stored : ∀ address ∈ (conf.item n).pointers, conf.Stored address :=
        fun address member => Or.inl ⟨n, less, member⟩
      refine ⟨rfl, rfl, rfl, each _ (stored _ ?_), each _ (stored _ ?_), each _ (stored _ ?_),
        each _ (stored _ ?_)⟩ <;> simp [MenuItem.pointers]
    · cases loaded
  keys := by simp [sysconfLoadImage, Conf.image]
  var := by
    intro n var loaded
    rw [loaded_var] at loaded
    split at loaded
    · rename_i less
      cases loaded
      have stored : ∀ address ∈ (conf.var n).pointers, conf.Stored address :=
        fun address member => Or.inr ⟨n, less, member⟩
      refine ⟨each _ (stored _ ?_), each _ (stored _ ?_), rfl⟩ <;> simp [Define.pointers]
    · cases loaded

theorem not_sameConf_of_bad (short : conf.peak ≤ bufSize) (bad : conf.Bad) :
    ¬SameConf conf (sysconfLoadImage ptr conf.image) := by
  intro same
  rcases bad with long | ⟨place, beyond, stored⟩
  · omega
  · obtain ⟨other, text, address, -, string, -⟩ := sameString_of_stored same stored
    have places : other = place := by omega
    rw [places, stringAt, List.drop_eq_nil_of_le (by simpa using beyond)] at string
    cases string

theorem moved_eq_iff : moved conf ptr = (sysconfLoadImage ptr conf.image).buf - conf.base ↔
    -2 ^ 31 ≤ (sysconfLoadImage ptr conf.image).buf - conf.base ∧
      (sysconfLoadImage ptr conf.image).buf - conf.base < 2 ^ 31 := by
  rw [moved]
  generalize (sysconfLoadImage ptr conf.image).buf - conf.base = difference
  constructor
  · intro same
    have low := @Int.le_bmod difference (2 ^ 32) (by decide)
    have high := @Int.bmod_lt difference (2 ^ 32) (by decide)
    rw [same] at low high
    exact ⟨by omega, by omega⟩
  · rintro ⟨low, high⟩
    exact Int.bmod_eq_of_le (by omega) (by omega)

end Loading

/-! ## The whole compilation -/

/-- The first call begins the buffer with the null string. -/
theorem tracks_first (heap : Heap) (str : CString) :
    ∃ conf, heap.conf.call (.addstr str) = some conf ∧
      Tracks heap conf (str.bytes.length + 1) none ∧ conf.items = 0 ∧ conf.keys = 0 := by
  obtain ⟨conf, added, appended, len, ended⟩ := @addstr_spec heap.conf (Nat.zero_le _) str
  have nothing : ∀ address, ¬heap.conf.Stored address := by
    rintro address (⟨n, less, -⟩ | ⟨n, less, -⟩) <;> exact absurd less (Nat.not_lt_zero n)
  refine ⟨conf, ?_, ?_, appended.items, appended.keys⟩
  · rw [Conf.call, added]
    rfl
  · have peak := appended.peak_le
    change conf.peak ≤ max 0 conf.len at peak
    refine ⟨appended.base, ?_, ?_, ?_, appended.above, ended (show 0 < bufSize by decide), ?_,
      nofun⟩
    · rw [len]
      change min (0 + _) _ = _
      rw [Nat.zero_add]
    · omega
    · rw [appended.items]
      exact Nat.zero_le _
    · intro address stored
      exact absurd ((appended.stored address).mp stored) (nothing address)

theorem ended_of_tracks {heap : Heap} {conf : Conf} {used : Nat} {pending : Option Nat}
    (tracks : Tracks heap conf used pending)
    (zero : ∀ place, pending = some place → heap.buf place = 0) {address : Int}
    (stored : conf.Stored address) :
    ∃ place : Nat, address = conf.base + place ∧ conf.Ended place := by
  obtain ⟨place, same, ended | isPending⟩ := tracks.stored address stored
  · exact ⟨place, same, ended⟩
  · obtain ⟨next, byte, -⟩ := tracks.last place isPending
    exact ⟨place, same, place, Nat.le_refl _, by omega, byte.trans (zero place isPending)⟩

/-- A configuration whose pieces are known is loaded as it is exactly when its last block has a
terminator and the difference of the buffers fits. -/
theorem sameConf_iff {heap : Heap} {conf : Conf} {used : Nat} {pending : Option Nat}
    (tracks : Tracks heap conf used pending) (ptr : Int) :
    SameConf conf (sysconfLoadImage ptr conf.image) ↔
      (∀ place, pending = some place → heap.buf place = 0) ∧
      (conf.items = 0 ∧ conf.keys = 0 ∨
        -2 ^ 31 ≤ (sysconfLoadImage ptr conf.image).buf - conf.base ∧
          (sysconfLoadImage ptr conf.image).buf - conf.base < 2 ^ 31) := by
  constructor
  · intro same
    constructor
    · intro place isPending
      obtain ⟨next, byte, stored⟩ := tracks.last place isPending
      obtain ⟨other, text, address, -, -, string⟩ := sameString_of_stored same stored
      have places : other = place := by omega
      rw [places, stringAt] at string
      split at string
      · rename_i zero
        change 0 ∈ ((List.range conf.len).map conf.buf).drop place at zero
        rw [← next, List.range_succ, List.map_append, List.drop_append_of_le_length (by simp),
          List.drop_eq_nil_of_le (by simp), List.nil_append, List.map_singleton,
          List.mem_singleton] at zero
        rw [← byte, ← zero]
      · cases string
    · by_cases some : ∃ address, conf.Stored address
      · obtain ⟨address, stored⟩ := some
        obtain ⟨place, text, built, loaded, -⟩ := sameString_of_stored same stored
        exact Or.inr (moved_eq_iff.mp (by omega))
      · left
        have noItem : ¬0 < conf.items :=
          fun less => some ⟨_, Or.inl ⟨0, less, List.mem_cons_self⟩⟩
        have noKey : ¬0 < conf.keys :=
          fun less => some ⟨_, Or.inr ⟨0, less, List.mem_cons_self⟩⟩
        omega
  · rintro ⟨zero, near⟩
    apply sameConf_of_stored
    intro address stored
    obtain ⟨place, rfl, ended⟩ := ended_of_tracks tracks zero stored
    rcases near with ⟨noItem, noKey⟩ | near
    · rcases stored with ⟨n, less, -⟩ | ⟨n, less, -⟩ <;> omega
    · exact sameString_of_ended tracks.inside ended (moved_eq_iff.mpr near)

theorem faithful_of_first (heap : Heap) (ptr : Int) (rest : List Call) :
    Faithful heap ptr (.addstr nullString :: rest) ↔
      Roomy heap ptr (.addstr nullString :: rest) := by
  obtain ⟨start, first, tracks, noItems, noKeys⟩ := tracks_first heap nullString
  have build : sysconfBuild heap (.addstr nullString :: rest) =
      rest.foldlM Conf.call start := by
    rw [sysconfBuild, List.foldlM_cons, first]
    rfl
  have counted : itemCount (.addstr nullString :: rest) = itemCount rest := by
    simp [itemCount, Call.items]
  have pieces : callPieces 0 (.addstr nullString :: rest) =
      .loose nullString :: callPieces start.keys rest := by
    rw [noKeys]
    rfl
  have keys : keyCount (.addstr nullString :: rest) = rest.foldl Call.keys start.keys := by
    rw [noKeys]
    rfl
  have meets := @meets_calls heap rest
  have used : 0 + (Piece.loose nullString).size = nullString.bytes.length + 1 := Nat.zero_add _
  constructor
  · rintro ⟨conf, built, short, same⟩
    rw [build] at built
    have room : start.items + itemCount rest ≤ cmdSize ∧
        Fits (nullString.bytes.length + 1) (callPieces start.keys rest) := by
      by_contra outside
      exact not_sameConf_of_bad short
        (meets.bad start _ _ tracks outside conf built) same
    obtain ⟨other, otherBuilt, after, items, keyNumber⟩ :=
      meets.good start _ _ tracks room.1 room.2
    rw [built, Option.some.injEq] at otherBuilt
    subst otherBuilt
    obtain ⟨zero, near⟩ := (sameConf_iff after ptr).mp same
    rw [loaded_buf, after.base, items, keyNumber, noItems, Nat.zero_add] at near
    refine ⟨by omega, ?_, ?_, ?_⟩
    · rw [pieces]
      refine ⟨trivial, ?_⟩
      rw [used]
      exact room.2
    · rw [pieces]
      exact zero
    · rw [distance, counted, keys]
      exact near
  · rintro ⟨items, fits, ended, near⟩
    rw [pieces] at fits ended
    rw [distance, counted, keys] at near
    obtain ⟨-, fits⟩ := fits
    rw [used] at fits
    obtain ⟨conf, built, after, itemNumber, keyNumber⟩ :=
      meets.good start _ _ tracks (by omega) fits
    refine ⟨conf, build.trans built, after.peak, (sameConf_iff after ptr).mpr ⟨ended, ?_⟩⟩
    rw [loaded_buf, after.base, itemNumber, keyNumber, noItems, Nat.zero_add]
    exact near

theorem faithful_nil (heap : Heap) (ptr : Int) : Faithful heap ptr [] ↔ Roomy heap ptr [] := by
  have nothing : ∀ address, ¬heap.conf.Stored address := by
    rintro address (⟨n, less, -⟩ | ⟨n, less, -⟩) <;> exact absurd less (Nat.not_lt_zero n)
  refine iff_of_true ⟨heap.conf, rfl, Nat.zero_le _, ?_⟩ ?_
  · exact sameConf_of_stored fun address stored => absurd stored (nothing address)
  · exact ⟨Nat.zero_le _, trivial, (fun place none => nomatch none), Or.inl ⟨rfl, rfl⟩⟩

/-- For every configuration whose files do not include each other in a circle, the compilation
stays within its arrays and the loaded image is right exactly when there is room. -/
theorem faithful_iff_roomy (files : CString → Option Bytes) (rank : CString → Nat)
    (acyclic : Acyclic files rank) (fname : CString) (depth : Nat) (deep : rank fname < depth)
    (heap : Heap) (ptr : Int) :
    ∃ calls, sysconfParse files depth fname = some calls ∧
      (Faithful heap ptr calls ↔ Roomy heap ptr calls) := by
  obtain ⟨calls, parsed, empty | ⟨rest, first⟩⟩ := sysconfParse_isSome acyclic deep
  · subst empty
    exact ⟨[], parsed, faithful_nil heap ptr⟩
  · subst first
    exact ⟨_, parsed, faithful_of_first heap ptr rest⟩

def mainFile : CString := lit ['m']

def oneFile (contents : Bytes) (fname : CString) : Option Bytes :=
  if fname = mainFile then some contents else none

theorem acyclic_oneFile {contents : Bytes}
    (alone : ∀ included, Call.parse included ∉ fileCalls contents) :
    Acyclic (oneFile contents) fun _ => 0 := by
  intro fname other included opened member
  rw [oneFile] at opened
  split at opened
  · cases opened
    exact absurd member (alone included)
  · cases opened

/-- Memory that is full of ones. -/
def onesHeap : Heap where
  base := 4096
  buf := fun _ => 1
  item := fun _ => ⟨0, 0, 0, 0, 0, 0, 0⟩
  var := fun _ => ⟨0, 0, 0⟩

instance decidablePieceFits (used : Nat) : (piece : Piece) → Decidable (piece.Fits used)
  | .name _ => inferInstanceAs (Decidable (used < bufSize))
  | .loose _ => isTrue trivial
  | .block lines => inferInstanceAs (Decidable (used + (Piece.block lines).size ≤ bufSize))

instance decidableFits : (used : Nat) → (pieces : List Piece) → Decidable (Fits used pieces)
  | _, [] => isTrue trivial
  | used, piece :: pieces =>
    have := decidableFits (used + piece.size) pieces
    inferInstanceAs (Decidable (_ ∧ _))

/-- The line `x=1`, a menu `M` with a function and a menu for items, and a screen of one line. -/
def menuText : Bytes :=
  [120, 61, 49, 10] ++ [37, 109, 101, 110, 117, 32, 77, 10] ++
    [64, 97, 32, 49, 44, 49, 44, 120, 44, 110, 44, 100, 10] ++
    [33, 77, 32, 50, 44, 49, 44, 49, 44, 109, 44, 101, 10] ++ [37, 10] ++
    [37, 115, 10] ++ [97, 98, 10] ++ [37, 10]

theorem menuText_alone (included : CString) : Call.parse included ∉ fileCalls menuText := by
  have none : Call.ctorIdx (.parse .empty) ∉ (fileCalls menuText).map Call.ctorIdx := by
    decide +kernel
  intro member
  have index : (Call.parse included).ctorIdx ∈ (fileCalls menuText).map Call.ctorIdx :=
    List.mem_map_of_mem member
  exact none index

theorem roomy_menuText : Roomy onesHeap 8192 (fileCalls menuText) where
  items := by decide +kernel
  fits := by decide +kernel
  ended := by
    have ended : unfinished 0 none (callPieces 0 (fileCalls menuText)) = none := by decide +kernel
    rw [ended]
    exact fun place some => nomatch some
  near := Or.inr (by decide +kernel)

theorem faithful_menuText :
    ∃ calls, sysconfParse (oneFile menuText) 1 mainFile = some calls ∧ itemCount calls = 3 ∧
      Faithful onesHeap 8192 calls := by
  have parsed : sysconfParse (oneFile menuText) 1 mainFile = some (fileCalls menuText) := rfl
  obtain ⟨calls, result, same⟩ := faithful_iff_roomy (oneFile menuText) (fun _ => 0)
    (acyclic_oneFile menuText_alone) mainFile 1 Nat.zero_lt_one onesHeap 8192
  rw [parsed, Option.some.injEq] at result
  subst result
  exact ⟨_, parsed, by decide +kernel, same.mpr roomy_menuText⟩

/-- A menu of lines with a single letter. -/
def letterMenu (count : Nat) : Bytes :=
  [37, 109, 101, 110, 117, 32, 77] ++ 10 :: LineFraming.unlines (List.replicate count [120])

theorem groupLines_letters (count fuel : Nat) (enough : count ≤ fuel) :
    groupLines fuel (LineFraming.unlines (List.replicate count [120])) =
      (List.replicate count (.ofBytes [120, 10]), []) := by
  induction count generalizing fuel with
  | zero => cases fuel <;> rfl
  | succ count ih =>
    cases fuel with
    | zero => cases enough
    | succ fuel =>
      have stream : LineFraming.unlines (List.replicate (count + 1) [120]) =
          [120] ++ 10 :: LineFraming.unlines (List.replicate count [120]) := by
        simp [LineFraming.unlines, List.replicate_succ]
      rw [stream, groupLines, LineFraming.fgets_line (by decide) (by decide)]
      simp only
      rw [ih fuel (by omega)]
      rfl

theorem length_letters (count : Nat) :
    count ≤ (LineFraming.unlines (List.replicate count [120])).length := by
  have length : (LineFraming.unlines (List.replicate count [120])).length = count * 2 := by
    simp [LineFraming.unlines]
  omega

def letterLine : MenuLine :=
  ⟨lit ['x'], fun n => ([] : List CString).getD n .empty⟩

theorem fileCalls_letterMenu (count : Nat) :
    fileCalls (letterMenu count) =
      [.addstr nullString, .addmenu (lit ['M']) (List.replicate count letterLine)] := by
  have group := groupLines_letters count _ (length_letters count)
  have filtered : (List.replicate count (CString.ofBytes [120, 10])).filterMap menuLine =
      List.replicate count letterLine := by
    apply List.filterMap_replicate_of_some
    rfl
  have length : (letterMenu count).length =
      (LineFraming.unlines (List.replicate count [120])).length + 7 + 1 := by
    simp [letterMenu]
  rw [fileCalls, length, parseLines, letterMenu,
    LineFraming.fgets_line (by decide) (by decide)]
  generalize LineFraming.unlines (List.replicate count [120]) = rest at group
  change [Call.addstr nullString, .addmenu (lit ['M'])
    ((groupLines rest.length rest).1.filterMap menuLine)] ++
      parseLines (rest.length + 6 + 1) (groupLines rest.length rest).2 = _
  rw [group, filtered]
  rfl

theorem itemCount_letters (count : Nat) :
    itemCount [.addstr nullString, .addmenu (lit ['M']) (List.replicate count letterLine)] =
      count + 1 := by
  simp [itemCount, Call.items]

/-- A menu with 256 lines takes one item too many. -/
theorem long_menu_not_faithful :
    ¬∀ (files : CString → Option Bytes) (rank : CString → Nat), Acyclic files rank →
      ∀ (fname : CString) (depth : Nat), rank fname < depth → ∀ (heap : Heap) (ptr : Int),
        ∃ calls, sysconfParse files depth fname = some calls ∧ Faithful heap ptr calls := by
  intro all
  have alone : ∀ included, Call.parse included ∉ fileCalls (letterMenu 256) := by
    intro included member
    rw [fileCalls_letterMenu] at member
    rcases List.mem_pair.mp member with other | other <;> cases other
  obtain ⟨calls, parsed, faithful⟩ := all (oneFile (letterMenu 256)) (fun _ => 0)
    (acyclic_oneFile alone) mainFile 1 Nat.zero_lt_one onesHeap 8192
  have result : sysconfParse (oneFile (letterMenu 256)) 1 mainFile =
      some [.addstr nullString, .addmenu (lit ['M']) (List.replicate 256 letterLine)] := by
    rw [sysconfParse, oneFile, if_pos rfl]
    simp only [fileCalls_letterMenu]
    rfl
  rw [result, Option.some.injEq] at parsed
  subst parsed
  have items := ((faithful_of_first onesHeap 8192 _).mp faithful).items
  rw [itemCount_letters] at items
  exact absurd items (by decide)

end Sysconf

end Fbbs
