import Mathlib.Tactic.SplitIfs
import Mathlib.Logic.Function.Iterate

/-!
# Numbered days

`julian_day` and `days_elapsed` of `src/lib/uinfo.c`, and `valid_date` of `src/lib/time.c`.  The
year begins in March for the formula, so that the leap day is its last one.
-/

namespace Fbbs

namespace Calendar

/-- A number that an `int` can hold; there is no result of an overflow. -/
def int (value : Int) : Option Int :=
  if -2147483648 ≤ value ∧ value ≤ 2147483647 then some value else none

/-- So it is for a `time_t`. -/
def long (value : Int) : Option Int :=
  if -9223372036854775808 ≤ value ∧ value ≤ 9223372036854775807 then some value else none

/-- The `switch` of `valid_date`. -/
def daysOf (year month : Int) : Int :=
  if month = 2 then
    if year.tmod 4 = 0 ∧ ¬(year.tmod 100 = 0 ∧ year.tmod 400 ≠ 0) then 29 else 28
  else if month = 4 ∨ month = 6 ∨ month = 9 ∨ month = 11 then 30
  else 31

def validDate (year month day : Int) : Bool :=
  if month < 1 ∨ month > 12 then false
  else if day < 1 ∨ day > daysOf year month then false
  else true

def julianDay (year month day : Int) : Option Int := do
  let a := (← int (14 - month)).tdiv 12
  let y ← int ((← int (year + 4800)) - a)
  let m ← int ((← int (month + (← int (12 * a)))) - 3)
  let months := (← int ((← int (153 * m)) + 2)).tdiv 5
  let days ← int (day + months)
  let days ← int (days + (← int (365 * y)))
  let days ← int (days + y.tdiv 4)
  let days ← int (days - y.tdiv 100)
  let days ← int (days + y.tdiv 400)
  int (days - 32045)

def daysElapsed (year month day now : Int) : Option Int := do
  let today ← long ((← long (now - 43200)).tdiv 86400 + 2440588)
  int (← long (today - (← julianDay year month day)))

/-! ## Dates -/

/-- A date that `valid_date` accepts. -/
@[ext]
structure Date where
  year : Int
  month : Int
  day : Int
  valid : validDate year month day = true
  deriving DecidableEq

theorem validDate_iff {year month day : Int} : validDate year month day = true ↔
    (1 ≤ month ∧ month ≤ 12) ∧ 1 ≤ day ∧ day ≤ daysOf year month := by
  unfold validDate
  split_ifs with noMonth noDay
  · exact iff_of_false id (by omega)
  · exact iff_of_false id (by omega)
  · exact iff_of_true rfl (by omega)

theorem daysOf_bounds (year month : Int) : 28 ≤ daysOf year month ∧ daysOf year month ≤ 31 := by
  unfold daysOf
  split_ifs <;> omega

namespace Date

instance : LT Date where
  lt early late := early.year < late.year ∨ early.year = late.year ∧
    (early.month < late.month ∨ early.month = late.month ∧ early.day < late.day)

instance : LE Date where
  le early late := early < late ∨ early = late

theorem validDate_nextDay {date : Date} (further : date.day < daysOf date.year date.month) :
    validDate date.year date.month (date.day + 1) = true := by
  have valid := validDate_iff.mp date.valid
  exact validDate_iff.mpr ⟨valid.1, by omega, by omega⟩

theorem validDate_firstDay {year month : Int} (inside : 1 ≤ month ∧ month ≤ 12) :
    validDate year month 1 = true :=
  validDate_iff.mpr ⟨inside, Int.le_refl 1, by have := daysOf_bounds year month; omega⟩

theorem validDate_nextMonth {date : Date} (further : date.month < 12) :
    validDate date.year (date.month + 1) 1 = true := by
  have valid := validDate_iff.mp date.valid
  exact validDate_firstDay ⟨by omega, by omega⟩

/-- The next date of the calendar. -/
def next (date : Date) : Date :=
  if further : date.day < daysOf date.year date.month then
    ⟨date.year, date.month, date.day + 1, validDate_nextDay further⟩
  else if month : date.month < 12 then
    ⟨date.year, date.month + 1, 1, validDate_nextMonth month⟩
  else ⟨date.year + 1, 1, 1, validDate_firstDay (by decide)⟩

def julianDay (date : Date) : Option Int :=
  Calendar.julianDay date.year date.month date.day

def daysElapsed (date : Date) (now : Int) : Option Int :=
  Calendar.daysElapsed date.year date.month date.day now

/-- The formula of `julian_day`, without a limit. -/
def number (date : Date) : Int :=
  let a := (14 - date.month).tdiv 12
  let y := date.year + 4800 - a
  let m := date.month + 12 * a - 3
  date.day + (153 * m + 2).tdiv 5 + 365 * y + y.tdiv 4 - y.tdiv 100 + y.tdiv 400 - 32045

theorem int_eq_some_iff {value result : Int} : int value = some result ↔
    value = result ∧ -2147483648 ≤ value ∧ value ≤ 2147483647 := by
  unfold int
  split_ifs with fits
  · simp [fits]
  · simp [fits]

theorem long_eq_some_iff {value result : Int} : long value = some result ↔
    value = result ∧ -9223372036854775808 ≤ value ∧ value ≤ 9223372036854775807 := by
  unfold long
  split_ifs with fits
  · simp [fits]
  · simp [fits]

theorem number_of_julianDay {date : Date} {result : Int} (found : date.julianDay = some result) :
    result = date.number := by
  unfold julianDay Calendar.julianDay at found
  simp only [bind, Option.bind_eq_some_iff, int_eq_some_iff, and_assoc, exists_eq_left'] at found
  unfold number
  dsimp only
  omega

theorem tdiv_twelve (date : Date) :
    (14 - date.month).tdiv 12 = if date.month ≤ 2 then 1 else 0 := by
  obtain ⟨⟨low, most⟩, -⟩ := validDate_iff.mp date.valid
  rw [Int.tdiv_eq_ediv_of_nonneg (by omega)]
  split_ifs <;> omega

/-- An `int` holds the numbers of all days of this year, but not of the next one. -/
def lastYear : Int := 5874688

theorem exists_julianDay {date : Date} (since : 1583 ≤ date.year)
    (upTo : date.year ≤ lastYear) : ∃ number, date.julianDay = some number := by
  rw [lastYear] at upTo
  obtain ⟨⟨low, most⟩, first, last⟩ := validDate_iff.mp date.valid
  have days := daysOf_bounds date.year date.month
  unfold julianDay Calendar.julianDay
  simp only [bind, Option.bind_eq_some_iff, int_eq_some_iff, and_assoc, exists_eq_left',
    exists_and_left, tdiv_twelve]
  split_ifs <;>
    · simp (disch := omega) only [Int.tdiv_eq_ediv_of_nonneg]
      omega

/-! ## The next day -/

/-- The days before a year that begins in March. -/
def yearDays (year : Int) : Int :=
  365 * year + year / 4 - year / 100 + year / 400

/-- The days of the months before this one, in a year that begins in March. -/
def monthDays (month : Int) : Int :=
  (153 * (if month ≤ 2 then month + 9 else month - 3) + 2) / 5

def marchYear (year month : Int) : Int :=
  if month ≤ 2 then year + 4799 else year + 4800

theorem number_eq {date : Date} (late : 1583 ≤ date.year) :
    date.number = date.day + monthDays date.month + yearDays (marchYear date.year date.month) -
      32045 := by
  obtain ⟨⟨low, most⟩, -⟩ := validDate_iff.mp date.valid
  unfold number monthDays yearDays marchYear
  dsimp only
  rw [tdiv_twelve]
  split_ifs with early
  · rw [Int.tdiv_eq_ediv_of_nonneg (by omega), Int.tdiv_eq_ediv_of_nonneg (by omega),
      Int.tdiv_eq_ediv_of_nonneg (by omega), Int.tdiv_eq_ediv_of_nonneg (by omega)]
    omega
  · rw [Int.tdiv_eq_ediv_of_nonneg (by omega), Int.tdiv_eq_ediv_of_nonneg (by omega),
      Int.tdiv_eq_ediv_of_nonneg (by omega), Int.tdiv_eq_ediv_of_nonneg (by omega)]
    omega

/-- The formula counts the days of a month that is not the last one of a year from March. -/
theorem monthDays_succ (year : Int) {month : Int} (low : 1 ≤ month) (most : month < 12)
    (other : month ≠ 2) : monthDays (month + 1) = monthDays month + daysOf year month := by
  have months : month = 1 ∨ month = 3 ∨ month = 4 ∨ month = 5 ∨ month = 6 ∨ month = 7 ∨
      month = 8 ∨ month = 9 ∨ month = 10 ∨ month = 11 := by omega
  rcases months with rfl | rfl | rfl | rfl | rfl | rfl | rfl | rfl | rfl | rfl <;> rfl

/-- A year from March ends with the leap day. -/
theorem yearDays_succ {year : Int} (late : 1583 ≤ year) :
    yearDays (year + 4800) = yearDays (year + 4799) + 337 + daysOf year 2 := by
  unfold yearDays daysOf
  rw [Int.tmod_eq_emod_of_nonneg (by omega), Int.tmod_eq_emod_of_nonneg (by omega),
    Int.tmod_eq_emod_of_nonneg (by omega), if_pos rfl]
  split_ifs with leap <;> omega

theorem number_next {date : Date} (late : 1583 ≤ date.year) :
    date.next.number = date.number + 1 := by
  obtain ⟨⟨low, most⟩, first, last⟩ := validDate_iff.mp date.valid
  have numberEq := number_eq late
  unfold next
  split_ifs with further month
  · rw [@number_eq ⟨date.year, date.month, date.day + 1, _⟩ late, numberEq]
    dsimp only
    omega
  · have day : date.day = daysOf date.year date.month := by omega
    rw [@number_eq ⟨date.year, date.month + 1, 1, _⟩ late, numberEq, day]
    dsimp only
    by_cases february : date.month = 2
    · have leap := yearDays_succ late
      rw [february]
      change 1 + 0 + yearDays (date.year + 4800) - 32045 =
        daysOf date.year 2 + 337 + yearDays (date.year + 4799) - 32045 + 1
      omega
    · have same : marchYear date.year (date.month + 1) = marchYear date.year date.month := by
        unfold marchYear
        split_ifs <;> omega
      rw [monthDays_succ date.year low month february, same]
      omega
  · have december : date.month = 12 := by omega
    have day : date.day = 31 := by
      have days : daysOf date.year 12 = 31 := rfl
      rw [december] at further last
      omega
    rw [@number_eq ⟨date.year + 1, 1, 1, _⟩ (Int.le_add_one late), numberEq, december, day]
    have same : marchYear (date.year + 1) 1 = marchYear date.year 12 := by
      change date.year + 1 + 4799 = date.year + 4800
      omega
    dsimp only
    rw [same]
    change 1 + 306 + _ - 32045 = 31 + 275 + _ - 32045 + 1
    omega

/-! ## The order of the dates -/

/-- Dates are in the order of these numbers, which leave some out. -/
def rank (date : Date) : Int :=
  372 * date.year + 31 * date.month + date.day

theorem bounds (date : Date) : (1 ≤ date.month ∧ date.month ≤ 12) ∧ 1 ≤ date.day ∧
    date.day ≤ 31 := by
  obtain ⟨inYear, first, last⟩ := validDate_iff.mp date.valid
  exact ⟨inYear, first, Int.le_trans last (daysOf_bounds _ _).2⟩

theorem lt_iff_rank {early late : Date} : early < late ↔ early.rank < late.rank := by
  have inEarly := early.bounds
  have inLate := late.bounds
  change early.year < late.year ∨ early.year = late.year ∧
    (early.month < late.month ∨ early.month = late.month ∧ early.day < late.day) ↔ _
  unfold rank
  omega

theorem eq_of_rank {date other : Date} (same : date.rank = other.rank) : date = other := by
  have inDate := date.bounds
  have inOther := other.bounds
  unfold rank at same
  apply Date.ext <;> omega

theorem le_iff_rank {early late : Date} : early ≤ late ↔ early.rank ≤ late.rank := by
  change early < late ∨ early = late ↔ _
  rw [lt_iff_rank]
  constructor
  · rintro (before | rfl)
    · exact Int.le_of_lt before
    · exact Int.le_refl _
  · intro upTo
    by_cases same : early.rank = late.rank
    · exact .inr (eq_of_rank same)
    · exact .inl (Int.lt_iff_le_and_ne.mpr ⟨upTo, same⟩)

theorem lt_next (date : Date) : date < date.next := by
  have inDate := date.bounds
  rw [lt_iff_rank]
  unfold rank next
  split_ifs <;> dsimp only <;> omega

/-- There is no date between a date and the next one. -/
theorem next_le {early late : Date} (before : early < late) : early.next ≤ late := by
  obtain ⟨inYear, -⟩ := early.bounds
  obtain ⟨inYear', first', last'⟩ := validDate_iff.mp late.valid
  have inLate := late.bounds
  rw [lt_iff_rank] at before
  rw [le_iff_rank]
  have inEarly := early.bounds
  unfold rank at before ⊢
  unfold next
  split_ifs with further month
  · dsimp only
    omega
  · dsimp only
    -- The day is the last one of its month.
    by_cases sameMonth : late.year = early.year ∧ late.month = early.month
    · rw [sameMonth.1, sameMonth.2] at last'
      omega
    · omega
  · dsimp only
    by_cases sameMonth : late.year = early.year ∧ late.month = early.month
    · rw [sameMonth.1, sameMonth.2] at last'
      omega
    · omega

theorem year_le_next (date : Date) : date.year ≤ date.next.year := by
  unfold next
  split_ifs <;> dsimp only <;> omega

/-- Every later date comes after some days. -/
theorem exists_iterate_next {early late : Date} (upTo : early ≤ late) :
    ∃ days, next^[days] early = late := by
  rw [le_iff_rank] at upTo
  obtain ⟨far, farEq⟩ := Int.eq_ofNat_of_zero_le (Int.sub_nonneg_of_le upTo)
  induction far using Nat.strongRecOn generalizing early with
  | ind far ih =>
    by_cases same : early.rank = late.rank
    · exact ⟨0, eq_of_rank same⟩
    · have further := lt_iff_rank.mp early.lt_next
      have before := lt_iff_rank.mpr (Int.lt_iff_le_and_ne.mpr ⟨upTo, same⟩)
      have nextUpTo := le_iff_rank.mp (next_le before)
      obtain ⟨nearer, nearerEq⟩ := Int.eq_ofNat_of_zero_le (Int.sub_nonneg_of_le nextUpTo)
      obtain ⟨days, after⟩ := ih nearer (by omega) nextUpTo nearerEq
      exact ⟨days + 1, after⟩

theorem number_iterate_next {date : Date} (late : 1583 ≤ date.year) (days : Nat) :
    (next^[days] date).number = date.number + days := by
  induction days generalizing date with
  | zero => exact (Int.add_zero _).symm
  | succ days ih =>
    rw [Function.iterate_succ_apply, ih (Int.le_trans late date.year_le_next),
      number_next late]
    omega

theorem number_lt {early late : Date} (since : 1583 ≤ early.year) (before : early < late) :
    early.number < late.number := by
  obtain ⟨days, rfl⟩ := exists_iterate_next (.inl before)
  cases days with
  | zero => exact absurd (lt_iff_rank.mp before) (Int.lt_irrefl _)
  | succ days =>
    rw [number_iterate_next since]
    omega

theorem daysElapsed_eq {date : Date} {now elapsed : Int}
    (found : date.daysElapsed now = some elapsed) :
    elapsed = (now - 43200).tdiv 86400 + 2440588 - date.number := by
  unfold daysElapsed Calendar.daysElapsed at found
  simp only [bind, Option.bind_eq_some_iff, int_eq_some_iff, long_eq_some_iff, and_assoc,
    exists_eq_left'] at found
  obtain ⟨-, -, -, -, number, numberEq, -, -, rfl, -⟩ := found
  rw [number_of_julianDay numberEq]

/-- A moment in this year. -/
def lastMoment : Int := 185000000000000

theorem exists_daysElapsed {date : Date} (since : 1583 ≤ date.year) (upTo : date.year ≤ lastYear)
    {now : Int} (begun : 0 ≤ now) (ends : now ≤ lastMoment) :
    ∃ elapsed, date.daysElapsed now = some elapsed := by
  obtain ⟨number, found⟩ := exists_julianDay since upTo
  have numberEq := (number_of_julianDay found).trans (number_eq since)
  have inDate := date.bounds
  have late : 2000000 ≤ number ∧ number ≤ 2147483647 := by
    unfold monthDays yearDays marchYear at numberEq
    rw [lastYear] at upTo
    split_ifs at numberEq <;> omega
  have passed : 0 ≤ (now - 43200).tdiv 86400 ∧ (now - 43200).tdiv 86400 ≤ 2145000000 := by
    rw [lastMoment] at ends
    have sign : Int.sign 86400 = 1 := rfl
    rw [Int.tdiv_eq_ediv, sign]
    split_ifs <;> omega
  rw [lastMoment] at ends
  rw [julianDay] at found
  unfold daysElapsed Calendar.daysElapsed
  simp only [bind, Option.bind_eq_some_iff, int_eq_some_iff, long_eq_some_iff, and_assoc,
    exists_eq_left', exists_and_left, found, Option.some.injEq]
  omega

/-- The days are numbered in their order without a gap, and so are those that have passed. -/
theorem julianDay_counts :
    (∀ date : Date, 1583 ≤ date.year → date.year ≤ lastYear →
      ∃ number, date.julianDay = some number) ∧
      (∀ (date : Date) (now : Int), 1583 ≤ date.year → date.year ≤ lastYear → 0 ≤ now →
        now ≤ lastMoment → ∃ elapsed, date.daysElapsed now = some elapsed) ∧
      (∀ (date : Date) (number following : Int), 1583 ≤ date.year →
      date.julianDay = some number → date.next.julianDay = some following →
        following = number + 1) ∧
      (∀ (early late : Date) (number later : Int), 1583 ≤ early.year → early < late →
        early.julianDay = some number → late.julianDay = some later → number < later) ∧
      ∀ (early late : Date) (now elapsed fewer : Int), 1583 ≤ early.year → early ≤ late →
        early.daysElapsed now = some elapsed → late.daysElapsed now = some fewer →
          ∃ days : Nat, next^[days] early = late ∧ elapsed = fewer + days := by
  refine ⟨fun date => exists_julianDay, fun date now since upTo => exists_daysElapsed since upTo, ?_,
    ?_, ?_⟩
  · intro date number following since numberEq followingEq
    rw [number_of_julianDay numberEq, number_of_julianDay followingEq, number_next since]
  · intro early late number later since before numberEq laterEq
    rw [number_of_julianDay numberEq, number_of_julianDay laterEq]
    exact number_lt since before
  · intro early late now elapsed fewer since upTo elapsedEq fewerEq
    obtain ⟨days, rfl⟩ := exists_iterate_next upTo
    refine ⟨days, rfl, ?_⟩
    rw [daysElapsed_eq elapsedEq, daysElapsed_eq fewerEq, number_iterate_next since]
    omega

/-- The last day of the February of a year that is no leap year, and one of a leap year. -/
def centuryDay : Date :=
  ⟨1900, 2, 28, rfl⟩

def leapDay : Date :=
  ⟨2000, 2, 29, rfl⟩

theorem centuryDay_counted :
    (∃ number, centuryDay.julianDay = some number ∧
      centuryDay.next.julianDay = some (number + 1) ∧
        ∃ later, leapDay.julianDay = some later ∧ number < later) ∧
      ∃ elapsed : Int, ∃ days : Nat, leapDay.daysElapsed 1700000000 = some elapsed ∧
        centuryDay.daysElapsed 1700000000 = some (elapsed + days) ∧
          next^[days] centuryDay = leapDay := by
  obtain ⟨defined, elapse, follow, order, differ⟩ := julianDay_counts
  have before : centuryDay < leapDay := .inl (by decide)
  obtain ⟨number, isNumber⟩ := defined centuryDay (by decide) (by decide)
  obtain ⟨following, isFollowing⟩ := defined centuryDay.next (by decide) (by decide)
  obtain ⟨later, isLater⟩ := defined leapDay (by decide) (by decide)
  obtain ⟨elapsed, isElapsed⟩ := elapse centuryDay 1700000000 (by decide) (by decide) (by decide)
    (by decide)
  obtain ⟨fewer, isFewer⟩ := elapse leapDay 1700000000 (by decide) (by decide) (by decide)
    (by decide)
  obtain rfl := follow centuryDay number following (by decide) isNumber isFollowing
  have less := order centuryDay leapDay number later (by decide) before isNumber isLater
  obtain ⟨days, reached, rfl⟩ := differ centuryDay leapDay 1700000000 elapsed fewer (by decide)
    (.inl before) isElapsed isFewer
  exact ⟨⟨number, isNumber, isFollowing, later, isLater, less⟩, fewer, days, isFewer, isElapsed,
    reached⟩

end Date

end Calendar

end Fbbs
