/-
Civil time with any pattern of leap years.

Time is counted in seconds and days are numbered from 0; every day has 24 hours.
A calendar says which years are leap years and on which day of the week day 0
falls.  The fields of a time are those that the host's date library gives: months
count from 0, days of the year and weeks from 1, a week starts on Sunday, and the
week with January 1st is the first of its year.

* `yearLength`, `weeksIn_eq` — a year has 365 or 366 days and 52 or 53 weeks;
* `dayOfYear_add`, `week_add` — the fields some days and weeks on.
-/
import N8n.Blocks

namespace N8n

structure Calendar where
  leap : ℕ → Bool
  firstWeekday : ℕ
  firstWeekday_lt : firstWeekday < 7

namespace Calendar

def monthLength (leap : Bool) (month : ℕ) : ℕ :=
  if month = 1 then (if leap then 29 else 28)
  else if month ∈ [3, 5, 8, 10] then 30 else 31

theorem monthLength_pos (leap : Bool) (month : ℕ) : 0 < monthLength leap month := by
  rw [monthLength]
  split
  · cases leap <;> decide
  · split <;> decide

variable (c : Calendar)

def months : Blocks where
  len month := monthLength (c.leap (month / 12)) (month % 12)
  len_pos _ := monthLength_pos _ _

theorem len_january {month : ℕ} (h : month % 12 = 0) : c.months.len month = 31 := by
  simp only [months, h]
  rfl

def year (day : ℕ) : ℕ := c.months.block day / 12

def month (day : ℕ) : ℕ := c.months.block day % 12

def dayOfMonth (day : ℕ) : ℕ := c.months.offset day + 1

def yearStart (year : ℕ) : ℕ := c.months.start (12 * year)

def dayOfYear (day : ℕ) : ℕ := day - c.yearStart (c.year day) + 1

def yearLength (year : ℕ) : ℕ := if c.leap year then 366 else 365

def dayOfWeek (day : ℕ) : ℕ := (day + c.firstWeekday) % 7

def weekIndex (day : ℕ) : ℕ := (day + c.firstWeekday) / 7

/-- The week with January 1st. -/
def firstWeek (year : ℕ) : ℕ := c.weekIndex (c.yearStart year)

def weeksIn (year : ℕ) : ℕ := c.firstWeek (year + 1) - c.firstWeek year

variable {c} {day year : ℕ}

theorem yearStart_succ (year : ℕ) : c.yearStart (year + 1) = c.yearStart year + c.yearLength year := by
  have hyear : ∀ m < 12, c.months.len (12 * year + m) = monthLength (c.leap year) m := by
    intro m hm
    have hdiv : (12 * year + m) / 12 = year := by omega
    have hmod : (12 * year + m) % 12 = m := by omega
    simp only [months, hdiv, hmod]
  have hsum : c.yearStart (year + 1) = c.yearStart year
      + ((List.range 12).map (monthLength (c.leap year))).sum := by
    have hstep : ∀ m ≤ 12, c.months.start (12 * year + m) = c.yearStart year
        + ((List.range m).map (monthLength (c.leap year))).sum := by
      intro m
      induction m with
      | zero => exact fun _ => rfl
      | succ m ih =>
        intro hm
        rw [← Nat.add_assoc, Blocks.start_succ, ih (by omega), hyear m (by omega)]
        simp [List.range_succ, Nat.add_assoc]
    exact hstep 12 (le_refl _)
  rw [hsum, yearLength]
  cases c.leap year <;> rfl

theorem yearLength_cases (year : ℕ) : c.yearLength year = 365 ∨ c.yearLength year = 366 := by
  rw [yearLength]
  split
  · exact .inr rfl
  · exact .inl rfl

variable (c) in
def years : Blocks where
  len := c.yearLength
  len_pos year := by rcases yearLength_cases (c := c) year with h | h <;> omega

theorem start_years (year : ℕ) : c.years.start year = c.yearStart year := by
  induction year with
  | zero => rfl
  | succ year ih => rw [yearStart_succ, ← ih]; rfl

theorem year_eq (day : ℕ) : c.year day = c.years.block day := by
  have hmonth := Blocks.block_eq_iff.mp (rfl : c.months.block day = c.months.block day)
  have hlow : 12 * c.year day ≤ c.months.block day := by rw [year]; omega
  have hhigh : c.months.block day + 1 ≤ 12 * (c.year day + 1) := by rw [year]; omega
  refine (Blocks.block_eq_iff.mpr ?_).symm
  rw [start_years, start_years]
  exact ⟨le_trans (Blocks.start_mono hlow) hmonth.1,
    lt_of_lt_of_le hmonth.2 (Blocks.start_mono hhigh)⟩

theorem dayOfYear_eq (day : ℕ) : c.dayOfYear day = c.years.offset day + 1 := by
  rw [dayOfYear, Blocks.offset, start_years, year_eq]

theorem dayOfYear_bounds (day : ℕ) :
    1 ≤ c.dayOfYear day ∧ c.dayOfYear day ≤ c.yearLength (c.year day) := by
  have hlt := Blocks.offset_lt (b := c.years) day
  rw [dayOfYear_eq, year_eq]
  exact ⟨Nat.le_add_left _ _, hlt⟩

theorem dayOfYear_add {i : ℕ} (hi : i ≤ 365) :
    c.dayOfYear (day + i) = if c.dayOfYear day + i ≤ c.yearLength (c.year day)
      then c.dayOfYear day + i else c.dayOfYear day + i - c.yearLength (c.year day) := by
  have hlt := Blocks.offset_lt (b := c.years) day
  have hnext := yearLength_cases (c := c) (c.years.block day + 1)
  have hlen : ∀ year, c.years.len year = c.yearLength year := fun _ => rfl
  rw [hlen] at hlt
  rw [dayOfYear_eq, dayOfYear_eq, year_eq]
  split
  · rename_i hle
    rw [(Blocks.offset_add (by rw [hlen]; omega)).2]
    omega
  · rename_i hgt
    rw [(Blocks.offset_add_next (by rw [hlen]; omega) (by rw [hlen, hlen]; omega)).2, hlen]
    omega

theorem weeksIn_cases (year : ℕ) :
    c.firstWeek (year + 1) = c.firstWeek year + c.weeksIn year ∧
      (c.weeksIn year = 52 ∨ c.weeksIn year = 53) := by
  have hlength := yearLength_cases (c := c) year
  have hstart := yearStart_succ (c := c) year
  simp only [weeksIn, firstWeek, weekIndex, hstart]
  omega

variable (c) in
def weeks : Blocks where
  len := c.weeksIn
  len_pos year := by
    have h := weeksIn_cases (c := c) year
    omega

/-- The number of a week, counted from the first, in its year. -/
def weekNumber (c : Calendar) (week : ℕ) : ℕ := c.weeks.offset week + 1

def week (c : Calendar) (day : ℕ) : ℕ := c.weekNumber (c.weekIndex day)

def weeksAround (c : Calendar) (week : ℕ) : ℕ := c.weeksIn (c.weeks.block week)

theorem weekNumber_bounds (week : ℕ) :
    1 ≤ c.weekNumber week ∧ c.weekNumber week ≤ c.weeksAround week ∧
      (c.weeksAround week = 52 ∨ c.weeksAround week = 53) :=
  ⟨Nat.le_add_left _ _, Blocks.offset_lt (b := c.weeks) week, (weeksIn_cases _).2⟩

theorem weekNumber_add {week i : ℕ} (hi : c.weekNumber week + i ≤ c.weeksAround week) :
    c.weekNumber (week + i) = c.weekNumber week + i := by
  have hlt : c.weeks.offset week + i < c.weeks.len (c.weeks.block week) := by
    simp only [weekNumber, weeksAround] at hi
    change c.weeks.offset week + i < c.weeksIn (c.weeks.block week)
    omega
  rw [weekNumber, (Blocks.offset_add hlt).2, weekNumber]
  omega

theorem weekNumber_add_next {week i : ℕ} (hi : c.weeksAround week < c.weekNumber week + i)
    (hi' : c.weekNumber week + i ≤ c.weeksAround week + 52) :
    c.weekNumber (week + i) = c.weekNumber week + i - c.weeksAround week := by
  have hnext := (weeksIn_cases (c := c) (c.weeks.block week + 1)).2
  have hlen : ∀ year, c.weeks.len year = c.weeksIn year := fun _ => rfl
  simp only [weekNumber, weeksAround] at hi hi'
  have h := Blocks.offset_add_next (b := c.weeks) (n := week) (i := i)
    (by rw [hlen]; omega) (by rw [hlen, hlen]; omega)
  rw [weekNumber, h.2, hlen, weekNumber, weeksAround]
  omega

end Calendar

end N8n
