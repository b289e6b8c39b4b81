/-
When a schedule keeps its interval.

After an accepted tick the rule waits for the hour, day, week or month whose
number is the last one plus the interval, wrapped at 24, 365, 52 or 12.  That is
the right one only in part of the day or year: hours and months start again at the
beginning of the cycle, because the expression does, and days and weeks wrap at a
number that some years exceed and that no day or week has as its own.

* `onTime_iff` — **along every run of ticks the accepted ones are followed by the
  right ones iff each of them is on course**.
-/
import N8n.Runs
import N8n.Schedule

namespace N8n

namespace Calendar

/-- The number of the hour, day, week or month, counted from the first. -/
def unit (c : Calendar) (typeInterval : RecurrenceInterval) (t : ℕ) : ℕ :=
  match typeInterval with
  | .hours => t / 3600
  | .days => dayOf t
  | .weeks => c.weekIndex (dayOf t)
  | .months => c.months.block (dayOf t)

/-- The number that the check compares. -/
def label (c : Calendar) (typeInterval : RecurrenceInterval) (t : ℕ) : ℕ :=
  match typeInterval with
  | .hours => t / 3600 % 24
  | .days => c.dayOfYear (dayOf t)
  | .weeks => c.week (dayOf t)
  | .months => c.month (dayOf t)

/-- The check accepts a tick with this number after one with the last number. -/
def Due (typeInterval : RecurrenceInterval) (intervalSize last current : ℕ) : Prop :=
  match typeInterval with
  | .hours => current = (intervalSize + last) % 24
  | .days => current = (intervalSize + last) % 365
  | .weeks => current = (intervalSize + last) % 52 ∨ current = last
  | .months => current = (intervalSize + last) % 12

instance : (typeInterval : RecurrenceInterval) → (intervalSize last current : ℕ) →
    Decidable (Due typeInterval intervalSize last current)
  | .hours, _, _, _ => inferInstanceAs (Decidable (_ = _))
  | .days, _, _, _ => inferInstanceAs (Decidable (_ = _))
  | .weeks, _, _, _ => inferInstanceAs (Decidable (_ ∨ _))
  | .months, _, _, _ => inferInstanceAs (Decidable (_ = _))

end Calendar

variable {c : Calendar} {interval : ScheduleInterval} {index size t x : ℕ}
  {typeInterval : RecurrenceInterval} {rules : Dict ℕ ℕ} {draws : Draws}
  {runs : CronExpression → ℕ → Prop}

theorem recurrenceCheck_activated (hsize : size ≠ 0) :
    recurrenceCheck (.activated index size typeInterval) rules (c.moment t)
      = checkRule rules index (c.label typeInterval t)
        fun last => Calendar.Due typeInterval size last (c.label typeInterval t) := by
  simp only [recurrenceCheck, if_neg hsize]
  cases typeInterval with
  | hours => rfl
  | days => rfl
  | weeks =>
    simp only [← Bool.decide_or]
    rfl
  | months => rfl

theorem accepts_iff (hrule : intervalToRecurrence interval index
      = .activated index size typeInterval) (hsize : size ≠ 0) :
    accepts c interval index rules t = true ↔ ∀ last, rules.get? index = some last →
      Calendar.Due typeInterval size last (c.label typeInterval t) := by
  rw [accepts, hrule, recurrenceCheck_activated hsize, checkRule]
  rcases hlast : rules.get? index with _ | last
  · simp
  · by_cases hdue : Calendar.Due typeInterval size last (c.label typeInterval t)
    · simp [hdue]
    · simp [hdue]

theorem get?_of_accepts (hrule : intervalToRecurrence interval index
      = .activated index size typeInterval) (hsize : size ≠ 0)
    (haccepts : accepts c interval index rules t = true) :
    (recurrenceCheck (intervalToRecurrence interval index) rules (c.moment t)).2.get? index
      = some (c.label typeInterval t) := by
  rw [accepts, hrule, recurrenceCheck_activated hsize, checkRule] at haccepts
  rw [hrule, recurrenceCheck_activated hsize, checkRule]
  split at haccepts
  · rename_i hdue
    rw [if_pos hdue]
    exact Dict.get?_set_self _ _ _
  · cases haccepts

/-- After a tick at `t`, the ticks that are due within the interval are those that
lie the interval after it (for weeks, also those of the same week), and there is one. -/
structure KeepsTime (c : Calendar) (tick : ℕ → Prop) (typeInterval : RecurrenceInterval)
    (size t : ℕ) : Prop where
  next : ∀ x, t < x → tick x → c.unit typeInterval x ≤ c.unit typeInterval t + size →
    (Calendar.Due typeInterval size (c.label typeInterval t) (c.label typeInterval x) ↔
      c.unit typeInterval x = c.unit typeInterval t + size ∨
        (typeInterval = .weeks ∧ c.unit typeInterval x = c.unit typeInterval t))
  comes : ∃ x, t < x ∧ tick x ∧ c.unit typeInterval x = c.unit typeInterval t + size

/-- The interval from `t` on stays within what the check and the expression can tell. -/
def OnCourse (c : Calendar) (typeInterval : RecurrenceInterval) (size t : ℕ) : Prop :=
  match typeInterval with
  | .hours => t / 3600 % 24 + size ≤ 24
  | .days => c.dayOfYear (dayOf t) + size ≤ 364 ∨
    (366 ≤ c.dayOfYear (dayOf t) + size ∧ c.yearLength (c.year (dayOf t)) = 365)
  | .weeks => c.week (dayOf t) + size ≤ 51 ∨
    (size ≤ 52 ∧ 53 ≤ c.week (dayOf t) + size ∧ c.weeksAround (c.weekIndex (dayOf t)) = 52) ∨
    (size = 53 ∧ c.week (dayOf t) = 51 ∧ c.weeksAround (c.weekIndex (dayOf t)) = 53)
  | .months => c.month (dayOf t) + size ≤ 12 ∧
    c.dayOfMonth (dayOf t) ≤ c.months.len (c.months.block (dayOf t) + size)

theorem keepsTime_hours_iff {second minute : ℕ} {tick : ℕ → Prop}
    (htick : ∀ x, tick x ↔ x % 60 = second ∧ x / 60 % 60 = minute ∧ x / 3600 % 24 % size = 0)
    (hsize : 1 < size) (hvalid : size ≤ 23) (ht : tick t) :
    KeepsTime c tick .hours size t ↔ OnCourse c .hours size t := by
  obtain ⟨hsecond, hminute, hhour⟩ := (htick t).mp ht
  constructor
  · rintro ⟨-, x, hlt, hx, hunit⟩
    obtain ⟨-, -, hhour'⟩ := (htick x).mp hx
    simp only [Calendar.unit] at hunit
    simp only [OnCourse]
    by_contra hover
    -- the hour wraps to one before the first step of the expression
    have hwrap : x / 3600 % 24 = t / 3600 % 24 + size - 24 := by omega
    rw [hwrap, Nat.mod_eq_of_lt (by omega)] at hhour'
    omega
  · intro hcourse
    simp only [OnCourse] at hcourse
    refine ⟨fun x hlt hx hunit => ?_, t + 3600 * size, by omega, (htick _).mpr ⟨?_, ?_, ?_⟩, ?_⟩
    · obtain ⟨hsecond', hminute', -⟩ := (htick x).mp hx
      simp only [Calendar.unit] at hunit
      simp only [Calendar.Due, Calendar.label, Calendar.unit, reduceCtorEq, false_and, or_false]
      omega
    · omega
    · omega
    · rcases Nat.lt_or_eq_of_le hcourse with hlt | heq
      · have hnext : (t + 3600 * size) / 3600 % 24 = t / 3600 % 24 + size := by omega
        rw [hnext, Nat.add_mod_right, hhour]
      · have hnext : (t + 3600 * size) / 3600 % 24 = 0 := by omega
        rw [hnext, Nat.zero_mod]
    · simp only [Calendar.unit]
      omega

theorem keepsTime_days_iff {second minute hour : ℕ} {tick : ℕ → Prop}
    (htick : ∀ x, tick x ↔ x % 60 = second ∧ x / 60 % 60 = minute ∧ x / 3600 % 24 = hour)
    (hsize : 1 < size) (hvalid : size ≤ 31) (ht : tick t) :
    KeepsTime c tick .days size t ↔ OnCourse c .days size t := by
  obtain ⟨hsecond, hminute, hhour⟩ := (htick t).mp ht
  have hbounds := Calendar.dayOfYear_bounds (c := c) (dayOf t)
  have hlength := Calendar.yearLength_cases (c := c) (c.year (dayOf t))
  -- the day of the year goes back to 1 after the last of this year
  have hlabel : ∀ x i, i ≤ 31 → dayOf x = dayOf t + i → c.dayOfYear (dayOf x)
      = if c.dayOfYear (dayOf t) + i ≤ c.yearLength (c.year (dayOf t))
        then c.dayOfYear (dayOf t) + i
        else c.dayOfYear (dayOf t) + i - c.yearLength (c.year (dayOf t)) := by
    intro x i hi hx
    rw [hx]
    exact Calendar.dayOfYear_add (by omega)
  constructor
  · rintro ⟨hnext, x, hlt, hx, hunit⟩
    have hdue := (hnext x hlt hx (le_of_eq hunit)).mpr (.inl hunit)
    simp only [Calendar.unit] at hunit
    simp only [Calendar.Due, Calendar.label, hlabel x size hvalid hunit] at hdue
    simp only [OnCourse]
    split at hdue
    · omega
    · omega
  · intro hcourse
    simp only [OnCourse] at hcourse
    refine ⟨fun x hlt hx hunit => ?_, t + 86400 * size, by omega, (htick _).mpr ⟨?_, ?_, ?_⟩, ?_⟩
    · obtain ⟨hsecond', hminute', hhour'⟩ := (htick x).mp hx
      simp only [Calendar.unit] at hunit
      have hlater : dayOf t < dayOf x := by
        simp only [dayOf]
        omega
      obtain ⟨i, hi⟩ := Nat.exists_eq_add_of_lt hlater
      simp only [Calendar.Due, Calendar.label, Calendar.unit, reduceCtorEq, false_and, or_false]
      rw [hlabel x (i + 1) (by omega) (by omega), hi]
      split
      · omega
      · omega
    · omega
    · omega
    · omega
    · simp only [Calendar.unit, dayOf]
      omega

section Weeks

open Calendar

variable {week : ℕ}

/-- The numbers of the weeks within the interval after a week tell which is due. -/
def TellsWeek (c : Calendar) (size week : ℕ) : Prop :=
  ∀ i, 1 ≤ i → i ≤ size →
    (Due .weeks size (c.weekNumber week) (c.weekNumber (week + i)) ↔ i = size)

theorem weekNumber_add_ite (i : ℕ) (hi : c.weekNumber week + i ≤ c.weeksAround week + 52) :
    c.weekNumber (week + i) = if c.weekNumber week + i ≤ c.weeksAround week
      then c.weekNumber week + i else c.weekNumber week + i - c.weeksAround week := by
  split
  · rename_i hle
    exact weekNumber_add hle
  · rename_i hgt
    exact weekNumber_add_next (Nat.lt_of_not_le hgt) hi

theorem not_tellsWeek_lastWeek (hlast : c.weekNumber week = 53) (haround : c.weeksAround week = 53)
    (hmod : size % 52 = 51) (hsize : 53 < size) : ¬ TellsWeek c size week := by
  intro htells
  have hoffset : c.weeks.offset week = 52 := by
    rw [weekNumber] at hlast
    omega
  have hlen : c.weeks.len (c.weeks.block week) = 53 := haround
  have hfirst : c.weeks.start (c.weeks.block week + 1) = week + 1 := by
    have hstart := Blocks.start_add_offset (b := c.weeks) week
    rw [Blocks.start_succ]
    omega
  have hnumber : ∀ year i, i < c.weeks.len year → c.weekNumber (c.weeks.start year + i) = i + 1 :=
    fun year i hi => by rw [weekNumber, Blocks.offset_start_add hi]
  -- a week 53 before the end of the interval would be taken for the last one
  have hyears : ∀ j, 52 * j < size →
      c.weeks.start (c.weeks.block week + 1 + j) = week + 1 + 52 * j := by
    intro j
    induction j with
    | zero => exact fun _ => hfirst
    | succ j ih =>
      intro hj
      have hstart := ih (by omega)
      have hweeks : c.weeks.len (c.weeks.block week + 1 + j) = 52 := by
        rcases (weeksIn_cases (c := c) (c.weeks.block week + 1 + j)).2 with h52 | h53
        · exact h52
        · have hweek53 := hnumber (c.weeks.block week + 1 + j) 52 (by
            change 52 < c.weeksIn _
            omega)
          have hweek : week + 1 + 52 * j + 52 = week + (52 * j + 53) := by omega
          rw [hstart, hweek] at hweek53
          have hdue := (htells (52 * j + 53) (by omega) (by omega)).mp
            (.inr (hweek53.trans hlast.symm))
          omega
      rw [← Nat.add_assoc, Blocks.start_succ, hstart, hweeks]
      omega
  have hnext := (weeksIn_cases (c := c) (c.weeks.block week + 1 + size / 52)).2
  have hend := hnumber (c.weeks.block week + 1 + size / 52) 50 (by
    change 50 < c.weeksIn _
    omega)
  rw [hyears (size / 52) (by omega)] at hend
  have hweek : week + 1 + 52 * (size / 52) + 50 = week + size := by omega
  rw [hweek] at hend
  have hdue := (htells size (by omega) (le_refl _)).mpr rfl
  simp only [Due, hend, hlast] at hdue
  omega

/-- **Which weeks tell.** -/
theorem tellsWeek_iff (hsize : 1 < size) : TellsWeek c size week ↔
    c.weekNumber week + size ≤ 51 ∨
    (size ≤ 52 ∧ 53 ≤ c.weekNumber week + size ∧ c.weeksAround week = 52) ∨
    (size = 53 ∧ c.weekNumber week = 51 ∧ c.weeksAround week = 53) := by
  obtain ⟨hone, hle, haround⟩ := weekNumber_bounds (c := c) week
  have hnumber := fun i (hi : c.weekNumber week + i ≤ c.weeksAround week + 52) =>
    weekNumber_add_ite i hi
  constructor
  · intro htells
    -- the interval itself is due, and nothing before it
    have hdue : c.weekNumber week + size ≤ c.weeksAround week + 52 →
        Due .weeks size (c.weekNumber week) (c.weekNumber (week + size)) :=
      fun _ => (htells size (by omega) (le_refl _)).mpr rfl
    have hearly : ∀ i, 1 ≤ i → i < size →
        ¬ Due .weeks size (c.weekNumber week) (c.weekNumber (week + i)) :=
      fun i hi his hdue => absurd ((htells i hi (by omega)).mp hdue) (by omega)
    simp only [Due] at hdue hearly
    have hat := hnumber size
    rcases haround with h52 | h53
    · have hshort : size ≤ 52 := by
        by_contra hlong
        have hyear := hearly 52 (by omega) (by omega)
        rw [hnumber 52 (by omega), if_neg (by omega)] at hyear
        omega
      have hdue := hdue (by omega)
      rw [hat (by omega)] at hdue
      split at hdue
      · omega
      · omega
    · -- 53 weeks: the last one has a number that no week of the next year need have
      by_cases hlast : c.weekNumber week = 53
      · exfalso
        by_cases hlong : size ≤ 51
        · have hdue := hdue (by omega)
          rw [hat (by omega)] at hdue
          split at hdue
          · omega
          · omega
        · by_cases hmod : size % 52 = 51
          · exact not_tellsWeek_lastWeek hlast h53 hmod (by omega) htells
          · have hnext := hearly (size % 52 + 1) (by omega) (by omega)
            rw [hnumber (size % 52 + 1) (by omega)] at hnext
            split at hnext
            · omega
            · omega
      · have hshort : size ≤ 53 := by
          by_contra hlong
          have hyear := hearly 53 (by omega) (by omega)
          rw [hnumber 53 (by omega), if_neg (by omega)] at hyear
          omega
        by_cases hmost : size = 53
        · have hnext := hearly 1 (by omega) (by omega)
          have hnext' := hearly 2 (by omega) (by omega)
          rw [hnumber 1 (by omega)] at hnext
          rw [hnumber 2 (by omega)] at hnext'
          split at hnext
          · split at hnext'
            · omega
            · omega
          · omega
        · have hdue := hdue (by omega)
          rw [hat (by omega)] at hdue
          split at hdue
          · omega
          · omega
  · intro hcourse i hi his
    rw [hnumber i (by omega)]
    simp only [Due]
    split
    · omega
    · omega

theorem keepsTime_weeks_iff {second minute hour : ℕ} {days : List ℕ} {tick : ℕ → Prop}
    (htick : ∀ x, tick x ↔ x % 60 = second ∧ x / 60 % 60 = minute ∧ x / 3600 % 24 = hour ∧
      (days.length = 0 ∨ c.dayOfWeek (dayOf x) ∈ days))
    (hsize : 1 < size) (ht : tick t) :
    KeepsTime c tick .weeks size t ↔ OnCourse c .weeks size t := by
  obtain ⟨hsecond, hminute, hhour, hday⟩ := (htick t).mp ht
  -- every later week has a tick on the same day
  have hlater : ∀ i, tick (t + 604800 * i) ∧ c.weekIndex (dayOf (t + 604800 * i))
      = c.weekIndex (dayOf t) + i := by
    intro i
    have hdays : dayOf (t + 604800 * i) = dayOf t + 7 * i := by
      simp only [dayOf]
      omega
    refine ⟨(htick _).mpr ⟨by omega, by omega, by omega, hday.imp_right fun hday => ?_⟩, ?_⟩
    · have hsame : c.dayOfWeek (dayOf t + 7 * i) = c.dayOfWeek (dayOf t) := by
        simp only [dayOfWeek]
        omega
      rw [hdays, hsame]
      exact hday
    · rw [hdays, weekIndex, weekIndex]
      omega
  rw [show OnCourse c .weeks size t ↔ TellsWeek c size (c.weekIndex (dayOf t)) from
    (tellsWeek_iff hsize).symm]
  constructor
  · rintro ⟨hnext, -⟩ i hi his
    obtain ⟨htick', hweek⟩ := hlater i
    have hdue := hnext (t + 604800 * i) (by omega) htick' (by simp only [unit, hweek]; omega)
    simp only [label, Calendar.week, unit, hweek] at hdue
    rw [hdue]
    omega
  · intro htells
    refine ⟨fun x hlt hx hunit => ?_, ?_⟩
    · simp only [unit] at hunit
      have hmono : c.weekIndex (dayOf t) ≤ c.weekIndex (dayOf x) := by
        simp only [weekIndex, dayOf]
        omega
      obtain ⟨i, hi⟩ := Nat.exists_eq_add_of_le hmono
      simp only [label, Calendar.week, unit, hi, true_and]
      rcases Nat.eq_zero_or_pos i with rfl | hpos
      · exact iff_of_true (.inr rfl) (.inr rfl)
      · rw [htells i hpos (by omega)]
        omega
    · obtain ⟨htick', hweek⟩ := hlater size
      exact ⟨_, by omega, htick', hweek⟩

end Weeks

section Months

variable {second minute hour day : ℕ} {tick : ℕ → Prop}

section

variable
  (htick : ∀ x, tick x ↔ x % 60 = second ∧ x / 60 % 60 = minute ∧ x / 3600 % 24 = hour ∧ c.dayOfMonth (dayOf x) = day ∧ c.month (dayOf x) % size = 0)
include htick

theorem exists_tick_month (ht : tick t) (month : ℕ)
    (hmonth : c.months.block (dayOf t) < month)
    (hlen : c.dayOfMonth (dayOf t) ≤ c.months.len month) (hstep : month % 12 % size = 0) :
    ∃ x, t < x ∧ tick x ∧ c.months.block (dayOf x) = month := by
  obtain ⟨hsecond, hminute, hhour, hday, -⟩ := (htick t).mp ht
  have hplace : c.months.offset (dayOf t) < c.months.len month := hlen
  have hdayOf : dayOf ((c.months.start month + c.months.offset (dayOf t)) * 86400 + t % 86400)
      = c.months.start month + c.months.offset (dayOf t) := by
    simp only [dayOf]
    omega
  have hblock := Blocks.block_start_add hplace
  have hlow := Blocks.start_add_offset (b := c.months) (dayOf t)
  have hstart : c.months.start (c.months.block (dayOf t)) < c.months.start month :=
    lt_of_lt_of_le (Blocks.start_lt_start_succ _) (Blocks.start_mono hmonth)
  refine ⟨_, ?_, (htick _).mpr ⟨?_, ?_, ?_, ?_, ?_⟩, hdayOf.symm ▸ hblock⟩
  · simp only [dayOf] at hlow hstart ⊢
    omega
  · omega
  · omega
  · omega
  · rw [hdayOf, Calendar.dayOfMonth, Blocks.offset_start_add hplace]
    exact hday
  · rw [hdayOf, Calendar.month, hblock]
    exact hstep

theorem block_lt_of_tick (ht : tick t) (hx : tick x)
    (hlt : t < x) : c.months.block (dayOf t) < c.months.block (dayOf x) := by
  obtain ⟨hsecond, hminute, hhour, hday, -⟩ := (htick t).mp ht
  obtain ⟨hsecond', hminute', hhour', hday', -⟩ := (htick x).mp hx
  have hlow := Blocks.start_add_offset (b := c.months) (dayOf t)
  have hlow' := Blocks.start_add_offset (b := c.months) (dayOf x)
  rw [← hday', Calendar.dayOfMonth, Calendar.dayOfMonth] at hday
  by_contra hnot
  have hstart := Blocks.start_mono (b := c.months) (Nat.not_lt.mp hnot)
  simp only [dayOf] at hlow hlow' hday hstart
  omega

theorem keepsTime_months_iff
    (hsize : 1 < size) (ht : tick t) :
    KeepsTime c tick .months size t ↔ OnCourse c .months size t := by
  obtain ⟨-, -, -, hday, hmonth⟩ := (htick t).mp ht
  have hoffset := Blocks.offset_lt (b := c.months) (dayOf t)
  constructor
  · rintro ⟨hnext, x, hlt, hx, hunit⟩
    obtain ⟨-, -, -, hday', hmonth'⟩ := (htick x).mp hx
    have hoffset' := Blocks.offset_lt (b := c.months) (dayOf x)
    simp only [Calendar.unit] at hunit
    rw [hunit] at hoffset'
    rw [← hday, Calendar.dayOfMonth] at hday'
    refine ⟨?_, by omega⟩
    simp only [Calendar.month] at hmonth
    simp only [Calendar.month, hunit] at hmonth' ⊢
    by_contra hover
    rcases Nat.lt_or_ge 12 size with hlong | hshort
    · -- the expression ticks in the first month only, and the check accepts the next one
      rw [Nat.mod_eq_of_lt (by omega)] at hmonth hmonth'
      have hfirst : (c.months.block (dayOf t) + 12) % 12 = 0 := by omega
      have hlen : c.dayOfMonth (dayOf t) ≤ c.months.len (c.months.block (dayOf t) + 12) := by
        rw [Calendar.len_january c hfirst, ← Calendar.len_january c hmonth]
        exact hoffset
      have hzero : (c.months.block (dayOf t) + 12) % 12 % size = 0 := by
        rw [hfirst, Nat.zero_mod]
      obtain ⟨y, hlt', hy, hunit'⟩ := exists_tick_month htick ht _ (by omega) hlen hzero
      have hdue := (hnext y hlt' hy (by simp only [Calendar.unit]; omega)).mp (by
        simp only [Calendar.Due, Calendar.label, Calendar.month]
        omega)
      simp only [Calendar.unit, reduceCtorEq, false_and, or_false] at hdue
      omega
    · -- the month wraps to one before the first step of the expression
      have hwrap : (c.months.block (dayOf t) + size) % 12
          = c.months.block (dayOf t) % 12 + size - 12 := by omega
      rw [hwrap, Nat.mod_eq_of_lt (by omega)] at hmonth'
      omega
  · rintro ⟨hwrap, hlen⟩
    simp only [Calendar.month] at hwrap hmonth
    refine ⟨fun x hlt hx hunit => ?_, ?_⟩
    · have hlower := block_lt_of_tick htick ht hx hlt
      simp only [Calendar.unit] at hunit
      simp only [Calendar.Due, Calendar.label, Calendar.month, Calendar.unit, reduceCtorEq,
        false_and, or_false]
      omega
    · refine exists_tick_month htick ht (c.months.block (dayOf t) + size) (by omega) hlen ?_
      rcases Nat.lt_or_eq_of_le hwrap with hlt | heq
      · have hnext : (c.months.block (dayOf t) + size) % 12
            = c.months.block (dayOf t) % 12 + size := by omega
        rw [hnext, Nat.add_mod_right, hmonth]
      · have hnext : (c.months.block (dayOf t) + size) % 12 = 0 := by omega
        rw [hnext, Nat.zero_mod]

end

end Months

/-- What an accepted tick asks of the ticks after it, with the rules it left: those
within the interval that are accepted are the ones that lie the interval after it
(for weeks, also those of the same week), and there is one. -/
structure OnTime (c : Calendar) (runs : CronExpression → ℕ → Prop) (interval : ScheduleInterval)
    (draws : Draws) (index size : ℕ) (typeInterval : RecurrenceInterval) (rules : Dict ℕ ℕ)
    (t : ℕ) : Prop where
  next : ∀ x, t < x → runs (toCronExpression interval draws) x →
    c.unit typeInterval x ≤ c.unit typeInterval t + size →
    (accepts c interval index rules x = true ↔
      c.unit typeInterval x = c.unit typeInterval t + size ∨
        (typeInterval = .weeks ∧ c.unit typeInterval x = c.unit typeInterval t))
  comes : ∃ x, t < x ∧ runs (toCronExpression interval draws) x ∧
    c.unit typeInterval x = c.unit typeInterval t + size

/-- `t` is the first tick after `s.now`. -/
structure IsNextTick (runs : CronExpression → ℕ → Prop) (interval : ScheduleInterval)
    (draws : Draws) (s : ScheduleRun) (t : ℕ) : Prop where
  later : s.now < t
  ticks : runs (toCronExpression interval draws) t
  first : ∀ x, s.now < x → x < t → ¬ runs (toCronExpression interval draws) x

theorem onTime_iff_keepsTime (hrule : intervalToRecurrence interval index
      = .activated index size typeInterval) (hsize : size ≠ 0)
    (hlast : rules.get? index = some (c.label typeInterval t)) :
    OnTime c runs interval draws index size typeInterval rules t ↔
      KeepsTime c (runs (toCronExpression interval draws)) typeInterval size t := by
  have haccepts : ∀ x, accepts c interval index rules x = true ↔ Calendar.Due typeInterval size
      (c.label typeInterval t) (c.label typeInterval x) := by
    intro x
    rw [accepts_iff hrule hsize, hlast]
    simp
  constructor
  · rintro ⟨hnext, hcomes⟩
    exact ⟨fun x hlt hx hunit => (haccepts x).symm.trans (hnext x hlt hx hunit), hcomes⟩
  · rintro ⟨hnext, hcomes⟩
    exact ⟨fun x hlt hx hunit => (haccepts x).trans (hnext x hlt hx hunit), hcomes⟩

/-- **A tick of an interval keeps time iff it is on course.** -/
theorem keepsTime_iff (hruns : CronRuns c runs) (hvalid : validateInterval interval = .ok ())
    (hrule : intervalToRecurrence interval index = .activated index size typeInterval)
    (hsize : 1 < size) (ht : runs (toCronExpression interval draws) t) :
    KeepsTime c (runs (toCronExpression interval draws)) typeInterval size t ↔
      OnCourse c typeInterval size t := by
  -- the rule is activated with the interval it was built for
  have hactivated : ∀ {n : ℕ} {type : RecurrenceInterval},
      (if n ≠ 1 then IRecurrenceRule.activated index n type else .notActivated)
        = .activated index size typeInterval → n = size ∧ type = typeInterval := by
    intro n type h
    split at h
    · cases h
      exact ⟨rfl, rfl⟩
    · cases h
  cases interval with
  | cronExpression | seconds | minutes => cases hrule
  | hours n minute =>
    obtain ⟨rfl, rfl⟩ := hactivated hrule
    have htick : ∀ x, runs (toCronExpression (.hours n minute) draws) x ↔ x % 60 = draws.second ∧
        x / 60 % 60 = minute.getD draws.minute ∧ x / 3600 % 24 % n = 0 := fun x =>
      (hruns _ (.inl rfl) x).trans ⟨fun h => ⟨h.second, h.minute, h.hour⟩,
        fun ⟨hsecond, hminute, hhour⟩ => ⟨hsecond, hminute, hhour, trivial, trivial, trivial⟩⟩
    -- hours above 23 are refused
    have hmost : n ≤ 23 := by
      rw [validateInterval] at hvalid
      split at hvalid
      · cases hvalid
      · omega
    exact keepsTime_hours_iff htick hsize hmost ht
  | days n hour minute =>
    obtain ⟨rfl, rfl⟩ := hactivated hrule
    have htick : ∀ x, runs (toCronExpression (.days n hour minute) draws) x ↔
        x % 60 = draws.second ∧ x / 60 % 60 = minute.getD draws.minute ∧
          x / 3600 % 24 = hour.getD draws.hour := fun x =>
      (hruns _ (.inl rfl) x).trans ⟨fun h => ⟨h.second, h.minute, h.hour⟩,
        fun ⟨hsecond, hminute, hhour⟩ => ⟨hsecond, hminute, hhour, trivial, trivial, trivial⟩⟩
    -- days above 31 are refused
    have hmost : n ≤ 31 := by
      rw [validateInterval] at hvalid
      split at hvalid
      · cases hvalid
      · omega
    exact keepsTime_days_iff htick hsize hmost ht
  | weeks n days hour minute =>
    obtain ⟨rfl, rfl⟩ := hactivated hrule
    -- no chosen weekday means every one
    have hday : ∀ day, (if days.length = 0 then CronField.any else .list days).Matches 0 day ↔
        days.length = 0 ∨ day ∈ days := by
      intro day
      split
      · rename_i hnone
        exact iff_of_true trivial (.inl hnone)
      · rename_i hsome
        exact ⟨.inr, fun h => h.resolve_left hsome⟩
    have htick : ∀ x, runs (toCronExpression (.weeks n days hour minute) draws) x ↔
        x % 60 = draws.second ∧ x / 60 % 60 = minute.getD draws.minute ∧
          x / 3600 % 24 = hour.getD draws.hour ∧
          (days.length = 0 ∨ c.dayOfWeek (dayOf x) ∈ days) := fun x =>
      (hruns _ (.inl rfl) x).trans
        ⟨fun h => ⟨h.second, h.minute, h.hour, (hday _).mp h.dayOfWeek⟩,
          fun ⟨hsecond, hminute, hhour, hdays⟩ =>
            ⟨hsecond, hminute, hhour, trivial, trivial, (hday _).mpr hdays⟩⟩
    exact keepsTime_weeks_iff htick hsize ht
  | months n day hour minute =>
    obtain ⟨rfl, rfl⟩ := hactivated hrule
    have htick : ∀ x, runs (toCronExpression (.months n day hour minute) draws) x ↔
        x % 60 = draws.second ∧ x / 60 % 60 = minute.getD draws.minute ∧
          x / 3600 % 24 = hour.getD draws.hour ∧
          c.dayOfMonth (dayOf x) = day.getD draws.dayOfMonth ∧ c.month (dayOf x) % n = 0 := fun x =>
      (hruns _ (.inr rfl) x).trans
        ⟨fun h => ⟨h.second, h.minute, h.hour, h.dayOfMonth, h.month⟩,
          fun ⟨hsecond, hminute, hhour, hday, hmonth⟩ =>
            ⟨hsecond, hminute, hhour, hday, hmonth, trivial⟩⟩
    exact keepsTime_months_iff htick hsize ht

/-- **Along every run of ticks the first is accepted, and each accepted one is
followed by the right ones iff it is on course.** -/
theorem onTime_iff (hruns : CronRuns c runs) (hvalid : validateInterval interval = .ok ())
    (hrule : intervalToRecurrence interval index = .activated index size typeInterval)
    (hsize : 1 < size) {start : ℕ} {ts : List ℕ}
    (hticks : Along (executeTrigger c interval index)
      (fun s t _ => IsNextTick runs interval draws s t) ⟨start, rules⟩ ts) :
    Along (executeTrigger c interval index) (fun s t s' =>
        (s.recurrenceRules.get? index = none →
          accepts c interval index s.recurrenceRules t = true) ∧
        (accepts c interval index s.recurrenceRules t = true →
          OnTime c runs interval draws index size typeInterval s'.recurrenceRules t))
      ⟨start, rules⟩ ts ↔
    Along (executeTrigger c interval index) (fun s t _ =>
        accepts c interval index s.recurrenceRules t = true → OnCourse c typeInterval size t)
      ⟨start, rules⟩ ts := by
  have hne : size ≠ 0 := Nat.ne_of_gt (Nat.lt_of_succ_lt hsize)
  refine Along.iff_of_step (I := fun _ => True) ?_ (fun _ _ _ _ _ _ _ => trivial) trivial hticks
  intro s t s' _ hstep htick
  cases hstep
  have hfirst : s.recurrenceRules.get? index = none →
      accepts c interval index s.recurrenceRules t = true := by
    intro hnone
    rw [accepts_iff hrule hne, hnone]
    exact fun last hlast => nomatch hlast
  have honTime := fun haccepts : accepts c interval index s.recurrenceRules t = true =>
    (onTime_iff_keepsTime hrule hne (get?_of_accepts hrule hne haccepts)).trans
      (keepsTime_iff hruns hvalid hrule hsize htick.ticks)
  constructor
  · exact fun h haccepts => (honTime haccepts).mp (h.2 haccepts)
  · exact fun h => ⟨hfirst, fun haccepts => (honTime haccepts).mpr (h haccepts)⟩

/-- The Gregorian calendar, whose year 0 begins on a Saturday. -/
def gregorian : Calendar where
  leap year := year % 4 = 0 && (year % 100 ≠ 0 || year % 400 = 0)
  firstWeekday := 6
  firstWeekday_lt := by decide

/-- Every six hours on the hour: the ticks at six and at noon. -/
theorem onTime_everySixHours :
    Along (executeTrigger gregorian (.hours 6 (some 0)) 0) (fun s t s' =>
        (s.recurrenceRules.get? 0 = none →
          accepts gregorian (.hours 6 (some 0)) 0 s.recurrenceRules t = true) ∧
        (accepts gregorian (.hours 6 (some 0)) 0 s.recurrenceRules t = true →
          OnTime gregorian (CronExpression.Matches gregorian) (.hours 6 (some 0)) ⟨0, 0, 0, 1⟩ 0 6
            .hours s'.recurrenceRules t))
      ⟨0, .empty⟩ [21600, 43200] := by
  have hrule : intervalToRecurrence (.hours 6 (some 0)) 0 = .activated 0 6 .hours := rfl
  refine (onTime_iff (fun _ _ _ => Iff.rfl) rfl hrule (by decide) ?_).mpr ?_
  · intro s' hs'
    cases hs'
    refine ⟨⟨by decide, ⟨rfl, rfl, rfl, trivial, trivial, trivial⟩, ?_⟩, ?_⟩
    · rintro x hlow hhigh ⟨hsecond, hminute, hhour, -, -, -⟩
      simp only [toCronExpression, CronField.Matches, Option.getD_some] at hsecond hminute hhour
      omega
    · intro s' hs'
      cases hs'
      refine ⟨⟨by decide, ⟨rfl, rfl, rfl, trivial, trivial, trivial⟩, ?_⟩, trivial⟩
      rintro x hlow hhigh ⟨hsecond, hminute, hhour, -, -, -⟩
      change 21600 < x at hlow
      simp only [toCronExpression, CronField.Matches, Option.getD_some] at hsecond hminute hhour
      omega
  · intro s' hs'
    cases hs'
    refine ⟨fun _ => by simp [OnCourse], ?_⟩
    intro s' hs'
    cases hs'
    exact ⟨fun _ => by simp [OnCourse], trivial⟩

/-- Every five hours on the hour, first at eight in the evening: the rule then waits
for one in the morning, and the expression ticks at midnight and at five. -/
theorem not_onTime_everyFiveHours :
    validateInterval (.hours 5 (some 0)) = .ok () ∧
    Along (executeTrigger gregorian (.hours 5 (some 0)) 0) (fun s t _ =>
        IsNextTick (CronExpression.Matches gregorian) (.hours 5 (some 0)) ⟨0, 0, 0, 1⟩ s t)
      ⟨68400, .empty⟩ [72000] ∧
    ¬ Along (executeTrigger gregorian (.hours 5 (some 0)) 0) (fun s t s' =>
        (s.recurrenceRules.get? 0 = none →
          accepts gregorian (.hours 5 (some 0)) 0 s.recurrenceRules t = true) ∧
        (accepts gregorian (.hours 5 (some 0)) 0 s.recurrenceRules t = true →
          OnTime gregorian (CronExpression.Matches gregorian) (.hours 5 (some 0)) ⟨0, 0, 0, 1⟩ 0 5
            .hours s'.recurrenceRules t))
      ⟨68400, .empty⟩ [72000] := by
  refine ⟨rfl, ?_, ?_⟩
  · intro s' hs'
    cases hs'
    refine ⟨⟨by decide, ⟨rfl, rfl, rfl, trivial, trivial, trivial⟩, ?_⟩, trivial⟩
    rintro x hlow hhigh ⟨hsecond, hminute, hhour, -, -, -⟩
    change 68400 < x at hlow
    simp only [toCronExpression, CronField.Matches, Option.getD_some] at hsecond hminute hhour
    omega
  · intro h
    obtain ⟨⟨-, honTime⟩, -⟩ := h _ rfl
    obtain ⟨x, -, hx, hunit⟩ := (honTime rfl).comes
    have hhour := hx.hour
    simp only [toCronExpression, CronField.Matches] at hhour
    simp only [Calendar.unit] at hunit
    omega

end N8n
