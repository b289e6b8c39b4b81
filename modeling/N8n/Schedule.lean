/-
The schedule trigger.

An interval becomes a cron expression and a recurrence rule.  The expression
ticks more often than the interval asks for, and at each tick `recurrenceCheck`
compares the hour, day, week or month with the one of the last accepted tick.

* `validateInterval`, `toCronExpression`, `intervalToRecurrence`,
  `recurrenceCheck` — the functions of the trigger;
* `CronExpression.Matches` — the times an expression stands for.
-/
import N8n.Calendar
import N8n.Interfaces

namespace N8n

/-- A field of a cron expression: `*`, a number, every so many, or a list. -/
inductive CronField where
  | any
  | value (n : ℕ)
  | step (n : ℕ)
  | list (ns : List ℕ)
  deriving DecidableEq, Repr

structure CronExpression where
  second : CronField := .any
  minute : CronField := .any
  hour : CronField := .any
  dayOfMonth : CronField := .any
  month : CronField := .any
  dayOfWeek : CronField := .any
  deriving DecidableEq, Repr

/-- A field stands for a number of its range, which begins with `first`: a step
takes every `n`-th number of the range. -/
def CronField.Matches (first : ℕ) : CronField → ℕ → Prop
  | any, _ => True
  | value n, v => v = n
  | step n, v => (v - first) % n = 0
  | list ns, v => v ∈ ns

def dayOf (t : ℕ) : ℕ := t / 86400

/-- An expression stands for the times that match all its fields. -/
structure CronExpression.Matches (c : Calendar) (expression : CronExpression) (t : ℕ) : Prop where
  second : expression.second.Matches 0 (t % 60)
  minute : expression.minute.Matches 0 (t / 60 % 60)
  hour : expression.hour.Matches 0 (t / 3600 % 24)
  dayOfMonth : expression.dayOfMonth.Matches 1 (c.dayOfMonth (dayOf t))
  month : expression.month.Matches 1 (c.month (dayOf t) + 1)
  dayOfWeek : expression.dayOfWeek.Matches 0 (c.dayOfWeek (dayOf t))

/-- What is known of the cron library: a job runs at the times that its expression
stands for, if the expression does not restrict both kinds of days. -/
def CronRuns (c : Calendar) (runs : CronExpression → ℕ → Prop) : Prop :=
  ∀ expression, expression.dayOfMonth = .any ∨ expression.dayOfWeek = .any →
    ∀ t, runs expression t ↔ expression.Matches c t

/-- An interval.  Numbers are natural here, so that a check for less than one is a
check for zero. -/
inductive ScheduleInterval where
  | cronExpression (expression : CronExpression)
  | seconds (secondsInterval : ℕ)
  | minutes (minutesInterval : ℕ)
  | hours (hoursInterval : ℕ) (triggerAtMinute : Option ℕ)
  | days (daysInterval : ℕ) (triggerAtHour triggerAtMinute : Option ℕ)
  | weeks (weeksInterval : ℕ) (triggerAtDay : List ℕ) (triggerAtHour triggerAtMinute : Option ℕ)
  | months (monthsInterval : ℕ) (triggerAtDayOfMonth triggerAtHour triggerAtMinute : Option ℕ)
  deriving DecidableEq, Repr

/-- `validateInterval`, with the description of the `Invalid interval` error. -/
def validateInterval : ScheduleInterval → Except String Unit
  | .seconds secondsInterval =>
    if secondsInterval > 59 ∨ secondsInterval < 1 then .error "Seconds must be in range 1-59"
    else .ok ()
  | .minutes minutesInterval =>
    if minutesInterval > 59 ∨ minutesInterval < 1 then .error "Minutes must be in range 1-59"
    else .ok ()
  | .hours hoursInterval _ =>
    if hoursInterval > 23 ∨ hoursInterval < 1 then .error "Hours must be in range 1-23"
    else .ok ()
  | .days daysInterval _ _ =>
    if daysInterval > 31 ∨ daysInterval < 1 then .error "Days must be in range 1-31"
    else .ok ()
  | .months monthsInterval _ _ _ =>
    if monthsInterval < 1 then .error "Months must be larger than 0" else .ok ()
  | .weeks _ _ _ _ => .ok ()
  | .cronExpression _ => .ok ()

/-- The numbers that `randomInt` draws. -/
structure Draws where
  second : ℕ
  minute : ℕ
  hour : ℕ
  dayOfMonth : ℕ
  deriving DecidableEq, Repr

def toCronExpression (interval : ScheduleInterval) (draws : Draws) : CronExpression :=
  match interval with
  | .cronExpression expression => expression
  | .seconds secondsInterval => { second := .step secondsInterval }
  | .minutes minutesInterval => { second := .value draws.second, minute := .step minutesInterval }
  | .hours hoursInterval triggerAtMinute =>
    { second := .value draws.second, minute := .value (triggerAtMinute.getD draws.minute)
      hour := .step hoursInterval }
  | .days _ triggerAtHour triggerAtMinute =>
    { second := .value draws.second, minute := .value (triggerAtMinute.getD draws.minute)
      hour := .value (triggerAtHour.getD draws.hour) }
  | .weeks _ triggerAtDay triggerAtHour triggerAtMinute =>
    { second := .value draws.second, minute := .value (triggerAtMinute.getD draws.minute)
      hour := .value (triggerAtHour.getD draws.hour)
      dayOfWeek := if triggerAtDay.length = 0 then .any else .list triggerAtDay }
  | .months monthsInterval triggerAtDayOfMonth triggerAtHour triggerAtMinute =>
    { second := .value draws.second, minute := .value (triggerAtMinute.getD draws.minute)
      hour := .value (triggerAtHour.getD draws.hour)
      dayOfMonth := .value (triggerAtDayOfMonth.getD draws.dayOfMonth)
      month := .step monthsInterval }

def intervalToRecurrence (interval : ScheduleInterval) (index : ℕ) : IRecurrenceRule :=
  match interval with
  | .hours hoursInterval _ =>
    if hoursInterval ≠ 1 then .activated index hoursInterval .hours else .notActivated
  | .days daysInterval _ _ =>
    if daysInterval ≠ 1 then .activated index daysInterval .days else .notActivated
  | .weeks weeksInterval _ _ _ =>
    if weeksInterval ≠ 1 then .activated index weeksInterval .weeks else .notActivated
  | .months monthsInterval _ _ _ =>
    if monthsInterval ≠ 1 then .activated index monthsInterval .months else .notActivated
  | .cronExpression _ => .notActivated
  | .seconds _ => .notActivated
  | .minutes _ => .notActivated

structure Moment where
  hour : ℕ
  dayOfYear : ℕ
  week : ℕ
  month : ℕ
  deriving DecidableEq, Repr

def Calendar.moment (c : Calendar) (t : ℕ) : Moment where
  hour := t / 3600 % 24
  dayOfYear := c.dayOfYear (dayOf t)
  week := c.week (dayOf t)
  month := c.month (dayOf t)

/-- The four branches of `recurrenceCheck`: the tick is accepted if it is the first
or due after the last one, and then becomes the last one. -/
def checkRule (recurrenceRules : Dict ℕ ℕ) (index current : ℕ) (due : ℕ → Bool) :
    Bool × Dict ℕ ℕ :=
  if (recurrenceRules.get? index).all due then (true, recurrenceRules.set index current)
  else (false, recurrenceRules)

def recurrenceCheck (recurrence : IRecurrenceRule) (recurrenceRules : Dict ℕ ℕ) (now : Moment) :
    Bool × Dict ℕ ℕ :=
  match recurrence with
  | .notActivated => (true, recurrenceRules)
  | .activated index intervalSize typeInterval =>
    if intervalSize = 0 then (false, recurrenceRules)
    else match typeInterval with
      | .hours => checkRule recurrenceRules index now.hour fun lastExecution =>
        now.hour = (intervalSize + lastExecution) % 24
      | .days => checkRule recurrenceRules index now.dayOfYear fun lastExecution =>
        now.dayOfYear = (intervalSize + lastExecution) % 365
      | .weeks => checkRule recurrenceRules index now.week fun lastExecution =>
        now.week = (intervalSize + lastExecution) % 52 || now.week = lastExecution
      | .months => checkRule recurrenceRules index now.month fun lastExecution =>
        now.month = (intervalSize + lastExecution) % 12

/-- The schedule after some ticks: the time of the last one and the rules. -/
structure ScheduleRun where
  now : ℕ
  recurrenceRules : Dict ℕ ℕ
  deriving DecidableEq

def executeTrigger (c : Calendar) (interval : ScheduleInterval) (index : ℕ) (s : ScheduleRun)
    (t : ℕ) : Except Unit ScheduleRun :=
  .ok ⟨t, (recurrenceCheck (intervalToRecurrence interval index) s.recurrenceRules
    (c.moment t)).2⟩

def accepts (c : Calendar) (interval : ScheduleInterval) (index : ℕ) (recurrenceRules : Dict ℕ ℕ)
    (t : ℕ) : Bool :=
  (recurrenceCheck (intervalToRecurrence interval index) recurrenceRules (c.moment t)).1

end N8n
