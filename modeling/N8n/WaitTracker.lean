/-
The tracker that starts waiting executions when their time has come.

`waitingExecutions` holds the timer of every execution that is scheduled, and an
execution found there is not scheduled again.  When the instance stops being the
leader, the timers are cleared but the entries stay.

* `notForgotten_iff` — **no execution is forgotten along a run iff none that is
  pending at a stepdown is still pending at the next takeover**.
-/
import N8n.Runs
import N8n.Dict
import Mathlib.Data.Int.Notation
import Mathlib.Data.Nat.Basic

namespace N8n

def timeoutDelay (delay : ℤ) : ℤ := if 1 ≤ delay ∧ delay ≤ 2147483647 then delay else 1

/-- A timeout that starts an execution, with the time the execution waits for
and the time the timeout is due. -/
structure WaitTimer where
  timerId : ℕ
  executionId : String
  waitTill : ℤ
  due : ℤ
  deriving DecidableEq, Repr

structure WaitingExecution where
  id : String
  waitTill : ℤ
  deriving DecidableEq, Repr

/-- The tracker with the clock and the live timeouts and intervals of the
process; `queries` calls of `getWaitingExecutions` wait for their rows. -/
structure WaitTracker where
  waitingExecutions : Dict String WaitTimer := .empty
  mainTimer : Option ℕ := none
  timers : List WaitTimer := []
  intervals : List ℕ := []
  queries : ℕ := 0
  nextTimer : ℕ := 0
  now : ℤ := 0
  /-- Between a takeover and the next stepdown. -/
  started : Bool := false
  /-- The entries whose timers a stepdown cleared. -/
  orphans : List String := []
  deriving DecidableEq

namespace WaitTracker
variable (t : WaitTracker)

def has (executionId : String) : Bool := t.waitingExecutions.has executionId

def clearTimeout (timers : List WaitTimer) (timer : WaitTimer) : List WaitTimer :=
  timers.filter (· ≠ timer)

/-- `getWaitingExecutions`, up to the `await` of the query. -/
def getWaitingExecutions : WaitTracker := { t with queries := t.queries + 1 }

/-- `startTracking`. -/
def startTracking : WaitTracker :=
  { t with
    started := true
    mainTimer := some t.nextTimer
    intervals := t.intervals ++ [t.nextTimer]
    nextTimer := t.nextTimer + 1 }.getWaitingExecutions

/-- The body of the loop over the rows. -/
def schedule (execution : WaitingExecution) : WaitTracker :=
  if t.has execution.id then t
  else
    let triggerTime := execution.waitTill - t.now
    let timer : WaitTimer := {
      timerId := t.nextTimer
      executionId := execution.id
      waitTill := execution.waitTill
      due := t.now + timeoutDelay triggerTime }
    { t with
      waitingExecutions := t.waitingExecutions.set execution.id timer
      timers := t.timers ++ [timer]
      nextTimer := t.nextTimer + 1 }

def queryReturns (executions : List WaitingExecution) : WaitTracker :=
  executions.foldl schedule { t with queries := t.queries - 1 }

def stopExecution (executionId : String) : WaitTracker :=
  match t.waitingExecutions.get? executionId with
  | none => t
  | some timer => { t with
    timers := clearTimeout t.timers timer
    waitingExecutions := t.waitingExecutions.erase executionId
    orphans := t.orphans.filter (· ≠ executionId) }

def startExecution (executionId : String) : WaitTracker :=
  { t with
    waitingExecutions := t.waitingExecutions.erase executionId
    orphans := t.orphans.filter (· ≠ executionId) }

def stopTracking : WaitTracker :=
  match t.mainTimer with
  | none => t
  | some mainTimer => { t with
    intervals := t.intervals.filter (· ≠ mainTimer)
    timers := t.waitingExecutions.values.foldl clearTimeout t.timers
    started := false
    orphans := t.waitingExecutions.keys }

end WaitTracker

inductive WaitTrackerEvent where
  /-- `init` on the leader, or a leader takeover. -/
  | takeover
  | stepdown
  /-- The interval fires. -/
  | poll (interval : ℕ)
  | queryReturns (executions : List WaitingExecution)
  | fires (timer : WaitTimer)
  | stopExecution (executionId : String)
  /-- A call of `startExecution` from elsewhere, for a parent execution. -/
  | startExecution (executionId : String)
  | passes (milliseconds : ℕ)
  deriving DecidableEq, Repr

namespace WaitTracker

/-- A query returns executions that wait for at most 70 seconds after it; a
timeout fires when it is due. -/
def step (t : WaitTracker) : WaitTrackerEvent → Except Unit WaitTracker
  | .takeover => .ok t.startTracking
  | .stepdown => .ok t.stopTracking
  | .poll interval => onlyIf (interval ∈ t.intervals) t.getWaitingExecutions
  | .queryReturns executions =>
    onlyIf (0 < t.queries ∧ ∀ execution ∈ executions, execution.waitTill ≤ t.now + 70000)
      (t.queryReturns executions)
  | .fires timer => onlyIf (timer ∈ t.timers ∧ timer.due ≤ t.now)
      ({ t with timers := clearTimeout t.timers timer }.startExecution timer.executionId)
  | .stopExecution executionId => .ok (t.stopExecution executionId)
  | .startExecution executionId => .ok (t.startExecution executionId)
  | .passes milliseconds => .ok { t with now := t.now + milliseconds }

/-- While the tracker is started every entry has a live timer, and a query gives
every execution it returns one; an entry goes when its execution is stopped or
started; and a timer starts its execution after the time it waited for. -/
structure NotForgotten (t : WaitTracker) (e : WaitTrackerEvent) (t' : WaitTracker) : Prop where
  live : t'.started → ∀ executionId timer,
    t'.waitingExecutions.get? executionId = some timer → timer ∈ t'.timers
  scheduled : ∀ executions, e = .queryReturns executions → t'.started →
    ∀ execution ∈ executions, ∃ timer ∈ t'.timers, timer.executionId = execution.id
  leaves : ∀ executionId, t.has executionId → t'.has executionId = false →
    e = .stopExecution executionId ∨ e = .startExecution executionId ∨
      ∃ timer, e = .fires timer ∧ timer.executionId = executionId
  onTime : ∀ timer, e = .fires timer → timer.waitTill ≤ t.now

/-- At a takeover no execution is left from before a stepdown. -/
def NothingLeftOver (t : WaitTracker) : WaitTrackerEvent → Prop
  | .takeover => t.orphans = []
  | _ => True

/-- The orphans are the entries without a live timer, and there are none while
the tracker is started. -/
structure Tracked (t : WaitTracker) : Prop where
  keyed : ∀ executionId timer, t.waitingExecutions.get? executionId = some timer →
    timer.executionId = executionId ∧ timer.timerId < t.nextTimer
  live : ∀ executionId timer, t.waitingExecutions.get? executionId = some timer →
    (timer ∈ t.timers ↔ executionId ∉ t.orphans)
  orphans : ∀ executionId ∈ t.orphans, t.has executionId
  fresh : ∀ timer ∈ t.timers, timer.timerId < t.nextTimer
  onTime : ∀ timer ∈ t.timers, timer.waitTill ≤ timer.due

theorem tracked_start : Tracked {} where
  keyed := fun _ _ h => by cases h
  live := fun _ _ h => by cases h
  orphans := List.forall_mem_nil _
  fresh := List.forall_mem_nil _
  onTime := List.forall_mem_nil _

section Steps

variable {t t' : WaitTracker} {timers : List WaitTimer}

theorem mem_clearTimeout {timer x : WaitTimer} :
    x ∈ clearTimeout timers timer ↔ x ∈ timers ∧ x ≠ timer := by
  rw [clearTimeout, List.mem_filter, decide_eq_true_iff]

theorem mem_foldl_clearTimeout {x : WaitTimer} : ∀ (cleared timers : List WaitTimer),
    x ∈ cleared.foldl clearTimeout timers ↔ x ∈ timers ∧ x ∉ cleared
  | [], timers => by simp
  | timer :: cleared, timers => by
    rw [List.foldl_cons, mem_foldl_clearTimeout cleared, mem_clearTimeout, List.mem_cons, not_or,
      and_assoc]

variable {executionId : String}

theorem has_iff_exists : t.has executionId = true ↔
    ∃ timer, t.waitingExecutions.get? executionId = some timer :=
  Option.isSome_iff_exists

theorem Tracked.forget (h : Tracked t) (executionId : String)
    (hsub : timers ⊆ t.timers)
    (hother : ∀ x ∈ t.timers, x.executionId ≠ executionId → x ∈ timers) :
    Tracked { t with
      timers
      waitingExecutions := t.waitingExecutions.erase executionId
      orphans := t.orphans.filter (· ≠ executionId) } where
  keyed := by
    intro id timer hget
    rw [Dict.get?_erase] at hget
    split at hget
    · cases hget
    · exact h.keyed id timer hget
  live := by
    intro id timer hget
    rw [Dict.get?_erase] at hget
    split at hget
    · cases hget
    · rename_i hne
      have hid : timer.executionId ≠ executionId := by
        rw [(h.keyed id timer hget).1]
        exact hne
      rw [List.mem_filter, decide_eq_true_iff, and_iff_left hne, ← h.live id timer hget]
      exact ⟨fun hmem => hsub hmem, fun hmem => hother timer hmem hid⟩
  orphans := by
    intro id hid
    obtain ⟨hid, hne⟩ := List.mem_filter.mp hid
    obtain ⟨timer, hget⟩ := has_iff_exists.mp (h.orphans id hid)
    refine has_iff_exists.mpr ⟨timer, ?_⟩
    rw [Dict.get?_erase, if_neg (by simpa using hne), hget]
  fresh := fun timer hmem => h.fresh timer (hsub hmem)
  onTime := fun timer hmem => h.onTime timer (hsub hmem)

theorem tracked_startExecution (h : Tracked t) (executionId : String) :
    Tracked (t.startExecution executionId) :=
  h.forget executionId (List.Subset.refl _) fun _ hmem _ => hmem

theorem tracked_fires (h : Tracked t) (timer : WaitTimer) :
    Tracked ({ t with timers := clearTimeout t.timers timer }.startExecution timer.executionId) :=
  h.forget timer.executionId (fun _ hmem => (mem_clearTimeout.mp hmem).1) fun _ hmem hne =>
    mem_clearTimeout.mpr ⟨hmem, fun heq => hne (heq ▸ rfl)⟩

theorem stopExecution_cases (t : WaitTracker) (executionId : String) :
    t.stopExecution executionId = t ∨
    ∃ timer, t.waitingExecutions.get? executionId = some timer ∧
      t.stopExecution executionId = { t with
        timers := clearTimeout t.timers timer
        waitingExecutions := t.waitingExecutions.erase executionId
        orphans := t.orphans.filter (· ≠ executionId) } := by
  rw [stopExecution]
  rcases hget : t.waitingExecutions.get? executionId with _ | timer
  · exact Or.inl rfl
  · exact Or.inr ⟨timer, rfl, rfl⟩

theorem tracked_stopExecution (h : Tracked t) (executionId : String) :
    Tracked (t.stopExecution executionId) := by
  rcases t.stopExecution_cases executionId with heq | ⟨timer, hget, heq⟩
  · rw [heq]
    exact h
  · rw [heq]
    refine h.forget executionId (fun _ hmem => (mem_clearTimeout.mp hmem).1) fun x hmem hne => ?_
    -- the timer of another execution is another timer
    refine mem_clearTimeout.mpr ⟨hmem, fun heq => hne ?_⟩
    rw [heq, (h.keyed executionId timer hget).1]

theorem stopTracking_cases (t : WaitTracker) : t.stopTracking = t ∨
    ∃ intervals, t.stopTracking = { t with
      intervals
      timers := t.waitingExecutions.values.foldl clearTimeout t.timers
      started := false
      orphans := t.waitingExecutions.keys } := by
  rw [stopTracking]
  rcases t.mainTimer with _ | mainTimer
  · exact Or.inl rfl
  · exact Or.inr ⟨_, rfl⟩

theorem tracked_stopTracking (h : Tracked t) : Tracked t.stopTracking := by
  rcases t.stopTracking_cases with heq | ⟨intervals, heq⟩
  · rw [heq]
    exact h
  · rw [heq]
    refine ⟨h.keyed, fun id timer hget => iff_of_false ?_ ?_, fun id hid => ?_, ?_, ?_⟩
    · -- every timer of an entry was cleared
      intro hmem
      exact ((mem_foldl_clearTimeout _ _).mp hmem).2 (Dict.mem_values_of_get? hget)
    · exact fun hnot => hnot (Dict.mem_keys_iff.mpr ⟨timer, hget⟩)
    · exact Dict.has_iff.mpr hid
    · exact fun x hmem => h.fresh x ((mem_foldl_clearTimeout _ _).mp hmem).1
    · exact fun x hmem => h.onTime x ((mem_foldl_clearTimeout _ _).mp hmem).1

theorem has_schedule (t : WaitTracker) (execution : WaitingExecution) (id : String) :
    (t.schedule execution).has id ↔ t.has id ∨ id = execution.id := by
  rw [schedule]
  split
  · rename_i hhas
    exact ⟨.inl, fun h => h.elim (fun hid => hid) fun heq => heq ▸ hhas⟩
  · rw [has, Dict.has_set, or_comm]
    rfl

variable {execution : WaitingExecution}

theorem tracked_schedule (h : Tracked t)
    (hsoon : execution.waitTill ≤ t.now + 70000) : Tracked (t.schedule execution) := by
  have horphans : ∀ id ∈ t.orphans, (t.schedule execution).has id :=
    fun id hid => (has_schedule t execution id).mpr (.inl (h.orphans id hid))
  by_cases hhas : t.has execution.id
  · rw [schedule, if_pos hhas]
    exact h
  · rw [schedule, if_neg hhas] at horphans ⊢
    have hdelay : execution.waitTill - t.now ≤ timeoutDelay (execution.waitTill - t.now) := by
      rw [timeoutDelay]
      split <;> omega
    refine ⟨?_, ?_, horphans, ?_, ?_⟩
    · intro id timer hget
      rw [Dict.get?_set] at hget
      split at hget
      · rename_i hid
        cases hget
        exact ⟨hid.symm, Nat.lt_succ_self _⟩
      · obtain ⟨hkey, hlt⟩ := h.keyed id timer hget
        exact ⟨hkey, Nat.lt_succ_of_lt hlt⟩
    · intro id timer hget
      rw [Dict.get?_set] at hget
      split at hget
      · rename_i hid
        cases hget
        refine iff_of_true (List.mem_append_right _ (List.mem_singleton_self _)) fun horphan => ?_
        rw [hid] at horphan
        exact hhas (h.orphans _ horphan)
      · -- the number of the new timer is not that of an old one
        rw [← h.live id timer hget, List.mem_append, List.mem_singleton]
        refine or_iff_left fun heq => ?_
        have hlt := (h.keyed id timer hget).2
        rw [heq] at hlt
        exact lt_irrefl _ hlt
    · intro x hmem
      rcases List.mem_append.mp hmem with hmem | hmem
      · exact Nat.lt_succ_of_lt (h.fresh x hmem)
      · rw [List.mem_singleton.mp hmem]
        exact Nat.lt_succ_self _
    · intro x hmem
      rcases List.mem_append.mp hmem with hmem | hmem
      · exact h.onTime x hmem
      · rw [List.mem_singleton.mp hmem]
        dsimp only
        omega

theorem schedule_spec (h : Tracked t)
    (hsoon : execution.waitTill ≤ t.now + 70000) :
    Tracked (t.schedule execution) ∧ (t.schedule execution).has execution.id ∧
      (∀ id, t.has id → (t.schedule execution).has id) ∧
      (t.schedule execution).orphans = t.orphans ∧ (t.schedule execution).started = t.started ∧
      (t.schedule execution).now = t.now := by
  refine ⟨tracked_schedule h hsoon, (has_schedule t execution _).mpr (.inr rfl),
    fun id hid => (has_schedule t execution id).mpr (.inl hid), ?_⟩
  rw [schedule]
  split <;> exact ⟨rfl, rfl, rfl⟩

theorem foldl_schedule_spec : ∀ {executions : List WaitingExecution} {t : WaitTracker},
    Tracked t → (∀ execution ∈ executions, execution.waitTill ≤ t.now + 70000) →
    Tracked (executions.foldl schedule t) ∧
      (∀ execution ∈ executions, (executions.foldl schedule t).has execution.id) ∧
      (∀ id, t.has id → (executions.foldl schedule t).has id) ∧
      (executions.foldl schedule t).orphans = t.orphans ∧
      (executions.foldl schedule t).started = t.started := by
  intro executions
  induction executions with
  | nil => exact fun h _ => ⟨h, List.forall_mem_nil _, fun _ hid => hid, rfl, rfl⟩
  | cons execution executions ih =>
    intro t h hsoon
    obtain ⟨hfirst, hrest⟩ := List.forall_mem_cons.mp hsoon
    obtain ⟨htracked, hhas, hkept, horphans, hstarted, hnow⟩ := schedule_spec h hfirst
    obtain ⟨htracked', hall, hkept', horphans', hstarted'⟩ :=
      ih htracked (by rw [hnow]; exact hrest)
    rw [List.foldl_cons]
    refine ⟨htracked', List.forall_mem_cons.mpr ⟨hkept' _ hhas, hall⟩,
      fun id hid => hkept' id (hkept id hid), horphans'.trans horphans, hstarted'.trans hstarted⟩

theorem queryReturns_spec (h : Tracked t) {executions : List WaitingExecution}
    (hsoon : ∀ execution ∈ executions, execution.waitTill ≤ t.now + 70000) :
    Tracked (t.queryReturns executions) ∧
      (∀ execution ∈ executions, (t.queryReturns executions).has execution.id) ∧
      (∀ id, t.has id → (t.queryReturns executions).has id) ∧
      (t.queryReturns executions).orphans = t.orphans ∧
      (t.queryReturns executions).started = t.started :=
  foldl_schedule_spec (t := { t with queries := t.queries - 1 })
    ⟨h.keyed, h.live, h.orphans, h.fresh, h.onTime⟩ hsoon

theorem tracked_startTracking (h : Tracked t) : Tracked t.startTracking where
  keyed := fun id timer hget =>
    ⟨(h.keyed id timer hget).1, Nat.lt_succ_of_lt (h.keyed id timer hget).2⟩
  live := h.live
  orphans := h.orphans
  fresh := fun timer hmem => Nat.lt_succ_of_lt (h.fresh timer hmem)
  onTime := h.onTime

variable {e : WaitTrackerEvent}

theorem tracked_step (h : Tracked t) (hstep : t.step e = .ok t') : Tracked t' := by
  cases e with
  | takeover =>
    cases hstep
    exact tracked_startTracking h
  | stepdown =>
    cases hstep
    exact tracked_stopTracking h
  | poll interval =>
    obtain ⟨-, rfl⟩ := onlyIf_eq_ok.mp hstep
    exact ⟨h.keyed, h.live, h.orphans, h.fresh, h.onTime⟩
  | queryReturns executions =>
    obtain ⟨⟨-, hsoon⟩, rfl⟩ := onlyIf_eq_ok.mp hstep
    exact (queryReturns_spec h hsoon).1
  | fires timer =>
    obtain ⟨-, rfl⟩ := onlyIf_eq_ok.mp hstep
    exact tracked_fires h timer
  | stopExecution executionId =>
    cases hstep
    exact tracked_stopExecution h executionId
  | startExecution executionId =>
    cases hstep
    exact tracked_startExecution h executionId
  | passes milliseconds =>
    cases hstep
    exact ⟨h.keyed, h.live, h.orphans, h.fresh, h.onTime⟩

theorem Tracked.live_iff (h : Tracked t) :
    (∀ executionId timer, t.waitingExecutions.get? executionId = some timer →
      timer ∈ t.timers) ↔ t.orphans = [] := by
  constructor
  · intro hlive
    refine List.eq_nil_iff_forall_not_mem.mpr fun id hid => ?_
    obtain ⟨timer, hget⟩ := has_iff_exists.mp (h.orphans id hid)
    exact (h.live id timer hget).mp (hlive id timer hget) hid
  · intro horphans id timer hget
    refine (h.live id timer hget).mpr ?_
    rw [horphans]
    exact List.not_mem_nil

theorem orphans_step_iff (h : Tracked t)
    (horphans : t.started → t.orphans = []) (hstep : t.step e = .ok t') :
    (t'.started → t'.orphans = []) ↔ NothingLeftOver t e := by
  cases e with
  | takeover =>
    cases hstep
    exact ⟨fun hnone => hnone rfl, fun hnone _ => hnone⟩
  | stepdown =>
    cases hstep
    refine iff_of_true ?_ trivial
    rcases t.stopTracking_cases with heq | ⟨intervals, heq⟩
    · rw [heq]
      exact horphans
    · rw [heq]
      exact fun hstarted => by cases hstarted
  | poll interval =>
    obtain ⟨-, rfl⟩ := onlyIf_eq_ok.mp hstep
    exact iff_of_true horphans trivial
  | queryReturns executions =>
    obtain ⟨⟨-, hsoon⟩, rfl⟩ := onlyIf_eq_ok.mp hstep
    obtain ⟨-, -, -, hsame, hstarted⟩ := queryReturns_spec h hsoon
    rw [hsame, hstarted]
    exact iff_of_true horphans trivial
  | fires timer =>
    obtain ⟨-, rfl⟩ := onlyIf_eq_ok.mp hstep
    exact iff_of_true (fun hstarted => by simp [startExecution, horphans hstarted]) trivial
  | stopExecution executionId =>
    cases hstep
    refine iff_of_true ?_ trivial
    rcases t.stopExecution_cases executionId with heq | ⟨timer, -, heq⟩
    · rw [heq]
      exact horphans
    · rw [heq]
      exact fun hstarted => by simp [horphans hstarted]
  | startExecution executionId =>
    cases hstep
    exact iff_of_true (fun hstarted => by simp [startExecution, horphans hstarted]) trivial
  | passes milliseconds =>
    cases hstep
    exact iff_of_true horphans trivial

theorem leaves_step (h : Tracked t) (hstep : t.step e = .ok t') (hbefore : t.has executionId) (hafter : t'.has executionId = false) :
    e = .stopExecution executionId ∨ e = .startExecution executionId ∨
      ∃ timer, e = .fires timer ∧ timer.executionId = executionId := by
  -- an entry that is erased is the one of the execution
  have herase : ∀ id, (t.waitingExecutions.erase id).has executionId = false →
      id = executionId := by
    intro id hgone
    rw [Dict.has, Dict.get?_erase] at hgone
    split at hgone
    · rename_i heq
      exact heq.symm
    · rw [has, Dict.has, hgone] at hbefore
      cases hbefore
  have hsame : ∀ u : WaitTracker, u.has executionId = t.has executionId →
      u.has executionId = false → False := by
    intro u hu hgone
    rw [hu, hbefore] at hgone
    cases hgone
  cases e with
  | takeover =>
    cases hstep
    exact (hsame _ rfl hafter).elim
  | stepdown =>
    cases hstep
    rcases t.stopTracking_cases with heq | ⟨intervals, heq⟩
    · exact (hsame _ (by rw [heq]) hafter).elim
    · exact (hsame _ (by rw [heq]; rfl) hafter).elim
  | poll interval =>
    obtain ⟨-, rfl⟩ := onlyIf_eq_ok.mp hstep
    exact (hsame _ rfl hafter).elim
  | queryReturns executions =>
    obtain ⟨⟨-, hsoon⟩, rfl⟩ := onlyIf_eq_ok.mp hstep
    rw [(queryReturns_spec h hsoon).2.2.1 executionId hbefore] at hafter
    cases hafter
  | fires timer =>
    obtain ⟨-, rfl⟩ := onlyIf_eq_ok.mp hstep
    exact Or.inr (Or.inr ⟨timer, rfl, herase _ hafter⟩)
  | stopExecution id =>
    cases hstep
    rcases t.stopExecution_cases id with heq | ⟨timer, -, heq⟩
    · exact (hsame _ (by rw [heq]) hafter).elim
    · rw [heq] at hafter
      exact Or.inl (by rw [herase id hafter])
  | startExecution id =>
    cases hstep
    exact Or.inr (Or.inl (by rw [herase id hafter]))
  | passes milliseconds =>
    cases hstep
    exact (hsame _ rfl hafter).elim

theorem notForgotten_step_iff (h : Tracked t)
    (horphans : t.started → t.orphans = []) (hstep : t.step e = .ok t') :
    NotForgotten t e t' ↔ NothingLeftOver t e := by
  have htracked := tracked_step h hstep
  rw [← orphans_step_iff h horphans hstep]
  constructor
  · exact fun hnot hstarted => htracked.live_iff.mp (hnot.live hstarted)
  · intro hnone
    refine ⟨fun hstarted => htracked.live_iff.mpr (hnone hstarted), ?_,
      fun id hbefore hafter => leaves_step h hstep hbefore hafter, ?_⟩
    · rintro executions rfl hstarted execution hmem
      obtain ⟨⟨-, hsoon⟩, rfl⟩ := onlyIf_eq_ok.mp hstep
      obtain ⟨timer, hget⟩ := has_iff_exists.mp ((queryReturns_spec h hsoon).2.1 execution hmem)
      exact ⟨timer, htracked.live_iff.mpr (hnone hstarted) _ timer hget,
        (htracked.keyed _ timer hget).1⟩
    · rintro timer rfl
      obtain ⟨⟨hmem, hdue⟩, -⟩ := onlyIf_eq_ok.mp hstep
      exact le_trans (h.onTime timer hmem) hdue

end Steps

/-- **No execution is forgotten along a run iff no takeover finds one that was
left over by a stepdown.** -/
theorem notForgotten_iff (events : List WaitTrackerEvent) :
    Along step NotForgotten {} events ↔
      Along step (fun t e _ => NothingLeftOver t e) {} events := by
  refine Along.iff_of_step (V := fun _ _ _ => True)
    (I := fun t => Tracked t ∧ (t.started → t.orphans = [])) ?_ ?_
    ⟨tracked_start, fun h => by cases h⟩ (Along.always (fun _ _ _ => trivial) _ _)
  · exact fun t e t' ht hstep _ => notForgotten_step_iff ht.1 ht.2 hstep
  · intro t e t' ht hstep _ hr
    exact ⟨tracked_step ht.1 hstep, fun hstarted =>
      (tracked_step ht.1 hstep).live_iff.mp (hr.live hstarted)⟩

/-- The instance loses and regains the leadership while an execution waits. -/
theorem not_notForgotten_takeover : ¬ Along step NotForgotten {}
    [.takeover, .queryReturns [⟨"123", 1000⟩], .stepdown, .takeover] := by
  intro h
  have hlive : Along step (fun _ _ t' => t'.started →
      ∀ timer ∈ t'.waitingExecutions.values, timer ∈ t'.timers) {}
      [.takeover, .queryReturns [⟨"123", 1000⟩], .stepdown, .takeover] := by
    refine h.mono fun _ _ t' hr hstarted timer hmem => ?_
    obtain ⟨id, hget⟩ := Dict.mem_values_iff.mp hmem
    exact hr.live hstarted id timer hget
  exact absurd hlive (by decide)

end WaitTracker

end N8n
