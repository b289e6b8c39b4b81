/-
The timers of the queue recovery.

A leader recovers the queue again and again: a timeout starts a recovery, and the
recovery sets the next timeout when it is through.  A stop clears the last timeout
that was set, whether it has fired or not, and knows nothing of a recovery that runs.

* **`oneAtATime_of_undisturbed`** — along every run this is so, if no recovery is
  running at a stop and none is outstanding at a start.
-/
import N8n.Runs
import Mathlib.Data.Rat.Init

namespace N8n

/-- A live timeout. -/
structure RecoveryTimer where
  timerId : ℕ
  waitMs : ℚ
  deriving DecidableEq

/-- The queue recovery of an instance: `waitMs` and `timeout` of its context, what of the
settings of the instance it asks for, its live timers and its recoveries that run, by
the timers that started them. -/
structure RecoverySchedule where
  waitMs : ℚ := 0
  isSingleMain : Bool := false
  isLeader : Bool := false
  /-- The queue is set up. -/
  queue : Bool := false
  timeout : Option ℕ := none
  timers : List RecoveryTimer := []
  running : List ℕ := []
  nextTimer : ℕ := 0
  /-- Calls of `stopMain` that wait for the queue to be paused. -/
  pausing : ℕ := 0
  /-- Since a stop, and until the next takeover. -/
  stopped : Bool := false
  deriving DecidableEq

inductive RecoveryScheduleInput where
  | setupQueue
  | takeover
  | stepdown
  | stopMain
  /-- The queue is paused for a `stopMain`. -/
  | paused
  | fires (timerId : ℕ)
  /-- `recoverFromQueue` returned. -/
  | completed (timerId : ℕ) (nextWaitMs : ℚ)
  /-- `recoverFromQueue` threw. -/
  | failed (timerId : ℕ)
  deriving DecidableEq

namespace RecoverySchedule
variable (s : RecoverySchedule)

def scheduleQueueRecovery (waitMs : ℚ) : RecoverySchedule :=
  { s with
    timeout := some s.nextTimer
    timers := s.timers ++ [{ timerId := s.nextTimer, waitMs }]
    nextTimer := s.nextTimer + 1 }

def stopQueueRecovery : RecoverySchedule :=
  match s.timeout with
  | none => s
  | some timeout => { s with timers := s.timers.filter fun timer => timer.timerId ≠ timeout }

def setupQueue : RecoverySchedule :=
  if s.queue then s
  else if s.isLeader then { s with queue := true }.scheduleQueueRecovery 0
  else { s with queue := true }

def takeover : RecoverySchedule :=
  { s with isLeader := true, stopped := false }.scheduleQueueRecovery s.waitMs

def stepdown : RecoverySchedule :=
  { s with isLeader := false, stopped := true }.stopQueueRecovery

def stop : RecoverySchedule :=
  if s.timeout.isSome then { s with stopped := true }.stopQueueRecovery
  else { s with stopped := true }

/-- `stopMain`.  A single main pauses the queue first, which throws if there is none. -/
def stopMain : RecoverySchedule :=
  if s.isSingleMain then
    if s.queue then { s with pausing := s.pausing + 1 } else s
  else s.stop

def fires (timerId : ℕ) : RecoverySchedule :=
  { s with
    timers := s.timers.filter fun timer => timer.timerId ≠ timerId
    running := s.running ++ [timerId] }

def recovered (timerId : ℕ) (nextWaitMs : ℚ) : RecoverySchedule :=
  { s with running := s.running.erase timerId }.scheduleQueueRecovery nextWaitMs

def step : RecoveryScheduleInput → Except Unit RecoverySchedule
  | .setupQueue => .ok s.setupQueue
  | .takeover => .ok s.takeover
  | .stepdown => .ok s.stepdown
  | .stopMain => .ok s.stopMain
  | .paused => onlyIf (0 < s.pausing) { s with pausing := s.pausing - 1 }.stop
  | .fires timerId => onlyIf (timerId ∈ s.timers.map (·.timerId)) (s.fires timerId)
  | .completed timerId nextWaitMs =>
    onlyIf (timerId ∈ s.running) (s.recovered timerId nextWaitMs)
  | .failed timerId => onlyIf (timerId ∈ s.running) (s.recovered timerId s.waitMs)

/-- After the step at most one timer or recovery is outstanding, and the step starts no
recovery while the instance is stopped. -/
def OneAtATime (input : RecoveryScheduleInput) (s' : RecoverySchedule) : Prop :=
  s'.timers.length + s'.running.length ≤ 1 ∧ ∀ timerId, input = .fires timerId → s.stopped = false

def Idle : Prop := s.timers = [] ∧ s.running = []

instance (s : RecoverySchedule) : Decidable s.Idle := inferInstanceAs (Decidable (_ ∧ _))

/-- A start finds nothing outstanding, and a stop no recovery that runs.  Setting up the
queue is a start on a leader, which is not to be stopped then. -/
def Undisturbed : RecoveryScheduleInput → Prop
  | .setupQueue => s.queue = false → s.isLeader = true → s.Idle ∧ s.stopped = false
  | .takeover => s.Idle
  | .stepdown => s.running = []
  | .stopMain => s.isSingleMain = false → s.running = []
  | .paused => s.running = []
  | _ => True

instance (s : RecoverySchedule) (input : RecoveryScheduleInput) :
    Decidable (s.Undisturbed input) := by
  unfold Undisturbed
  split <;> infer_instance

/-- One timer, which the context knows, or one recovery is outstanding, or nothing is;
nothing is while the instance is stopped. -/
structure Inv : Prop where
  one : s.timers.length + s.running.length ≤ 1
  known : ∀ timer ∈ s.timers, s.timeout = some timer.timerId
  quiet : s.stopped = true → s.Idle

variable {s s' : RecoverySchedule}

theorem inv_schedule (hidle : s.Idle) (hstopped : s.stopped = false) (waitMs : ℚ) :
    Inv (s.scheduleQueueRecovery waitMs) where
  one := by simp [scheduleQueueRecovery, hidle.1, hidle.2]
  known timer htimer := by
    simp only [scheduleQueueRecovery, hidle.1, List.nil_append, List.mem_singleton] at htimer ⊢
    rw [htimer]
  quiet h := by
    rw [scheduleQueueRecovery, hstopped] at h
    cases h

theorem idle_stopQueueRecovery (hknown : ∀ timer ∈ s.timers, s.timeout = some timer.timerId)
    (hrunning : s.running = []) : s.stopQueueRecovery.Idle := by
  rw [stopQueueRecovery]
  cases htimeout : s.timeout with
  | none =>
    refine ⟨List.eq_nil_iff_forall_not_mem.mpr fun timer htimer => ?_, hrunning⟩
    rw [hknown timer htimer] at htimeout
    cases htimeout
  | some timeout =>
    -- the only live timer is the one that the context knows
    refine ⟨List.filter_eq_nil_iff.mpr fun timer htimer => ?_, hrunning⟩
    have hsame := hknown timer htimer
    rw [htimeout, Option.some.injEq] at hsame
    simp [hsame]

theorem inv_of_idle (hidle : s.Idle) : Inv s where
  one := by simp [hidle.1, hidle.2]
  known timer htimer := by simp [hidle.1] at htimer
  quiet _ := hidle

theorem Inv.stopping (h : Inv s) (hrunning : s.running = []) : Inv s.stop := by
  rw [stop]
  split
  · have hidle : { s with stopped := true }.stopQueueRecovery.Idle :=
      idle_stopQueueRecovery h.known hrunning
    exact inv_of_idle hidle
  · rename_i htimeout
    refine inv_of_idle ⟨List.eq_nil_iff_forall_not_mem.mpr fun timer htimer => ?_, hrunning⟩
    rw [h.known timer htimer] at htimeout
    exact htimeout rfl

theorem Inv.recovering (h : Inv s) {timerId : ℕ} (hrun : timerId ∈ s.running) (waitMs : ℚ) :
    Inv (s.recovered timerId waitMs) := by
  have hpos := List.length_pos_of_mem hrun
  have hone := h.one
  have htimers : s.timers = [] := List.length_eq_zero_iff.mp (by omega)
  have hrunning : s.running.erase timerId = [] := by
    have hlength := List.length_erase_of_mem hrun
    exact List.length_eq_zero_iff.mp (by omega)
  have hstopped : s.stopped = false := by
    by_contra hs
    rw [(h.quiet (by simpa using hs)).2] at hrun
    cases hrun
  exact inv_schedule (s := { s with running := s.running.erase timerId }) ⟨htimers, hrunning⟩
    hstopped waitMs

/-- Step lemma: an undisturbed step keeps one recovery at a time. -/
theorem inv_step (h : Inv s) {input : RecoveryScheduleInput} (hstep : s.step input = .ok s')
    (hinput : s.Undisturbed input) : s.OneAtATime input s' ∧ Inv s' := by
  have hinv : Inv s' → (∀ timerId, input = .fires timerId → s.stopped = false) →
      s.OneAtATime input s' ∧ Inv s' := fun hs' hfires => ⟨⟨hs'.one, hfires⟩, hs'⟩
  cases input with
  | setupQueue =>
    cases hstep
    refine hinv ?_ fun _ hfires => by cases hfires
    rw [setupQueue]
    split
    · exact h
    · rename_i hqueue
      split
      · rename_i hleader
        obtain ⟨hidle, hstopped⟩ := hinput (by simpa using hqueue) hleader
        exact inv_schedule (s := { s with queue := true }) hidle hstopped 0
      · exact ⟨h.one, h.known, h.quiet⟩
  | takeover =>
    cases hstep
    exact hinv (inv_schedule (s := { s with isLeader := true, stopped := false }) hinput rfl _)
      fun _ hfires => by cases hfires
  | stepdown =>
    cases hstep
    have hidle : s.stepdown.Idle := idle_stopQueueRecovery h.known hinput
    exact hinv (inv_of_idle hidle) fun _ hfires => by cases hfires
  | stopMain =>
    cases hstep
    refine hinv ?_ fun _ hfires => by cases hfires
    rw [stopMain]
    split
    · split
      · exact ⟨h.one, h.known, h.quiet⟩
      · exact h
    · rename_i hsingle
      exact h.stopping (hinput (by simpa using hsingle))
  | paused =>
    obtain ⟨-, rfl⟩ := onlyIf_eq_ok.mp hstep
    have hpaused : Inv { s with pausing := s.pausing - 1 } := ⟨h.one, h.known, h.quiet⟩
    exact hinv (hpaused.stopping hinput) fun _ hfires => by cases hfires
  | fires timerId =>
    obtain ⟨hlive, rfl⟩ := onlyIf_eq_ok.mp hstep
    obtain ⟨timer, htimer, rfl⟩ := List.mem_map.mp hlive
    -- the timer that fires is the only thing outstanding
    have hone := h.one
    have hpos := List.length_pos_of_mem htimer
    have hstopped : s.stopped = false := by
      by_contra hs
      rw [(h.quiet (by simpa using hs)).1] at htimer
      cases htimer
    have hrunning : s.running = [] := List.length_eq_zero_iff.mp (by omega)
    have htimers : (s.timers.filter fun other => other.timerId ≠ timer.timerId) = [] := by
      refine List.filter_eq_nil_iff.mpr fun other hother => ?_
      have hsame := (h.known other hother).symm.trans (h.known timer htimer)
      simpa using hsame
    refine hinv ⟨?_, ?_, ?_⟩ fun _ _ => hstopped
    · rw [fires, htimers, hrunning]
      exact Nat.le_refl 1
    · intro other hother
      rw [fires, htimers] at hother
      cases hother
    · intro hs
      rw [fires, hstopped] at hs
      cases hs
  | completed timerId nextWaitMs =>
    obtain ⟨hrun, rfl⟩ := onlyIf_eq_ok.mp hstep
    exact hinv (h.recovering hrun nextWaitMs) fun _ hfires => by cases hfires
  | failed timerId =>
    obtain ⟨hrun, rfl⟩ := onlyIf_eq_ok.mp hstep
    exact hinv (h.recovering hrun s.waitMs) fun _ hfires => by cases hfires

/-- **When the queue is recovered once at a time.**  Along every run in which each start
finds nothing outstanding and each stop no recovery that runs, at most one timer or
recovery is outstanding, and none starts between a stop and the next takeover. -/
theorem oneAtATime_of_undisturbed (waitMs : ℚ) (isSingleMain isLeader : Bool)
    {inputs : List RecoveryScheduleInput}
    (h : Along step (fun s input _ => s.Undisturbed input) { waitMs, isSingleMain, isLeader }
      inputs) :
    Along step OneAtATime { waitMs, isSingleMain, isLeader } inputs := by
  refine Along.of_step (I := Inv) ?_ (inv_of_idle ⟨rfl, rfl⟩) h
  exact fun _ _ _ hs hstep hinput => inv_step hs hstep hinput

/-- A leader recovers the queue twice, steps down and takes over again. -/
theorem oneAtATime_takeoverAfterStop :
    Along step OneAtATime { waitMs := 180000, isLeader := true }
      [.setupQueue, .fires 0, .completed 0 180000, .fires 1, .failed 1, .stepdown, .takeover,
        .fires 3] :=
  oneAtATime_of_undisturbed 180000 false true (by decide)

/-- A leader steps down while a recovery runs, and starts the next one all the same. -/
theorem not_oneAtATime_stepdownDuringRecovery :
    ¬ Along step OneAtATime { waitMs := 180000, isLeader := true }
      [.setupQueue, .fires 0, .stepdown, .completed 0 180000, .fires 1] := by
  intro h
  have hstopped : Along step (fun s input _ => input = .fires 1 → s.stopped = false)
      { waitMs := 180000, isLeader := true }
      [.setupQueue, .fires 0, .stepdown, .completed 0 180000, .fires 1] :=
    h.mono fun _ _ _ hs => hs.2 1
  exact absurd hstopped (by decide)

end RecoverySchedule

end N8n
