/-
The life of a task in the runner.

What the runner keeps of a task — whether it is in the map, its state object, the
call that executes it, and what the log says about it — is changed by inputs
about that task only, and goes through few shapes.

* `lifecycle` — **in every run the open offers and running tasks stay within the
  limit, and every task sends at most one result or error, none after it was
  cancelled, leaves the map once, and gets no timeout afterwards**.
-/
import N8n.TaskRunner

namespace N8n

/-- A result or error sent for a task, and the other events of its life. -/
inductive TaskEvent where
  | terminal
  | cancelled (found : TaskStatus)
  | removed
  | timedOut
  | unexpectedStatus
  deriving DecidableEq, Repr

/-- What an event of the runner means for a task. -/
def RunnerEvent.about (taskId : String) : RunnerEvent → Option TaskEvent
  | .sent (.taskdone id) => if id = taskId then some .terminal else none
  | .sent (.taskerror id) => if id = taskId then some .terminal else none
  | .sent _ => none
  | .cancelled id found => if id = taskId then some (.cancelled found) else none
  | .removed id => if id = taskId then some .removed else none
  | .timedOut id => if id = taskId then some .timedOut else none
  | .unexpectedStatus id => if id = taskId then some .unexpectedStatus else none

/-- A cancellation that found the task waiting or running. -/
def TaskEvent.Cancels (e : TaskEvent) : Prop :=
  e = .cancelled .waitingForSettings ∨ e = .cancelled .running

instance (e : TaskEvent) : Decidable e.Cancels := inferInstanceAs (Decidable (_ ∨ _))

/-- What is asked of the events of a task, in their order. -/
structure LawfulTask (events : List TaskEvent) : Prop where
  once : events.count .terminal ≤ 1
  cancelled : events.Pairwise fun a b => a.Cancels → b ≠ .terminal
  removed : events.count .removed ≤ 1
  timedOut : events.Pairwise fun a b => a = .removed → b ≠ .timedOut
  expected : .unexpectedStatus ∉ events

namespace LawfulTask

variable {events : List TaskEvent}

theorem nil : LawfulTask [] := ⟨by decide, .nil, by decide, .nil, List.not_mem_nil⟩

theorem append (h : LawfulTask events) {e : TaskEvent}
    (hterminal : e = .terminal → .terminal ∉ events ∧ ∀ a ∈ events, ¬ a.Cancels)
    (hremoved : e = .removed → .removed ∉ events)
    (htimedOut : e = .timedOut → .removed ∉ events)
    (hexpected : e ≠ .unexpectedStatus) : LawfulTask (events ++ [e]) where
  once := by
    rw [List.count_append, List.count_singleton]
    split
    · rename_i heq
      rw [List.count_eq_zero_of_not_mem (hterminal (beq_iff_eq.mp heq)).1]
    · exact h.once
  cancelled := by
    rw [List.pairwise_append]
    refine ⟨h.cancelled, List.pairwise_singleton _ _, fun a ha b hb hcancels hb' => ?_⟩
    rw [List.mem_singleton.mp hb] at hb'
    exact (hterminal hb').2 a ha hcancels
  removed := by
    rw [List.count_append, List.count_singleton]
    split
    · rename_i heq
      rw [List.count_eq_zero_of_not_mem (hremoved (beq_iff_eq.mp heq))]
    · exact h.removed
  timedOut := by
    rw [List.pairwise_append]
    refine ⟨h.timedOut, List.pairwise_singleton _ _, fun a ha b hb ha' hb' => ?_⟩
    rw [List.mem_singleton.mp hb] at hb'
    exact htimedOut hb' (ha' ▸ ha)
  expected := by
    rw [List.mem_append, List.mem_singleton]
    exact fun hmem => hmem.elim h.expected fun heq => hexpected heq.symm

end LawfulTask

namespace TaskRunner

variable {random : ℕ → ℕ} {s s' : TaskRunner} {taskId id : String} {taskState : TaskState}
  {throws : Bool}

/-- Whether the task is in the map, its state object, the call that executes it,
whether the broker sent an accept and settings for it, and what the log says. -/
structure TaskView where
  listed : Prop
  state : Option TaskState
  execution : Option ExecutionPoint
  offered : Prop
  settings : Prop
  events : List TaskEvent

def view (s : TaskRunner) (taskId : String) : TaskView where
  listed := taskId ∈ s.runningTasks
  state := s.taskStates.get? taskId
  execution := s.executions.get? taskId
  offered := taskId ∈ s.offered
  settings := taskId ∈ s.settings
  events := s.log.filterMap (RunnerEvent.about taskId)

namespace TaskView

variable (v : TaskView)

def record (e : TaskEvent) : TaskView := { v with events := v.events ++ [e] }

def setState (taskState : TaskState) : TaskView := { v with state := some taskState }

def setExecution (execution : Option ExecutionPoint) : TaskView := { v with execution }

open Classical in
/-- The task leaves the map, if it is there, and its timer is stopped. -/
noncomputable def finish (taskState : TaskState) : TaskView :=
  { v with
    listed := False
    state := some { taskState with timeoutTimer := false }
    events := v.events ++ if v.listed then [.removed] else [] }

end TaskView

section View

variable (s)

theorem view_record_self (e : RunnerEvent) {event : TaskEvent} (h : e.about id = some event) :
    (s.record e).view id = (s.view id).record event := by
  simp [record, view, TaskView.record, h]

theorem view_record_other (e : RunnerEvent) (h : e.about id = none) :
    (s.record e).view id = s.view id := by
  simp [record, view, h]

theorem view_setState_self :
    (s.setState taskId taskState).view taskId = (s.view taskId).setState taskState := by
  simp [setState, view, TaskView.setState]

theorem view_setState_other (h : id ≠ taskId) :
    (s.setState taskId taskState).view id = s.view id := by
  simp [setState, view, Dict.get?_set_of_ne _ h]

theorem view_setExecution_self (point : ExecutionPoint) :
    (s.setExecution taskId point).view taskId = (s.view taskId).setExecution (some point) := by
  simp [setExecution, view, TaskView.setExecution]

theorem view_setExecution_other (h : id ≠ taskId) (point : ExecutionPoint) :
    (s.setExecution taskId point).view id = s.view id := by
  simp [setExecution, view, Dict.get?_set_of_ne _ h]

theorem view_eraseExecution_self : { s with executions := s.executions.erase taskId }.view taskId =
    (s.view taskId).setExecution none := by
  simp [view, TaskView.setExecution]

theorem view_eraseExecution_other (h : id ≠ taskId) :
    { s with executions := s.executions.erase taskId }.view id = s.view id := by
  simp [view, Dict.get?_erase_of_ne _ h]

theorem view_sendOffer : (s.sendOffer random).view = s.view := by
  funext id
  simp [sendOffer, send, record, view, RunnerEvent.about]

theorem view_sendOffers : (s.sendOffers random).view = s.view := by
  have hiterate (n : ℕ) (t : TaskRunner) : ((sendOffer random)^[n] t).view = t.view := by
    induction n with
    | zero => rfl
    | succ n ih => rw [Function.iterate_succ_apply', view_sendOffer, ih]
  rw [sendOffers]
  split
  · exact hiterate _ _
  · rfl

theorem view_finishTask_self : (s.finishTask random taskId taskState).view taskId =
    (s.view taskId).finish taskState := by
  rw [finishTask, view_sendOffers, remove]
  split
  · rename_i hin
    have hin : taskId ∈ s.runningTasks := hin
    simp [setState, record, view, TaskView.finish, RunnerEvent.about, hin]
  · rename_i hout
    have hout : taskId ∉ s.runningTasks := hout
    simp [setState, view, TaskView.finish, hout]

theorem view_finishTask_other (h : id ≠ taskId) :
    (s.finishTask random taskId taskState).view id = s.view id := by
  rw [finishTask, view_sendOffers, remove]
  split
  · simp [setState, record, view, RunnerEvent.about, h, Ne.symm h, Dict.get?_set]
  · simp [setState, view, Dict.get?_set_of_ne _ h]

end View

/-- The task may still send its result or error. -/
def TaskView.Pending (v : TaskView) (taskState : TaskState) : Prop :=
  (v.listed ∧ taskState.status = .waitingForSettings) ∨ v.execution = some .executing ∨
    v.execution = some (.succeeded true) ∨ v.execution = some .rejected

/-- What holds of an accepted task: it was removed iff it is not listed; its timer
runs only while it is listed, and does while it waits for settings; and a listed
task that does not wait is being executed. -/
structure AcceptedTask (v : TaskView) (taskState : TaskState) : Prop where
  lawful : LawfulTask v.events
  offered : v.offered
  removed : .removed ∈ v.events ↔ ¬ v.listed
  timer : taskState.timeoutTimer = true → v.listed ∧ taskState.status ≠ .abortingTimeout
  waiting : taskState.status = .waitingForSettings → v.execution = none
  armed : taskState.status = .waitingForSettings → v.listed → taskState.timeoutTimer = true
  running : v.listed → taskState.status ≠ .waitingForSettings →
    ∃ point, v.execution = some point ∧ point ≠ .rejected
  settings : taskState.status ≠ .waitingForSettings → v.settings

/-- The task has sent no result or error, and where a cancellation found it, its
status says so. -/
def TaskView.Unsent (v : TaskView) (taskState : TaskState) : Prop :=
  .terminal ∉ v.events ∧ ∀ e ∈ v.events, e.Cancels → taskState.status = .abortingCancelled

def TaskInv (v : TaskView) : Prop :=
  match v.state with
  | none => ¬ v.listed ∧ v.execution = none ∧ v.events = []
  | some taskState => AcceptedTask v taskState ∧ (v.Pending taskState → v.Unsent taskState)

variable {v : TaskView}

theorem TaskInv.of_state (h : TaskInv v) (hstate : v.state = some taskState) :
    AcceptedTask v taskState ∧ (v.Pending taskState → v.Unsent taskState) := by
  rw [TaskInv, hstate] at h
  exact h

theorem taskInv_of_state (hstate : v.state = some taskState)
    (h : AcceptedTask v taskState) (hpending : v.Pending taskState → v.Unsent taskState) :
    TaskInv v := by
  rw [TaskInv, hstate]
  exact ⟨h, hpending⟩

theorem TaskInv.lawful (h : TaskInv v) : LawfulTask v.events := by
  rw [TaskInv] at h
  split at h
  · rw [h.2.2]
    exact .nil
  · exact h.1.lawful

namespace AcceptedTask

variable {v : TaskView}

section

variable (h : AcceptedTask v taskState)
include h

theorem setState (state : TaskState) :
    AcceptedTask (v.setState state) taskState :=
  ⟨h.lawful, h.offered, h.removed, h.timer, h.waiting, h.armed, h.running, h.settings⟩

theorem record {e : TaskEvent}
    (hterminal : e = .terminal → v.Unsent taskState ∧ taskState.status ≠ .abortingCancelled)
    (htimedOut : e = .timedOut → v.listed) (hremoved : e ≠ .removed)
    (hexpected : e ≠ .unexpectedStatus) : AcceptedTask (v.record e) taskState where
  lawful := h.lawful.append
    (fun he => ⟨(hterminal he).1.1, fun a ha hcancels =>
      (hterminal he).2 ((hterminal he).1.2 a ha hcancels)⟩)
    (fun he => (hremoved he).elim) (fun he hmem => h.removed.mp hmem (htimedOut he)) hexpected
  offered := h.offered
  removed := by
    rw [TaskView.record, List.mem_append, List.mem_singleton, or_iff_left (Ne.symm hremoved)]
    exact h.removed
  timer := h.timer
  waiting := h.waiting
  armed := h.armed
  running := h.running
  settings := h.settings

theorem finish :
    AcceptedTask (v.finish taskState) { taskState with timeoutTimer := false } where
  lawful := by
    rw [TaskView.finish]
    split
    · rename_i hlisted
      exact h.lawful.append (fun he => by cases he) (fun _ hmem => h.removed.mp hmem hlisted)
        (fun he => by cases he) (by decide)
    · rw [List.append_nil]
      exact h.lawful
  offered := h.offered
  removed := by
    refine iff_of_true ?_ not_false
    rw [TaskView.finish]
    split
    · exact List.mem_append_right _ List.mem_cons_self
    · rename_i hlisted
      exact List.mem_append_left _ (h.removed.mpr hlisted)
  timer := fun htimer => by cases htimer
  waiting := h.waiting
  armed := fun _ hlisted => hlisted.elim
  running := fun hlisted => hlisted.elim
  settings := h.settings

theorem timerOff
    (hwas : taskState.status ≠ .waitingForSettings) :
    AcceptedTask v { taskState with timeoutTimer := false } :=
  ⟨h.lawful, h.offered, h.removed, fun htimer => (by cases htimer), h.waiting,
    fun hwait => (hwas hwait).elim, h.running, h.settings⟩

theorem setStatus (status : TaskStatus)
    (hwas : taskState.status ≠ .waitingForSettings) (hstatus : status ≠ .waitingForSettings)
    (htimeout : status = .abortingTimeout → taskState.timeoutTimer = false) :
    AcceptedTask v { taskState with status } where
  lawful := h.lawful
  offered := h.offered
  removed := h.removed
  timer := by
    intro htimer
    refine ⟨(h.timer htimer).1, fun habort => ?_⟩
    have hoff := htimeout habort
    rw [show taskState.timeoutTimer = true from htimer] at hoff
    cases hoff
  waiting := fun hwait => (hstatus hwait).elim
  armed := fun hwait => (hstatus hwait).elim
  running := fun hlisted _ => h.running hlisted hwas
  settings := fun _ => h.settings hwas

theorem setExecution {execution : Option ExecutionPoint}
    (hwas : taskState.status ≠ .waitingForSettings)
    (hexecution : v.listed → ∃ point, execution = some point ∧ point ≠ .rejected) :
    AcceptedTask (v.setExecution execution) taskState where
  lawful := h.lawful
  offered := h.offered
  removed := h.removed
  timer := h.timer
  waiting := fun hwait => (hwas hwait).elim
  armed := h.armed
  running := fun hlisted _ => hexecution hlisted
  settings := h.settings

end

end AcceptedTask

namespace TaskView

variable {v : TaskView}

theorem Unsent.record (h : v.Unsent taskState) {e : TaskEvent} (hterminal : e ≠ .terminal)
    (hcancels : e.Cancels → taskState.status = .abortingCancelled) :
    (v.record e).Unsent taskState := by
  refine ⟨?_, ?_⟩
  · rw [TaskView.record, List.mem_append, List.mem_singleton]
    exact fun hmem => hmem.elim h.1 hterminal.symm
  · intro a ha ha'
    rcases List.mem_append.mp ha with ha | ha
    · exact h.2 a ha ha'
    · exact hcancels (List.mem_singleton.mp ha ▸ ha')

theorem Unsent.mono (h : v.Unsent taskState) (hstatus : taskState.status ≠ .abortingCancelled)
    (state : TaskState) : v.Unsent state :=
  ⟨h.1, fun e he hcancels => (hstatus (h.2 e he hcancels)).elim⟩

end TaskView

theorem taskInv_finish_waiting (h : AcceptedTask v taskState)
    (hwait : taskState.status = .waitingForSettings) : TaskInv (v.finish taskState) := by
  have hnone : (v.finish taskState).execution = none := h.waiting hwait
  refine taskInv_of_state rfl h.finish fun hpending => ?_
  rcases hpending with ⟨hlisted, -⟩ | hexecution | hexecution | hexecution
  · exact hlisted.elim
  · rw [hnone] at hexecution
    cases hexecution
  · rw [hnone] at hexecution
    cases hexecution
  · rw [hnone] at hexecution
    cases hexecution

theorem runningTask?_eq_some : s.runningTask? taskId = some taskState ↔
    taskId ∈ s.runningTasks ∧ s.taskStates.get? taskId = some taskState := by
  rw [runningTask?]
  split
  · rename_i h
    simp [h]
  · rename_i h
    simp [h]

theorem taskInv_of_others (h : ∀ id, TaskInv (s.view id)) (taskId : String)
    (hothers : ∀ id, id ≠ taskId → s'.view id = s.view id)
    (hself : TaskInv (s'.view taskId)) : ∀ id, TaskInv (s'.view id) := by
  intro id
  by_cases heq : id = taskId
  · exact heq ▸ hself
  · rw [hothers id heq]
    exact h id

section Handlers

variable (h : ∀ id, TaskInv (s.view id))

include h

theorem taskInv_taskCancelled : ∀ id, TaskInv ((s.taskCancelled random taskId).view id) := by
  rw [taskCancelled]
  split
  · exact h
  · rename_i taskState hrunning
    obtain ⟨hin, hget⟩ := runningTask?_eq_some.mp hrunning
    obtain ⟨haccepted, hunsent⟩ := (h taskId).of_state hget
    have hself : (s.record (.cancelled taskId taskState.status)).view taskId =
        (s.view taskId).record (.cancelled taskState.status) :=
      view_record_self _ (.cancelled taskId taskState.status) (if_pos rfl)
    have hfound : AcceptedTask ((s.view taskId).record (.cancelled taskState.status)) taskState :=
      haccepted.record (fun he => by cases he) (fun he => by cases he) (by simp) (by simp)
    refine taskInv_of_others h taskId ?_ ?_
    · intro id hne
      have hother : (s.record (.cancelled taskId taskState.status)).view id = s.view id :=
        view_record_other _ (.cancelled taskId taskState.status) (if_neg (Ne.symm hne))
      dsimp only
      split
      · rw [view_finishTask_other _ hne, hother]
      · exact hother
      · exact hother
      · rw [view_setState_other _ hne, hother]
    · -- A cancellation that found the task aborting changes nothing it could send.
      have haborting (hwaiting : taskState.status ≠ .waitingForSettings)
          (hrunning : taskState.status ≠ .running) :
          TaskInv ((s.view taskId).record (.cancelled taskState.status)) := by
        refine taskInv_of_state hget hfound fun hpending => ?_
        refine (hunsent hpending).record (by simp) fun hcancels => ?_
        simp [TaskEvent.Cancels, hwaiting, hrunning] at hcancels
      dsimp only
      split
      · rename_i hstatus
        rw [view_finishTask_self, hself]
        exact taskInv_finish_waiting hfound hstatus
      · rename_i hstatus
        rw [hself]
        exact haborting (by simp [hstatus]) (by simp [hstatus])
      · rename_i hstatus
        rw [hself]
        exact haborting (by simp [hstatus]) (by simp [hstatus])
      · rename_i hstatus
        rw [view_setState_self, hself]
        refine taskInv_of_state rfl
          ((hfound.setStatus _ (by simp [hstatus]) (by simp) (by simp)).setState _) fun hpending => ?_
        refine TaskView.Unsent.record (v := s.view taskId) ?_ (by simp) fun _ => rfl
        refine (hunsent ?_).mono (by simp [hstatus]) _
        simpa [TaskView.Pending, TaskView.setState, TaskView.record, hstatus] using hpending

theorem taskInv_timeout (hget : s.taskStates.get? taskId = some taskState)
    (htimer : taskState.timeoutTimer = true) :
    ∀ id, TaskInv ((((s.setState taskId { taskState with timeoutTimer := false }).record
      (.timedOut taskId)).taskTimedOut random taskId throws).view id) := by
  obtain ⟨haccepted, hunsent⟩ := (h taskId).of_state hget
  obtain ⟨hlisted, hnotTimedOut⟩ := haccepted.timer htimer
  have hlisted : taskId ∈ s.runningTasks := hlisted
  set fired := { taskState with timeoutTimer := false } with hfired
  set t := (s.setState taskId fired).record (.timedOut taskId) with ht
  have hself : t.view taskId = ((s.view taskId).setState fired).record .timedOut := by
    rw [ht, view_record_self _ (.timedOut taskId) (if_pos rfl), view_setState_self]
  have hother (id : String) (hne : id ≠ taskId) : t.view id = s.view id := by
    rw [ht, view_record_other _ (.timedOut taskId) (if_neg (Ne.symm hne)),
      view_setState_other _ hne]
  have hrunning : t.runningTask? taskId = some fired := by
    rw [runningTask?_eq_some]
    exact ⟨hlisted, by simp [ht, record, setState]⟩
  have htimedOut : AcceptedTask (((s.view taskId).setState fired).record .timedOut) taskState :=
    (haccepted.setState fired).record (fun he => by cases he) (fun _ => hlisted) (by simp) (by simp)
  rw [taskTimedOut, hrunning]
  dsimp only
  split
  · rename_i hstatus
    have hstatus : taskState.status = .waitingForSettings := hstatus
    refine taskInv_of_others h taskId (fun id hne => ?_) ?_
    · rw [view_finishTask_other _ hne]
      split
      · exact hother id hne
      · rw [send, view_record_other _ (.sent (.taskerror taskId)) (if_neg (Ne.symm hne)),
          hother id hne]
    · rw [view_finishTask_self]
      split
      · rw [hself]
        have hfinished := taskInv_finish_waiting htimedOut hstatus
        exact hfinished
      · rw [send, view_record_self _ (.sent (.taskerror taskId)) (if_pos rfl), hself]
        have hunsent : (((s.view taskId).setState fired).record .timedOut).Unsent taskState :=
          .record (v := (s.view taskId).setState fired) (hunsent (.inl ⟨hlisted, hstatus⟩))
            (by simp) (by simp [TaskEvent.Cancels])
        have hsent := htimedOut.record (e := .terminal)
          (fun _ => ⟨hunsent, by simp [hstatus]⟩) (fun he => by cases he) (by simp) (by simp)
        have hfinished := taskInv_finish_waiting hsent hstatus
        exact hfinished
  · rename_i hstatus
    exact (hnotTimedOut hstatus).elim
  · rename_i hstatus
    have hstatus : taskState.status = .running := hstatus
    refine taskInv_of_others h taskId (fun id hne => ?_) ?_
    · rw [view_setState_other _ hne, hother id hne]
    · rw [view_setState_self, hself]
      have hoff := htimedOut.timerOff (by simp [hstatus])
      have haborting := hoff.setStatus .abortingTimeout (by simp [hstatus]) (by simp)
        fun _ => rfl
      refine taskInv_of_state rfl (haborting.setState _) fun hpending => ?_
      have hwas : (s.view taskId).Pending taskState := by
        simpa [TaskView.Pending, TaskView.setState, TaskView.record, hstatus] using hpending
      exact .record (v := (s.view taskId).setState fired)
        ((hunsent hwas).mono (by simp [hstatus]) _) (by simp) (by simp [TaskEvent.Cancels])
  · rename_i hstatus
    have hstatus : taskState.status = .abortingCancelled := hstatus
    refine taskInv_of_others h taskId hother ?_
    rw [hself]
    refine taskInv_of_state rfl (htimedOut.timerOff (by simp [hstatus])) fun hpending => ?_
    have hwas : (s.view taskId).Pending taskState := by
      simpa [TaskView.Pending, TaskView.setState, TaskView.record, hstatus, hfired] using hpending
    exact .record (v := (s.view taskId).setState fired)
      ⟨(hunsent hwas).1, fun _ _ _ => hstatus⟩ (by simp) (by simp [TaskEvent.Cancels])

theorem taskInv_tasksettings (hnew : taskId ∉ s.settings) : ∀ id, TaskInv
    (({ s with settings := s.settings ++ [taskId] }.receivedSettings taskId).view id) := by
  set t := { s with settings := s.settings ++ [taskId] } with ht
  have hother (id : String) (hne : id ≠ taskId) : t.view id = s.view id := by
    simp [ht, view, hne]
  have hself : t.view taskId = { s.view taskId with settings := True } := by
    simp [ht, view]
  have hkept : TaskInv (t.view taskId) := by
    have hold := h taskId
    rw [hself]
    rw [TaskInv] at hold ⊢
    rcases hget : (s.view taskId).state with _ | taskState
    · rw [hget] at hold
      exact hold
    · rw [hget] at hold
      obtain ⟨haccepted, hunsent⟩ := hold
      exact ⟨⟨haccepted.lawful, haccepted.offered, haccepted.removed, haccepted.timer,
        haccepted.waiting, haccepted.armed, haccepted.running, fun _ => trivial⟩, hunsent⟩
  rw [receivedSettings]
  split
  · exact taskInv_of_others h taskId hother hkept
  · rename_i taskState hrunning
    obtain ⟨hin, hget⟩ := runningTask?_eq_some.mp hrunning
    obtain ⟨haccepted, hunsent⟩ := (h taskId).of_state hget
    have hstatus : taskState.status = .waitingForSettings := by
      by_contra hne
      exact hnew (haccepted.settings hne)
    rw [hstatus]
    dsimp only
    refine taskInv_of_others h taskId (fun id hne => ?_) ?_
    · rw [view_setExecution_other _ hne, view_setState_other _ hne, hother id hne]
    · rw [view_setExecution_self, view_setState_self, hself]
      refine taskInv_of_state rfl ⟨haccepted.lawful, haccepted.offered, haccepted.removed,
        fun htimer => ⟨hin, by simp⟩, by simp, by simp, fun _ _ => ⟨.executing, rfl, by simp⟩,
        fun _ => trivial⟩ fun _ => ?_
      exact (hunsent (.inl ⟨hin, hstatus⟩)).mono (by simp [hstatus]) _

theorem taskInv_executionHandler {message : String → RunnerToBroker}
    {next : Bool → ExecutionPoint}
    (hmessage : ∀ id, RunnerEvent.about id (.sent (message taskId)) =
      if taskId = id then some .terminal else none)
    (hnext : ∀ thrown, next thrown ≠ .rejected ∧ next thrown ≠ .executing)
    (hsent : next false ≠ .succeeded true) (hget : s.taskStates.get? taskId = some taskState)
    (hexecution : s.executions.get? taskId = some .executing ∨
      s.executions.get? taskId = some .rejected) :
    ∀ id, TaskInv ((executionHandler message next s taskId throws taskState).view id) := by
  obtain ⟨haccepted, hunsent⟩ := (h taskId).of_state hget
  have hpending : (s.view taskId).Pending taskState :=
    hexecution.elim (fun hx => .inr (.inl hx)) fun hx => .inr (.inr (.inr hx))
  have hstatus : taskState.status ≠ .waitingForSettings := by
    intro hwait
    have hnone : s.executions.get? taskId = none := haccepted.waiting hwait
    simp [hnone] at hexecution
  have hkept (thrown : Bool) (v : TaskView) (hv : AcceptedTask v taskState) :
      AcceptedTask (v.setExecution (some (next thrown))) taskState :=
    hv.setExecution hstatus fun _ => ⟨next thrown, rfl, (hnext thrown).1⟩
  -- after the message is sent no other can be
  have hover (v : TaskView) : ¬ (v.setExecution (some (next false))).Pending taskState := by
    rintro (⟨-, hwait⟩ | hx | hx | hx)
    · exact hstatus hwait
    · exact (hnext false).2 (Option.some.inj hx)
    · exact hsent (Option.some.inj hx)
    · exact (hnext false).1 (Option.some.inj hx)
  rw [executionHandler]
  split
  · rename_i hwait
    exact (hstatus hwait).elim
  · refine taskInv_of_others h taskId (fun id hne => view_setExecution_other _ hne _) ?_
    rw [view_setExecution_self]
    exact taskInv_of_state hget (hkept false _ haccepted) fun hp => (hover _ hp).elim
  · rename_i hcancelled
    split
    · refine taskInv_of_others h taskId (fun id hne => view_setExecution_other _ hne _) ?_
      rw [view_setExecution_self]
      exact taskInv_of_state hget (hkept true _ haccepted) fun _ => hunsent hpending
    · refine taskInv_of_others h taskId (fun id hne => ?_) ?_
      · rw [view_setExecution_other _ hne, send, view_record_other]
        rw [hmessage, if_neg (Ne.symm hne)]
      · rw [view_setExecution_self, send, view_record_self _ _ ((hmessage _).trans (if_pos rfl))]
        refine taskInv_of_state hget (hkept false _ ?_) fun hp => (hover _ hp).elim
        exact haccepted.record (fun _ => ⟨hunsent hpending, hcancelled⟩) (fun he => by cases he)
          (by simp) (by simp)

theorem taskInv_taskExecutionSucceeded (hget : s.taskStates.get? taskId = some taskState)
    (hexecution : s.executions.get? taskId = some .executing) :
    ∀ id, TaskInv ((s.taskExecutionSucceeded taskId throws taskState).view id) :=
  taskInv_executionHandler h (fun _ => rfl) (by simp) (by simp) hget (.inl hexecution)

theorem taskInv_taskExecutionFailed (hget : s.taskStates.get? taskId = some taskState)
    (hexecution : s.executions.get? taskId = some .executing ∨
      s.executions.get? taskId = some .rejected) :
    ∀ id, TaskInv ((s.taskExecutionFailed taskId throws taskState).view id) :=
  taskInv_executionHandler h (fun _ => rfl) (by simp) (by simp) hget hexecution

theorem taskInv_afterHandler {thrown : Bool} (hget : s.taskStates.get? taskId = some taskState)
    (hexecution : s.executions.get? taskId = some (.succeeded thrown) ∨
      s.executions.get? taskId = some .failed ∧ thrown = false) :
    ∀ id, TaskInv ((s.afterHandler random taskId thrown taskState).view id) := by
  obtain ⟨haccepted, hunsent⟩ := (h taskId).of_state hget
  have hstatus : taskState.status ≠ .waitingForSettings := by
    intro hwait
    have hnone : s.executions.get? taskId = none := haccepted.waiting hwait
    simp [hnone] at hexecution
  rw [afterHandler]
  split
  · -- the `catch` is to come, so nothing was sent and nothing may be but by it
    rename_i hthrown
    subst hthrown
    have hx : s.executions.get? taskId = some (.succeeded true) :=
      hexecution.resolve_right (by simp)
    refine taskInv_of_others h taskId (fun id hne => ?_) ?_
    · rw [view_setExecution_other _ hne, view_finishTask_other _ hne]
    · rw [view_setExecution_self, view_finishTask_self]
      refine taskInv_of_state rfl (haccepted.finish.setExecution hstatus fun hin => hin.elim)
        fun _ => ?_
      obtain ⟨hterminal, hcancels⟩ := hunsent (.inr (.inr (.inl hx)))
      refine ⟨?_, ?_⟩
      · rw [TaskView.setExecution, TaskView.finish]
        simp only [List.mem_append, not_or]
        exact ⟨hterminal, by split <;> simp⟩
      · intro e he hcancel
        rw [TaskView.setExecution, TaskView.finish] at he
        rcases List.mem_append.mp he with he | he
        · exact hcancels e he hcancel
        · split at he
          · rw [List.mem_singleton.mp he] at hcancel
            simp [TaskEvent.Cancels] at hcancel
          · cases he
  · rename_i hthrown
    refine taskInv_of_others h taskId (fun id hne => ?_) ?_
    · rw [view_eraseExecution_other _ hne, view_finishTask_other _ hne]
    · rw [view_eraseExecution_self, view_finishTask_self]
      refine taskInv_of_state rfl (haccepted.finish.setExecution hstatus fun hin => hin.elim)
        fun hpending => ?_
      rcases hpending with ⟨hin, -⟩ | hx | hx | hx
      · exact hin.elim
      · cases hx
      · cases hx
      · cases hx

theorem taskInv_taskofferaccept {offerId : ℕ} (hoffered : taskId ∉ s.offered) : ∀ id, TaskInv
    (({ s with offered := s.offered ++ [taskId] }.offerAccepted offerId taskId).view id) := by
  have hnone : (s.view taskId).state = none := by
    rcases hget : (s.view taskId).state with _ | taskState
    · rfl
    · exact (hoffered ((h taskId).of_state hget).1.offered).elim
  have hfresh := h taskId
  rw [TaskInv, hnone] at hfresh
  set t := { s with offered := s.offered ++ [taskId] } with ht
  have hself : t.view taskId = { s.view taskId with offered := True } := by
    simp [ht, view]
  have hkept : ∀ id, TaskInv (t.view id) := by
    refine taskInv_of_others h taskId (fun id hne => by simp [ht, view, hne]) ?_
    rw [hself, TaskInv]
    dsimp only
    rw [hnone]
    exact hfresh
  have hrejected (reason : String) (u : TaskRunner) (id : String) :
      (u.send (.taskrejected taskId reason)).view id = u.view id := view_record_other _ _ rfl
  rw [offerAccepted]
  split
  · intro id
    rw [hrejected]
    exact hkept id
  · split
    · intro id
      rw [hrejected]
      exact hkept id
    · refine taskInv_of_others hkept taskId (fun id hne => ?_) ?_
      · rw [send, view_record_other _ _ rfl]
        simp [setState, deleteOffer, view, hne, Dict.get?_set]
      · rw [send, view_record_other _ _ rfl]
        obtain ⟨-, hexecution, hevents⟩ := hfresh
        have hexecution : s.executions.get? taskId = none := hexecution
        have hevents : s.log.filterMap (RunnerEvent.about taskId) = [] := hevents
        refine @taskInv_of_state {} _ (by simp [setState, view]) ?_ fun hpending => ?_
        · constructor <;>
            simp [setState, deleteOffer, view, ht, hexecution, hevents, LawfulTask.nil]
        · simp [TaskView.Unsent, setState, deleteOffer, view, ht, hevents]

end Handlers

/-- The open offers and the running tasks are within the limit, which stays. -/
def WithinLimit (maxConcurrency : ℕ) (s : TaskRunner) : Prop :=
  s.maxConcurrency = maxConcurrency ∧
    s.openOffers.length + s.runningTasks.length ≤ maxConcurrency

variable {maxConcurrency : ℕ}

section

variable (h : s.WithinLimit maxConcurrency)
include h

theorem WithinLimit.mono
    (hmax : s'.maxConcurrency = s.maxConcurrency)
    (hoffers : s'.openOffers.length ≤ s.openOffers.length)
    (hrunning : s'.runningTasks.length ≤ s.runningTasks.length) :
    s'.WithinLimit maxConcurrency :=
  ⟨hmax.trans h.1, le_trans (Nat.add_le_add hoffers hrunning) h.2⟩

theorem WithinLimit.sendOffers :
    (s.sendOffers random).WithinLimit maxConcurrency := by
  have hiterate (n : ℕ) (t : TaskRunner) :
      ((sendOffer random)^[n] t).openOffers.length = t.openOffers.length + n ∧
      ((sendOffer random)^[n] t).runningTasks = t.runningTasks ∧
      ((sendOffer random)^[n] t).maxConcurrency = t.maxConcurrency := by
    induction n with
    | zero => exact ⟨rfl, rfl, rfl⟩
    | succ n ih =>
      obtain ⟨hoffers, hrunning, hmax⟩ := ih
      rw [Function.iterate_succ_apply']
      refine ⟨?_, hrunning, hmax⟩
      simp only [sendOffer, send, record, List.length_append, hoffers, List.length_singleton]
      omega
  have hstale : s.deleteStaleOffers.WithinLimit maxConcurrency :=
    h.mono rfl (List.length_filter_le _ _) le_rfl
  rw [TaskRunner.sendOffers]
  split
  · obtain ⟨hoffers, hrunning, hmax⟩ := hiterate (s.deleteStaleOffers.maxConcurrency -
      (s.deleteStaleOffers.openOffers.length + s.deleteStaleOffers.runningTasks.length))
      s.deleteStaleOffers
    obtain ⟨hsame, hlimit⟩ := hstale
    refine ⟨hmax.trans hsame, ?_⟩
    rw [hoffers, hrunning]
    omega
  · exact hstale

theorem WithinLimit.finishTask :
    (s.finishTask random taskId taskState).WithinLimit maxConcurrency := by
  refine WithinLimit.sendOffers ?_
  rw [remove]
  split
  · exact h.mono rfl le_rfl (List.length_filter_le _ _)
  · exact h.mono rfl le_rfl le_rfl

theorem WithinLimit.offerAccepted (offerId : ℕ)
    (taskId : String) : (s.offerAccepted offerId taskId).WithinLimit maxConcurrency := by
  rw [TaskRunner.offerAccepted]
  split
  · exact h.mono rfl (List.length_filter_le _ _) le_rfl
  · split
    · exact h.mono rfl le_rfl le_rfl
    · rename_i hopen
      rw [not_not, List.any_eq_true] at hopen
      obtain ⟨offer, hoffer, heq⟩ := hopen
      have hless : (s.openOffers.filter fun offer => offer.offerId ≠ offerId).length <
          s.openOffers.length := by
        refine List.length_filter_lt_length_iff_exists.mpr ⟨offer, hoffer, ?_⟩
        simpa using heq
      obtain ⟨hsame, hlimit⟩ := h
      refine ⟨hsame, ?_⟩
      simp only [setState, deleteOffer, send, record, List.length_append, List.length_singleton]
      omega

theorem WithinLimit.taskCancelled (taskId : String) :
    (s.taskCancelled random taskId).WithinLimit maxConcurrency := by
  rw [TaskRunner.taskCancelled]
  split
  · exact h
  · dsimp only
    split
    · exact WithinLimit.finishTask h
    · exact h
    · exact h
    · exact h

theorem WithinLimit.taskTimedOut (taskId : String) :
    (s.taskTimedOut random taskId throws).WithinLimit maxConcurrency := by
  rw [TaskRunner.taskTimedOut]
  split
  · exact h
  · split
    · refine WithinLimit.finishTask ?_
      split
      · exact h
      · exact h
    · exact h
    · exact h
    · exact h

theorem WithinLimit.receivedSettings (taskId : String) :
    (s.receivedSettings taskId).WithinLimit maxConcurrency := by
  rw [TaskRunner.receivedSettings]
  split
  · exact h
  · split
    · exact h
    · exact h
    · exact h
    · exact h

end

theorem WithinLimit.executionHandler {message : String → RunnerToBroker}
    {next : Bool → ExecutionPoint} (h : s.WithinLimit maxConcurrency) :
    (executionHandler message next s taskId throws taskState).WithinLimit maxConcurrency := by
  rw [TaskRunner.executionHandler]
  split
  · exact h
  · exact h
  · split
    · exact h
    · exact h

theorem WithinLimit.afterHandler {thrown : Bool} (h : s.WithinLimit maxConcurrency) :
    (s.afterHandler random taskId thrown taskState).WithinLimit maxConcurrency := by
  rw [TaskRunner.afterHandler]
  split
  · exact WithinLimit.finishTask h
  · exact WithinLimit.finishTask h

structure RunnerInv (maxConcurrency : ℕ) (s : TaskRunner) : Prop where
  limit : s.WithinLimit maxConcurrency
  tasks : ∀ id, TaskInv (s.view id)

theorem runnerInv_start (maxConcurrency : ℕ) : RunnerInv maxConcurrency (start maxConcurrency) where
  limit := ⟨rfl, Nat.zero_le _⟩
  tasks := by
    intro id
    rw [TaskInv]
    simp [view, start]

theorem runnerInv_step {input : RunnerInput} (h : RunnerInv maxConcurrency s)
    (hstep : step random s input = .ok s') : RunnerInv maxConcurrency s' := by
  obtain ⟨hlimit, htasks⟩ := h
  cases input with
  | advance ns =>
    cases hstep
    exact ⟨hlimit, htasks⟩
  | registered =>
    cases hstep
    exact ⟨hlimit, htasks⟩
  | closed =>
    cases hstep
    exact ⟨hlimit, htasks⟩
  | interval =>
    cases hstep
    refine ⟨hlimit.sendOffers, fun id => ?_⟩
    rw [view_sendOffers]
    exact htasks id
  | taskofferaccept offerId taskId =>
    obtain ⟨hnew, rfl⟩ := onlyIf_eq_ok.mp hstep
    refine ⟨WithinLimit.offerAccepted ?_ _ _, taskInv_taskofferaccept htasks hnew⟩
    exact hlimit
  | taskcancel taskId =>
    cases hstep
    exact ⟨hlimit.taskCancelled _, taskInv_taskCancelled htasks⟩
  | tasksettings taskId =>
    obtain ⟨hnew, rfl⟩ := onlyIf_eq_ok.mp hstep
    refine ⟨WithinLimit.receivedSettings ?_ _, taskInv_tasksettings htasks hnew⟩
    exact hlimit
  | timeout taskId throws =>
    rw [step] at hstep
    split at hstep
    · rename_i taskState hget
      obtain ⟨htimer, rfl⟩ := onlyIf_eq_ok.mp hstep
      refine ⟨WithinLimit.taskTimedOut ?_ _, taskInv_timeout htasks hget htimer⟩
      exact hlimit
    · cases hstep
  | executed taskId success throws =>
    rw [step] at hstep
    split at hstep
    · rename_i taskState hexecution hget
      cases hstep
      split
      · exact ⟨hlimit.executionHandler, taskInv_taskExecutionSucceeded htasks hget hexecution⟩
      · exact ⟨hlimit.executionHandler, taskInv_taskExecutionFailed htasks hget (.inl hexecution)⟩
    · cases hstep
  | finished taskId =>
    rw [step] at hstep
    split at hstep
    · rename_i thrown taskState hexecution hget
      cases hstep
      exact ⟨hlimit.afterHandler, taskInv_afterHandler htasks hget (.inl hexecution)⟩
    · rename_i taskState hexecution hget
      cases hstep
      exact ⟨hlimit.afterHandler, taskInv_afterHandler htasks hget (.inr ⟨hexecution, rfl⟩)⟩
    · cases hstep
  | caught taskId throws =>
    rw [step] at hstep
    split at hstep
    · rename_i taskState hexecution hget
      cases hstep
      exact ⟨hlimit.executionHandler, taskInv_taskExecutionFailed htasks hget (.inr hexecution)⟩
    · cases hstep

def eventsOf (s : TaskRunner) (taskId : String) : List TaskEvent :=
  s.log.filterMap (RunnerEvent.about taskId)

/-- A result that cannot be sent: the task is removed, and then its error is sent. -/
example : (runInputs (step fun _ => 0) (start 1) [.registered, .interval, .taskofferaccept 0 "t",
    .tasksettings "t", .executed "t" true true, .finished "t", .caught "t" false,
    .finished "t"]).map (·.eventsOf "t") = .ok [.removed, .terminal] := by decide

/-- What is asked of every state.  The accepted tasks are those with a state object;
a task that is still in the map waits for its settings with its timer running, or
the call that executes it goes on. -/
structure Lifecycle (maxConcurrency : ℕ) (s : TaskRunner) : Prop where
  limit : s.openOffers.length + s.runningTasks.length ≤ maxConcurrency
  lawful : ∀ taskId, LawfulTask (s.eventsOf taskId)
  removed : ∀ taskId ∈ s.taskStates.keys,
    (s.eventsOf taskId).count .removed = if taskId ∈ s.runningTasks then 0 else 1
  alive : ∀ taskId ∈ s.runningTasks,
    s.taskStates.get? taskId = some { status := .waitingForSettings, timeoutTimer := true } ∨
      (s.executions.get? taskId).isSome
  timer : ∀ taskId taskState, s.taskStates.get? taskId = some taskState →
    taskState.timeoutTimer = true → taskId ∈ s.runningTasks

theorem RunnerInv.holds (h : RunnerInv maxConcurrency s) : Lifecycle maxConcurrency s where
  limit := h.limit.2
  lawful := fun taskId => (h.tasks taskId).lawful
  removed := by
    intro taskId hkey
    obtain ⟨taskState, hget⟩ := Dict.mem_keys_iff.mp hkey
    have haccepted := ((h.tasks taskId).of_state hget).1
    split
    · rename_i hin
      exact List.count_eq_zero_of_not_mem fun hmem => haccepted.removed.mp hmem hin
    · rename_i hout
      have hmem : .removed ∈ s.eventsOf taskId := haccepted.removed.mpr hout
      have hone : (s.eventsOf taskId).count .removed ≤ 1 := haccepted.lawful.removed
      have hpos := List.count_pos_iff.mpr hmem
      omega
  alive := by
    intro taskId hin
    rcases hget : s.taskStates.get? taskId with _ | ⟨status, timeoutTimer⟩
    · have hnone := h.tasks taskId
      rw [TaskInv, show (s.view taskId).state = none from hget] at hnone
      exact (hnone.1 hin).elim
    · have haccepted := ((h.tasks taskId).of_state hget).1
      by_cases hwait : status = .waitingForSettings
      · have harmed : timeoutTimer = true := haccepted.armed hwait hin
        rw [hwait, harmed]
        exact .inl rfl
      · obtain ⟨point, hpoint, -⟩ := haccepted.running hin hwait
        have hpoint : s.executions.get? taskId = some point := hpoint
        exact .inr (by rw [hpoint]; rfl)
  timer := fun taskId _ hget htimer => (((h.tasks taskId).of_state hget).1.timer htimer).1

/-- **The life of a task**: along every run the offers and tasks stay within the
limit, each task sends at most one result or error and none after a cancellation
that found it waiting or running, each accepted task is removed once, when it
ends, with no timeout after that, and no status is unexpected. -/
theorem lifecycle (random : ℕ → ℕ) (maxConcurrency : ℕ) (inputs : List RunnerInput) :
    Along (step random) (fun _ _ s' => Lifecycle maxConcurrency s') (start maxConcurrency)
      inputs := by
  have hstep (s : TaskRunner) (input : RunnerInput) (s' : TaskRunner)
      (h : RunnerInv maxConcurrency s) (hs : step random s input = .ok s') (_ : True) :
      Lifecycle maxConcurrency s' ∧ RunnerInv maxConcurrency s' :=
    ⟨(runnerInv_step h hs).holds, runnerInv_step h hs⟩
  exact Along.of_step (V := fun _ _ _ => True) hstep (runnerInv_start maxConcurrency)
    (Along.always (fun _ _ _ => trivial) inputs _)

end TaskRunner

end N8n
