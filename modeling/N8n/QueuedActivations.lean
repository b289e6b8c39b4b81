/-
Retrying the activation of a workflow, and deactivating it.

A trigger that fails stops the workflow and queues an activation: a timer whose function calls
`add` and, where that fails, sets the next timer with twice the delay.  All of `add`, `remove`
and the retry function give way at every `await`, so that they interleave.

* `inactive_of_apart` — **deactivation is final, and retries neither fork nor throw, along every
  run whose steps keep them apart**.
-/
import N8n.Runs

namespace N8n

/-! ### The workflow -/

inductive WorkflowActivateMode where
  | init | create | update | activate | manual | leadershipChange
  deriving DecidableEq, Repr

def WorkflowActivateMode.isStart (activationMode : WorkflowActivateMode) : Bool :=
  activationMode ∈ [init, leadershipChange]

/-- What activation reads of the active version: whether it has a node to start with, its
webhooks, and how many trigger nodes and poll nodes it has. -/
structure ActiveVersion where
  isValid : Bool := true
  webhooks : List String := []
  triggerNodes : ℕ := 0
  pollNodes : ℕ := 0
  deriving DecidableEq, Repr

structure DbWorkflow where
  activeVersion : Option ActiveVersion
  deriving DecidableEq, Repr

/-! ### Calls that are waiting -/

/-- The `await` of `clearWebhooks` that is waited for. -/
inductive ClearStage where
  | findOne
  /-- This many calls before the rows are read. -/
  | calls (left : ℕ)
  | remove (rows : List String)
  deriving DecidableEq, Repr

/-- The `await` of an activation that is waited for. -/
inductive ActivationStage where
  | findById
  | getBase (version : ActiveVersion)
  | storeWebhook (version : ActiveVersion) (webhook : String) (left : List String)
  | createWebhook (version : ActiveVersion) (left : List String)
  | populateCache (version : ActiveVersion)
  | saveWebhookData (version : ActiveVersion)
  | addWebhooks (version : ActiveVersion)
  | runTrigger (left pollNodes triggerResponses : ℕ)
  | activatePolling (left triggerResponses : ℕ)
  | addTriggersAndPollers
  | deregister
  | updateWorkflowTriggerCount
  | saveStaticData
  /-- After an error: the webhooks are cleared and the error is registered. -/
  | clearWebhooks (stage : ClearStage)
  | register
  deriving DecidableEq, Repr

/-- A call of `add`; a retry has the workflow of its closure. -/
structure ActivationCall where
  activationMode : WorkflowActivateMode
  retryOf : Option DbWorkflow := none
  deriving DecidableEq, Repr

inductive RemoveStage where
  | clearWebhooks (stage : ClearStage)
  | deregister
  | closeTrigger (left : ℕ)
  | removeWorkflowTriggersAndPollers
  deriving DecidableEq, Repr

inductive ActivationTask where
  | add (call : ActivationCall) (stage : ActivationStage)
  | remove (stage : RemoveStage)
  /-- The call of `activeWorkflows.remove` in `emitError`. -/
  | emitError (left : ℕ)
  deriving DecidableEq, Repr

/-- How an `await` ended. -/
inductive AwaitOutcome where
  | resolves
  /-- A trigger returns a response. -/
  | responds
  | finds (workflow : Option DbWorkflow)
  | rejects (queryFailedError : Bool)
  deriving DecidableEq, Repr

/-! ### The manager -/

def workflowReactivateInitialTimeout : ℕ := 1000

def workflowReactivateMaxTimeout : ℕ := 24 * 60 * 60 * 1000

structure QueuedActivation where
  activationMode : WorkflowActivateMode
  lastTimeout : ℕ
  timeout : ℕ
  workflowData : DbWorkflow
  deriving DecidableEq, Repr

/-- A pending timer, with what its function has closed over. -/
structure RetryTimer where
  timeout : ℕ
  delay : ℕ
  activationMode : WorkflowActivateMode
  workflowData : DbWorkflow
  deriving DecidableEq, Repr

/-- The queue entry, the pending timers, the number of trigger responses of the workflow if it is
active in memory, its rows in the webhook table, and the waiting calls. -/
structure ActiveWorkflowManager where
  queuedActivation : Option QueuedActivation := none
  timers : List RetryTimer := []
  nextTimer : ℕ := 0
  activeWorkflow : Option ℕ := none
  webhooks : List String := []
  tasks : List ActivationTask := []
  /-- A `remove` has returned, and no `add` was called from outside since. -/
  removed : Bool := false
  /-- The retry function has thrown. -/
  threw : Bool := false
  deriving DecidableEq, Repr

inductive ActivationEvent where
  /-- `add` is called from outside the queue, with or without the workflow. -/
  | add (activationMode : WorkflowActivateMode) (existingWorkflow : Option DbWorkflow)
  | emitError (activationMode : WorkflowActivateMode) (workflowData : DbWorkflow)
  /-- The timer fires. -/
  | fires (timeout : ℕ)
  | remove
  /-- The waiting call at this position goes on. -/
  | settles (position : ℕ) (outcome : AwaitOutcome)
  deriving DecidableEq, Repr

namespace ActiveWorkflowManager
variable (s : ActiveWorkflowManager)

def suspend (task : ActivationTask) : ActiveWorkflowManager :=
  { s with tasks := s.tasks ++ [task] }

/-! ### The queue -/

variable (activationMode : WorkflowActivateMode) (workflowData : DbWorkflow)

def setRetry (entry : ℕ → QueuedActivation) : ActiveWorkflowManager :=
  let queued := entry s.nextTimer
  { s with
    queuedActivation := some queued
    timers := s.timers ++ [{
      timeout := s.nextTimer, delay := queued.lastTimeout, activationMode, workflowData }]
    nextTimer := s.nextTimer + 1 }

def removeQueuedWorkflowActivation : ActiveWorkflowManager :=
  match s.queuedActivation with
  | none => s
  | some queued => { s with
    timers := s.timers.filter (·.timeout ≠ queued.timeout)
    queuedActivation := none }

def addQueuedWorkflowActivation : ActiveWorkflowManager :=
  s.removeQueuedWorkflowActivation.setRetry activationMode workflowData fun timeout =>
    { activationMode, lastTimeout := workflowReactivateInitialTimeout, timeout, workflowData }

def nextTimeout (lastTimeout : ℕ) : ℕ :=
  if lastTimeout < workflowReactivateMaxTimeout then
    min (lastTimeout * 2) workflowReactivateMaxTimeout
  else lastTimeout

/-- The `catch` of the retry function; it throws where the entry is missing. -/
def retryFails : ActiveWorkflowManager :=
  match s.queuedActivation with
  | none => { s with threw := true }
  | some queued => s.setRetry activationMode workflowData fun timeout =>
    { queued with lastTimeout := nextTimeout queued.lastTimeout, timeout }

variable (call : ActivationCall)

/-- `add` throws, to its caller or to the retry function. -/
def addThrows : ActiveWorkflowManager :=
  match call.retryOf with
  | none => s
  | some workflowData => s.retryFails call.activationMode workflowData

/-! ### Activation -/

/-- The loop over the poll nodes. -/
def activatePollers (triggerResponses : ℕ) : ℕ → ActiveWorkflowManager
  | 0 => s.suspend (.add call .addTriggersAndPollers)
  | left + 1 => s.suspend (.add call (.activatePolling left triggerResponses))

def runTriggers (pollNodes triggerResponses : ℕ) : ℕ → ActiveWorkflowManager
  | 0 => { s with activeWorkflow := some triggerResponses }.activatePollers call triggerResponses
    pollNodes
  | left + 1 => s.suspend (.add call (.runTrigger left pollNodes triggerResponses))

def addTriggersAndPollers (version : ActiveVersion) : ActiveWorkflowManager :=
  if version.triggerNodes = 0 ∧ version.pollNodes = 0 then
    s.suspend (.add call .addTriggersAndPollers)
  else s.runTriggers call version.pollNodes 0 version.triggerNodes

def storeWebhooks (version : ActiveVersion) : List String → ActiveWorkflowManager
  | [] => s.suspend (.add call (.populateCache version))
  | webhook :: left => s.suspend (.add call (.storeWebhook version webhook left))

def addWebhooks (version : ActiveVersion) : ActiveWorkflowManager :=
  if version.webhooks = [] then s.suspend (.add call (.addWebhooks version))
  else s.storeWebhooks call version version.webhooks

/-- `add`, from the workflow on. -/
def activate (dbWorkflow : DbWorkflow) : ActiveWorkflowManager :=
  match dbWorkflow.activeVersion with
  | none => if call.activationMode.isStart then s else s.suspend (.add call .register)
  | some version => s.suspend (.add call (if version.isValid then .getBase version else .register))

def add (existingWorkflow : Option DbWorkflow) : ActiveWorkflowManager :=
  match existingWorkflow with
  | some workflow => s.activate { activationMode } workflow
  | none => s.suspend (.add { activationMode } .findById)

def storeWebhook (webhook : String) : ActiveWorkflowManager :=
  if webhook ∈ s.webhooks then s else { s with webhooks := s.webhooks ++ [webhook] }

/-! ### Deactivation -/

def deleteWebhooks (rows : List String) : ActiveWorkflowManager :=
  { s with webhooks := s.webhooks.filter (· ∉ rows) }

/-- The next piece of `clearWebhooks`, with what it waits for then, if anything. -/
def clearWebhooks :
    ClearStage → AwaitOutcome → Except Unit (ActiveWorkflowManager × Option ClearStage)
  | .findOne, .finds (some ⟨some version⟩) =>
    .ok (s, some (.calls (version.webhooks.length + 2)))
  | .calls (left + 1), .resolves => .ok (s, some (.calls left))
  | .calls 0, .resolves => .ok (s, some (.remove s.webhooks))
  | .remove rows, .resolves => .ok (s.deleteWebhooks rows, none)
  | _, _ => .error ()

/-- The loop of `activeWorkflows.remove`, and its end; `waits` is the call, waiting for the rest
of the loop, and `returns` the call after it. -/
def closeTriggers (waits : ℕ → ActivationTask)
    (returns : Option ActivationTask) : ℕ → ActiveWorkflowManager
  | 0 => { s with activeWorkflow := none, tasks := s.tasks ++ returns.toList }
  | left + 1 => s.suspend (waits left)

def removeWorkflow : ActiveWorkflowManager :=
  let s := s.removeQueuedWorkflowActivation
  match s.activeWorkflow with
  | none => s.suspend (.remove .removeWorkflowTriggersAndPollers)
  | some triggerResponses => s.closeTriggers (.remove <| .closeTrigger ·)
    (some (.remove .removeWorkflowTriggersAndPollers)) triggerResponses

def emitError : ActiveWorkflowManager :=
  let s := match s.activeWorkflow with
    | none => s
    | some triggerResponses => s.closeTriggers .emitError none triggerResponses
  s.addQueuedWorkflowActivation activationMode workflowData

/-! ### The next piece of a waiting call -/

/-- Calls of the stores resolve. -/
def settleAdd : ActivationStage → AwaitOutcome → Except Unit ActiveWorkflowManager
  | .findById, .finds (some dbWorkflow) => .ok (s.activate call dbWorkflow)
  -- only a call from outside looks the workflow up, and `add` throws to its caller
  | .findById, .finds none => .ok s
  | .getBase version, .resolves => .ok (s.addWebhooks call version)
  | .getBase _, .rejects _ => .ok (s.suspend (.add call .register))
  | .storeWebhook version webhook left, .resolves =>
    .ok ((s.storeWebhook webhook).suspend (.add call (.createWebhook version left)))
  | .createWebhook version left, .resolves => .ok (s.storeWebhooks call version left)
  | .createWebhook version left, .rejects queryFailedError =>
    -- a webhook that an earlier process has registered
    if call.activationMode.isStart && queryFailedError then
      .ok (s.storeWebhooks call version left)
    else .ok (s.suspend (.add call (.clearWebhooks .findOne)))
  | .populateCache version, .resolves => .ok (s.suspend (.add call (.saveWebhookData version)))
  | .saveWebhookData version, .resolves => .ok (s.suspend (.add call (.addWebhooks version)))
  | .addWebhooks version, .resolves => .ok (s.addTriggersAndPollers call version)
  | .runTrigger left pollNodes triggerResponses, .resolves =>
    .ok (s.runTriggers call pollNodes triggerResponses left)
  | .runTrigger left pollNodes triggerResponses, .responds =>
    .ok (s.runTriggers call pollNodes (triggerResponses + 1) left)
  | .runTrigger .., .rejects _ => .ok (s.suspend (.add call .register))
  | .activatePolling left triggerResponses, .resolves =>
    .ok (s.activatePollers call triggerResponses left)
  | .activatePolling _ triggerResponses, .rejects _ =>
    let activeWorkflow := if triggerResponses = 0 then none else s.activeWorkflow
    .ok ({ s with activeWorkflow }.suspend (.add call .register))
  | .addTriggersAndPollers, .resolves =>
    .ok (s.removeQueuedWorkflowActivation.suspend (.add call .deregister))
  | .deregister, .resolves => .ok (s.suspend (.add call .updateWorkflowTriggerCount))
  | .updateWorkflowTriggerCount, .resolves => .ok (s.suspend (.add call .saveStaticData))
  | .saveStaticData, .resolves => .ok s
  | .clearWebhooks stage, outcome => do
    let (s, next) ← s.clearWebhooks stage outcome
    match next with
    | some next => .ok (s.suspend (.add call (.clearWebhooks next)))
    | none => .ok (s.suspend (.add call .register))
  | .register, .resolves => .ok (s.addThrows call)
  | _, _ => .error ()

def settleRemove : RemoveStage → AwaitOutcome → Except Unit ActiveWorkflowManager
  | .clearWebhooks stage, outcome => do
    let (s, next) ← s.clearWebhooks stage outcome
    match next with
    | some next => .ok (s.suspend (.remove (.clearWebhooks next)))
    | none => .ok (s.suspend (.remove .deregister))
  | .deregister, .resolves => .ok s.removeWorkflow
  | .closeTrigger left, .resolves => .ok (s.closeTriggers (.remove <| .closeTrigger ·)
    (some (.remove .removeWorkflowTriggersAndPollers)) left)
  -- `remove` throws
  | .closeTrigger _, .rejects _ => .ok s
  | .removeWorkflowTriggersAndPollers, .resolves => .ok { s with removed := true }
  | _, _ => .error ()

def settleEmitError (left : ℕ) : AwaitOutcome → Except Unit ActiveWorkflowManager
  | .resolves => .ok (s.closeTriggers .emitError none left)
  | .rejects _ => .ok s
  | _ => .error ()

def settle (outcome : AwaitOutcome) : ActivationTask → Except Unit ActiveWorkflowManager
  | .add call stage => s.settleAdd call stage outcome
  | .remove stage => s.settleRemove stage outcome
  | .emitError left => s.settleEmitError left outcome

/-- The state after the event; only a pending timer fires, and only a waiting call goes on. -/
def step : ActivationEvent → Except Unit ActiveWorkflowManager
  | .add activationMode existingWorkflow =>
    .ok ({ s with removed := false }.add activationMode existingWorkflow)
  | .emitError activationMode workflowData => .ok (s.emitError activationMode workflowData)
  | .fires timeout => match s.timers.find? (·.timeout = timeout) with
    | none => .error ()
    | some timer =>
      .ok ({ s with timers := s.timers.filter (·.timeout ≠ timeout) }.activate
        { activationMode := timer.activationMode, retryOf := some timer.workflowData }
        timer.workflowData)
  | .remove => .ok (s.suspend (.remove (.clearWebhooks .findOne)))
  | .settles position outcome => match s.tasks[position]? with
    | none => .error ()
    | some task => { s with tasks := s.tasks.eraseIdx position }.settle outcome task

/-- Once a `remove` has returned, and until the next `add` from outside, the workflow is inactive
and no retry is pending; at most one retry ever is, and the retry function does not throw. -/
structure Inactive : Prop where
  removed : s.removed = true → s.activeWorkflow = none ∧ s.webhooks = [] ∧ s.timers = []
  one : s.timers.length ≤ 1
  threw : s.threw = false

instance (s : ActiveWorkflowManager) : Decidable s.Inactive :=
  decidable_of_iff ((s.removed = true → s.activeWorkflow = none ∧ s.webhooks = [] ∧
      s.timers = []) ∧ s.timers.length ≤ 1 ∧ s.threw = false)
    ⟨fun h => ⟨h.1, h.2.1, h.2.2⟩, fun h => ⟨h.removed, h.one, h.threw⟩⟩

end ActiveWorkflowManager

/-! ### When calls stay apart -/

namespace ActivationTask

/-- An activation that may still store a webhook, start the workflow, or fail as a retry. -/
def Unfinished : ActivationTask → Prop
  | add _ .addTriggersAndPollers => False
  | add _ .deregister => False
  | add _ .updateWorkflowTriggerCount => False
  | add _ .saveStaticData => False
  | add call (.clearWebhooks _) => call.retryOf ≠ none
  | add call .register => call.retryOf ≠ none
  | add _ _ => True
  | _ => False

/-- A deactivation that has read the rows it deletes, without this one. -/
def Spares (webhook : String) : ActivationTask → Prop
  | remove (.clearWebhooks (.remove rows)) => webhook ∉ rows
  | remove (.clearWebhooks _) => False
  | remove _ => True
  | _ => False

/-- A deactivation that has deleted the queue entry. -/
def HasDequeued : ActivationTask → Prop
  | remove (.closeTrigger _) => True
  | remove .removeWorkflowTriggersAndPollers => True
  | _ => False

/-- A deactivation that has stopped the workflow, and is about to return. -/
def HasStopped : ActivationTask → Prop
  | remove .removeWorkflowTriggersAndPollers => True
  | _ => False

instance (task : ActivationTask) : Decidable task.Unfinished := by
  unfold Unfinished
  split <;> infer_instance

instance (webhook : String) (task : ActivationTask) : Decidable (task.Spares webhook) := by
  unfold Spares
  split <;> infer_instance

instance (task : ActivationTask) : Decidable task.HasDequeued := by
  unfold HasDequeued
  split <;> infer_instance

instance (task : ActivationTask) : Decidable task.HasStopped := by
  unfold HasStopped
  split <;> infer_instance

end ActivationTask

namespace ActiveWorkflowManager

/-- A webhook is stored while no deactivation has read the rows without it, the workflow is
started while none has stopped it, a retry fails while its entry is there and has no pending
timer, and a deactivation returns while no activation is unfinished. -/
def ApartAt (s : ActiveWorkflowManager) (outcome : AwaitOutcome) : ActivationTask → Prop
  | .add _ (.storeWebhook _ webhook _) => ∀ task ∈ s.tasks, ¬ task.Spares webhook
  | .add _ (.addWebhooks version) =>
    version.triggerNodes = 0 → 0 < version.pollNodes → ∀ task ∈ s.tasks, ¬ task.HasStopped
  | .add _ (.runTrigger 0 _ _) =>
    outcome = .resolves ∨ outcome = .responds → ∀ task ∈ s.tasks, ¬ task.HasStopped
  | .add call .register => call.retryOf ≠ none →
    ∃ queued ∈ s.queuedActivation, ∀ timer ∈ s.timers, timer.timeout ≠ queued.timeout
  | .remove .removeWorkflowTriggersAndPollers => ∀ task ∈ s.tasks, ¬ task.Unfinished
  | _ => True

/-- And a trigger fails while no deactivation has deleted the queue entry or returned. -/
def Apart (s : ActiveWorkflowManager) : ActivationEvent → Prop
  | .emitError .. => s.removed = false ∧ ∀ task ∈ s.tasks, ¬ task.HasDequeued
  | .settles position outcome => ∀ task ∈ s.tasks[position]?, s.ApartAt outcome task
  | _ => True

instance (s : ActiveWorkflowManager) (outcome : AwaitOutcome) (task : ActivationTask) :
    Decidable (s.ApartAt outcome task) := by
  unfold ApartAt
  split <;> infer_instance

instance (s : ActiveWorkflowManager) (event : ActivationEvent) : Decidable (s.Apart event) := by
  unfold Apart
  split <;> infer_instance

/-! ### The invariant -/

/-- What a waiting call has achieved is still so, and an activation that can be resumed with
effect was not followed by a deactivation. -/
structure Holds (s : ActiveWorkflowManager) (task : ActivationTask) : Prop where
  webhooks : ∀ webhook ∈ s.webhooks, ¬ task.Spares webhook
  queued : task.HasDequeued → s.queuedActivation = none
  activeWorkflow : task.HasStopped → s.activeWorkflow = none
  removed : task.Unfinished → s.removed = false

structure Tidy (s : ActiveWorkflowManager) : Prop where
  /-- A pending timer is the one of the entry. -/
  timers : ∀ timer ∈ s.timers, ∃ queued ∈ s.queuedActivation, timer.timeout = queued.timeout
  one : s.timers.length ≤ 1
  threw : s.threw = false
  removed : s.removed = true →
    s.webhooks = [] ∧ s.queuedActivation = none ∧ s.activeWorkflow = none
  tasks : ∀ task ∈ s.tasks, s.Holds task

variable {s s' : ActiveWorkflowManager}

theorem Tidy.timers_eq_nil (hs : s.Tidy) (h : s.queuedActivation = none) : s.timers = [] := by
  refine List.eq_nil_iff_forall_not_mem.mpr fun timer htimer => ?_
  obtain ⟨queued, hqueued, -⟩ := hs.timers timer htimer
  rw [h] at hqueued
  cases hqueued

theorem Tidy.inactive (hs : s.Tidy) : s.Inactive where
  removed := fun h => by
    obtain ⟨hwebhooks, hqueued, hactive⟩ := hs.removed h
    exact ⟨hactive, hwebhooks, hs.timers_eq_nil hqueued⟩
  one := hs.one
  threw := hs.threw

/-- Nothing is added to the state, except calls that wait. -/
structure Shrinks (s s' : ActiveWorkflowManager) : Prop where
  queued : s'.queuedActivation = s.queuedActivation ∧ s'.timers.Sublist s.timers ∨
    s'.queuedActivation = none ∧ s'.timers = []
  activeWorkflow : s.activeWorkflow = none → s'.activeWorkflow = none
  webhooks : s'.webhooks ⊆ s.webhooks
  removed : s'.removed = true → s.removed = true
  threw : s'.threw = s.threw

theorem Shrinks.queuedActivation (h : Shrinks s s') (hnone : s.queuedActivation = none) :
    s'.queuedActivation = none := by
  rcases h.queued with ⟨hqueued, -⟩ | ⟨hqueued, -⟩
  · exact hqueued.trans hnone
  · exact hqueued

theorem Shrinks.webhooks_eq_nil (h : Shrinks s s') (hnil : s.webhooks = []) :
    s'.webhooks = [] :=
  List.eq_nil_of_subset_nil (hnil ▸ h.webhooks)

variable {task : ActivationTask}

theorem Shrinks.holds (h : Shrinks s s') (ht : s.Holds task) :
    s'.Holds task where
  webhooks := fun webhook hw => ht.webhooks webhook (h.webhooks hw)
  queued := fun hd => h.queuedActivation (ht.queued hd)
  activeWorkflow := fun hstopped => h.activeWorkflow (ht.activeWorkflow hstopped)
  removed := fun hu => Bool.eq_false_iff.mpr fun hr =>
    Bool.eq_false_iff.mp (ht.removed hu) (h.removed hr)

theorem Tidy.shrinks (hs : s.Tidy) (h : Shrinks s s')
    (ht : ∀ task ∈ s'.tasks, task ∈ s.tasks ∨ s.Holds task) : s'.Tidy where
  timers := fun timer htimer => by
    rcases h.queued with ⟨hqueued, hsub⟩ | ⟨-, hnil⟩
    · rw [hqueued]
      exact hs.timers timer (hsub.subset htimer)
    · rw [hnil] at htimer
      cases htimer
  one := by
    rcases h.queued with ⟨-, hsub⟩ | ⟨-, hnil⟩
    · exact Nat.le_trans hsub.length_le hs.one
    · rw [hnil]
      exact Nat.zero_le 1
  threw := h.threw.trans hs.threw
  removed := fun hr => by
    obtain ⟨hwebhooks, hqueued, hactive⟩ := hs.removed (h.removed hr)
    exact ⟨h.webhooks_eq_nil hwebhooks, h.queuedActivation hqueued, h.activeWorkflow hactive⟩
  tasks := fun task htask => h.holds ((ht task htask).elim (hs.tasks task) id)

/-! ### What the pieces of a call keep -/

theorem Shrinks.of_tasks (tasks : List ActivationTask) : Shrinks s { s with tasks } :=
  ⟨.inl ⟨rfl, List.Sublist.refl _⟩, id, List.Subset.refl _, id, rfl⟩

theorem Tidy.suspend (hs : s.Tidy) (h : s.Holds task) :
    (s.suspend task).Tidy :=
  hs.shrinks (.of_tasks _) fun task' ht => (List.mem_append.mp ht).imp_right fun ht => by
    rw [List.mem_singleton.mp ht]
    exact h

theorem holds_add {call : ActivationCall} {stage : ActivationStage}
    (h : (ActivationTask.add call stage).Unfinished → s.removed = false) :
    s.Holds (.add call stage) :=
  ⟨fun _ _ => id, False.elim, False.elim, h⟩

theorem holds_emitError (left : ℕ) : s.Holds (.emitError left) :=
  ⟨fun _ _ => id, False.elim, False.elim, False.elim⟩

theorem Tidy.suspend_add (hs : s.Tidy) (hr : s.removed = false) (call : ActivationCall)
    (stage : ActivationStage) : (s.suspend (.add call stage)).Tidy :=
  hs.suspend (holds_add fun _ => hr)

theorem shrinks_removeQueued (hs : s.Tidy) : Shrinks s s.removeQueuedWorkflowActivation := by
  rw [removeQueuedWorkflowActivation]
  split
  · exact .of_tasks s.tasks
  · rename_i queued hqueued
    refine ⟨.inr ⟨rfl, ?_⟩, id, List.Subset.refl _, id, rfl⟩
    refine List.filter_eq_nil_iff.mpr fun timer htimer => ?_
    obtain ⟨queued', hqueued', htimeout⟩ := hs.timers timer htimer
    obtain rfl : queued = queued' := Option.some.inj (hqueued.symm.trans hqueued')
    simpa using htimeout

@[simp] theorem queuedActivation_removeQueued :
    s.removeQueuedWorkflowActivation.queuedActivation = none := by
  rw [removeQueuedWorkflowActivation]
  split
  · assumption
  · rfl

@[simp] theorem tasks_removeQueued : s.removeQueuedWorkflowActivation.tasks = s.tasks := by
  rw [removeQueuedWorkflowActivation]
  split <;> rfl

@[simp] theorem removed_removeQueued : s.removeQueuedWorkflowActivation.removed = s.removed := by
  rw [removeQueuedWorkflowActivation]
  split <;> rfl

theorem Tidy.removeQueued (hs : s.Tidy) : s.removeQueuedWorkflowActivation.Tidy :=
  hs.shrinks (shrinks_removeQueued hs) fun task ht => .inl (by rwa [tasks_removeQueued] at ht)

theorem Tidy.setRetry (hs : s.Tidy) (hr : s.removed = false) (hnil : s.timers = [])
    (ht : ∀ task ∈ s.tasks, ¬ task.HasDequeued) (activationMode : WorkflowActivateMode)
    (workflowData : DbWorkflow) {entry : ℕ → QueuedActivation}
    (hentry : ∀ timeout, (entry timeout).timeout = timeout) :
    (s.setRetry activationMode workflowData entry).Tidy where
  timers := fun timer htimer => by
    rw [ActiveWorkflowManager.setRetry, hnil, List.nil_append, List.mem_singleton] at htimer
    exact ⟨entry s.nextTimer, rfl, by rw [htimer, hentry]⟩
  one := by
    rw [ActiveWorkflowManager.setRetry, hnil]
    exact Nat.le_refl 1
  threw := hs.threw
  removed := fun h => absurd (hr.symm.trans h) Bool.false_ne_true
  tasks := fun task htask =>
    { hs.tasks task htask with queued := fun hd => absurd hd (ht task htask) }

theorem Tidy.addQueued (hs : s.Tidy) (hr : s.removed = false)
    (ht : ∀ task ∈ s.tasks, ¬ task.HasDequeued) (activationMode : WorkflowActivateMode)
    (workflowData : DbWorkflow) :
    (s.addQueuedWorkflowActivation activationMode workflowData).Tidy := by
  refine hs.removeQueued.setRetry ?_ ?_ ?_ _ _ fun _ => rfl
  · rw [removed_removeQueued, hr]
  · exact hs.removeQueued.timers_eq_nil queuedActivation_removeQueued
  · rwa [tasks_removeQueued]

theorem Tidy.retryFails (hs : s.Tidy) (activationMode : WorkflowActivateMode)
    (workflowData : DbWorkflow) (h : ∃ queued ∈ s.queuedActivation,
      ∀ timer ∈ s.timers, timer.timeout ≠ queued.timeout) :
    (s.retryFails activationMode workflowData).Tidy := by
  obtain ⟨queued, hqueued, hfired⟩ := h
  have hsome : s.queuedActivation ≠ none := fun hnone => by
    rw [hnone] at hqueued
    cases hqueued
  have hnil : s.timers = [] := List.eq_nil_iff_forall_not_mem.mpr fun timer htimer => by
    obtain ⟨queued', hqueued', htimeout⟩ := hs.timers timer htimer
    obtain rfl : queued = queued' := Option.some.inj (hqueued.symm.trans hqueued')
    exact hfired timer htimer htimeout
  have hr : s.removed = false :=
    Bool.eq_false_iff.mpr fun hr => hsome (hs.removed hr).2.1
  rw [ActiveWorkflowManager.retryFails, show s.queuedActivation = some queued from hqueued]
  refine hs.setRetry hr hnil (fun task htask hdequeued => ?_) _ _ fun _ => rfl
  exact hsome ((hs.tasks task htask).queued hdequeued)

section

variable (hs : s.Tidy) (hr : s.removed = false)
include hs hr

theorem Tidy.storeWebhook {webhook : String}
    (ht : ∀ task ∈ s.tasks, ¬ task.Spares webhook) : (s.storeWebhook webhook).Tidy := by
  rw [ActiveWorkflowManager.storeWebhook]
  split
  · exact hs
  refine ⟨hs.timers, hs.one, hs.threw, fun h => absurd (hr.symm.trans h) Bool.false_ne_true,
    fun task htask => { hs.tasks task htask with webhooks := fun webhook' hw => ?_ }⟩
  rcases List.mem_append.mp hw with hw | hw
  · exact (hs.tasks task htask).webhooks webhook' hw
  · rw [List.mem_singleton.mp hw]
    exact ht task htask

theorem Tidy.start
    (ht : ∀ task ∈ s.tasks, ¬ task.HasStopped) (triggerResponses : ℕ) :
    { s with activeWorkflow := some triggerResponses }.Tidy where
  timers := hs.timers
  one := hs.one
  threw := hs.threw
  removed := fun h => absurd (hr.symm.trans h) Bool.false_ne_true
  tasks := fun task htask =>
    { hs.tasks task htask with activeWorkflow := fun hd => absurd hd (ht task htask) }

theorem Tidy.activatePollers (call : ActivationCall)
    (triggerResponses left : ℕ) : (s.activatePollers call triggerResponses left).Tidy := by
  cases left <;> exact hs.suspend_add hr _ _

theorem Tidy.runTriggers (call : ActivationCall)
    (pollNodes triggerResponses left : ℕ)
    (ht : left = 0 → ∀ task ∈ s.tasks, ¬ task.HasStopped) :
    (s.runTriggers call pollNodes triggerResponses left).Tidy := by
  cases left with
  | zero => exact (hs.start hr (ht rfl) _).activatePollers hr _ _ _
  | succ left => exact hs.suspend_add hr _ _

theorem Tidy.storeWebhooks (call : ActivationCall)
    (version : ActiveVersion) (left : List String) : (s.storeWebhooks call version left).Tidy := by
  cases left <;> exact hs.suspend_add hr _ _

theorem Tidy.activate (call : ActivationCall)
    (dbWorkflow : DbWorkflow) : (s.activate call dbWorkflow).Tidy := by
  rw [ActiveWorkflowManager.activate]
  split
  · split
    · exact hs
    · exact hs.suspend_add hr _ _
  · exact hs.suspend_add hr _ _

end

theorem Tidy.addThrows (hs : s.Tidy) (call : ActivationCall) (h : call.retryOf ≠ none →
    ∃ queued ∈ s.queuedActivation, ∀ timer ∈ s.timers, timer.timeout ≠ queued.timeout) :
    (s.addThrows call).Tidy := by
  rw [ActiveWorkflowManager.addThrows]
  split
  · exact hs
  · rename_i workflowData hretry
    exact hs.retryFails _ _ (h (by simp [hretry]))

variable {outcome : AwaitOutcome}

theorem exists_of_clearWebhooks {stage : ClearStage}
    {next : Option ClearStage} (h : s.clearWebhooks stage outcome = .ok (s', next)) :
    (∃ rows, stage = .remove rows ∧ next = none ∧ s' = s.deleteWebhooks rows) ∨
      s' = s ∧ ∃ stage', next = some stage' ∧
        ∀ rows, stage' = .remove rows → s.webhooks = rows := by
  unfold ActiveWorkflowManager.clearWebhooks at h
  split at h
  all_goals cases h
  · exact .inr ⟨rfl, _, rfl, fun _ h => by cases h⟩
  · exact .inr ⟨rfl, _, rfl, fun _ h => by cases h⟩
  · refine .inr ⟨rfl, _, rfl, fun _ h => ?_⟩
    cases h
    rfl
  · exact .inl ⟨_, rfl, rfl, rfl⟩

theorem shrinks_deleteWebhooks (rows : List String) : Shrinks s (s.deleteWebhooks rows) :=
  ⟨.inl ⟨rfl, List.Sublist.refl _⟩, id, List.filter_sublist.subset, id, rfl⟩

theorem Tidy.deleteWebhooks (hs : s.Tidy) (rows : List String) : (s.deleteWebhooks rows).Tidy :=
  hs.shrinks (shrinks_deleteWebhooks rows) fun _ ht => .inl ht

theorem Tidy.closeTriggers (hs : s.Tidy) {waits : ℕ → ActivationTask}
    {returns : Option ActivationTask} (left : ℕ) (hwaits : ∀ left, s.Holds (waits left))
    (hreturns : ∀ task ∈ returns, { s with activeWorkflow := none }.Holds task) :
    (s.closeTriggers waits returns left).Tidy := by
  cases left with
  | succ left => exact hs.suspend (hwaits left)
  | zero =>
    have hstop : Shrinks s { s with activeWorkflow := none } :=
      ⟨.inl ⟨rfl, List.Sublist.refl _⟩, fun _ => rfl, List.Subset.refl _, id, rfl⟩
    refine (hs.shrinks hstop fun _ ht => .inl ht).shrinks (.of_tasks _) fun task ht => ?_
    rcases List.mem_append.mp ht with ht | ht
    · exact .inl ht
    · exact .inr (hreturns task (Option.mem_toList.mp ht))

theorem Tidy.removeWorkflow (hs : s.Tidy) (hwebhooks : ∀ webhook, webhook ∉ s.webhooks) :
    s.removeWorkflow.Tidy := by
  have hdequeued := hs.removeQueued
  have hnone : s.removeQueuedWorkflowActivation.queuedActivation = none :=
    queuedActivation_removeQueued
  have hnil : ∀ webhook ∈ s.removeQueuedWorkflowActivation.webhooks, ∀ task : ActivationTask,
      ¬ task.Spares webhook :=
    fun webhook hw => absurd ((shrinks_removeQueued hs).webhooks hw) (hwebhooks webhook)
  rw [ActiveWorkflowManager.removeWorkflow]
  split
  · rename_i hactive
    exact hdequeued.suspend ⟨fun _ hw => hnil _ hw _, fun _ => hnone, fun _ => hactive, False.elim⟩
  · refine hdequeued.closeTriggers _
      (fun _ => ⟨fun _ hw => hnil _ hw _, fun _ => hnone, False.elim, False.elim⟩) ?_
    rintro task ⟨⟩
    exact ⟨fun _ hw => hnil _ hw _, fun _ => hnone, fun _ => rfl, False.elim⟩

theorem Tidy.settleAdd (hs : s.Tidy) {call : ActivationCall} {stage : ActivationStage} (hholds : s.Holds (.add call stage))
    (hapart : s.ApartAt outcome (.add call stage))
    (h : s.settleAdd call stage outcome = .ok s') : s'.Tidy := by
  have hremoved := hholds.removed
  unfold ActiveWorkflowManager.settleAdd at h
  split at h
  · -- the workflow was found, or not
    cases h
    exact hs.activate (hremoved trivial) _ _
  · cases h
    exact hs
  · -- `getBase`
    cases h
    rw [ActiveWorkflowManager.addWebhooks]
    split
    · exact hs.suspend_add (hremoved trivial) _ _
    · exact hs.storeWebhooks (hremoved trivial) _ _ _
  · cases h
    exact hs.suspend_add (hremoved trivial) _ _
  · -- a webhook is stored
    cases h
    have hstored := hs.storeWebhook (hremoved trivial) hapart
    refine hstored.suspend_add ?_ _ _
    rw [ActiveWorkflowManager.storeWebhook]
    split <;> exact hremoved trivial
  · -- and created, or not
    cases h
    exact hs.storeWebhooks (hremoved trivial) _ _ _
  · split at h
    · cases h
      exact hs.storeWebhooks (hremoved trivial) _ _ _
    · cases h
      exact hs.suspend_add (hremoved trivial) _ _
  · cases h
    exact hs.suspend_add (hremoved trivial) _ _
  · cases h
    exact hs.suspend_add (hremoved trivial) _ _
  · -- the triggers are run
    rename_i version
    cases h
    rw [ActiveWorkflowManager.addTriggersAndPollers]
    split
    · exact hs.suspend_add (hremoved trivial) _ _
    · rename_i hnodes
      refine hs.runTriggers (hremoved trivial) _ _ _ _ fun htriggers => ?_
      exact hapart htriggers (Nat.pos_of_ne_zero fun hpolls => hnodes ⟨htriggers, hpolls⟩)
  · rename_i left pollNodes triggerResponses
    cases h
    refine hs.runTriggers (hremoved trivial) _ _ _ _ ?_
    rintro rfl
    exact hapart (.inl rfl)
  · rename_i left pollNodes triggerResponses
    cases h
    refine hs.runTriggers (hremoved trivial) _ _ _ _ ?_
    rintro rfl
    exact hapart (.inr rfl)
  · cases h
    exact hs.suspend_add (hremoved trivial) _ _
  · -- the pollers are tested
    cases h
    exact hs.activatePollers (hremoved trivial) _ _ _
  · rename_i left triggerResponses _
    cases h
    have hstop : Shrinks s
        { s with activeWorkflow := if triggerResponses = 0 then none else s.activeWorkflow } := by
      refine ⟨.inl ⟨rfl, List.Sublist.refl _⟩, fun hnone => ?_, List.Subset.refl _, id, rfl⟩
      show (if triggerResponses = 0 then none else s.activeWorkflow) = none
      rw [hnone, ite_self]
    exact (hs.shrinks hstop fun _ ht => .inl ht).suspend_add (hremoved trivial) _ _
  · -- the workflow is active
    cases h
    exact hs.removeQueued.suspend (holds_add False.elim)
  · cases h
    exact hs.suspend (holds_add False.elim)
  · cases h
    exact hs.suspend (holds_add False.elim)
  · cases h
    exact hs
  · -- after an error
    obtain ⟨⟨t, next⟩, hclear, h⟩ := exists_of_bind_eq_ok h
    rcases exists_of_clearWebhooks hclear with ⟨rows, rfl, rfl, rfl⟩ | ⟨rfl, stage', rfl, -⟩
    · cases h
      exact (hs.deleteWebhooks rows).suspend (holds_add hholds.removed)
    · cases h
      exact hs.suspend (holds_add hholds.removed)
  · cases h
    exact hs.addThrows call hapart
  · cases h

theorem Tidy.settleRemove (hs : s.Tidy) {stage : RemoveStage}
    (hholds : s.Holds (.remove stage)) (hapart : s.ApartAt outcome (.remove stage))
    (h : s.settleRemove stage outcome = .ok s') : s'.Tidy := by
  unfold ActiveWorkflowManager.settleRemove at h
  split at h
  · obtain ⟨⟨t, next⟩, hclear, h⟩ := exists_of_bind_eq_ok h
    rcases exists_of_clearWebhooks hclear with ⟨rows, rfl, rfl, rfl⟩ | ⟨rfl, stage', rfl, hrows⟩
    · cases h
      -- no row is left that was not among those it has read
      refine (hs.deleteWebhooks rows).suspend ⟨fun webhook hw _ => ?_, False.elim, False.elim,
        False.elim⟩
      obtain ⟨hw, hrows⟩ := List.mem_filter.mp hw
      exact hholds.webhooks webhook hw (of_decide_eq_true hrows)
    · cases h
      refine hs.suspend ⟨fun webhook hw hspares => ?_, False.elim, False.elim, False.elim⟩
      cases stage' with
      | findOne => exact hspares
      | calls left => exact hspares
      | remove rows => exact hspares (hrows rows rfl ▸ hw)
  · cases h
    exact hs.removeWorkflow fun webhook hw => hholds.webhooks webhook hw trivial
  · cases h
    refine hs.closeTriggers _ (fun _ => { hholds with }) ?_
    rintro task ⟨⟩
    exact { hholds with activeWorkflow := fun _ => rfl }
  · cases h
    exact hs
  · -- the deactivation returns
    cases h
    have hnil : s.webhooks = [] :=
      List.eq_nil_iff_forall_not_mem.mpr fun webhook hw => hholds.webhooks webhook hw trivial
    refine ⟨hs.timers, hs.one, hs.threw,
      fun _ => ⟨hnil, hholds.queued trivial, hholds.activeWorkflow trivial⟩, fun task ht => ?_⟩
    exact { hs.tasks task ht with removed := fun hu => absurd hu (hapart task ht) }
  · cases h

theorem Tidy.settleEmitError (hs : s.Tidy) {left : ℕ}
    (h : s.settleEmitError left outcome = .ok s') : s'.Tidy := by
  unfold ActiveWorkflowManager.settleEmitError at h
  split at h
  · cases h
    refine hs.closeTriggers _ holds_emitError ?_
    rintro task ⟨⟩
  · cases h
    exact hs
  · cases h

/-! ### Steps and runs -/

theorem Tidy.settle (hs : s.Tidy) {task : ActivationTask}
    (hholds : s.Holds task) (hapart : s.ApartAt outcome task)
    (h : s.settle outcome task = .ok s') : s'.Tidy := by
  cases task with
  | add call stage => exact hs.settleAdd hholds hapart h
  | remove stage => exact hs.settleRemove hholds hapart h
  | emitError left => exact hs.settleEmitError h

theorem ApartAt.of_subset {task : ActivationTask}
    (h : s.ApartAt outcome task) {tasks : List ActivationTask} (hsub : tasks ⊆ s.tasks) :
    { s with tasks }.ApartAt outcome task := by
  unfold ApartAt at h ⊢
  split at h
  · exact fun task ht => h task (hsub ht)
  · exact fun htriggers hpolls task ht => h htriggers hpolls task (hsub ht)
  · exact fun houtcome task ht => h houtcome task (hsub ht)
  · exact h
  · exact fun task ht => h task (hsub ht)
  · trivial

theorem Tidy.emitError (hs : s.Tidy) (hr : s.removed = false)
    (ht : ∀ task ∈ s.tasks, ¬ task.HasDequeued) (activationMode : WorkflowActivateMode)
    (workflowData : DbWorkflow) : (s.emitError activationMode workflowData).Tidy := by
  rw [ActiveWorkflowManager.emitError]
  split
  · exact hs.addQueued hr ht _ _
  · rename_i triggerResponses _
    have hstopped : (s.closeTriggers .emitError none triggerResponses).Tidy := by
      refine hs.closeTriggers _ holds_emitError ?_
      rintro task ⟨⟩
    cases triggerResponses with
    | zero =>
      refine hstopped.addQueued hr (fun task htask => ht task ?_) _ _
      rwa [ActiveWorkflowManager.closeTriggers, Option.toList_none, List.append_nil] at htask
    | succ left =>
      refine hstopped.addQueued hr (fun task htask => ?_) _ _
      rcases List.mem_append.mp htask with htask | htask
      · exact ht task htask
      · rw [List.mem_singleton.mp htask]
        exact id

theorem Tidy.step (hs : s.Tidy) {event : ActivationEvent} (h : s.step event = .ok s')
    (hapart : s.Apart event) : s'.Tidy := by
  cases event with
  | add activationMode existingWorkflow =>
    cases h
    have hcalled : Shrinks s { s with removed := false } :=
      ⟨.inl ⟨rfl, List.Sublist.refl _⟩, id, List.Subset.refl _, (nomatch ·), rfl⟩
    have hs := hs.shrinks hcalled fun _ ht => .inl ht
    cases existingWorkflow with
    | none => exact hs.suspend_add rfl _ _
    | some workflow => exact hs.activate rfl _ _
  | emitError activationMode workflowData =>
    cases h
    exact hs.emitError hapart.1 hapart.2 _ _
  | fires timeout =>
    rw [ActiveWorkflowManager.step] at h
    split at h
    · cases h
    · rename_i timer htimer
      cases h
      have hmem := List.mem_of_find?_eq_some htimer
      -- after a deactivation no timer is left to fire
      have hr : s.removed = false := Bool.eq_false_iff.mpr fun hr => by
        rw [hs.timers_eq_nil (hs.removed hr).2.1] at hmem
        cases hmem
      have hfired : Shrinks s { s with timers := s.timers.filter (·.timeout ≠ timeout) } :=
        ⟨.inl ⟨rfl, List.filter_sublist⟩, id, List.Subset.refl _, id, rfl⟩
      exact (hs.shrinks hfired fun _ ht => .inl ht).activate hr _ _
  | remove =>
    cases h
    exact hs.suspend ⟨fun _ _ => id, False.elim, False.elim, False.elim⟩
  | settles position outcome =>
    rw [ActiveWorkflowManager.step] at h
    split at h
    · cases h
    · rename_i task htask
      have hframe : Shrinks s { s with tasks := s.tasks.eraseIdx position } := .of_tasks _
      have hsub : s.tasks.eraseIdx position ⊆ s.tasks := (List.eraseIdx_sublist ..).subset
      refine (hs.shrinks hframe fun _ ht => .inl (hsub ht)).settle ?_ ?_ h
      · exact hframe.holds (hs.tasks task (List.mem_of_getElem? htask))
      · exact (hapart task htask).of_subset hsub

theorem tidy_empty : ({} : ActiveWorkflowManager).Tidy where
  timers := fun _ h => by cases h
  one := Nat.zero_le 1
  threw := rfl
  removed := fun h => by cases h
  tasks := fun _ h => by cases h

end ActiveWorkflowManager

open ActiveWorkflowManager

/-- **Deactivation is final in every run that keeps calls apart.** -/
theorem inactive_of_apart (events : List ActivationEvent)
    (h : Along step (fun s event _ => s.Apart event) {} events) :
    Along step (fun _ _ s' => s'.Inactive) {} events := by
  refine Along.of_step (I := Tidy) ?_ tidy_empty h
  intro s event s' hs hstep hapart
  have hs' := hs.step hstep hapart
  exact ⟨hs'.inactive, hs'⟩

def oneTrigger : DbWorkflow := ⟨some { triggerNodes := 1 }⟩

/-- The workflow is activated, its trigger fails, and the timer of the retry fires. -/
def failedAndFired : List ActivationEvent :=
  [.add .activate (some oneTrigger), .settles 0 .resolves, .settles 0 .resolves,
    .settles 0 .responds, .settles 0 .resolves, .settles 0 .resolves, .settles 0 .resolves,
    .settles 0 .resolves, .emitError .activate oneTrigger, .settles 0 .resolves, .fires 0]

/-- The workflow is deactivated, by the call at this position. -/
def deactivates (position : ℕ) : List ActivationEvent :=
  .remove :: .settles position (.finds (some oneTrigger)) ::
    List.replicate 6 (.settles position .resolves)

/-- The trigger fails again, and the workflow is deactivated afterwards. -/
theorem inactive_failsAgain : Along step (fun _ _ s' => s'.Inactive) {}
    (failedAndFired ++ [.settles 0 .resolves, .settles 0 .resolves, .settles 0 (.rejects false),
      .settles 0 .resolves] ++ deactivates 0) :=
  inactive_of_apart _ (by decide +kernel)

/-- The workflow is deactivated while the retry waits for the base data; the retry goes on, and
its trigger starts. -/
theorem not_inactive_deactivatedDuringRetry : ¬ ∀ events,
    Along step (fun _ _ s' => s'.Inactive) {} events := by
  intro h
  refine absurd (h (failedAndFired ++ deactivates 1 ++ [.settles 0 .resolves,
    .settles 0 .resolves, .settles 0 .responds])) ?_
  decide +kernel

end N8n
