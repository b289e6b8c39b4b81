/-
The task runner: offers to the broker, and the tasks it executes.

A task is accepted for an open offer, waits for its settings, is executed and
leaves the map of running tasks.  The broker may cancel it at any time and its
timer may fire once.  The handlers of its execution are asynchronous: each sends
its message at once and removes the task in a `finally` of its own, so that
anything can happen in between.

* `sendOffers` — fill the free places with offers;
* `taskCancelled`, `taskTimedOut`, `receivedSettings` — what comes from the broker
  and the timer.
-/
import N8n.Runs
import N8n.Dict
import Mathlib.Data.List.Count
import Mathlib.Logic.Function.Iterate

namespace N8n

/-- The states of a task: `waitingForSettings`, `running`, `aborting:cancelled`
and `aborting:timeout`. -/
inductive TaskStatus where
  | waitingForSettings
  | running
  | abortingCancelled
  | abortingTimeout
  deriving DecidableEq, Repr

/-- The state object of a task, known by the task's id; `timeoutTimer` says that
its timer runs. -/
structure TaskState where
  status : TaskStatus := .waitingForSettings
  timeoutTimer : Bool := true
  deriving DecidableEq, Repr

/-- Offer ids are drawn by `nanoid`: the `n`-th draw is the offer `n`. -/
structure OpenOffer where
  offerId : ℕ
  validUntil : ℤ
  deriving DecidableEq, Repr

/-- What the runner sends, without the data of a result or error. -/
inductive RunnerToBroker where
  | taskoffer (offerId : ℕ) (validFor : ℕ)
  | taskaccepted (taskId : String)
  | taskrejected (taskId reason : String)
  | taskdone (taskId : String)
  | taskerror (taskId : String)
  deriving DecidableEq, Repr

/-- Where a call of `receivedSettings` waits: for `executeTask`, for the `finally`
of `taskExecutionSucceeded` (which is left by a throw or not), for the `catch`
after it threw, or for the `finally` of `taskExecutionFailed`. -/
inductive ExecutionPoint where
  | executing
  | succeeded (thrown : Bool)
  | rejected
  | failed
  deriving DecidableEq, Repr

/-- What happens, as the log keeps it: a message, a cancellation with the status
it found, a task that leaves the running tasks, a timer that fires, and the
error of `throwUnexpectedTaskStatus`. -/
inductive RunnerEvent where
  | sent (message : RunnerToBroker)
  | cancelled (taskId : String) (found : TaskStatus)
  | removed (taskId : String)
  | timedOut (taskId : String)
  | unexpectedStatus (taskId : String)
  deriving DecidableEq, Repr

/-- The runner.  A task id is accepted once, so the map of the running tasks is
the list of its keys and the state objects are apart, where the handlers that
still hold them find them.  `executions` are the calls of `receivedSettings` that
wait; `offered` and `settings` are the tasks for which the broker sent an accept
and settings. -/
structure TaskRunner where
  maxConcurrency : ℕ
  canSendOffers : Bool := false
  openOffers : List OpenOffer := []
  runningTasks : List String := []
  taskStates : Dict String TaskState := .empty
  executions : Dict String ExecutionPoint := .empty
  now : ℤ := 0
  nextOffer : ℕ := 0
  offered : List String := []
  settings : List String := []
  log : List RunnerEvent := []
  deriving DecidableEq

namespace TaskRunner

def offerValidTimeMs : ℕ := 5000

def offerValidExtraMs : ℕ := 100

def msToNs (ms : ℕ) : ℤ := ms * 1000000

variable (s : TaskRunner)

def record (e : RunnerEvent) : TaskRunner := { s with log := s.log ++ [e] }

def send (message : RunnerToBroker) : TaskRunner := s.record (.sent message)

variable (taskId : String)

def setState (taskState : TaskState) : TaskRunner :=
  { s with taskStates := s.taskStates.set taskId taskState }

def setExecution (point : ExecutionPoint) : TaskRunner :=
  { s with executions := s.executions.set taskId point }

/-- `runningTasks.get`. -/
def runningTask? : Option TaskState :=
  if taskId ∈ s.runningTasks then s.taskStates.get? taskId else none

def deleteStaleOffers : TaskRunner :=
  { s with openOffers := s.openOffers.filter fun offer => ¬ offer.validUntil < s.now }

variable (random : ℕ → ℕ)

/-- The body of the loop of `sendOffers`. -/
def sendOffer (s : TaskRunner) : TaskRunner :=
  let validForInMs := offerValidTimeMs + random s.nextOffer % 500
  let validUntil := s.now + msToNs (validForInMs + offerValidExtraMs)
  let offer : OpenOffer := { offerId := s.nextOffer, validUntil }
  { s with openOffers := s.openOffers ++ [offer], nextOffer := s.nextOffer + 1 }.send
    (.taskoffer offer.offerId validForInMs)

def sendOffers (s : TaskRunner) : TaskRunner :=
  let s := s.deleteStaleOffers
  if s.canSendOffers then
    (sendOffer random)^[s.maxConcurrency - (s.openOffers.length + s.runningTasks.length)] s
  else s

def hasOpenTaskSlots : Prop := s.runningTasks.length < s.maxConcurrency

instance (s : TaskRunner) : Decidable s.hasOpenTaskSlots := inferInstanceAs (Decidable (_ < _))

def deleteOffer (offerId : ℕ) : TaskRunner :=
  { s with openOffers := s.openOffers.filter fun offer => offer.offerId ≠ offerId }

def offerAccepted (offerId : ℕ) (taskId : String) : TaskRunner :=
  if ¬ s.hasOpenTaskSlots then
    (s.deleteOffer offerId).send
      (.taskrejected taskId "No open task slots - runner already at capacity")
  else if ¬ s.openOffers.any (·.offerId = offerId) then
    s.send (.taskrejected taskId "Offer expired - not accepted within validity window")
  else
    let s := (s.deleteOffer offerId).setState taskId {}
    { s with runningTasks := s.runningTasks ++ [taskId] }.send (.taskaccepted taskId)

/-- `cleanup` and `runningTasks.delete`; the log says whether the task was there. -/
def remove (taskState : TaskState) : TaskRunner :=
  let s := s.setState taskId { taskState with timeoutTimer := false }
  if taskId ∈ s.runningTasks then
    { s with runningTasks := s.runningTasks.filter (· ≠ taskId) }.record (.removed taskId)
  else s

def finishTask (s : TaskRunner) (taskId : String) (taskState : TaskState) : TaskRunner :=
  (s.remove taskId taskState).sendOffers random

def taskCancelled (s : TaskRunner) (taskId : String) : TaskRunner :=
  match s.runningTask? taskId with
  | none => s
  | some taskState =>
    let s := s.record (.cancelled taskId taskState.status)
    match taskState.status with
    | .waitingForSettings => s.finishTask random taskId taskState
    | .abortingTimeout => s
    | .abortingCancelled => s
    | .running => s.setState taskId { taskState with status := .abortingCancelled }

/-- `taskTimedOut`, called by the timer; `throws` says that `send` throws. -/
def taskTimedOut (s : TaskRunner) (taskId : String) (throws : Bool) : TaskRunner :=
  match s.runningTask? taskId with
  | none => s
  | some taskState => match taskState.status with
    | .waitingForSettings =>
      (if throws then s else s.send (.taskerror taskId)).finishTask random taskId taskState
    | .abortingTimeout => s.record (.unexpectedStatus taskId)
    | .running => s.setState taskId { taskState with status := .abortingTimeout }
    | .abortingCancelled => s

def receivedSettings : TaskRunner :=
  match s.runningTask? taskId with
  | none => s
  | some taskState => match taskState.status with
    | .abortingCancelled => s.record (.unexpectedStatus taskId)
    | .abortingTimeout => s.record (.unexpectedStatus taskId)
    | .running => s.record (.unexpectedStatus taskId)
    | .waitingForSettings =>
      (s.setState taskId { taskState with status := .running }).setExecution taskId .executing

/-- The handlers of the end of an execution, up to their `finally`, where `next`
says how they go on when they threw or did not. -/
def executionHandler (message : String → RunnerToBroker) (next : Bool → ExecutionPoint)
    (s : TaskRunner) (taskId : String) (throws : Bool) (taskState : TaskState) : TaskRunner :=
  match taskState.status with
  | .waitingForSettings => (s.record (.unexpectedStatus taskId)).setExecution taskId (next true)
  | .abortingCancelled => s.setExecution taskId (next false)
  | _ =>
    if throws then s.setExecution taskId (next true)
    else (s.send (message taskId)).setExecution taskId (next false)

/-- When it threw, the `catch` comes after its `finally`. -/
def taskExecutionSucceeded : TaskRunner → String → Bool → TaskState → TaskRunner :=
  executionHandler .taskdone .succeeded

def taskExecutionFailed : TaskRunner → String → Bool → TaskState → TaskRunner :=
  executionHandler .taskerror fun _ => .failed

/-- The `finally` of a handler: finish the task, and go on to the `catch` or not. -/
def afterHandler (s : TaskRunner) (taskId : String) (thrown : Bool)
    (taskState : TaskState) : TaskRunner :=
  let s := s.finishTask random taskId taskState
  if thrown then s.setExecution taskId .rejected
  else { s with executions := s.executions.erase taskId }

/-- What the runner reacts to.  `throws` says that the message of the handler
cannot be sent. -/
inductive RunnerInput where
  | advance (ns : ℕ)
  | registered
  | closed
  | interval
  | taskofferaccept (offerId : ℕ) (taskId : String)
  | taskcancel (taskId : String)
  | tasksettings (taskId : String)
  /-- The timer of the task fires. -/
  | timeout (taskId : String) (throws : Bool)
  /-- The promise of `executeTask` is settled, and its handler runs. -/
  | executed (taskId : String) (success throws : Bool)
  /-- The `finally` of the handler runs. -/
  | finished (taskId : String)
  /-- The `catch` after `taskExecutionSucceeded` runs. -/
  | caught (taskId : String) (throws : Bool)
  deriving DecidableEq, Repr

/-- The runner after the input, if it can come in this state: task ids in
`taskofferaccept` are unique, settings come at most once for a task, and a timer
fires only while it runs. -/
def step (s : TaskRunner) : RunnerInput → Except Unit TaskRunner
  | .advance ns => .ok { s with now := s.now + ns }
  | .registered => .ok { s with canSendOffers := true }
  | .closed => .ok { s with canSendOffers := false }
  | .interval => .ok (s.sendOffers random)
  | .taskofferaccept offerId taskId => onlyIf (taskId ∉ s.offered)
    ({ s with offered := s.offered ++ [taskId] }.offerAccepted offerId taskId)
  | .taskcancel taskId => .ok (s.taskCancelled random taskId)
  | .tasksettings taskId => onlyIf (taskId ∉ s.settings)
    ({ s with settings := s.settings ++ [taskId] }.receivedSettings taskId)
  | .timeout taskId throws => match s.taskStates.get? taskId with
    | some taskState => onlyIf (taskState.timeoutTimer = true)
      (((s.setState taskId { taskState with timeoutTimer := false }).record
        (.timedOut taskId)).taskTimedOut random taskId throws)
    | none => .error ()
  | .executed taskId success throws =>
    match s.executions.get? taskId, s.taskStates.get? taskId with
    | some .executing, some taskState => .ok (
      if success then s.taskExecutionSucceeded taskId throws taskState
      else s.taskExecutionFailed taskId throws taskState)
    | _, _ => .error ()
  | .finished taskId =>
    match s.executions.get? taskId, s.taskStates.get? taskId with
    | some (.succeeded thrown), some taskState =>
      .ok (s.afterHandler random taskId thrown taskState)
    | some .failed, some taskState => .ok (s.afterHandler random taskId false taskState)
    | _, _ => .error ()
  | .caught taskId throws =>
    match s.executions.get? taskId, s.taskStates.get? taskId with
    | some .rejected, some taskState => .ok (s.taskExecutionFailed taskId throws taskState)
    | _, _ => .error ()

def start (maxConcurrency : ℕ) : TaskRunner := { maxConcurrency }

end TaskRunner

end N8n
