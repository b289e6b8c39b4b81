/-
The Python task runner: coroutines that send offers, handle messages and execute
tasks.

Messages of the broker are handled one after another.  Next to that run the
coroutines of `_send_offers_loop`, one for each registration, and one
`_execute_task` for each task, which lets a thread start the task's process and
wait for it.  Every `await` is a point at which the others go on.

* `sendOffers`, `nextOffer` — a call of `_send_offers`, which computes once how
  many offers it sends;
* `PythonTask` — a task with its process, the coroutine that executes it and the
  thread that stops it.
-/
import N8n.TaskRunner

namespace N8n

/-- The states `WAITING_FOR_SETTINGS`, `RUNNING` and `ABORTING`. -/
inductive PythonTaskStatus where
  | waitingForSettings
  | running
  | aborting
  deriving DecidableEq, Repr

inductive ProcessState where
  | notStarted
  | running
  | exited (code : ℤ)
  deriving DecidableEq, Repr

/-- Where `_execute_task` stands: not begun; its thread before `process.start()`
or in `process.join()`; back with a result, of whose `print` calls some are still
to be sent; back with an exception; or waiting for its last message. -/
inductive ExecuteTask where
  | created
  | starting
  | joining
  | returned (prints : ℕ)
  | raised
  | finishing
  deriving DecidableEq, Repr

/-- What happens to a task: a cancellation finds it running, its `stop_process`
is over, its process is started, its result or its error is sent. -/
inductive PythonTaskEvent where
  | cancelled
  | stopped
  | started
  | taskdone
  | taskerror
  deriving DecidableEq, Repr

/-- A task, with the coroutine that executes it and, in `stopping`, the call of
`stop_process` that was started for it, with whether it got a process. -/
structure PythonTask where
  status : PythonTaskStatus := .waitingForSettings
  process : Option ProcessState := none
  continueOnFail : Bool := false
  execution : Option ExecuteTask := none
  stopping : Option Bool := none
  events : List PythonTaskEvent := []
  deriving DecidableEq, Repr

namespace PythonTask

def sigtermExitCode : ℤ := -15

def sigkillExitCode : ℤ := -9

variable (t : PythonTask)

def record (e : PythonTaskEvent) : PythonTask := { t with events := t.events ++ [e] }

/-- `_handle_task_settings`, for a task that waits for them. -/
def settings (continueOnFail : Bool) : PythonTask :=
  { t with status := .running, continueOnFail, execution := some .created }

/-- The first part of `_execute_task`, if the code passes the analyzer. -/
def createProcess : PythonTask :=
  { t with process := some .notStarted, execution := some .starting }

/-- An exception in `execute_process`, which `continue_on_fail` turns into a result. -/
def raise : PythonTask :=
  { t with execution := some (if t.continueOnFail then .returned 0 else .raised) }

def startProcess (started : Bool) : PythonTask :=
  if started then { t with process := some .running, execution := some .joining }.record .started
  else t.raise

/-- The exit code of a process that was terminated, and killed if that took long. -/
def stopCode (killed : Bool) : ℤ := if killed then sigkillExitCode else sigtermExitCode

/-- `execute_process` from `process.join()` on: a process that is alive then has
timed out, and one with an exit code other than 0 was cancelled, killed or failed;
`result` is what is read from the pipe, with the number of its `print` calls. -/
def afterJoin (killed : Bool) (result : Option ℕ) : PythonTask :=
  match t.process, result with
  | some .running, _ => { t with process := some (.exited (stopCode killed)) }.raise
  | some (.exited 0), some prints => { t with execution := some (.returned prints) }
  | _, _ => t.raise

/-- `_handle_task_cancel`, for a task that runs, up to its thread. -/
def cancel : PythonTask :=
  { t with status := .aborting, stopping := some t.process.isSome }.record .cancelled

/-- `stop_process`, in its thread: nothing if it got no process or that is not alive. -/
def stopProcess (killed : Bool) : PythonTask :=
  let t := if t.stopping = some true ∧ t.process = some .running then
      { t with process := some (.exited (stopCode killed)) }
    else t
  { t with stopping := none }.record .stopped

end PythonTask

/-- What the handling of a message waits for: its answer to be sent, the message
of an offer, with how many offers are left to send, or the thread that stops the
process of a task. -/
inductive PythonHandler where
  | responding
  | offering (left : ℕ)
  | stopping (taskId : String)
  deriving DecidableEq, Repr

/-- The runner.  `loops` are the coroutines of `_send_offers_loop`: one that waits
for the message of an offer has so many left to send, another sleeps.  Task ids
are unique, so the map of the running tasks is the list of its keys; `offered` are
the tasks for which the broker sent an accept, and `sent` the messages without
those of the `print` calls. -/
structure PythonRunner where
  maxConcurrency : ℕ
  connected : Bool := false
  canSendOffers : Bool := false
  now : ℤ := 0
  openOffers : List OpenOffer := []
  nextOfferId : ℕ := 0
  runningTasks : List String := []
  tasks : String → PythonTask := fun _ => {}
  offersCoroutine : Option ℕ := none
  loops : Dict ℕ (Option ℕ) := .empty
  nextLoop : ℕ := 0
  handler : Option PythonHandler := none
  offered : List String := []
  sent : List RunnerToBroker := []

namespace PythonRunner

def offerValidity : ℕ := 5000

def offerValidityMaxJitter : ℕ := 500

def offerValidityLatencyBuffer : ℕ := 100

variable (s : PythonRunner)

/-- `_send_message`; one that raises has sent nothing. -/
def sendMessage (message : RunnerToBroker) (raises : Bool) : PythonRunner × Bool :=
  if s.connected ∧ ¬ raises then ({ s with sent := s.sent ++ [message] }, true) else (s, false)

variable (taskId : String)

def setTask (t : PythonTask) : PythonRunner :=
  { s with tasks := Function.update s.tasks taskId t }

def dropExpired : PythonRunner :=
  { s with openOffers := s.openOffers.filter fun offer => ¬ s.now > offer.validUntil }

def offersToSend : ℕ :=
  s.maxConcurrency - (s.openOffers.length + s.runningTasks.length)

variable (random : ℕ → ℕ)

/-- The next round of the loop of `_send_offers`, with so many rounds to go. -/
def nextOffer (s : PythonRunner) (raises : Bool) : ℕ → PythonRunner × Option ℕ
  | 0 => (s, none)
  | left + 1 =>
    let validForMs := offerValidity + random s.nextOfferId % (offerValidityMaxJitter + 1)
    let validUntil := s.now + validForMs + offerValidityLatencyBuffer
    let offer : OpenOffer := { offerId := s.nextOfferId, validUntil }
    let (s, sent) := { s with
      openOffers := s.openOffers ++ [offer]
      nextOfferId := s.nextOfferId + 1 }.sendMessage (.taskoffer offer.offerId validForMs) raises
    (s, if sent then some left else none)

def sendOffers (s : PythonRunner) (raises : Bool) : PythonRunner × Option ℕ :=
  if s.canSendOffers then s.dropExpired.nextOffer random raises s.dropExpired.offersToSend
  else (s, none)

def handleRunnerRegistered : PythonRunner :=
  { s with
    canSendOffers := true
    offersCoroutine := some s.nextLoop
    loops := s.loops.set s.nextLoop none
    nextLoop := s.nextLoop + 1 }

def respond (message : RunnerToBroker) (raises : Bool) : PythonRunner :=
  let (s, sent) := s.sendMessage message raises
  { s with handler := if sent then some .responding else none }

def handleTaskOfferAccept (offerId : ℕ) (taskId : String) (raises : Bool) : PythonRunner :=
  match s.openOffers.find? (·.offerId = offerId) with
  | none => s.respond
    (.taskrejected taskId "Offer expired - not accepted within validity window") raises
  | some offer =>
    if s.now > offer.validUntil then
      s.respond (.taskrejected taskId "Offer expired - not accepted within validity window") raises
    else if s.runningTasks.length ≥ s.maxConcurrency then
      s.respond (.taskrejected taskId "No open task slots - runner already at capacity") raises
    else { s with
      openOffers := s.openOffers.filter fun offer => offer.offerId ≠ offerId
      runningTasks := s.runningTasks ++ [taskId]
      tasks := Function.update s.tasks taskId {} }.respond (.taskaccepted taskId) raises

/-- For a task that is not there it raises `TaskMissingError`, which is only logged. -/
def handleTaskSettings (continueOnFail : Bool) : PythonRunner :=
  if taskId ∈ s.runningTasks ∧ (s.tasks taskId).status = .waitingForSettings then
    s.setTask taskId ((s.tasks taskId).settings continueOnFail)
  else s

def pop : PythonRunner :=
  { s with runningTasks := s.runningTasks.filter (· ≠ taskId) }

/-- The handling goes on after a call of `_send_offers` waited or ended. -/
def offering (call : PythonRunner × Option ℕ) : PythonRunner :=
  { call.1 with handler := call.2.map .offering }

def handleTaskCancel (s : PythonRunner) (taskId : String) (raises : Bool) : PythonRunner :=
  if taskId ∈ s.runningTasks then
    match (s.tasks taskId).status with
    | .waitingForSettings => offering ((s.pop taskId).sendOffers random raises)
    | .running =>
      { s.setTask taskId (s.tasks taskId).cancel with handler := some (.stopping taskId) }
    | .aborting => s
  else s

/-- The handling goes on; in `stop_process` the process may have to be killed. -/
def handlerGoesOn (s : PythonRunner) (raises killed : Bool) : PythonRunner :=
  match s.handler with
  | some (.offering left) => offering (s.nextOffer random raises left)
  | some (.stopping taskId) =>
    { s.setTask taskId ((s.tasks taskId).stopProcess killed) with handler := none }
  | _ => { s with handler := none }

/-- A loop goes on after its call of `_send_offers` waited or ended. -/
def looping (id : ℕ) (call : PythonRunner × Option ℕ) : PythonRunner :=
  { call.1 with loops := call.1.loops.set id call.2 }

def loopGoesOn (s : PythonRunner) (id : ℕ) (raises : Bool) : Option ℕ → PythonRunner
  | some left => looping id (s.nextOffer random raises left)
  | none =>
    if s.canSendOffers then looping id (s.sendOffers random raises)
    else { s with loops := s.loops.erase id }

/-- The `finally` of `_execute_task`. -/
def endExecution : PythonRunner :=
  (s.pop taskId).setTask taskId { s.tasks taskId with execution := none }

/-- The `except` blocks of `_execute_task`: send the error. -/
def failExecution (raises : Bool) : PythonRunner :=
  let (s, sent) := s.sendMessage (.taskerror taskId) raises
  if sent then
    s.setTask taskId ({ s.tasks taskId with execution := some .finishing }.record .taskerror)
  else s.endExecution taskId

/-- `_execute_task` up to its thread; `valid` says that the analyzer accepts the code. -/
def beginExecution (valid raises : Bool) : PythonRunner :=
  if taskId ∈ s.runningTasks ∧ valid then s.setTask taskId (s.tasks taskId).createProcess
  else s.failExecution taskId raises

/-- `_execute_task` with the result: send the next `print` call, or the result. -/
def sendResult (raises raises' : Bool) : ℕ → PythonRunner
  | prints + 1 =>
    if s.connected ∧ ¬ raises then
      s.setTask taskId { s.tasks taskId with execution := some (.returned prints) }
    else s.failExecution taskId raises'
  | 0 =>
    let (s, sent) := s.sendMessage (.taskdone taskId) raises
    if sent then
      s.setTask taskId ({ s.tasks taskId with execution := some .finishing }.record .taskdone)
    else s.failExecution taskId raises'

/-- The connection is lost: `start` cancels the last loop. -/
def disconnect : PythonRunner :=
  { s with
    connected := false
    canSendOffers := false
    loops := match s.offersCoroutine with
      | some id => s.loops.erase id
      | none => s.loops }

/-- What makes the runner go on.  `raises` says that the next message cannot be
sent, `killed` that a process did not terminate in time. -/
inductive PythonInput where
  | advance (ms : ℕ)
  | connect
  | disconnect
  | registered
  | taskofferaccept (offerId : ℕ) (taskId : String) (raises : Bool)
  | tasksettings (taskId : String) (continueOnFail : Bool)
  | taskcancel (taskId : String) (raises : Bool)
  | handler (raises killed : Bool)
  | loop (id : ℕ) (raises : Bool)
  /-- `_execute_task` begins. -/
  | execute (taskId : String) (valid raises : Bool)
  /-- The thread starts the process. -/
  | startProcess (taskId : String) (started : Bool)
  /-- The process ends by itself. -/
  | exit (taskId : String) (code : ℤ)
  /-- The thread goes on after `process.join()`. -/
  | join (taskId : String) (killed : Bool) (result : Option ℕ)
  /-- `_execute_task` goes on after its thread or a message. -/
  | resume (taskId : String) (raises raises' : Bool)
  deriving DecidableEq, Repr

/-- The runner after the input, if it can come in this state: messages come while
no other is handled, and task ids in `taskofferaccept` are unique. -/
def step (s : PythonRunner) : PythonInput → Except Unit PythonRunner
  | .advance ms => .ok { s with now := s.now + ms }
  | .connect => onlyIf (s.connected = false) { s with connected := true }
  | .disconnect => onlyIf (s.connected = true ∧ s.handler = none) s.disconnect
  | .registered => onlyIf (s.connected = true ∧ s.handler = none) s.handleRunnerRegistered
  | .taskofferaccept offerId taskId raises =>
    onlyIf (s.connected = true ∧ s.handler = none ∧ taskId ∉ s.offered)
      ({ s with offered := s.offered ++ [taskId] }.handleTaskOfferAccept offerId taskId raises)
  | .tasksettings taskId continueOnFail => onlyIf (s.connected = true ∧ s.handler = none)
    (s.handleTaskSettings taskId continueOnFail)
  | .taskcancel taskId raises => onlyIf (s.connected = true ∧ s.handler = none)
    (s.handleTaskCancel random taskId raises)
  | .handler raises killed => onlyIf (s.handler ≠ none) (s.handlerGoesOn random raises killed)
  | .loop id raises => match s.loops.get? id with
    | some point => .ok (s.loopGoesOn random id raises point)
    | none => .error ()
  | .execute taskId valid raises => onlyIf ((s.tasks taskId).execution = some .created)
    (s.beginExecution taskId valid raises)
  | .startProcess taskId started => onlyIf ((s.tasks taskId).execution = some .starting)
    (s.setTask taskId ((s.tasks taskId).startProcess started))
  | .exit taskId code => onlyIf ((s.tasks taskId).process = some .running)
    (s.setTask taskId { s.tasks taskId with process := some (.exited code) })
  | .join taskId killed result => onlyIf ((s.tasks taskId).execution = some .joining)
    (s.setTask taskId ((s.tasks taskId).afterJoin killed result))
  | .resume taskId raises raises' => match (s.tasks taskId).execution with
    | some (.returned prints) => .ok (s.sendResult taskId raises raises' prints)
    | some .raised => .ok (s.failExecution taskId raises)
    | some .finishing => .ok (s.endExecution taskId)
    | _ => .error ()

def start (maxConcurrency : ℕ) : PythonRunner := { maxConcurrency }

end PythonRunner

end N8n
