/-
The task broker: requests of requesters matched with offers of runners.

A request waits in `pendingTaskRequests` and an offer in `pendingTaskOffers`
until `settleTasks` pairs them and starts `acceptOffer`, which then waits four
times: for its message to the runner, for the runner's answer, for its message
to the requester and for the requester's answer.  Anything can happen while it
waits, so each of its parts is an event of its own.

* `settleTasks` — pair requests and offers;
* `afterRunnerAnswer` — go on with `acceptOffer` once the runner answered.
-/
import N8n.Runs
import N8n.Dict

namespace N8n

/-- Task ids are drawn by `nanoid`: the `n`-th draw is the task `n`. -/
abbrev TaskId := ℕ

inductive TaskRunnerMode where
  | internal
  | external
  deriving DecidableEq, Repr

/-- An offer; `id` is the identity of the object. -/
structure TaskOffer where
  id : ℕ
  offerId : String
  runnerId : String
  taskType : String
  validFor : ℤ
  validUntil : ℤ
  deriving DecidableEq, Repr

/-- `expireTasks` removes the offer at this time. -/
def TaskOffer.expired (offer : TaskOffer) (now : ℤ) : Bool :=
  offer.validFor ≠ -1 && offer.validUntil < now

/-- A request, known by its id; `timeout` says that its timer runs. -/
structure TaskRequest where
  requesterId : String
  taskType : String
  timeout : Bool := true
  acceptInProgress : Bool := false
  deriving DecidableEq, Repr

/-- A task, known by its id; `timeout` says that its timer runs. -/
structure Task where
  runnerId : String
  requesterId : String
  taskType : String
  timeout : Bool := false
  deriving DecidableEq, Repr

/-- What the broker sends to a requester, without what it only passes on. -/
inductive ToRequester where
  | requestexpired (requestId : String)
  | taskready (requestId : String) (taskId : TaskId)
  | taskdone (taskId : TaskId)
  | taskerror (taskId : TaskId)
  deriving DecidableEq, Repr

/-- How the wait for the runner ended: how the promise was settled, or that the
message to the runner could not be delivered. -/
inductive RunnerAnswer where
  | accepted
  | rejected
  | deferred
  | timedOut
  | undelivered
  deriving DecidableEq, Repr

/-- How the promise that waits for the settings was settled. -/
inductive RequesterAnswer where
  | settings
  | timedOut
  deriving DecidableEq, Repr

/-- Where a call of `acceptOffer` stands: it waits for a message to be delivered
and then for an answer, of the runner and then of the requester, and last in
`sendTaskSettings` for `getRunnerOrFailTask` and for the settings to be delivered. -/
inductive AcceptPoint where
  | runner (delivered : Bool) (answer : Option RunnerAnswer)
  | requester (delivered : Bool) (answer : Option RequesterAnswer)
  | lookup
  | sending
  deriving DecidableEq, Repr

/-- A call of `acceptOffer` that has not returned, with the object of its request. -/
structure Acceptance where
  offer : TaskOffer
  requestId : String
  point : AcceptPoint := .runner false none
  deriving DecidableEq, Repr

/-- The broker.  Request objects are known by their ids, so that the pending
requests are a list of ids; the runners and requesters behind the ids are left
out, and so are messages to runners, which leave the state as it is.

`accepting` holds the calls of `acceptOffer`, `delivering` the tasks of the
`taskDoneHandler` and `taskErrorHandler` calls that wait for their message (for
ever where its callback throws: the task stays in the map then), and `timingOut`
those of the `handleTaskTimeout` calls that wait for theirs.  `sent`,
`used` and `cancelled` log the messages to requesters, the offers that were
accepted and the tasks that were cancelled. -/
structure TaskBroker where
  now : ℤ := 0
  knownRunners : List String := []
  tasks : Dict TaskId Task := .empty
  runnerAcceptRejects : List TaskId := []
  requesterAcceptRejects : List TaskId := []
  pendingTaskOffers : List TaskOffer := []
  pendingTaskRequests : List String := []
  requests : Dict String TaskRequest := .empty
  accepting : Dict TaskId Acceptance := .empty
  delivering : List TaskId := []
  timingOut : List TaskId := []
  nextOffer : ℕ := 0
  nextTask : TaskId := 0
  sent : List (String × ToRequester) := []
  used : List ℕ := []
  cancelled : List TaskId := []
  deriving DecidableEq

namespace TaskBroker

variable (s : TaskBroker)

def expireTasks : TaskBroker :=
  { s with pendingTaskOffers := s.pendingTaskOffers.filter fun offer => ¬ offer.expired s.now }

/-- `acceptOffer` up to its first `await`. -/
def acceptOffer (offer : TaskOffer) (requestId : String) : TaskBroker :=
  { s with
    nextTask := s.nextTask + 1
    runnerAcceptRejects := s.runnerAcceptRejects ++ [s.nextTask]
    accepting := s.accepting.set s.nextTask { offer, requestId }
    used := s.used ++ [offer.id] }

/-- One round of the loop of `settleTasks`. -/
def settleRequest (requestId : String) : TaskBroker :=
  match s.requests.get? requestId with
  | none => s
  | some request =>
    if request.acceptInProgress then s
    else match s.pendingTaskOffers.find? fun offer => offer.taskType = request.taskType with
      | none => s
      | some offer => acceptOffer
        { s with
          requests := s.requests.set requestId { request with acceptInProgress := true }
          pendingTaskOffers :=
            s.pendingTaskOffers.eraseP fun offer => offer.taskType = request.taskType }
        offer requestId

def settleTasks : TaskBroker :=
  s.expireTasks.pendingTaskRequests.foldl settleRequest s.expireTasks

def taskRequested (requestId : String) (request : TaskRequest) : TaskBroker :=
  settleTasks { s with
    requests := s.requests.set requestId request
    pendingTaskRequests := s.pendingTaskRequests ++ [requestId] }

def taskOffered (offer : TaskOffer) : TaskBroker :=
  settleTasks { s with pendingTaskOffers := s.pendingTaskOffers ++ [offer] }

def handleRequestTimeout (requestId : String) (request : TaskRequest) : TaskBroker :=
  if requestId ∈ s.pendingTaskRequests then
    { s with
      pendingTaskRequests := s.pendingTaskRequests.erase requestId
      requests := s.requests.set requestId { request with timeout := false }
      sent := s.sent ++ [(request.requesterId, .requestexpired requestId)] }
  else { s with requests := s.requests.set requestId { request with timeout := false } }

variable (taskId : TaskId)

def cancelTask : TaskBroker :=
  match s.tasks.get? taskId with
  | none => s
  | some _ => { s with
    tasks := s.tasks.erase taskId
    cancelled := s.cancelled ++ [taskId] }

def failTask : TaskBroker :=
  match s.tasks.get? taskId with
  | none => s
  | some task => { s with
    tasks := s.tasks.erase taskId
    sent := s.sent ++ [(task.requesterId, .taskerror taskId)] }

def getRunnerOrFailTask : Outcome String TaskBroker :=
  match s.tasks.get? taskId with
  | none => .threw ("Cannot find runner, failed to find task (" ++ toString taskId ++ ")") s
  | some task =>
    if task.runnerId ∈ s.knownRunners then .returned s
    else .threw ("Cannot find runner, failed to find runner (" ++ task.runnerId ++ ")")
      (s.failTask taskId)

/-- `taskDoneHandler` and `taskErrorHandler` up to their `await`. -/
def terminalHandler (message : TaskId → ToRequester) (s : TaskBroker) (taskId : TaskId) :
    TaskBroker :=
  match s.tasks.get? taskId with
  | none => s
  | some task => { s with
    tasks := s.tasks.set taskId { task with timeout := false }
    sent := s.sent ++ [(task.requesterId, message taskId)]
    delivering := s.delivering ++ [taskId] }

def taskDoneHandler : TaskBroker → TaskId → TaskBroker := terminalHandler .taskdone

def taskErrorHandler : TaskBroker → TaskId → TaskBroker := terminalHandler .taskerror

/-- `handleTaskTimeout` up to its first `await`, of a task in the map; `internal`
mode goes on with `taskErrorHandler` at once. -/
def handleTaskTimeout (mode : TaskRunnerMode) (s : TaskBroker) (taskId : TaskId) : TaskBroker :=
  match mode with
  | .internal => s.taskErrorHandler taskId
  | .external => { s with timingOut := s.timingOut ++ [taskId] }

/-- Settle the promise that waits for the runner, unless it is settled. -/
def settleRunnerAnswer (answer : RunnerAnswer) : TaskBroker :=
  match s.accepting.get? taskId with
  | some ⟨offer, requestId, .runner delivered none⟩ =>
    { s with accepting :=
      s.accepting.set taskId ⟨offer, requestId, .runner delivered (some answer)⟩ }
  | _ => s

def handleRunnerAnswer (answer : RunnerAnswer) (s : TaskBroker) (taskId : TaskId) : TaskBroker :=
  if taskId ∈ s.runnerAcceptRejects then
    { s.settleRunnerAnswer taskId answer with
      runnerAcceptRejects := s.runnerAcceptRejects.erase taskId }
  else s

def handleRunnerAccept : TaskBroker → TaskId → TaskBroker := handleRunnerAnswer .accepted

def handleRunnerReject : TaskBroker → TaskId → TaskBroker := handleRunnerAnswer .rejected

def handleRunnerDeferred : TaskBroker → TaskId → TaskBroker := handleRunnerAnswer .deferred

/-- Settle the promise that waits for the settings, unless it is settled. -/
def settleRequesterAnswer (answer : RequesterAnswer) : TaskBroker :=
  match s.accepting.get? taskId with
  | some ⟨offer, requestId, .requester delivered none⟩ =>
    { s with accepting :=
      s.accepting.set taskId ⟨offer, requestId, .requester delivered (some answer)⟩ }
  | _ => s

def handleRequesterAccept : TaskBroker :=
  if taskId ∈ s.requesterAcceptRejects then
    { s.settleRequesterAnswer taskId .settings with
      requesterAcceptRejects := s.requesterAcceptRejects.erase taskId }
  else s

def registerRunner (runnerId : String) : TaskBroker :=
  { s with knownRunners := if runnerId ∈ s.knownRunners then s.knownRunners
      else s.knownRunners ++ [runnerId] }

def failDisconnected : TaskBroker :=
  (s.failTask taskId).handleRunnerReject taskId

/-- The tasks that run on a runner. -/
def tasksOn (runnerId : String) : List TaskId :=
  (s.tasks.entries.filter fun task => task.2.runnerId = runnerId).map Prod.fst

def deregisterRunner (runnerId : String) : TaskBroker :=
  (s.tasksOn runnerId).foldl failDisconnected { s with
    knownRunners := s.knownRunners.filter fun id => id ≠ runnerId
    pendingTaskOffers := s.pendingTaskOffers.filter fun offer => offer.runnerId ≠ runnerId }

/-- The call of `acceptOffer` is over. -/
def endAccept : TaskBroker :=
  { s with accepting := s.accepting.erase taskId }

/-- The `catch` block of `acceptOffer` without the part for a deferral. -/
def acceptFailed (requestId : String) (request : TaskRequest) : TaskBroker :=
  { s.endAccept taskId with
    requests := s.requests.set requestId { request with acceptInProgress := false } }

/-- `acceptOffer` from the runner's answer to the next `await`. -/
def afterRunnerAnswer (offer : TaskOffer) (requestId : String)
    (request : TaskRequest) : RunnerAnswer → TaskBroker
  | .accepted =>
    let s := { s with
      requests := s.requests.set requestId { request with timeout := false }
      tasks := s.tasks.set taskId
        { taskType := offer.taskType, runnerId := offer.runnerId
          requesterId := request.requesterId } }
    if requestId ∈ s.pendingTaskRequests then
      { s with
        pendingTaskRequests := s.pendingTaskRequests.erase requestId
        requesterAcceptRejects := s.requesterAcceptRejects ++ [taskId]
        accepting := s.accepting.set taskId ⟨offer, requestId, .requester false none⟩
        sent := s.sent ++ [(request.requesterId, .taskready requestId taskId)] }
    -- the source logs that this should not happen, and the task stays in the map
    else s.endAccept taskId
  | .deferred =>
    { s.endAccept taskId with
      requests :=
        s.requests.set requestId { request with acceptInProgress := false, timeout := true }
      pendingTaskRequests := s.pendingTaskRequests ++ [requestId] }
  | .rejected => s.acceptFailed taskId requestId request
  | .timedOut => s.acceptFailed taskId requestId request
  | .undelivered => s.acceptFailed taskId requestId request

/-- `acceptOffer` from the requester's answer to the next `await`.  Where
`getRunnerOrFailTask` throws, the task is gone when `cancelTask` looks for it. -/
def afterRequesterAnswer (offer : TaskOffer) (requestId : String) : RequesterAnswer → TaskBroker
  | .settings => match s.getRunnerOrFailTask taskId with
    | .returned s => { s with accepting := s.accepting.set taskId ⟨offer, requestId, .lookup⟩ }
    | .threw _ s => s.endAccept taskId
  | .timedOut => (s.cancelTask taskId).endAccept taskId

/-- The rest of `sendTaskSettings`, up to its last `await`. -/
def sendTaskSettings (offer : TaskOffer) (requestId : String) : TaskBroker :=
  match s.tasks.get? taskId with
  | none => s.endAccept taskId
  | some task => { s with
    tasks := s.tasks.set taskId { task with timeout := true }
    accepting := s.accepting.set taskId ⟨offer, requestId, .sending⟩ }

inductive RunnerMessage where
  | taskaccepted (taskId : TaskId)
  | taskrejected (taskId : TaskId)
  | taskdeferred (taskId : TaskId)
  | taskoffer (offerId taskType : String) (validFor : ℤ)
  | taskdone (taskId : TaskId)
  | taskerror (taskId : TaskId)
  deriving DecidableEq, Repr

/-- A `response` is what answers a data, node types or RPC request of a task. -/
inductive RequesterMessage where
  | tasksettings (taskId : TaskId)
  | taskcancel (taskId : TaskId)
  | taskrequest (requestId taskType : String)
  | response (taskId : TaskId)
  deriving DecidableEq, Repr

/-- What can happen next.  The last eight go on where a call waited: for a message
(`…Delivery`, and whether its callback returned), for a promise (`…Answered`,
with the timers that reject it), or for `getRunnerOrFailTask`. -/
inductive BrokerEvent where
  | advance (ns : ℕ)
  | registerRunner (runnerId : String)
  | deregisterRunner (runnerId : String)
  | runnerMessage (runnerId : String) (message : RunnerMessage)
  | requesterMessage (requesterId : String) (message : RequesterMessage)
  | requestTimeout (requestId : String)
  | taskTimeout (taskId : TaskId)
  | acceptTimeout (taskId : TaskId)
  | settingsTimeout (taskId : TaskId)
  | runnerDelivery (taskId : TaskId) (delivered : Bool)
  | runnerAnswered (taskId : TaskId)
  | requesterDelivery (taskId : TaskId) (delivered : Bool)
  | requesterAnswered (taskId : TaskId)
  | runnerFound (taskId : TaskId)
  | settingsDelivery (taskId : TaskId) (delivered : Bool)
  | terminalDelivery (taskId : TaskId)
  | cancelDelivery (taskId : TaskId) (delivered : Bool)
  deriving DecidableEq, Repr

/-- `onRunnerMessage`. -/
def onRunnerMessage (runnerId : String) (message : RunnerMessage) : TaskBroker :=
  if runnerId ∈ s.knownRunners then
    match message with
    | .taskaccepted taskId => s.handleRunnerAccept taskId
    | .taskrejected taskId => s.handleRunnerReject taskId
    | .taskdeferred taskId => s.handleRunnerDeferred taskId
    | .taskoffer offerId taskType validFor =>
      taskOffered { s with nextOffer := s.nextOffer + 1 }
        { id := s.nextOffer, runnerId, taskType, offerId, validFor
          validUntil := if validFor = -1 then 0 else s.now + validFor * 1000000 }
    | .taskdone taskId => s.taskDoneHandler taskId
    | .taskerror taskId => s.taskErrorHandler taskId
  else s

/-- `onRequesterMessage`; request ids are unique. -/
def onRequesterMessage (requesterId : String) : RequesterMessage → Except Unit TaskBroker
  | .tasksettings taskId => .ok (s.handleRequesterAccept taskId)
  | .taskcancel taskId => .ok (s.cancelTask taskId)
  | .taskrequest requestId taskType =>
    onlyIf (requestId ∉ s.requests.keys) (s.taskRequested requestId { requesterId, taskType })
  | .response taskId => .ok (s.getRunnerOrFailTask taskId).state

def step (mode : TaskRunnerMode) (s : TaskBroker) : BrokerEvent → Except Unit TaskBroker
  | .advance ns => .ok { s with now := s.now + ns }
  | .registerRunner runnerId => .ok (s.registerRunner runnerId)
  | .deregisterRunner runnerId => .ok (s.deregisterRunner runnerId)
  | .runnerMessage runnerId message => .ok (s.onRunnerMessage runnerId message)
  | .requesterMessage requesterId message => s.onRequesterMessage requesterId message
  | .requestTimeout requestId => match s.requests.get? requestId with
    | some request => onlyIf (request.timeout = true) (s.handleRequestTimeout requestId request)
    | none => .error ()
  | .taskTimeout taskId => match s.tasks.get? taskId with
    | some task => onlyIf (task.timeout = true) (handleTaskTimeout mode
      { s with tasks := s.tasks.set taskId { task with timeout := false } } taskId)
    | none => .error ()
  | .acceptTimeout taskId => .ok (s.settleRunnerAnswer taskId .timedOut)
  | .settingsTimeout taskId => .ok (s.settleRequesterAnswer taskId .timedOut)
  | .runnerDelivery taskId delivered => match s.accepting.get? taskId with
    | some ⟨offer, requestId, .runner false answer⟩ => match s.requests.get? requestId with
      | some request => .ok (
        if delivered then
          { s with accepting := s.accepting.set taskId ⟨offer, requestId, .runner true answer⟩ }
        else s.afterRunnerAnswer taskId offer requestId request .undelivered)
      | none => .error ()
    | _ => .error ()
  | .runnerAnswered taskId => match s.accepting.get? taskId with
    | some ⟨offer, requestId, .runner true (some answer)⟩ => match s.requests.get? requestId with
      | some request => .ok (s.afterRunnerAnswer taskId offer requestId request answer)
      | none => .error ()
    | _ => .error ()
  | .requesterDelivery taskId delivered => match s.accepting.get? taskId with
    | some ⟨offer, requestId, .requester false answer⟩ => .ok (
      if delivered then
        { s with accepting := s.accepting.set taskId ⟨offer, requestId, .requester true answer⟩ }
      else (s.cancelTask taskId).endAccept taskId)
    | _ => .error ()
  | .requesterAnswered taskId => match s.accepting.get? taskId with
    | some ⟨offer, requestId, .requester true (some answer)⟩ =>
      .ok (s.afterRequesterAnswer taskId offer requestId answer)
    | _ => .error ()
  | .runnerFound taskId => match s.accepting.get? taskId with
    | some ⟨offer, requestId, .lookup⟩ => .ok (s.sendTaskSettings taskId offer requestId)
    | _ => .error ()
  | .settingsDelivery taskId delivered => match s.accepting.get? taskId with
    | some ⟨_, _, .sending⟩ => .ok (
      if delivered then s.endAccept taskId else (s.cancelTask taskId).endAccept taskId)
    | _ => .error ()
  | .terminalDelivery taskId => onlyIf (taskId ∈ s.delivering) { s with
    tasks := s.tasks.erase taskId
    delivering := s.delivering.erase taskId }
  | .cancelDelivery taskId delivered => onlyIf (taskId ∈ s.timingOut) (
    if delivered then
      taskErrorHandler { s with timingOut := s.timingOut.erase taskId } taskId
    else { s with timingOut := s.timingOut.erase taskId })

end TaskBroker

end N8n
