/-
What one event of the task broker can change.

The properties of the broker are about requests, offers and the messages sent;
most events only move tasks and calls along and leave all of these as they are.

* `Quiet` — what such an event leaves alone;
* `stepped_of_step` — every event is quiet or does one of four things to the
  requests.
-/
import N8n.TaskBroker

namespace N8n.TaskBroker

/-- The request that a call of `acceptOffer` holds until its runner answers. -/
def flight (s : TaskBroker) (taskId : TaskId) : Option String :=
  match s.accepting.get? taskId with
  | some ⟨_, requestId, .runner _ _⟩ => some requestId
  | _ => none

def expired (s : TaskBroker) : List String :=
  s.sent.filterMap fun message => match message.2 with
    | .requestexpired requestId => some requestId
    | _ => none

def ready (s : TaskBroker) : List (String × String × TaskId) :=
  s.sent.filterMap fun message => match message.2 with
    | .taskready requestId taskId => some (message.1, requestId, taskId)
    | _ => none

def terminals (s : TaskBroker) : List TaskId :=
  s.sent.filterMap fun message => match message.2 with
    | .taskdone taskId => some taskId
    | .taskerror taskId => some taskId
    | _ => none

/-- Nothing was matched and no request moved: some offers may be gone, some tasks
may have ended. -/
structure Quiet (s s' : TaskBroker) : Prop where
  now : s.now ≤ s'.now
  offers : s'.pendingTaskOffers.Sublist s.pendingTaskOffers
  pending : s'.pendingTaskRequests = s.pendingTaskRequests
  requests : s'.requests = s.requests
  flight : s'.flight = s.flight
  nextTask : s'.nextTask = s.nextTask
  nextOffer : s'.nextOffer = s.nextOffer
  used : s'.used = s.used
  tasks : ∀ taskId task', s'.tasks.get? taskId = some task' →
    ∃ task, s.tasks.get? taskId = some task ∧ task.requesterId = task'.requesterId
  expired : s'.expired = s.expired
  ready : s'.ready = s.ready

section Quiet

variable {s s' s'' : TaskBroker} {taskId : TaskId} {offer : TaskOffer} {requestId : String}

theorem Quiet.refl (s : TaskBroker) : Quiet s s :=
  ⟨le_refl _, .refl _, rfl, rfl, rfl, rfl, rfl, rfl, fun _ task h => ⟨task, h, rfl⟩, rfl, rfl⟩

theorem Quiet.trans (h : Quiet s s') (h' : Quiet s' s'') : Quiet s s'' where
  now := le_trans h.now h'.now
  offers := h'.offers.trans h.offers
  pending := h'.pending.trans h.pending
  requests := h'.requests.trans h.requests
  flight := h'.flight.trans h.flight
  nextTask := h'.nextTask.trans h.nextTask
  nextOffer := h'.nextOffer.trans h.nextOffer
  used := h'.used.trans h.used
  tasks := by
    intro taskId task' hget
    obtain ⟨task, hget, hsame⟩ := h'.tasks taskId task' hget
    obtain ⟨task₀, hget₀, hsame₀⟩ := h.tasks taskId task hget
    exact ⟨task₀, hget₀, hsame₀.trans hsame⟩
  expired := h'.expired.trans h.expired
  ready := h'.ready.trans h.ready

theorem quiet_cancelTask (s : TaskBroker) (taskId : TaskId) : Quiet s (s.cancelTask taskId) := by
  rw [cancelTask]
  split
  · exact .refl s
  · exact ⟨le_refl _, .refl _, rfl, rfl, rfl, rfl, rfl, rfl,
      fun _ task h => ⟨task, Dict.get?_of_get?_erase h, rfl⟩, rfl, rfl⟩

theorem quiet_failTask (s : TaskBroker) (taskId : TaskId) : Quiet s (s.failTask taskId) := by
  rw [failTask]
  split
  · exact .refl s
  · exact ⟨le_refl _, .refl _, rfl, rfl, rfl, rfl, rfl, rfl,
      fun _ task h => ⟨task, Dict.get?_of_get?_erase h, rfl⟩, by simp [TaskBroker.expired],
      by simp [TaskBroker.ready]⟩

theorem quiet_getRunnerOrFailTask (s : TaskBroker) (taskId : TaskId) :
    Quiet s (s.getRunnerOrFailTask taskId).state := by
  rw [getRunnerOrFailTask]
  split
  · exact .refl s
  · split
    · exact .refl s
    · exact quiet_failTask s taskId

theorem quiet_setTask {task : Task} (hget : s.tasks.get? taskId = some task) (task' : Task)
    (hsame : task.requesterId = task'.requesterId) :
    Quiet s { s with tasks := s.tasks.set taskId task' } := by
  refine ⟨le_refl _, .refl _, rfl, rfl, rfl, rfl, rfl, rfl, ?_, rfl, rfl⟩
  intro taskId' task'' hget'
  rw [Dict.get?_set] at hget'
  split at hget'
  · rename_i heq
    cases hget'
    exact ⟨task, heq ▸ hget, hsame⟩
  · exact ⟨task'', hget', rfl⟩

theorem quiet_terminalHandler {message : TaskId → ToRequester}
    (hmessage : message = .taskdone ∨ message = .taskerror) (s : TaskBroker) (taskId : TaskId) :
    Quiet s (terminalHandler message s taskId) := by
  rw [terminalHandler]
  split
  · exact .refl s
  · rename_i task hget
    refine (quiet_setTask hget { task with timeout := false } rfl).trans ?_
    rcases hmessage with rfl | rfl
    · exact ⟨le_refl _, .refl _, rfl, rfl, rfl, rfl, rfl, rfl, fun _ task h => ⟨task, h, rfl⟩,
        by simp [TaskBroker.expired], by simp [TaskBroker.ready]⟩
    · exact ⟨le_refl _, .refl _, rfl, rfl, rfl, rfl, rfl, rfl, fun _ task h => ⟨task, h, rfl⟩,
        by simp [TaskBroker.expired], by simp [TaskBroker.ready]⟩

theorem quiet_handleTaskTimeout (mode : TaskRunnerMode) (s : TaskBroker) (taskId : TaskId) :
    Quiet s (handleTaskTimeout mode s taskId) := by
  cases mode with
  | internal => exact quiet_terminalHandler (.inr rfl) s taskId
  | external => exact ⟨le_refl _, .refl _, rfl, rfl, rfl, rfl, rfl, rfl,
      fun _ task h => ⟨task, h, rfl⟩, rfl, rfl⟩

theorem quiet_setAccepting {a : Acceptance}
    (hflight : TaskBroker.flight { s with accepting := s.accepting.set taskId a } taskId
      = s.flight taskId) :
    Quiet s { s with accepting := s.accepting.set taskId a } := by
  refine ⟨le_refl _, .refl _, rfl, rfl, funext fun t => ?_, rfl, rfl, rfl,
    fun _ task h => ⟨task, h, rfl⟩, rfl, rfl⟩
  by_cases ht : t = taskId
  · rw [ht, hflight]
  · simp only [TaskBroker.flight, Dict.get?_set_of_ne _ ht]

theorem flight_endAccept (s : TaskBroker) (taskId t : TaskId) :
    (s.endAccept taskId).flight t = if t = taskId then none else s.flight t := by
  by_cases ht : t = taskId
  · simp [TaskBroker.flight, endAccept, ht]
  · simp [TaskBroker.flight, endAccept, Dict.get?_erase_of_ne _ ht, ht]

theorem flight_acceptOffer (s : TaskBroker) (offer : TaskOffer) (requestId : String) (t : TaskId) :
    (s.acceptOffer offer requestId).flight t
      = if t = s.nextTask then some requestId else s.flight t := by
  by_cases ht : t = s.nextTask
  · simp [TaskBroker.flight, acceptOffer, ht]
  · simp [TaskBroker.flight, acceptOffer, Dict.get?_set, ht]

theorem quiet_endAccept (hflight : s.flight taskId = none) : Quiet s (s.endAccept taskId) := by
  refine ⟨le_refl _, .refl _, rfl, rfl, funext fun t => ?_, rfl, rfl, rfl,
    fun _ task h => ⟨task, h, rfl⟩, rfl, rfl⟩
  rw [flight_endAccept]
  split
  · rename_i ht
    rw [ht, hflight]
  · rfl

theorem quiet_settleRunnerAnswer (s : TaskBroker) (taskId : TaskId) (answer : RunnerAnswer) :
    Quiet s (s.settleRunnerAnswer taskId answer) := by
  rw [settleRunnerAnswer]
  split
  · rename_i hget
    exact quiet_setAccepting (by simp [TaskBroker.flight, hget])
  · exact .refl s

theorem quiet_settleRequesterAnswer (s : TaskBroker) (taskId : TaskId) (answer : RequesterAnswer) :
    Quiet s (s.settleRequesterAnswer taskId answer) := by
  rw [settleRequesterAnswer]
  split
  · rename_i hget
    exact quiet_setAccepting (by simp [TaskBroker.flight, hget])
  · exact .refl s

theorem quiet_handleRunnerAnswer (answer : RunnerAnswer) (s : TaskBroker) (taskId : TaskId) :
    Quiet s (handleRunnerAnswer answer s taskId) := by
  rw [handleRunnerAnswer]
  split
  · exact (quiet_settleRunnerAnswer s taskId answer).trans
      ⟨le_refl _, .refl _, rfl, rfl, rfl, rfl, rfl, rfl, fun _ task h => ⟨task, h, rfl⟩, rfl, rfl⟩
  · exact .refl s

theorem quiet_handleRequesterAccept (s : TaskBroker) (taskId : TaskId) :
    Quiet s (s.handleRequesterAccept taskId) := by
  rw [handleRequesterAccept]
  split
  · exact (quiet_settleRequesterAnswer s taskId .settings).trans
      ⟨le_refl _, .refl _, rfl, rfl, rfl, rfl, rfl, rfl, fun _ task h => ⟨task, h, rfl⟩, rfl, rfl⟩
  · exact .refl s

theorem quiet_deregisterRunner (s : TaskBroker) (runnerId : String) :
    Quiet s (s.deregisterRunner runnerId) := by
  have hloop : ∀ (taskIds : List TaskId) (t : TaskBroker), Quiet s t →
      Quiet s (taskIds.foldl failDisconnected t) := by
    intro taskIds
    induction taskIds with
    | nil => exact fun _ ht => ht
    | cons taskId taskIds ih =>
      intro t ht
      exact ih _ (ht.trans ((quiet_failTask t taskId).trans
        (quiet_handleRunnerAnswer .rejected _ taskId)))
  exact hloop _ _ ⟨le_refl _, List.filter_sublist, rfl, rfl, rfl, rfl, rfl, rfl,
    fun _ task h => ⟨task, h, rfl⟩, rfl, rfl⟩

theorem quiet_afterRequesterAnswer (answer : RequesterAnswer)
    (hflight : s.flight taskId = none) :
    Quiet s (s.afterRequesterAnswer taskId offer requestId answer) := by
  cases answer with
  | settings =>
    have hrunner := quiet_getRunnerOrFailTask s taskId
    rw [afterRequesterAnswer]
    split
    · rename_i t ht
      rw [ht] at hrunner
      refine hrunner.trans (quiet_setAccepting ?_)
      rw [congrFun hrunner.flight taskId, hflight]
      simp [TaskBroker.flight]
    · rename_i t ht
      rw [ht] at hrunner
      exact hrunner.trans (quiet_endAccept ((congrFun hrunner.flight taskId).trans hflight))
  | timedOut =>
    have hcancel := quiet_cancelTask s taskId
    exact hcancel.trans (quiet_endAccept ((congrFun hcancel.flight taskId).trans hflight))

theorem quiet_sendTaskSettings (hflight : s.flight taskId = none) :
    Quiet s (s.sendTaskSettings taskId offer requestId) := by
  rw [sendTaskSettings]
  split
  · exact quiet_endAccept hflight
  · rename_i task hget
    have htask := quiet_setTask hget { task with timeout := true } rfl
    refine htask.trans (quiet_setAccepting ?_)
    rw [congrFun htask.flight taskId, hflight]
    simp [TaskBroker.flight]

theorem quiet_cancelTask_endAccept (hflight : s.flight taskId = none) :
    Quiet s ((s.cancelTask taskId).endAccept taskId) := by
  have hcancel := quiet_cancelTask s taskId
  exact hcancel.trans (quiet_endAccept ((congrFun hcancel.flight taskId).trans hflight))

end Quiet

variable (s : TaskBroker) (requestId : String)

/-- The request is in flight, or no queued offer has its type. -/
def Served : Prop :=
  ∀ request, s.requests.get? requestId = some request → request.acceptInProgress = false →
    ∀ offer ∈ s.pendingTaskOffers, offer.taskType ≠ request.taskType

theorem settleRequest_cases : (s.settleRequest requestId = s ∧ s.Served requestId) ∨
    ∃ request offer, s.requests.get? requestId = some request ∧
      request.acceptInProgress = false ∧
      (s.pendingTaskOffers.find? fun offer => offer.taskType = request.taskType) = some offer ∧
      s.settleRequest requestId = acceptOffer { s with
        requests := s.requests.set requestId { request with acceptInProgress := true }
        pendingTaskOffers :=
          s.pendingTaskOffers.eraseP fun offer => offer.taskType = request.taskType }
        offer requestId := by
  rw [settleRequest]
  rcases hget : s.requests.get? requestId with _ | request
  · exact .inl ⟨rfl, fun request hrequest => by simp [hget] at hrequest⟩
  · dsimp only
    split
    · rename_i hbusy
      refine .inl ⟨rfl, fun request' hrequest hfree => ?_⟩
      rw [hget, Option.some.injEq] at hrequest
      rw [hrequest, hfree] at hbusy
      cases hbusy
    · rename_i hfree
      split
      · rename_i hnone
        refine .inl ⟨rfl, fun request' hrequest _ offer hoffer htype => ?_⟩
        rw [hget, Option.some.injEq] at hrequest
        have hfind := List.find?_eq_none.mp hnone offer hoffer
        simp [htype, hrequest] at hfind
      · rename_i offer hsome
        exact .inr ⟨request, offer, rfl, Bool.not_eq_true _ ▸ hfree, hsome, rfl⟩

theorem settleTasks_invariant {I : TaskBroker → Prop} {s : TaskBroker} (hexpire : I s.expireTasks)
    (hround : ∀ requestId ∈ s.pendingTaskRequests, ∀ t, I t → I (t.settleRequest requestId)) :
    I s.settleTasks := by
  have hloop : ∀ requestIds ⊆ s.pendingTaskRequests, ∀ t, I t →
      I (requestIds.foldl settleRequest t) := by
    intro requestIds
    induction requestIds with
    | nil => exact fun _ _ ht => ht
    | cons requestId requestIds ih =>
      intro hsub t ht
      obtain ⟨hfirst, hrest⟩ := List.cons_subset.mp hsub
      exact ih hrest _ (hround requestId hfirst t ht)
  exact hloop _ (List.Subset.refl _) _ hexpire

theorem quiet_expireTasks : Quiet s s.expireTasks :=
  ⟨le_refl _, List.filter_sublist, rfl, rfl, rfl, rfl, rfl, rfl, fun _ task h => ⟨task, h, rfl⟩,
    rfl, rfl⟩

theorem served_settleRequest : (s.settleRequest requestId).Served requestId := by
  rcases settleRequest_cases s requestId with ⟨heq, hserved⟩ | ⟨request, offer, -, -, -, heq⟩
  · exact heq.symm ▸ hserved
  · intro request' hget hfree
    rw [heq, acceptOffer, Dict.get?_set_self, Option.some.injEq] at hget
    rw [← hget] at hfree
    cases hfree

theorem Served.settleRequest {s : TaskBroker} {requestId : String} (h : s.Served requestId)
    (requestId' : String) : (s.settleRequest requestId').Served requestId := by
  rcases settleRequest_cases s requestId' with ⟨heq, -⟩ | ⟨request, offer, hget', -, -, heq⟩
  · exact heq.symm ▸ h
  · intro request' hget hfree offer' hoffer'
    rw [heq, acceptOffer, Dict.get?_set] at hget
    split at hget
    · cases hget
      cases hfree
    · rw [heq, acceptOffer] at hoffer'
      exact h request' hget hfree offer' (List.eraseP_subset hoffer')

/-- **Matching serves every pending request.** -/
theorem served_settleTasks :
    ∀ requestId ∈ s.pendingTaskRequests, s.settleTasks.Served requestId := by
  have hkeep : ∀ (requestIds : List String) (t : TaskBroker) (requestId : String),
      t.Served requestId → (requestIds.foldl TaskBroker.settleRequest t).Served requestId := by
    intro requestIds
    induction requestIds with
    | nil => exact fun _ _ ht => ht
    | cons first rest ih => exact fun t requestId ht => ih _ _ (ht.settleRequest first)
  have hloop : ∀ (requestIds : List String) (t : TaskBroker), ∀ requestId ∈ requestIds,
      (requestIds.foldl TaskBroker.settleRequest t).Served requestId := by
    intro requestIds
    induction requestIds with
    | nil => exact fun _ _ h => by cases h
    | cons first rest ih =>
      intro t requestId hmem
      rcases List.mem_cons.mp hmem with rfl | hrest
      · exact hkeep rest _ _ (served_settleRequest t requestId)
      · exact ih _ _ hrest
  exact hloop s.pendingTaskRequests s.expireTasks

theorem pending_settleRequest :
    (s.settleRequest requestId).pendingTaskRequests = s.pendingTaskRequests := by
  rcases settleRequest_cases s requestId with ⟨heq, -⟩ | ⟨request, offer, -, -, -, heq⟩
  · rw [heq]
  · rw [heq, acceptOffer]

theorem pending_settleTasks : s.settleTasks.pendingTaskRequests = s.pendingTaskRequests :=
  settleTasks_invariant (I := fun t => t.pendingTaskRequests = s.pendingTaskRequests) rfl
    fun requestId _ t ht => (pending_settleRequest t requestId).trans ht

/-- The tasks and the messages sent to requesters are the same. -/
structure SameTasks (s s' : TaskBroker) : Prop where
  tasks : s'.tasks = s.tasks
  sent : s'.sent = s.sent
  delivering : s'.delivering = s.delivering
  cancelled : s'.cancelled = s.cancelled

theorem sameTasks_settleTasks : SameTasks s s.settleTasks := by
  refine settleTasks_invariant (I := SameTasks s) ⟨rfl, rfl, rfl, rfl⟩ ?_
  intro requestId _ t ht
  rcases settleRequest_cases t requestId with ⟨heq, -⟩ | ⟨request, offer, -, -, -, heq⟩
  · rw [heq]
    exact ht
  · rw [heq]
    exact ⟨ht.tasks, ht.sent, ht.delivering, ht.cancelled⟩

theorem sameTasks_taskOffered (offer : TaskOffer) :
    SameTasks s (taskOffered { s with nextOffer := s.nextOffer + 1 } offer) := by
  obtain ⟨htasks, hsent, hdelivering, hcancelled⟩ := sameTasks_settleTasks { s with
    nextOffer := s.nextOffer + 1
    pendingTaskOffers := s.pendingTaskOffers ++ [offer] }
  exact ⟨htasks, hsent, hdelivering, hcancelled⟩

theorem sameTasks_taskRequested (request : TaskRequest) :
    SameTasks s (s.taskRequested requestId request) := by
  obtain ⟨htasks, hsent, hdelivering, hcancelled⟩ := sameTasks_settleTasks { s with
    requests := s.requests.set requestId request
    pendingTaskRequests := s.pendingTaskRequests ++ [requestId] }
  exact ⟨htasks, hsent, hdelivering, hcancelled⟩

/-- The call of `acceptOffer` that the event tells how its wait for the runner ended. -/
def answered : BrokerEvent → Option (TaskId × Acceptance × RunnerAnswer)
  | .runnerDelivery taskId false => match s.accepting.get? taskId with
    | some ⟨offer, requestId, .runner false answer⟩ =>
      some (taskId, ⟨offer, requestId, .runner false answer⟩, .undelivered)
    | _ => none
  | .runnerAnswered taskId => match s.accepting.get? taskId with
    | some ⟨offer, requestId, .runner true (some answer)⟩ =>
      some (taskId, ⟨offer, requestId, .runner true (some answer)⟩, answer)
    | _ => none
  | _ => none

/-- What an event can do to the requests: nothing, bring an offer or a request,
end the time of a request, or end the wait of a request in flight. -/
inductive Stepped (s : TaskBroker) : BrokerEvent → TaskBroker → Prop
  | quiet {e : BrokerEvent} {s' : TaskBroker} (hanswered : s.answered e = none)
      (hquiet : Quiet s s') : Stepped s e s'
  | offered {runnerId : String} {offerId taskType : String} {validFor : ℤ} (offer : TaskOffer)
      (hid : offer.id = s.nextOffer) :
      Stepped s (.runnerMessage runnerId (.taskoffer offerId taskType validFor))
        (taskOffered { s with nextOffer := s.nextOffer + 1 } offer)
  | requested {requesterId requestId taskType : String} (hnew : requestId ∉ s.requests.keys) :
      Stepped s (.requesterMessage requesterId (.taskrequest requestId taskType))
        (s.taskRequested requestId { requesterId, taskType })
  | timedOut {requestId : String} {request : TaskRequest}
      (hget : s.requests.get? requestId = some request) :
      Stepped s (.requestTimeout requestId) (s.handleRequestTimeout requestId request)
  | answered {e : BrokerEvent} {taskId : TaskId} {a : Acceptance} {request : TaskRequest}
      {answer : RunnerAnswer} (hanswered : s.answered e = some (taskId, a, answer))
      (hflight : s.flight taskId = some a.requestId)
      (hget : s.requests.get? a.requestId = some request) :
      Stepped s e (s.afterRunnerAnswer taskId a.offer a.requestId request answer)

variable {mode : TaskRunnerMode} {s s' : TaskBroker} {taskId : TaskId}

theorem stepped_runnerDelivery
    {delivered : Bool} (h : step mode s (.runnerDelivery taskId delivered) = .ok s') :
    Stepped s (.runnerDelivery taskId delivered) s' := by
  simp only [step] at h
  split at h
  · rename_i offer requestId answer hget
    split at h
    · rename_i request hrequest
      cases h
      cases delivered with
      | true =>
        exact .quiet rfl (quiet_setAccepting (by simp [flight, hget]))
      -- a message that was not delivered ends the wait
      | false =>
        have hanswered : s.answered (.runnerDelivery taskId false)
            = some (taskId, ⟨offer, requestId, .runner false answer⟩, .undelivered) := by
          simp [TaskBroker.answered, hget]
        exact .answered hanswered (by simp [flight, hget]) hrequest
    · cases h
  · cases h

theorem stepped_runnerAnswered
    (h : step mode s (.runnerAnswered taskId) = .ok s') :
    Stepped s (.runnerAnswered taskId) s' := by
  simp only [step] at h
  split at h
  · rename_i offer requestId answer hget
    split at h
    · rename_i request hrequest
      cases h
      have hanswered : s.answered (.runnerAnswered taskId)
          = some (taskId, ⟨offer, requestId, .runner true (some answer)⟩, answer) := by
        simp [TaskBroker.answered, hget]
      exact .answered hanswered (by simp [flight, hget]) hrequest
    · cases h
  · cases h

theorem stepped_onRunnerMessage (s : TaskBroker) (runnerId : String) (message : RunnerMessage) :
    Stepped s (.runnerMessage runnerId message) (s.onRunnerMessage runnerId message) := by
  simp only [onRunnerMessage]
  split
  · cases message with
    | taskaccepted taskId => exact .quiet rfl (quiet_handleRunnerAnswer .accepted s taskId)
    | taskrejected taskId => exact .quiet rfl (quiet_handleRunnerAnswer .rejected s taskId)
    | taskdeferred taskId => exact .quiet rfl (quiet_handleRunnerAnswer .deferred s taskId)
    | taskoffer offerId taskType validFor => exact .offered _ rfl
    | taskdone taskId => exact .quiet rfl (quiet_terminalHandler (.inl rfl) s taskId)
    | taskerror taskId => exact .quiet rfl (quiet_terminalHandler (.inr rfl) s taskId)
  · exact .quiet rfl (.refl s)

theorem stepped_onRequesterMessage {requesterId : String}
    {message : RequesterMessage} (h : s.onRequesterMessage requesterId message = .ok s') :
    Stepped s (.requesterMessage requesterId message) s' := by
  cases message with
  | tasksettings taskId =>
    cases h
    exact .quiet rfl (quiet_handleRequesterAccept s taskId)
  | taskcancel taskId =>
    cases h
    exact .quiet rfl (quiet_cancelTask s taskId)
  | taskrequest requestId taskType =>
    simp only [onRequesterMessage, onlyIf_eq_ok] at h
    obtain ⟨hnew, rfl⟩ := h
    exact .requested hnew
  | response taskId =>
    cases h
    exact .quiet rfl (quiet_getRunnerOrFailTask s taskId)

theorem quiet_cancelDelivery (s : TaskBroker) (taskId : TaskId) (delivered : Bool) :
    Quiet s (if delivered then
        taskErrorHandler { s with timingOut := s.timingOut.erase taskId } taskId
      else { s with timingOut := s.timingOut.erase taskId }) := by
  have htimingOut : Quiet s { s with timingOut := s.timingOut.erase taskId } :=
    ⟨le_refl _, .refl _, rfl, rfl, rfl, rfl, rfl, rfl, fun _ task h => ⟨task, h, rfl⟩, rfl, rfl⟩
  split
  · exact htimingOut.trans (quiet_terminalHandler (.inr rfl) _ taskId)
  · exact htimingOut

variable {e : BrokerEvent}

/-- **Every event does one of five things to the requests.** -/
theorem stepped_of_step (h : step mode s e = .ok s') : Stepped s e s' := by
  cases e with
  | advance ns =>
    cases h
    exact .quiet rfl ⟨Int.le_add_of_nonneg_right (Int.natCast_nonneg ns), .refl _, rfl, rfl, rfl,
      rfl, rfl, rfl,
      fun _ task h => ⟨task, h, rfl⟩, rfl, rfl⟩
  | registerRunner runnerId =>
    cases h
    exact .quiet rfl ⟨le_refl _, .refl _, rfl, rfl, rfl, rfl, rfl, rfl,
      fun _ task h => ⟨task, h, rfl⟩, rfl, rfl⟩
  | deregisterRunner runnerId =>
    cases h
    exact .quiet rfl (quiet_deregisterRunner s runnerId)
  | runnerMessage runnerId message =>
    cases h
    exact stepped_onRunnerMessage s runnerId message
  | requesterMessage requesterId message => exact stepped_onRequesterMessage h
  | requestTimeout requestId =>
    simp only [step] at h
    split at h
    · rename_i request hget
      obtain ⟨-, rfl⟩ := onlyIf_eq_ok.mp h
      exact .timedOut hget
    · cases h
  | taskTimeout taskId =>
    simp only [step] at h
    split at h
    · rename_i task hget
      obtain ⟨-, rfl⟩ := onlyIf_eq_ok.mp h
      exact .quiet rfl ((quiet_setTask hget { task with timeout := false } rfl).trans
        (quiet_handleTaskTimeout mode _ taskId))
    · cases h
  | acceptTimeout taskId =>
    cases h
    exact .quiet rfl (quiet_settleRunnerAnswer s taskId .timedOut)
  | settingsTimeout taskId =>
    cases h
    exact .quiet rfl (quiet_settleRequesterAnswer s taskId .timedOut)
  | runnerDelivery taskId delivered => exact stepped_runnerDelivery h
  | runnerAnswered taskId => exact stepped_runnerAnswered h
  | requesterDelivery taskId delivered =>
    simp only [step] at h
    split at h
    · rename_i offer requestId answer hget
      -- the runner has answered before, so no request is in flight
      have hflight : s.flight taskId = none := by simp [flight, hget]
      cases h
      refine .quiet rfl ?_
      split
      · exact quiet_setAccepting (by simp [flight, hget])
      · exact quiet_cancelTask_endAccept hflight
    · cases h
  | requesterAnswered taskId =>
    simp only [step] at h
    split at h
    · rename_i offer requestId answer hget
      cases h
      exact .quiet rfl (quiet_afterRequesterAnswer answer (by simp [flight, hget]))
    · cases h
  | runnerFound taskId =>
    simp only [step] at h
    split at h
    · rename_i offer requestId hget
      cases h
      exact .quiet rfl (quiet_sendTaskSettings (by simp [flight, hget]))
    · cases h
  | settingsDelivery taskId delivered =>
    simp only [step] at h
    split at h
    · rename_i hget
      have hflight : s.flight taskId = none := by simp [flight, hget]
      cases h
      refine .quiet rfl ?_
      split
      · exact quiet_endAccept hflight
      · exact quiet_cancelTask_endAccept hflight
    · cases h
  | terminalDelivery taskId =>
    simp only [step, onlyIf_eq_ok] at h
    obtain ⟨-, rfl⟩ := h
    exact .quiet rfl ⟨le_refl _, .refl _, rfl, rfl, rfl, rfl, rfl, rfl,
      fun _ task h => ⟨task, Dict.get?_of_get?_erase h, rfl⟩, rfl, rfl⟩
  | cancelDelivery taskId delivered =>
    simp only [step, onlyIf_eq_ok] at h
    obtain ⟨-, rfl⟩ := h
    exact .quiet rfl (quiet_cancelDelivery s taskId delivered)

/-- A request comes into flight only with a new task id. -/
structure Flights (s s' : TaskBroker) : Prop where
  nextTask : s.nextTask ≤ s'.nextTask
  flight : ∀ taskId requestId, s'.flight taskId = some requestId →
    s.flight taskId = some requestId ∨ (s.nextTask ≤ taskId ∧ taskId < s'.nextTask)

theorem Flights.settleRequest {t : TaskBroker} (h : Flights s t) (requestId : String) :
    Flights s (t.settleRequest requestId) := by
  rcases settleRequest_cases t requestId with ⟨heq, -⟩ | ⟨request, offer, -, -, -, heq⟩
  · exact heq.symm ▸ h
  · rw [heq]
    refine ⟨Nat.le_succ_of_le h.nextTask, ?_⟩
    intro taskId requestId' hsome
    rw [flight_acceptOffer] at hsome
    split at hsome
    · rename_i hnew
      rw [hnew]
      exact .inr ⟨h.nextTask, Nat.lt_succ_self _⟩
    · exact (h.flight taskId requestId' hsome).imp_right
        fun ⟨hold, hnew⟩ => ⟨hold, Nat.lt_succ_of_lt hnew⟩

theorem flights_settleTasks (s : TaskBroker) : Flights s s.settleTasks :=
  settleTasks_invariant (I := Flights s) ⟨le_refl _, fun _ _ hsome => .inl hsome⟩
    fun requestId _ _ ht => ht.settleRequest requestId

theorem flights_afterRunnerAnswer {offer : TaskOffer}
    {requestId : String} {request : TaskRequest} (answer : RunnerAnswer) :
    Flights s (s.afterRunnerAnswer taskId offer requestId request answer) := by
  have hended : ∀ t requestId', (s.endAccept taskId).flight t = some requestId' →
      s.flight t = some requestId' ∨ (s.nextTask ≤ t ∧ t < s.nextTask) := by
    intro t requestId' hsome
    rw [flight_endAccept] at hsome
    split at hsome
    · cases hsome
    · exact .inl hsome
  cases answer with
  | accepted =>
    simp only [afterRunnerAnswer]
    split
    · -- the call goes on to wait for the requester
      refine ⟨le_refl _, fun t requestId' hsome => .inl ?_⟩
      by_cases ht : t = taskId
      · simp [flight, ht] at hsome
      · simpa [flight, Dict.get?_set_of_ne _ ht] using hsome
    · exact ⟨le_refl _, hended⟩
  | deferred => exact ⟨le_refl _, hended⟩
  | rejected => exact ⟨le_refl _, hended⟩
  | timedOut => exact ⟨le_refl _, hended⟩
  | undelivered => exact ⟨le_refl _, hended⟩

theorem flights_step (hstep : step mode s e = .ok s') : Flights s s' := by
  cases stepped_of_step hstep with
  | quiet hanswered hquiet =>
    exact ⟨le_of_eq hquiet.nextTask.symm, fun t requestId hsome => .inl (hquiet.flight ▸ hsome)⟩
  | offered offer =>
    obtain ⟨hnextTask, hflight⟩ := flights_settleTasks { s with
      nextOffer := s.nextOffer + 1
      pendingTaskOffers := s.pendingTaskOffers ++ [offer] }
    exact ⟨hnextTask, hflight⟩
  | @requested requesterId requestId taskType =>
    obtain ⟨hnextTask, hflight⟩ := flights_settleTasks { s with
      requests := s.requests.set requestId { requesterId, taskType }
      pendingTaskRequests := s.pendingTaskRequests ++ [requestId] }
    exact ⟨hnextTask, hflight⟩
  | timedOut =>
    rw [handleRequestTimeout]
    split
    · exact ⟨le_refl _, fun _ _ hsome => .inl hsome⟩
    · exact ⟨le_refl _, fun _ _ hsome => .inl hsome⟩
  | answered => exact flights_afterRunnerAnswer _

end N8n.TaskBroker
