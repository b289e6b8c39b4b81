/-
At most one terminal message for each task.

A task ends when it is cancelled, when it fails, or when a handler sends its
result or error.  Cancelling and failing take the task out of the map before they
send anything; the handlers send first and take it out when the message has been
delivered, so that a second handler can find it there in between.

* `oneTerminal_iff` — **along every run each task gets at most one terminal message
  iff no handler starts while another message of its task is being delivered**.
-/
import N8n.TaskBrokerSteps

namespace N8n.TaskBroker

variable {mode : TaskRunnerMode} {s s' s'' : TaskBroker} {e : BrokerEvent} {taskId : TaskId}
  {started ended ended' : List TaskId}

/-- What is asked of each event: no task gets a second terminal message, and none
gets one after it was cancelled. -/
structure OneTerminal (s s' : TaskBroker) : Prop where
  once : s'.terminals.Nodup
  notCancelled : ∀ taskId ∈ s'.terminals.drop s.terminals.length, taskId ∉ s.cancelled

/-- The task is in the map and its runner is gone. -/
def runnerGone (s : TaskBroker) (taskId : TaskId) : Bool :=
  match s.tasks.get? taskId with
  | some task => task.runnerId ∉ s.knownRunners
  | none => false

def ending (mode : TaskRunnerMode) (s : TaskBroker) : BrokerEvent → List TaskId
  | .deregisterRunner runnerId => s.tasksOn runnerId
  | .runnerMessage runnerId (.taskdone taskId) =>
    if runnerId ∈ s.knownRunners ∧ s.tasks.has taskId then [taskId] else []
  | .runnerMessage runnerId (.taskerror taskId) =>
    if runnerId ∈ s.knownRunners ∧ s.tasks.has taskId then [taskId] else []
  | .requesterMessage _ (.response taskId) => if s.runnerGone taskId then [taskId] else []
  | .taskTimeout taskId => if mode = .internal then [taskId] else []
  | .requesterAnswered taskId => match s.accepting.get? taskId with
    | some ⟨_, _, .requester true (some .settings)⟩ =>
      if s.runnerGone taskId then [taskId] else []
    | _ => []
  | .cancelDelivery taskId true => if s.tasks.has taskId then [taskId] else []
  | _ => []

/-- Some tasks were started and for some a terminal message was sent; those are
out of the map or their message is being delivered. -/
structure TaskMoves (s s' : TaskBroker) (started ended : List TaskId) : Prop where
  terminals : s'.terminals = s.terminals ++ ended
  keys : ∀ t ∈ s'.tasks.keys, t ∈ s.tasks.keys ∨ t ∈ started
  still : ∀ t ∈ ended, t ∈ s'.tasks.keys → t ∈ s'.delivering
  delivering : ∀ t ∈ s'.delivering, t ∈ s.delivering ∨ t ∈ ended
  kept : ∀ t ∈ s.delivering, t ∈ s'.tasks.keys → t ∈ s'.delivering
  cancelled : ∀ t ∈ s'.cancelled, t ∈ s.cancelled ∨ (t ∈ s.tasks.keys ∧ t ∉ s'.tasks.keys)

theorem TaskMoves.trans (h : TaskMoves s s' [] ended) (h' : TaskMoves s' s'' [] ended') :
    TaskMoves s s'' [] (ended ++ ended') where
  terminals := by rw [h'.terminals, h.terminals, List.append_assoc]
  keys := fun t ht => h.keys t ((h'.keys t ht).resolve_right List.not_mem_nil)
  still := by
    intro t hended ht
    rcases List.mem_append.mp hended with hended | hended
    · have hmid := (h'.keys t ht).resolve_right List.not_mem_nil
      exact h'.kept t (h.still t hended hmid) ht
    · exact h'.still t hended ht
  delivering := by
    intro t ht
    rcases h'.delivering t ht with ht | ht
    · exact (h.delivering t ht).imp_right (List.mem_append_left _)
    · exact .inr (List.mem_append_right _ ht)
  kept := by
    intro t hold ht
    have hmid := (h'.keys t ht).resolve_right List.not_mem_nil
    exact h'.kept t (h.kept t hold hmid) ht
  cancelled := by
    intro t ht
    rcases h'.cancelled t ht with ht | ⟨hin, hout⟩
    · rcases h.cancelled t ht with ht | ⟨hin, hout⟩
      · exact .inl ht
      · exact .inr ⟨hin, fun ht => hout ((h'.keys t ht).resolve_right List.not_mem_nil)⟩
    · exact .inr ⟨(h.keys t hin).resolve_right List.not_mem_nil, hout⟩

theorem taskMoves_of_eq (hkeys : s'.tasks.keys = s.tasks.keys)
    (hterminals : s'.terminals = s.terminals) (hdelivering : s'.delivering = s.delivering)
    (hcancelled : s'.cancelled = s.cancelled) : TaskMoves s s' [] [] where
  terminals := by rw [hterminals, List.append_nil]
  keys := fun t ht => .inl (hkeys ▸ ht)
  still := fun t ht => by cases ht
  delivering := fun t ht => .inl (hdelivering ▸ ht)
  kept := fun t ht _ => hdelivering ▸ ht
  cancelled := fun t ht => .inl (hcancelled ▸ ht)

theorem SameTasks.taskMoves (h : SameTasks s s') : TaskMoves s s' [] [] :=
  taskMoves_of_eq (by rw [h.tasks]) (by rw [terminals, terminals, h.sent]) h.delivering h.cancelled

theorem keys_set_of_get? {d : Dict TaskId Task} {task : Task} (h : d.get? taskId = some task)
    (task' : Task) : (d.set taskId task').keys = d.keys := by
  rw [Dict.keys_set, if_pos (Dict.mem_keys_iff.mpr ⟨task, h⟩)]

theorem taskMoves_failTask (s : TaskBroker) (taskId : TaskId) :
    TaskMoves s (s.failTask taskId) [] (if s.tasks.has taskId then [taskId] else []) := by
  rw [failTask, Dict.has]
  rcases hget : s.tasks.get? taskId with _ | task
  · exact taskMoves_of_eq rfl rfl rfl rfl
  · refine ⟨by simp [terminals], ?_, ?_, fun t ht => .inl ht, fun t ht _ => ht,
      fun t ht => .inl ht⟩
    · exact fun t ht => .inl (Dict.mem_keys_erase.mp ht).2
    · exact fun t hended ht => ((Dict.mem_keys_erase.mp ht).1 (List.mem_singleton.mp hended)).elim

theorem taskMoves_getRunnerOrFailTask (s : TaskBroker) (taskId : TaskId) :
    TaskMoves s (s.getRunnerOrFailTask taskId).state []
      (if s.runnerGone taskId then [taskId] else []) := by
  have hfail := taskMoves_failTask s taskId
  rw [getRunnerOrFailTask, runnerGone]
  rw [Dict.has] at hfail
  rcases hget : s.tasks.get? taskId with _ | task
  · exact taskMoves_of_eq rfl rfl rfl rfl
  · rw [hget] at hfail
    dsimp only
    split
    · rename_i hknown
      simp only [hknown, not_true_eq_false, decide_false]
      exact taskMoves_of_eq rfl rfl rfl rfl
    · rename_i hgone
      simp only [hgone, not_false_eq_true, decide_true]
      exact hfail

theorem taskMoves_terminalHandler {message : TaskId → ToRequester}
    (hmessage : message = .taskdone ∨ message = .taskerror) (s : TaskBroker) (taskId : TaskId) :
    TaskMoves s (terminalHandler message s taskId) []
      (if s.tasks.has taskId then [taskId] else []) := by
  rw [terminalHandler, Dict.has]
  rcases hget : s.tasks.get? taskId with _ | task
  · exact taskMoves_of_eq rfl rfl rfl rfl
  · refine ⟨?_, ?_, ?_, ?_, fun t ht _ => List.mem_append_left _ ht, fun t ht => .inl ht⟩
    · rcases hmessage with rfl | rfl
      · simp [terminals]
      · simp [terminals]
    · intro t ht
      rw [keys_set_of_get? hget] at ht
      exact .inl ht
    · exact fun t ht _ => List.mem_append_right _ ht
    · exact fun t ht => List.mem_append.mp ht

theorem taskMoves_cancelTask (s : TaskBroker) (taskId : TaskId) :
    TaskMoves s (s.cancelTask taskId) [] [] := by
  rw [cancelTask]
  split
  · exact taskMoves_of_eq rfl rfl rfl rfl
  · rename_i task hget
    refine ⟨(List.append_nil _).symm, fun t ht => .inl (Dict.mem_keys_erase.mp ht).2,
      List.forall_mem_nil _, fun t ht => .inl ht, fun t ht _ => ht, ?_⟩
    intro t ht
    rcases List.mem_append.mp ht with ht | ht
    · exact .inl ht
    · rw [List.mem_singleton.mp ht]
      exact .inr ⟨Dict.mem_keys_iff.mpr ⟨task, hget⟩, fun h => (Dict.mem_keys_erase.mp h).1 rfl⟩

theorem sameTasks_settleRunnerAnswer (s : TaskBroker) (taskId : TaskId) (answer : RunnerAnswer) :
    SameTasks s (s.settleRunnerAnswer taskId answer) := by
  rw [settleRunnerAnswer]
  split
  · exact ⟨rfl, rfl, rfl, rfl⟩
  · exact ⟨rfl, rfl, rfl, rfl⟩

theorem sameTasks_handleRunnerAnswer (answer : RunnerAnswer) (s : TaskBroker) (taskId : TaskId) :
    SameTasks s (handleRunnerAnswer answer s taskId) := by
  obtain ⟨htasks, hsent, hdelivering, hcancelled⟩ := sameTasks_settleRunnerAnswer s taskId answer
  rw [handleRunnerAnswer]
  split
  · exact ⟨htasks, hsent, hdelivering, hcancelled⟩
  · exact ⟨rfl, rfl, rfl, rfl⟩

theorem sameTasks_settleRequesterAnswer (s : TaskBroker) (taskId : TaskId)
    (answer : RequesterAnswer) : SameTasks s (s.settleRequesterAnswer taskId answer) := by
  rw [settleRequesterAnswer]
  split
  · exact ⟨rfl, rfl, rfl, rfl⟩
  · exact ⟨rfl, rfl, rfl, rfl⟩

theorem sameTasks_handleRequesterAccept (s : TaskBroker) (taskId : TaskId) :
    SameTasks s (s.handleRequesterAccept taskId) := by
  obtain ⟨htasks, hsent, hdelivering, hcancelled⟩ :=
    sameTasks_settleRequesterAnswer s taskId .settings
  rw [handleRequesterAccept]
  split
  · exact ⟨htasks, hsent, hdelivering, hcancelled⟩
  · exact ⟨rfl, rfl, rfl, rfl⟩

theorem keys_failDisconnected (s : TaskBroker) (taskId : TaskId) :
    (s.failDisconnected taskId).tasks.keys = (s.tasks.erase taskId).keys := by
  rw [failDisconnected, handleRunnerReject, (sameTasks_handleRunnerAnswer _ _ _).tasks, failTask]
  split
  · rename_i hnone
    rw [Dict.erase_of_not_mem (Dict.get?_eq_none_iff.mp hnone)]
  · rfl

theorem taskMoves_failDisconnected : ∀ {taskIds : List TaskId} {s : TaskBroker}, taskIds.Nodup →
    (∀ t ∈ taskIds, t ∈ s.tasks.keys) →
    TaskMoves s (taskIds.foldl failDisconnected s) [] taskIds := by
  intro taskIds
  induction taskIds with
  | nil => exact fun _ _ => taskMoves_of_eq rfl rfl rfl rfl
  | cons taskId taskIds ih =>
    intro s hnodup hkeys
    obtain ⟨hnot, hnodup⟩ := List.nodup_cons.mp hnodup
    obtain ⟨hkey, hkeys⟩ := List.forall_mem_cons.mp hkeys
    have hfail := taskMoves_failTask s taskId
    rw [if_pos (Dict.has_iff.mpr hkey)] at hfail
    have hfirst : TaskMoves s (s.failDisconnected taskId) [] [taskId] :=
      hfail.trans (sameTasks_handleRunnerAnswer .rejected (s.failTask taskId) taskId).taskMoves
    refine hfirst.trans (ih hnodup fun t ht => ?_)
    rw [keys_failDisconnected, Dict.mem_keys_erase]
    exact ⟨fun heq => hnot (heq ▸ ht), hkeys t ht⟩

theorem tasksOn_subset (s : TaskBroker) (runnerId : String) :
    ∀ t ∈ s.tasksOn runnerId, t ∈ s.tasks.keys := by
  intro t ht
  obtain ⟨task, htask, rfl⟩ := List.mem_map.mp ht
  exact List.mem_map_of_mem (List.mem_filter.mp htask).1

theorem nodup_tasksOn (s : TaskBroker) (runnerId : String) : (s.tasksOn runnerId).Nodup :=
  s.tasks.nodup.sublist (List.filter_sublist.map Prod.fst)

theorem taskMoves_deregisterRunner (s : TaskBroker) (runnerId : String) :
    TaskMoves s (s.deregisterRunner runnerId) [] (s.tasksOn runnerId) := by
  have hgone : TaskMoves s { s with
      knownRunners := s.knownRunners.filter fun id => id ≠ runnerId
      pendingTaskOffers := s.pendingTaskOffers.filter fun offer => offer.runnerId ≠ runnerId }
      [] [] := taskMoves_of_eq rfl rfl rfl rfl
  exact hgone.trans (taskMoves_failDisconnected (nodup_tasksOn s runnerId)
    (tasksOn_subset s runnerId))

theorem taskMoves_afterRequesterAnswer (s : TaskBroker) (taskId : TaskId) (offer : TaskOffer)
    (requestId : String) (answer : RequesterAnswer) : TaskMoves s (s.afterRequesterAnswer taskId offer requestId answer)
      [] (if answer = .settings ∧ s.runnerGone taskId then [taskId] else []) := by
  cases answer with
  | settings =>
    have hrunner := taskMoves_getRunnerOrFailTask s taskId
    simp only [true_and]
    rw [afterRequesterAnswer]
    split
    · rename_i t ht
      rw [ht] at hrunner
      exact List.append_nil (if s.runnerGone taskId then [taskId] else []) ▸
        hrunner.trans (taskMoves_of_eq rfl rfl rfl rfl)
    · rename_i t ht
      rw [ht] at hrunner
      exact List.append_nil (if s.runnerGone taskId then [taskId] else []) ▸
        hrunner.trans (taskMoves_of_eq rfl rfl rfl rfl)
  | timedOut => exact (taskMoves_cancelTask s taskId).trans (taskMoves_of_eq rfl rfl rfl rfl)

variable {offer : TaskOffer} {requestId : String}

theorem taskMoves_sendTaskSettings :
    TaskMoves s (s.sendTaskSettings taskId offer requestId) [] [] := by
  rw [sendTaskSettings]
  split
  · exact taskMoves_of_eq rfl rfl rfl rfl
  · rename_i task hget
    exact taskMoves_of_eq (keys_set_of_get? hget _) rfl rfl rfl

variable {request : TaskRequest}

theorem taskMoves_afterRunnerAnswer (answer : RunnerAnswer) :
    TaskMoves s (s.afterRunnerAnswer taskId offer requestId request answer)
      (if answer = .accepted then [taskId] else []) [] := by
  have hsame : TaskMoves s (s.acceptFailed taskId requestId request) [] [] :=
    taskMoves_of_eq rfl rfl rfl rfl
  cases answer with
  | accepted =>
    have hkeys : ∀ t ∈ (s.tasks.set taskId
        { taskType := offer.taskType, runnerId := offer.runnerId
          requesterId := request.requesterId }).keys, t ∈ s.tasks.keys ∨ t ∈ [taskId] := by
      intro t ht
      exact (Dict.mem_keys_set.mp ht).symm.imp_right List.mem_singleton.mpr
    simp only [afterRunnerAnswer]
    split
    · exact ⟨by simp [terminals], hkeys, List.forall_mem_nil _, fun t ht => .inl ht,
        fun t ht _ => ht, fun t ht => .inl ht⟩
    · exact ⟨(List.append_nil _).symm, hkeys, List.forall_mem_nil _, fun t ht => .inl ht,
        fun t ht _ => ht, fun t ht => .inl ht⟩
  | deferred => exact taskMoves_of_eq rfl rfl rfl rfl
  | rejected => exact hsame
  | timedOut => exact hsame
  | undelivered => exact hsame

theorem flight_afterRunnerAnswer_accepted :
    (s.afterRunnerAnswer taskId offer requestId request .accepted).flight taskId = none := by
  simp only [afterRunnerAnswer]
  split
  · simp [flight]
  · rw [flight_endAccept, if_pos rfl]

theorem taskMoves_onRunnerMessage (mode : TaskRunnerMode) (s : TaskBroker) (runnerId : String)
    (message : RunnerMessage) :
    TaskMoves s (s.onRunnerMessage runnerId message) []
      (ending mode s (.runnerMessage runnerId message)) := by
  simp only [onRunnerMessage]
  split
  · rename_i hknown
    cases message with
    | taskaccepted t => exact (sameTasks_handleRunnerAnswer .accepted s t).taskMoves
    | taskrejected t => exact (sameTasks_handleRunnerAnswer .rejected s t).taskMoves
    | taskdeferred t => exact (sameTasks_handleRunnerAnswer .deferred s t).taskMoves
    | taskoffer offerId taskType validFor => exact (sameTasks_taskOffered s _).taskMoves
    | taskdone t =>
      simp only [ending, hknown, true_and]
      exact taskMoves_terminalHandler (.inl rfl) s t
    | taskerror t =>
      simp only [ending, hknown, true_and]
      exact taskMoves_terminalHandler (.inr rfl) s t
  · rename_i hunknown
    -- a message of an unknown runner is dropped
    have hsame : TaskMoves s s [] [] := taskMoves_of_eq rfl rfl rfl rfl
    cases message with
    | taskdone t | taskerror t =>
      simp only [ending, hunknown, false_and, if_false]
      exact hsame
    | taskaccepted | taskrejected | taskdeferred | taskoffer => exact hsame

theorem taskMoves_onRequesterMessage {requesterId : String} {message : RequesterMessage}
    (h : s.onRequesterMessage requesterId message = .ok s') :
    TaskMoves s s' [] (ending mode s (.requesterMessage requesterId message)) := by
  cases message with
  | tasksettings t =>
    cases h
    exact (sameTasks_handleRequesterAccept s t).taskMoves
  | taskcancel t =>
    cases h
    exact taskMoves_cancelTask s t
  | taskrequest requestId taskType =>
    simp only [onRequesterMessage, onlyIf_eq_ok] at h
    obtain ⟨-, rfl⟩ := h
    exact (sameTasks_taskRequested s requestId _).taskMoves
  | response t =>
    cases h
    exact taskMoves_getRunnerOrFailTask s t

theorem taskMoves_handleRequestTimeout (requestId : String) (request : TaskRequest) :
    TaskMoves s (s.handleRequestTimeout requestId request) [] [] := by
  rw [handleRequestTimeout]
  split
  · exact taskMoves_of_eq rfl (by simp [terminals]) rfl rfl
  · exact taskMoves_of_eq rfl rfl rfl rfl

theorem taskMoves_handleTaskTimeout {task : Task} (hget : s.tasks.get? taskId = some task) :
    TaskMoves s (handleTaskTimeout mode
      { s with tasks := s.tasks.set taskId { task with timeout := false } } taskId) []
      (ending mode s (.taskTimeout taskId)) := by
  have hset : TaskMoves s { s with tasks := s.tasks.set taskId { task with timeout := false } }
      [] [] := taskMoves_of_eq (keys_set_of_get? hget _) rfl rfl rfl
  cases mode with
  | internal =>
    have herror := hset.trans (taskMoves_terminalHandler (.inr rfl) _ taskId)
    simpa [Dict.has, ending, handleTaskTimeout, taskErrorHandler] using herror
  | external => exact hset.trans (taskMoves_of_eq rfl rfl rfl rfl)

theorem taskMoves_cancelTask_endAccept (s : TaskBroker) (taskId : TaskId) :
    TaskMoves s ((s.cancelTask taskId).endAccept taskId) [] [] :=
  (taskMoves_cancelTask s taskId).trans (taskMoves_of_eq rfl rfl rfl rfl)

theorem taskMoves_terminalDelivery (s : TaskBroker) (taskId : TaskId) :
    TaskMoves s { s with
      tasks := s.tasks.erase taskId
      delivering := s.delivering.erase taskId } [] [] where
  terminals := (List.append_nil _).symm
  keys := fun _ ht => .inl (Dict.mem_keys_erase.mp ht).2
  still := List.forall_mem_nil _
  delivering := fun _ ht => .inl (List.mem_of_mem_erase ht)
  kept := fun _ hold ht => (List.mem_erase_of_ne (Dict.mem_keys_erase.mp ht).1).mpr hold
  cancelled := fun _ ht => .inl ht

theorem taskMoves_cancelDelivery (s : TaskBroker) (taskId : TaskId) (delivered : Bool) :
    TaskMoves s (if delivered then
        taskErrorHandler { s with timingOut := s.timingOut.erase taskId } taskId
      else { s with timingOut := s.timingOut.erase taskId }) []
      (ending mode s (.cancelDelivery taskId delivered)) := by
  have hset : TaskMoves s { s with timingOut := s.timingOut.erase taskId } [] [] :=
    taskMoves_of_eq rfl rfl rfl rfl
  cases delivered with
  | true => exact hset.trans (taskMoves_terminalHandler (.inr rfl) _ taskId)
  | false => exact hset

/-- **Every event sends the terminal messages of `ending` and starts at most the
task whose runner accepted.** -/
theorem taskMoves_step (hstep : step mode s e = .ok s') :
    ∃ started, TaskMoves s s' started (ending mode s e) ∧
      ∀ t ∈ started, (∃ requestId, s.flight t = some requestId) ∧ s'.flight t = none := by
  -- all events but the runner's answer start nothing
  have hnone : TaskMoves s s' [] (ending mode s e) →
      ∃ started, TaskMoves s s' started (ending mode s e) ∧
        ∀ t ∈ started, (∃ requestId, s.flight t = some requestId) ∧ s'.flight t = none :=
    fun h => ⟨[], h, List.forall_mem_nil _⟩
  cases e with
  | advance ns =>
    cases hstep
    exact hnone (taskMoves_of_eq rfl rfl rfl rfl)
  | registerRunner runnerId =>
    cases hstep
    exact hnone (taskMoves_of_eq rfl rfl rfl rfl)
  | deregisterRunner runnerId =>
    cases hstep
    exact hnone (taskMoves_deregisterRunner s runnerId)
  | runnerMessage runnerId message =>
    cases hstep
    exact hnone (taskMoves_onRunnerMessage mode s runnerId message)
  | requesterMessage requesterId message => exact hnone (taskMoves_onRequesterMessage hstep)
  | requestTimeout requestId =>
    simp only [step] at hstep
    split at hstep
    · obtain ⟨-, rfl⟩ := onlyIf_eq_ok.mp hstep
      exact hnone (taskMoves_handleRequestTimeout requestId _)
    · cases hstep
  | taskTimeout t =>
    simp only [step] at hstep
    split at hstep
    · rename_i task hget
      obtain ⟨-, rfl⟩ := onlyIf_eq_ok.mp hstep
      exact hnone (taskMoves_handleTaskTimeout hget)
    · cases hstep
  | acceptTimeout t =>
    cases hstep
    exact hnone (sameTasks_settleRunnerAnswer s t .timedOut).taskMoves
  | settingsTimeout t =>
    cases hstep
    exact hnone (sameTasks_settleRequesterAnswer s t .timedOut).taskMoves
  | runnerDelivery t delivered =>
    simp only [step] at hstep
    split at hstep
    · split at hstep
      · cases hstep
        cases delivered with
        | true => exact hnone (taskMoves_of_eq rfl rfl rfl rfl)
        | false => exact hnone (taskMoves_of_eq rfl rfl rfl rfl)
      · cases hstep
    · cases hstep
  | runnerAnswered t =>
    simp only [step] at hstep
    split at hstep
    · rename_i offer requestId answer hget
      split at hstep
      · cases hstep
        refine ⟨_, taskMoves_afterRunnerAnswer answer, ?_⟩
        intro t' ht'
        split at ht'
        · rename_i haccepted
          rw [List.mem_singleton.mp ht', haccepted]
          exact ⟨⟨requestId, by simp [flight, hget]⟩, flight_afterRunnerAnswer_accepted⟩
        · cases ht'
      · cases hstep
    · cases hstep
  | requesterDelivery t delivered =>
    simp only [step] at hstep
    split at hstep
    · cases hstep
      cases delivered with
      | true => exact hnone (taskMoves_of_eq rfl rfl rfl rfl)
      | false => exact hnone (taskMoves_cancelTask_endAccept s t)
    · cases hstep
  | requesterAnswered t =>
    simp only [step] at hstep
    split at hstep
    · rename_i offer requestId answer hget
      cases hstep
      have hmoves := taskMoves_afterRequesterAnswer s t offer requestId answer
      refine hnone ?_
      cases answer with
      | settings => simpa [ending, hget] using hmoves
      | timedOut => simpa [ending, hget] using hmoves
    · cases hstep
  | runnerFound t =>
    simp only [step] at hstep
    split at hstep
    · cases hstep
      exact hnone taskMoves_sendTaskSettings
    · cases hstep
  | settingsDelivery t delivered =>
    simp only [step] at hstep
    split at hstep
    · cases hstep
      cases delivered with
      | true => exact hnone (taskMoves_of_eq rfl rfl rfl rfl)
      | false => exact hnone (taskMoves_cancelTask_endAccept s t)
    · cases hstep
  | terminalDelivery t =>
    simp only [step, onlyIf_eq_ok] at hstep
    obtain ⟨-, rfl⟩ := hstep
    exact hnone (taskMoves_terminalDelivery s t)
  | cancelDelivery t delivered =>
    simp only [step, onlyIf_eq_ok] at hstep
    obtain ⟨-, rfl⟩ := hstep
    exact hnone (taskMoves_cancelDelivery s t delivered)

theorem ending_subset (hstep : step mode s e = .ok s') :
    (ending mode s e).Nodup ∧ ∀ t ∈ ending mode s e, t ∈ s.tasks.keys := by
  -- most events end one task, under a condition that it is in the map
  have hsingle : ∀ {c : Prop} [Decidable c] {t : TaskId}, (c → t ∈ s.tasks.keys) →
      (if c then [t] else []).Nodup ∧ ∀ t' ∈ (if c then [t] else []), t' ∈ s.tasks.keys := by
    intro c _ t hkey
    split
    · rename_i hc
      exact ⟨List.nodup_singleton _, fun t' ht' => List.mem_singleton.mp ht' ▸ hkey hc⟩
    · exact ⟨List.nodup_nil, List.forall_mem_nil _⟩
  have hnone : ([] : List TaskId).Nodup ∧ ∀ t ∈ ([] : List TaskId), t ∈ s.tasks.keys :=
    ⟨List.nodup_nil, List.forall_mem_nil _⟩
  have hgone : ∀ {t : TaskId}, s.runnerGone t = true → t ∈ s.tasks.keys := by
    intro t hgone
    rw [runnerGone] at hgone
    split at hgone
    · rename_i task hget
      exact Dict.mem_keys_iff.mpr ⟨task, hget⟩
    · cases hgone
  cases e with
  | deregisterRunner runnerId => exact ⟨nodup_tasksOn s runnerId, tasksOn_subset s runnerId⟩
  | runnerMessage runnerId message =>
    cases message with
    | taskdone t | taskerror t => exact hsingle fun h => Dict.has_iff.mp h.2
    | taskaccepted | taskrejected | taskdeferred | taskoffer => exact hnone
  | requesterMessage requesterId message =>
    cases message with
    | response t => exact hsingle hgone
    | tasksettings | taskcancel | taskrequest => exact hnone
  | taskTimeout t =>
    simp only [step] at hstep
    split at hstep
    · rename_i task hget
      exact hsingle fun _ => Dict.mem_keys_iff.mpr ⟨task, hget⟩
    · cases hstep
  | requesterAnswered t =>
    rw [ending]
    split
    · exact hsingle hgone
    · exact hnone
  | cancelDelivery t delivered =>
    cases delivered with
    | true => exact hsingle Dict.has_iff.mp
    | false => exact hnone
  | runnerDelivery t delivered | requesterDelivery t delivered | settingsDelivery t delivered =>
    exact hnone
  | advance | registerRunner | requestTimeout | acceptTimeout | settingsTimeout | runnerAnswered
  | runnerFound | terminalDelivery => exact hnone

/-- The id was drawn and the runner's answer is in. -/
def Started (s : TaskBroker) (taskId : TaskId) : Prop :=
  taskId < s.nextTask ∧ s.flight taskId = none

/-- A task that got its terminal message is out of the map or its message is
being delivered. -/
structure Terminating (s : TaskBroker) : Prop where
  once : s.terminals.Nodup
  still : ∀ t ∈ s.terminals, t ∈ s.tasks.keys → t ∈ s.delivering
  delivering : ∀ t ∈ s.delivering, t ∈ s.terminals
  cancelled : ∀ t ∈ s.cancelled, t ∉ s.tasks.keys
  flight : ∀ t requestId, s.flight t = some requestId → t < s.nextTask
  tasks : ∀ t ∈ s.tasks.keys, s.Started t
  terminals : ∀ t ∈ s.terminals, s.Started t
  cancels : ∀ t ∈ s.cancelled, s.Started t

theorem terminating_start : Terminating {} :=
  ⟨List.nodup_nil, nofun, nofun, nofun, nofun, nofun, nofun, nofun⟩

theorem Started.flights (h : s.Started taskId) (hflights : Flights s s') : s'.Started taskId := by
  refine ⟨lt_of_lt_of_le h.1 hflights.nextTask, ?_⟩
  rcases hsome : s'.flight taskId with _ | requestId
  · rfl
  · rcases hflights.flight taskId requestId hsome with hold | ⟨hnew, -⟩
    · rw [h.2] at hold
      cases hold
    · exact (Nat.not_lt.mpr hnew h.1).elim

theorem Terminating.step (h : Terminating s) (hstep : step mode s e = .ok s')
    (hfree : ∀ t ∈ ending mode s e, t ∉ s.delivering) : Terminating s' ∧ OneTerminal s s' := by
  obtain ⟨started, hmoves, hstarted⟩ := taskMoves_step hstep
  obtain ⟨hnodup, hsubset⟩ := ending_subset hstep
  have hflights := flights_step hstep
  -- new messages are of tasks in the map, whose first message would still be on its way
  have honce : s'.terminals.Nodup := by
    rw [hmoves.terminals]
    refine List.nodup_append.mpr ⟨h.once, hnodup, ?_⟩
    intro t hold t' hnew heq
    rw [← heq] at hnew
    exact hfree t hnew (h.still t hold (hsubset t hnew))
  -- a task that was started is not in flight, and is not started again
  have hkeys : ∀ t ∈ s'.tasks.keys, s.Started t → t ∈ s.tasks.keys := by
    intro t ht hold
    refine (hmoves.keys t ht).resolve_right fun hnew => ?_
    obtain ⟨⟨requestId, hsome⟩, -⟩ := hstarted t hnew
    rw [hold.2] at hsome
    cases hsome
  refine ⟨⟨honce, ?_, ?_, ?_, ?_, ?_, ?_, ?_⟩, honce, ?_⟩
  · intro t hterminal ht
    rw [hmoves.terminals] at hterminal
    rcases List.mem_append.mp hterminal with hold | hnew
    · have hin := hkeys t ht (h.terminals t hold)
      exact hmoves.kept t (h.still t hold hin) ht
    · exact hmoves.still t hnew ht
  · intro t ht
    rw [hmoves.terminals]
    rcases hmoves.delivering t ht with hold | hnew
    · exact List.mem_append_left _ (h.delivering t hold)
    · exact List.mem_append_right _ hnew
  · intro t hcancelled ht
    rcases hmoves.cancelled t hcancelled with hold | ⟨-, hout⟩
    · exact h.cancelled t hold (hkeys t ht (h.cancels t hold))
    · exact hout ht
  · intro t requestId hsome
    rcases hflights.flight t requestId hsome with hold | ⟨-, hnew⟩
    · exact lt_of_lt_of_le (h.flight t requestId hold) hflights.nextTask
    · exact hnew
  · intro t ht
    rcases hmoves.keys t ht with hold | hnew
    · exact (h.tasks t hold).flights hflights
    · obtain ⟨⟨requestId, hsome⟩, hnone⟩ := hstarted t hnew
      exact ⟨lt_of_lt_of_le (h.flight t requestId hsome) hflights.nextTask, hnone⟩
  · intro t ht
    rw [hmoves.terminals] at ht
    rcases List.mem_append.mp ht with hold | hnew
    · exact (h.terminals t hold).flights hflights
    · exact (h.tasks t (hsubset t hnew)).flights hflights
  · intro t ht
    rcases hmoves.cancelled t ht with hold | ⟨hin, -⟩
    · exact (h.cancels t hold).flights hflights
    · exact (h.tasks t hin).flights hflights
  · intro t ht hcancelled
    rw [hmoves.terminals, List.drop_left] at ht
    exact h.cancelled t hcancelled (hsubset t ht)

theorem Terminating.free_of_oneTerminal (h : Terminating s) (hstep : TaskBroker.step mode s e = .ok s')
    (hone : OneTerminal s s') : ∀ t ∈ ending mode s e, t ∉ s.delivering := by
  obtain ⟨started, hmoves, -⟩ := taskMoves_step hstep
  intro t hended hdelivering
  have honce := hone.once
  rw [hmoves.terminals] at honce
  exact (List.nodup_append.mp honce).2.2 t (h.delivering t hdelivering) t hended rfl

/-- **Each task gets at most one terminal message along a run iff no handler
starts while another message of its task is being delivered.** -/
theorem oneTerminal_iff (mode : TaskRunnerMode) (es : List BrokerEvent) :
    Along (step mode) (fun s _ s' => OneTerminal s s') {} es ↔
      Along (step mode) (fun s e _ => ∀ t ∈ ending mode s e, t ∉ s.delivering) {} es := by
  refine Along.iff_of_step (I := Terminating) (V := fun _ _ _ => True) ?_ ?_ terminating_start
    (Along.always (fun _ _ _ => trivial) _ _)
  · exact fun s e s' h hstep _ => ⟨fun hone => h.free_of_oneTerminal hstep hone,
      fun hfree => (h.step hstep hfree).2⟩
  · exact fun s e s' h hstep _ hone => (h.step hstep (h.free_of_oneTerminal hstep hone)).1

/-- A runner reports its task as done, and again before the first message is
delivered. -/
def doneTwice : List BrokerEvent :=
  [.registerRunner "runner", .requesterMessage "requester" (.taskrequest "request" "javascript"),
    .runnerMessage "runner" (.taskoffer "offer" "javascript" (-1)), .runnerDelivery 0 true,
    .runnerMessage "runner" (.taskaccepted 0), .runnerAnswered 0, .requesterDelivery 0 true,
    .requesterMessage "requester" (.tasksettings 0), .requesterAnswered 0, .runnerFound 0,
    .settingsDelivery 0 true, .runnerMessage "runner" (.taskdone 0),
    .runnerMessage "runner" (.taskdone 0)]

theorem not_oneTerminal_doneTwice :
    ¬ Along (step .internal) (fun s _ s' => OneTerminal s s') {} doneTwice := by
  intro h
  have honce : Along (step .internal) (fun _ _ s' => s'.terminals.Nodup) {} doneTwice :=
    h.mono fun _ _ _ hone => hone.once
  revert honce
  decide

end N8n.TaskBroker
