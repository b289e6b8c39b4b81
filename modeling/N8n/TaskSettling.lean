/-
Every request is settled once.

A request is in flight from the start of its acceptance to the runner's answer,
and it is still in the list of pending requests during that time.  Two things go
wrong: a deferral puts it into the list again, and its time can end, so that the
runner's acceptance comes for a request that is gone.

* `settledOnce_iff` — **along every run requests are settled once iff no deferral
  comes for a request that is in the list and no acceptance for an expired one**.
-/
import N8n.TaskBrokerSteps

namespace N8n.TaskBroker

variable {mode : TaskRunnerMode} {s s' : TaskBroker} {e : BrokerEvent}

/-- What is asked of each event: no request is in the list twice, none that
expired leads to a task or a `taskready`, at most one `taskready` is sent for
each and one acceptance for each offer, and every task was announced. -/
structure SettledOnce (s s' : TaskBroker) : Prop where
  pending : s'.pendingTaskRequests.Nodup
  task : ∀ taskId ∈ s'.tasks.keys, taskId ∉ s.tasks.keys →
    ∃ requestId, s.flight taskId = some requestId ∧ requestId ∉ s.expired
  taskready : ∀ requester requestId taskId, (requester, requestId, taskId) ∈ s'.ready →
    (requester, requestId, taskId) ∉ s.ready → requestId ∉ s.expired
  once : (s'.ready.map fun message => message.2.1).Nodup
  offers : s'.used.Nodup
  announced : ∀ taskId task, s'.tasks.get? taskId = some task →
    ∃ requestId, (task.requesterId, requestId, taskId) ∈ s'.ready

/-- A deferral comes for a request that is not in the list, an acceptance for one
whose time has not ended. -/
def InTime (s : TaskBroker) (e : BrokerEvent) : Prop :=
  match s.answered e with
  | some (_, a, .deferred) => a.requestId ∉ s.pendingTaskRequests
  | some (_, a, .accepted) => a.requestId ∉ s.expired
  | _ => True

/-- A request in flight is marked, and in the list unless its time has ended. -/
structure InFlight (s : TaskBroker) (taskId : TaskId) (requestId : String) : Prop where
  old : taskId < s.nextTask
  marked : ∃ request, s.requests.get? requestId = some request ∧ request.acceptInProgress = true
  pending : requestId ∈ s.pendingTaskRequests ∨ requestId ∈ s.expired

/-- A request that led to a `taskready` is out of the list and not in flight. -/
structure Readied (s : TaskBroker) (taskId : TaskId) (requestId : String) : Prop where
  known : requestId ∈ s.requests.keys
  gone : requestId ∉ s.pendingTaskRequests
  landed : ∀ taskId', s.flight taskId' ≠ some requestId
  old : taskId < s.nextTask
  answered : s.flight taskId = none

structure Settling (s : TaskBroker) : Prop where
  pending : s.pendingTaskRequests.Nodup
  known : ∀ requestId ∈ s.pendingTaskRequests, requestId ∈ s.requests.keys
  flight : ∀ taskId requestId, s.flight taskId = some requestId → InFlight s taskId requestId
  single : ∀ taskId taskId' requestId, s.flight taskId = some requestId →
    s.flight taskId' = some requestId → taskId = taskId'
  ready : ∀ requester requestId taskId, (requester, requestId, taskId) ∈ s.ready →
    Readied s taskId requestId
  once : (s.ready.map fun message => message.2.1).Nodup
  offers : (s.used ++ s.pendingTaskOffers.map TaskOffer.id).Nodup
  offersOld : ∀ id ∈ s.used ++ s.pendingTaskOffers.map TaskOffer.id, id < s.nextOffer
  announced : ∀ taskId task, s.tasks.get? taskId = some task →
    ∃ requestId, (task.requesterId, requestId, taskId) ∈ s.ready

theorem settling_start : Settling {} where
  pending := List.nodup_nil
  known := fun _ h => by cases h
  flight := fun _ _ h => by cases h
  single := fun _ _ _ h => by cases h
  ready := fun _ _ _ h => by cases h
  once := List.nodup_nil
  offers := List.nodup_nil
  offersOld := fun _ h => by cases h
  announced := fun _ _ h => by cases h

theorem Settling.settledOnce (h : Settling s') (hready : s'.ready = s.ready)
    (htasks : ∀ taskId ∈ s'.tasks.keys, taskId ∈ s.tasks.keys) : SettledOnce s s' where
  pending := h.pending
  task := fun taskId htask hnew => (hnew (htasks taskId htask)).elim
  taskready := fun _ _ _ hmem hnew => (hnew (hready ▸ hmem)).elim
  once := h.once
  offers := h.offers.of_append_left
  announced := h.announced

theorem Settling.quiet (h : Settling s) (hquiet : Quiet s s') : Settling s' where
  pending := hquiet.pending ▸ h.pending
  known := by
    rw [hquiet.pending, hquiet.requests]
    exact h.known
  flight := by
    intro taskId requestId hflight
    rw [hquiet.flight] at hflight
    obtain ⟨hold, hmarked, hpending⟩ := h.flight taskId requestId hflight
    exact ⟨hquiet.nextTask ▸ hold, hquiet.requests ▸ hmarked,
      by rw [hquiet.pending, hquiet.expired]; exact hpending⟩
  single := by
    rw [hquiet.flight]
    exact h.single
  ready := by
    intro requester requestId taskId hmem
    rw [hquiet.ready] at hmem
    obtain ⟨hknown, hgone, hlanded, hold, hanswered⟩ := h.ready requester requestId taskId hmem
    exact ⟨hquiet.requests ▸ hknown, hquiet.pending ▸ hgone, hquiet.flight ▸ hlanded,
      hquiet.nextTask ▸ hold, hquiet.flight ▸ hanswered⟩
  once := hquiet.ready ▸ h.once
  offers := by
    rw [hquiet.used]
    exact h.offers.sublist ((List.Sublist.refl _).append (hquiet.offers.map _))
  offersOld := by
    rw [hquiet.used, hquiet.nextOffer]
    exact fun id hid =>
      h.offersOld id (((List.Sublist.refl _).append (hquiet.offers.map _)).subset hid)
  announced := by
    intro taskId task' hget
    obtain ⟨task, hget, hsame⟩ := hquiet.tasks taskId task' hget
    rw [← hsame, hquiet.ready]
    exact h.announced taskId task hget

variable {requestId : String}

theorem Settling.settleRequest (h : Settling s)
    (hmem : requestId ∈ s.pendingTaskRequests) : Settling (s.settleRequest requestId) := by
  rcases settleRequest_cases s requestId with ⟨heq, -⟩ | ⟨request, offer, hget, hfree, hfind, heq⟩
  · exact heq.symm ▸ h
  · rw [heq]
    have hflight := flight_acceptOffer { s with
      requests := s.requests.set requestId { request with acceptInProgress := true }
      pendingTaskOffers :=
        s.pendingTaskOffers.eraseP fun offer => offer.taskType = request.taskType } offer requestId
    -- a marked request is not matched, so the one that is matched is not in flight
    have hlanded : ∀ taskId, s.flight taskId ≠ some requestId := by
      intro taskId hsome
      obtain ⟨request', hget', hbusy⟩ := (h.flight taskId requestId hsome).marked
      rw [hget, Option.some.injEq] at hget'
      rw [← hget', hfree] at hbusy
      cases hbusy
    -- the offer goes from the queue to the used ones
    have hperm : (s.used ++ s.pendingTaskOffers.map TaskOffer.id).Perm
        (s.used ++ [offer.id] ++ (s.pendingTaskOffers.eraseP fun offer =>
          offer.taskType = request.taskType).map TaskOffer.id) := by
      rw [List.append_assoc]
      exact ((perm_cons_eraseP hfind).map TaskOffer.id).append_left s.used
    refine ⟨h.pending, ?_, ?_, ?_, ?_, h.once, hperm.nodup_iff.mp h.offers, ?_, h.announced⟩
    · exact fun id hid => Dict.mem_keys_set.mpr (.inr (h.known id hid))
    · -- in flight: the new call and those from before
      intro taskId requestId' hsome
      rw [hflight] at hsome
      split at hsome
      · rename_i hnew
        cases hsome
        exact ⟨by rw [hnew]; exact Nat.lt_succ_self _,
          ⟨_, Dict.get?_set_self _ _ _, rfl⟩, .inl hmem⟩
      · obtain ⟨hold, ⟨request', hget', hbusy⟩, hpending⟩ := h.flight taskId requestId' hsome
        have hne : requestId' ≠ requestId := fun heq => hlanded taskId (heq ▸ hsome)
        exact ⟨Nat.lt_succ_of_lt hold,
          ⟨request', (Dict.get?_set_of_ne _ hne _).trans hget', hbusy⟩, hpending⟩
    · intro taskId taskId' requestId' hsome hsome'
      rw [hflight] at hsome hsome'
      split at hsome
      · rename_i hnew
        cases hsome
        split at hsome'
        · rename_i hnew'
          rw [hnew, hnew']
        · exact (hlanded taskId' hsome').elim
      · split at hsome'
        · cases hsome'
          exact (hlanded taskId hsome).elim
        · exact h.single taskId taskId' requestId' hsome hsome'
    · -- what led to a `taskready` is out of the list and was not matched
      intro requester requestId' taskId hready
      obtain ⟨hknown, hgone, hlanded', hold, hanswered⟩ := h.ready requester requestId' taskId hready
      refine ⟨Dict.mem_keys_set.mpr (.inr hknown), hgone, ?_, Nat.lt_succ_of_lt hold, ?_⟩
      · intro taskId' hsome
        rw [hflight] at hsome
        split at hsome
        · cases hsome
          exact hgone hmem
        · exact hlanded' taskId' hsome
      · rw [hflight, if_neg (Nat.ne_of_lt hold)]
        exact hanswered
    · exact fun id hid => h.offersOld id (hperm.mem_iff.mpr hid)

theorem Settling.settleTasks (h : Settling s) : Settling s.settleTasks := by
  have hinv : s.settleTasks.pendingTaskRequests = s.pendingTaskRequests ∧
      Settling s.settleTasks := by
    refine settleTasks_invariant
      (I := fun t => t.pendingTaskRequests = s.pendingTaskRequests ∧ Settling t)
      ⟨rfl, h.quiet (quiet_expireTasks s)⟩ ?_
    rintro requestId hmem t ⟨hpending, ht⟩
    refine ⟨?_, ht.settleRequest (hpending ▸ hmem)⟩
    rw [pending_settleRequest, hpending]
  exact hinv.2

theorem Settling.taskOffered {offer : TaskOffer} (h : Settling s) (hid : offer.id = s.nextOffer) :
    Settling (taskOffered { s with nextOffer := s.nextOffer + 1 } offer) := by
  refine Settling.settleTasks ⟨h.pending, h.known, ?_, h.single, ?_, h.once, ?_, ?_, h.announced⟩
  · intro taskId requestId hsome
    obtain ⟨hold, hmarked, hpending⟩ := h.flight taskId requestId hsome
    exact ⟨hold, hmarked, hpending⟩
  · intro requester requestId taskId hmem
    obtain ⟨hknown, hgone, hlanded, hold, hanswered⟩ := h.ready requester requestId taskId hmem
    exact ⟨hknown, hgone, hlanded, hold, hanswered⟩
  · simp only [List.map_append, List.map_cons, List.map_nil, ← List.append_assoc, hid]
    refine List.nodup_append.mpr ⟨h.offers, List.nodup_singleton _, ?_⟩
    intro id hold id' hnew heq
    rw [heq, List.mem_singleton.mp hnew] at hold
    exact Nat.lt_irrefl _ (h.offersOld _ hold)
  · intro id hmem
    simp only [List.map_append, List.map_cons, List.map_nil, ← List.append_assoc, hid] at hmem
    rcases List.mem_append.mp hmem with hold | hnew
    · exact Nat.lt_succ_of_lt (h.offersOld id hold)
    · rw [List.mem_singleton.mp hnew]
      exact Nat.lt_succ_self _

theorem Settling.taskRequested (h : Settling s) (request : TaskRequest)
    (hnew : requestId ∉ s.requests.keys) : Settling (s.taskRequested requestId request) := by
  have hpending : requestId ∉ s.pendingTaskRequests := fun hmem => hnew (h.known requestId hmem)
  have hne : ∀ id ∈ s.requests.keys, id ≠ requestId := fun id hid heq => hnew (heq ▸ hid)
  refine Settling.settleTasks ⟨?_, ?_, ?_, h.single, ?_, h.once, h.offers, h.offersOld, h.announced⟩
  · refine List.nodup_append.mpr ⟨h.pending, List.nodup_singleton _, ?_⟩
    intro id hid id' hid' heq
    rw [heq, List.mem_singleton.mp hid'] at hid
    exact hpending hid
  · intro id hid
    rcases List.mem_append.mp hid with hid | hid
    · exact Dict.mem_keys_set.mpr (.inr (h.known id hid))
    · exact Dict.mem_keys_set.mpr (.inl (List.mem_singleton.mp hid))
  · intro taskId id hsome
    obtain ⟨hold, ⟨request', hget, hbusy⟩, hin⟩ := h.flight taskId id hsome
    have hid := hne id (Dict.mem_keys_iff.mpr ⟨request', hget⟩)
    exact ⟨hold, ⟨request', (Dict.get?_set_of_ne _ hid _).trans hget, hbusy⟩,
      hin.imp_left (List.mem_append_left _)⟩
  · intro requester id taskId hmem
    obtain ⟨hknown, hgone, hlanded, hold, hanswered⟩ := h.ready requester id taskId hmem
    refine ⟨Dict.mem_keys_set.mpr (.inr hknown), ?_, hlanded, hold, hanswered⟩
    intro hid
    rcases List.mem_append.mp hid with hid | hid
    · exact hgone hid
    · exact hne id hknown (List.mem_singleton.mp hid)

theorem Settling.setRequest (h : Settling s) (request : TaskRequest)
    (hmarked : ∀ taskId, s.flight taskId = some requestId → request.acceptInProgress = true) :
    Settling { s with requests := s.requests.set requestId request } := by
  refine ⟨h.pending, ?_, ?_, h.single, ?_, h.once, h.offers, h.offersOld, h.announced⟩
  · exact fun id hid => Dict.mem_keys_set.mpr (.inr (h.known id hid))
  · intro taskId id hsome
    obtain ⟨hold, ⟨request', hget, hbusy⟩, hpending⟩ := h.flight taskId id hsome
    refine ⟨hold, ?_, hpending⟩
    by_cases hid : id = requestId
    · rw [hid]
      exact ⟨request, Dict.get?_set_self _ _ _, hmarked taskId (hid ▸ hsome)⟩
    · exact ⟨request', (Dict.get?_set_of_ne _ hid _).trans hget, hbusy⟩
  · intro requester id taskId hmem
    obtain ⟨hknown, hgone, hlanded, hold, hanswered⟩ := h.ready requester id taskId hmem
    exact ⟨Dict.mem_keys_set.mpr (.inr hknown), hgone, hlanded, hold, hanswered⟩

variable {request : TaskRequest}

theorem Settling.marked (h : Settling s)
    (hget : s.requests.get? requestId = some request) :
    ∀ taskId, s.flight taskId = some requestId → request.acceptInProgress = true := by
  intro taskId hsome
  obtain ⟨request', hget', hbusy⟩ := (h.flight taskId requestId hsome).marked
  rw [hget, Option.some.injEq] at hget'
  exact hget' ▸ hbusy

theorem Settling.handleRequestTimeout
    (h : Settling s) (hget : s.requests.get? requestId = some request) :
    Settling (s.handleRequestTimeout requestId request) := by
  have hmarked := h.marked hget
  have hset := h.setRequest { request with timeout := false } hmarked
  rw [TaskBroker.handleRequestTimeout]
  split
  · rename_i hmem
    obtain ⟨hpending, hknown, hflight, hsingle, hready, honce, hoffers, hold, hannounced⟩ := hset
    refine ⟨hpending.erase _, ?_, ?_, hsingle, ?_, ?_, hoffers, hold, ?_⟩
    · exact fun id hid => hknown id (List.mem_of_mem_erase hid)
    · intro taskId id hsome
      obtain ⟨hold, hmarked, hin⟩ := hflight taskId id hsome
      refine ⟨hold, hmarked, ?_⟩
      -- an acceptance still in flight now has an expired request
      simp only [TaskBroker.expired, List.filterMap_append, List.filterMap_cons, List.filterMap_nil,
        List.mem_append, List.mem_singleton] at hin ⊢
      by_cases hid : id = requestId
      · exact .inr (.inr hid)
      · exact hin.imp (fun hid' => (List.mem_erase_of_ne hid).mpr hid') .inl
    · intro requester id taskId hmem'
      simp only [TaskBroker.ready, List.filterMap_append, List.filterMap_cons, List.filterMap_nil,
        List.append_nil] at hmem'
      obtain ⟨hknown, hgone, hlanded, hold, hanswered⟩ := hready requester id taskId hmem'
      exact ⟨hknown, fun hid => hgone (List.mem_of_mem_erase hid), hlanded, hold, hanswered⟩
    · simpa [TaskBroker.ready] using honce
    · simpa [TaskBroker.ready] using hannounced
  · exact hset

theorem Settling.endAccept (h : Settling s) (taskId : TaskId) :
    Settling (s.endAccept taskId) := by
  -- a call less is in flight
  have hflight : ∀ t requestId, (s.endAccept taskId).flight t = some requestId →
      s.flight t = some requestId := by
    intro t requestId hsome
    rw [flight_endAccept] at hsome
    split at hsome
    · cases hsome
    · exact hsome
  refine ⟨h.pending, h.known, ?_, ?_, ?_, h.once, h.offers, h.offersOld, h.announced⟩
  · intro t requestId hsome
    obtain ⟨hold, hmarked, hpending⟩ := h.flight t requestId (hflight t requestId hsome)
    exact ⟨hold, hmarked, hpending⟩
  · exact fun t t' requestId hsome hsome' =>
      h.single t t' requestId (hflight t requestId hsome) (hflight t' requestId hsome')
  · intro requester requestId t hmem
    obtain ⟨hknown, hgone, hlanded, hold, hanswered⟩ := h.ready requester requestId t hmem
    refine ⟨hknown, hgone, fun t' hsome => hlanded t' (hflight t' requestId hsome), hold, ?_⟩
    rw [flight_endAccept, hanswered, ite_self]

variable {taskId : TaskId}

theorem Settling.landed (h : Settling s)
    (hflight : s.flight taskId = some requestId) :
    ∀ t, (s.endAccept taskId).flight t ≠ some requestId := by
  intro t hsome
  rw [flight_endAccept] at hsome
  split at hsome
  · cases hsome
  · rename_i hne
    exact hne (h.single t taskId requestId hsome hflight)

theorem Settling.acceptFailed (h : Settling s)
    (request : TaskRequest) (hflight : s.flight taskId = some requestId) :
    Settling (s.acceptFailed taskId requestId request) :=
  (h.endAccept taskId).setRequest { request with acceptInProgress := false }
    fun t hsome => (h.landed hflight t hsome).elim

theorem Settling.deferred (h : Settling s)
    (request : TaskRequest) (offer : TaskOffer) (hflight : s.flight taskId = some requestId)
    (hgone : requestId ∉ s.pendingTaskRequests) :
    Settling (s.afterRunnerAnswer taskId offer requestId request .deferred) := by
  have hset := (h.endAccept taskId).setRequest
    { request with acceptInProgress := false, timeout := true }
    fun t hsome => (h.landed hflight t hsome).elim
  obtain ⟨hpending, hknown, hflight', hsingle, hready, honce, hoffers, hold, hannounced⟩ := hset
  refine ⟨?_, ?_, ?_, hsingle, ?_, honce, hoffers, hold, hannounced⟩
  · -- the request comes back into the list, where it was missing
    refine List.nodup_append.mpr ⟨hpending, List.nodup_singleton _, ?_⟩
    intro id hid id' hid' heq
    rw [heq, List.mem_singleton.mp hid'] at hid
    exact hgone hid
  · intro id hid
    rcases List.mem_append.mp hid with hid | hid
    · exact hknown id hid
    · rw [List.mem_singleton.mp hid]
      exact Dict.mem_keys_set.mpr (.inl rfl)
  · intro t id hsome
    obtain ⟨hold, hmarked, hin⟩ := hflight' t id hsome
    exact ⟨hold, hmarked, hin.imp_left (List.mem_append_left _)⟩
  · intro requester id t hmem
    obtain ⟨hknown, hgone', hlanded, hold, hanswered⟩ := hready requester id t hmem
    refine ⟨hknown, ?_, hlanded, hold, hanswered⟩
    intro hid
    rcases List.mem_append.mp hid with hid | hid
    · exact hgone' hid
    · exact (h.ready requester id t hmem).landed taskId (List.mem_singleton.mp hid ▸ hflight)

/-- What an acceptance in time leaves. -/
structure Accepts (s : TaskBroker) (taskId : TaskId) (requestId requesterId : String)
    (s' : TaskBroker) : Prop where
  pending : s'.pendingTaskRequests = s.pendingTaskRequests.erase requestId
  keys : ∀ id, id ∈ s'.requests.keys ↔ id = requestId ∨ id ∈ s.requests.keys
  requests : ∀ id ≠ requestId, s'.requests.get? id = s.requests.get? id
  flight : s'.flight = (s.endAccept taskId).flight
  nextTask : s'.nextTask = s.nextTask
  used : s'.used = s.used
  offers : s'.pendingTaskOffers = s.pendingTaskOffers
  nextOffer : s'.nextOffer = s.nextOffer
  ready : s'.ready = s.ready ++ [(requesterId, requestId, taskId)]
  expired : s'.expired = s.expired
  tasks : ∀ t, (s'.tasks.get? t).map Task.requesterId
    = if t = taskId then some requesterId else (s.tasks.get? t).map Task.requesterId

theorem accepts_afterRunnerAnswer (taskId : TaskId) (request : TaskRequest)
    (offer : TaskOffer) (hpending : requestId ∈ s.pendingTaskRequests) :
    Accepts s taskId requestId request.requesterId
      (s.afterRunnerAnswer taskId offer requestId request .accepted) := by
  simp only [afterRunnerAnswer]
  rw [if_pos hpending]
  refine ⟨rfl, fun id => Dict.mem_keys_set, fun id hid => Dict.get?_set_of_ne _ hid _,
    funext fun t => ?_, rfl, rfl, rfl, rfl, ?_, ?_, fun t => ?_⟩
  · rw [flight_endAccept]
    by_cases ht : t = taskId
    · simp [flight, ht]
    · simp [flight, Dict.get?_set_of_ne _ ht, ht]
  · simp [ready]
  · simp [expired]
  · rw [Dict.get?_set]
    split
    · rfl
    · rfl

section Accepted

variable {taskId : TaskId} {requestId requesterId : String}

theorem Settling.get?_of_flight (h : Settling s) (hflight : s.flight taskId = some requestId) :
    s.tasks.get? taskId = none := by
  rcases hget : s.tasks.get? taskId with _ | task
  · rfl
  · obtain ⟨requestId', hready⟩ := h.announced taskId task hget
    have hanswered := (h.ready task.requesterId requestId' taskId hready).answered
    rw [hflight] at hanswered
    cases hanswered

theorem Accepts.task (haccepts : Accepts s taskId requestId requesterId s') {t : TaskId}
    {task' : Task} (hget : s'.tasks.get? t = some task') :
    (t = taskId ∧ task'.requesterId = requesterId) ∨
      ∃ task, s.tasks.get? t = some task ∧ task.requesterId = task'.requesterId := by
  have htasks := haccepts.tasks t
  rw [hget] at htasks
  split at htasks
  · rename_i ht
    exact .inl ⟨ht, Option.some.inj htasks⟩
  · obtain ⟨task, hget, hsame⟩ := Option.map_eq_some_iff.mp htasks.symm
    exact .inr ⟨task, hget, hsame⟩

theorem Settling.accepts (h : Settling s) (hflight : s.flight taskId = some requestId)
    (haccepts : Accepts s taskId requestId requesterId s') : Settling s' := by
  have htask : ∀ t task', s'.tasks.get? t = some task' → (t = taskId ∧ task'.requesterId =
      requesterId) ∨ ∃ task, s.tasks.get? t = some task ∧ task.requesterId = task'.requesterId :=
    fun t task' hget => haccepts.task hget
  obtain ⟨hpending, hkeys, hrequests, hflight', hnextTask, hused, hoffers, hnextOffer, hready,
    hexpired, -⟩ := haccepts
  have hlanded := h.landed hflight
  -- the calls still in flight have another request
  have hkept : ∀ t id, s'.flight t = some id → s.flight t = some id ∧ id ≠ requestId := by
    intro t id hsome
    rw [hflight'] at hsome
    refine ⟨?_, fun hid => hlanded t (hid ▸ hsome)⟩
    rw [flight_endAccept] at hsome
    split at hsome
    · cases hsome
    · exact hsome
  refine ⟨hpending ▸ h.pending.erase _, ?_, ?_, ?_, ?_, ?_, ?_, ?_, ?_⟩
  · intro id hid
    rw [hpending] at hid
    exact (hkeys id).mpr (.inr (h.known id (List.mem_of_mem_erase hid)))
  · intro t id hsome
    obtain ⟨hsome, hid⟩ := hkept t id hsome
    obtain ⟨hold, ⟨request, hget, hbusy⟩, hin⟩ := h.flight t id hsome
    refine ⟨hnextTask ▸ hold, ⟨request, (hrequests id hid).trans hget, hbusy⟩, ?_⟩
    rw [hpending, hexpired]
    exact hin.imp_left (List.mem_erase_of_ne hid).mpr
  · exact fun t t' id hsome hsome' => h.single t t' id (hkept t id hsome).1 (hkept t' id hsome').1
  · -- the messages from before, and the new one
    intro requester id t hmem
    rw [hready] at hmem
    rcases List.mem_append.mp hmem with hmem | hmem
    · obtain ⟨hknown, hgone, hlanded', hold, hanswered⟩ := h.ready requester id t hmem
      refine ⟨(hkeys id).mpr (.inr hknown), ?_, fun t' hsome => hlanded' t' (hkept t' id hsome).1,
        hnextTask ▸ hold, ?_⟩
      · rw [hpending]
        exact fun hid => hgone (List.mem_of_mem_erase hid)
      · rw [hflight', flight_endAccept, hanswered, ite_self]
    · obtain ⟨rfl, rfl, rfl⟩ : requester = requesterId ∧ id = requestId ∧ t = taskId := by
        simpa using hmem
      refine ⟨(hkeys id).mpr (.inl rfl), ?_, fun t' hsome => (hkept t' id hsome).2 rfl,
        hnextTask ▸ (h.flight t id hflight).old, ?_⟩
      · rw [hpending]
        exact h.pending.not_mem_erase
      · rw [hflight', flight_endAccept, if_pos rfl]
  · -- a request that led to a `taskready` before was not in flight
    rw [hready, List.map_append, List.map_cons, List.map_nil]
    refine List.nodup_append.mpr ⟨h.once, List.nodup_singleton _, ?_⟩
    intro id hid id' hid' heq
    rw [heq, List.mem_singleton.mp hid'] at hid
    obtain ⟨⟨requester, id, t⟩, hmem, rfl⟩ := List.mem_map.mp hid
    exact (h.ready requester id t hmem).landed taskId hflight
  · rw [hused, hoffers]
    exact h.offers
  · rw [hused, hoffers, hnextOffer]
    exact h.offersOld
  · intro t task' hget
    rw [hready]
    rcases htask t task' hget with ⟨rfl, rfl⟩ | ⟨task, hget, hsame⟩
    · exact ⟨requestId, List.mem_append_right _ List.mem_cons_self⟩
    · obtain ⟨id, hid⟩ := h.announced t task hget
      exact ⟨id, List.mem_append_left _ (hsame ▸ hid)⟩

theorem Settling.settledOnce_accepts (h : Settling s) (hflight : s.flight taskId = some requestId)
    (htime : requestId ∉ s.expired) (haccepts : Accepts s taskId requestId requesterId s') :
    SettledOnce s s' := by
  have h' := h.accepts hflight haccepts
  refine ⟨h'.pending, ?_, ?_, h'.once, h'.offers.of_append_left, h'.announced⟩
  · intro t htask hnew
    obtain ⟨task', hget⟩ := Dict.mem_keys_iff.mp htask
    rcases haccepts.task hget with ⟨rfl, -⟩ | ⟨task, hget, -⟩
    · exact ⟨requestId, hflight, htime⟩
    · exact (hnew (Dict.mem_keys_iff.mpr ⟨task, hget⟩)).elim
  · intro requester id t hmem hnew
    rw [haccepts.ready] at hmem
    rcases List.mem_append.mp hmem with hmem | hmem
    · exact (hnew hmem).elim
    · obtain ⟨-, rfl, -⟩ : requester = requesterId ∧ id = requestId ∧ t = taskId := by
        simpa using hmem
      exact htime

end Accepted

theorem Settling.settledOnce_of_sameTasks (h : Settling s') (hsame : SameTasks s s') :
    SettledOnce s s' := by
  refine h.settledOnce ?_ fun taskId htask => ?_
  · rw [TaskBroker.ready, TaskBroker.ready, hsame.sent]
  · exact hsame.tasks ▸ htask

theorem Settling.settledOnce_of_inTime (h : Settling s) (hstep : step mode s e = .ok s')
    (htime : s.InTime e) : Settling s' ∧ SettledOnce s s' := by
  cases stepped_of_step hstep with
  | quiet hanswered hquiet =>
    have h' := h.quiet hquiet
    refine ⟨h', h'.settledOnce hquiet.ready fun taskId htask => ?_⟩
    obtain ⟨task', hget⟩ := Dict.mem_keys_iff.mp htask
    obtain ⟨task, hget, -⟩ := hquiet.tasks taskId task' hget
    exact Dict.mem_keys_iff.mpr ⟨task, hget⟩
  | offered offer hid =>
    have h' := h.taskOffered hid
    exact ⟨h', h'.settledOnce_of_sameTasks (sameTasks_taskOffered s offer)⟩
  | @requested requesterId requestId taskType hnew =>
    have h' := h.taskRequested { requesterId, taskType } hnew
    exact ⟨h', h'.settledOnce_of_sameTasks (sameTasks_taskRequested s requestId _)⟩
  | @timedOut requestId request hget =>
    have h' := h.handleRequestTimeout hget
    refine ⟨h', h'.settledOnce ?_ ?_⟩
    · rw [TaskBroker.handleRequestTimeout]
      split
      · simp [TaskBroker.ready]
      · rfl
    · rw [TaskBroker.handleRequestTimeout]
      split
      · exact fun _ htask => htask
      · exact fun _ htask => htask
  | @answered _ taskId a request answer hanswered hflight hget =>
    rw [InTime, hanswered] at htime
    have hfailed := h.acceptFailed request hflight
    have hfailed' := hfailed.settledOnce (s := s) rfl fun _ htask => htask
    cases answer with
    | accepted =>
      have hpending := (h.flight taskId a.requestId hflight).pending.resolve_right htime
      have haccepts := accepts_afterRunnerAnswer taskId request a.offer hpending
      exact ⟨h.accepts hflight haccepts, h.settledOnce_accepts hflight htime haccepts⟩
    | deferred =>
      have h' := h.deferred request a.offer hflight htime
      exact ⟨h', h'.settledOnce rfl fun _ htask => htask⟩
    | rejected => exact ⟨hfailed, hfailed'⟩
    | timedOut => exact ⟨hfailed, hfailed'⟩
    | undelivered => exact ⟨hfailed, hfailed'⟩

theorem Settling.inTime_of_settledOnce (h : Settling s) (hstep : step mode s e = .ok s')
    (honce : SettledOnce s s') : s.InTime e := by
  rw [InTime]
  split
  · rename_i taskId a hanswered
    cases stepped_of_step hstep with
    | quiet hnone =>
      rw [hanswered] at hnone
      cases hnone
    | offered | requested | timedOut => cases hanswered
    | @answered _ taskId' a' request answer hanswered' =>
      obtain ⟨rfl, rfl, rfl⟩ : taskId = taskId' ∧ a = a' ∧ .deferred = answer := by
        simpa [hanswered] using hanswered'
      -- the list would have the request twice
      exact fun hmem => (List.nodup_append.mp honce.pending).2.2 a.requestId hmem a.requestId
        List.mem_cons_self rfl
  · rename_i taskId a hanswered
    cases stepped_of_step hstep with
    | quiet hnone =>
      rw [hanswered] at hnone
      cases hnone
    | offered | requested | timedOut => cases hanswered
    | @answered _ taskId' a' request answer hanswered' hflight =>
      obtain ⟨rfl, rfl, rfl⟩ : taskId = taskId' ∧ a = a' ∧ .accepted = answer := by
        simpa [hanswered] using hanswered'
      -- the task is in the map whether it is announced or not
      have hnew : taskId ∉ s.tasks.keys := by
        rw [← Dict.get?_eq_none_iff]
        exact h.get?_of_flight hflight
      have htask : taskId ∈ (s.afterRunnerAnswer taskId a.offer a.requestId request
          .accepted).tasks.keys := by
        simp only [afterRunnerAnswer]
        split
        · exact Dict.mem_keys_set.mpr (.inl rfl)
        · exact Dict.mem_keys_set.mpr (.inl rfl)
      obtain ⟨requestId, hsome, hexpired⟩ := honce.task taskId htask hnew
      rw [hflight, Option.some.injEq] at hsome
      exact hsome ▸ hexpired
  · trivial

/-- **Requests are settled once along a run iff every deferral comes for a request
out of the list and every acceptance for one that did not expire.** -/
theorem settledOnce_iff (mode : TaskRunnerMode) (es : List BrokerEvent) :
    Along (step mode) (fun s _ s' => SettledOnce s s') {} es ↔
      Along (step mode) (fun s e _ => s.InTime e) {} es := by
  refine Along.iff_of_step (I := Settling) (V := fun _ _ _ => True) ?_ ?_ settling_start
    (Along.always (fun _ _ _ => trivial) _ _)
  · exact fun s e s' h hstep _ => ⟨fun honce => h.inTime_of_settledOnce hstep honce,
      fun htime => (h.settledOnce_of_inTime hstep htime).2⟩
  · exact fun s e s' h hstep _ honce =>
      (h.settledOnce_of_inTime hstep (h.inTime_of_settledOnce hstep honce)).1

/-- A runner defers the only request. -/
def deferredWhilePending : List BrokerEvent :=
  [.registerRunner "runner", .requesterMessage "requester" (.taskrequest "request" "javascript"),
    .runnerMessage "runner" (.taskoffer "offer" "javascript" (-1)), .runnerDelivery 0 true,
    .runnerMessage "runner" (.taskdeferred 0), .runnerAnswered 0]

theorem not_settledOnce_deferredWhilePending :
    ¬ Along (step .internal) (fun s _ s' => SettledOnce s s') {} deferredWhilePending := by
  intro h
  have hpending : Along (step .internal) (fun _ _ s' => s'.pendingTaskRequests.Nodup) {}
      deferredWhilePending := h.mono fun _ _ _ honce => honce.pending
  revert hpending
  decide

end N8n.TaskBroker
