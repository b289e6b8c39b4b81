/-
No request waits beside an offer it could have.

`settleTasks` leaves no pair of a free request and an offer of its type, but it
only runs when a request or an offer arrives.  A request also becomes free when
its acceptance fails, and the offers queued by then are not looked at.

* `noIdlePair_iff` — **along every run no pair is left idle iff no acceptance
  fails beside an offer for its request**.
-/
import N8n.TaskBrokerSteps

namespace N8n.TaskBroker

variable {mode : TaskRunnerMode} {s s' : TaskBroker} {e : BrokerEvent}

def offersFor (s : TaskBroker) (request : TaskRequest) : List TaskOffer :=
  s.pendingTaskOffers.filter fun offer =>
    offer.taskType = request.taskType && !offer.expired s.now

def freeRequests (s : TaskBroker) : List TaskRequest :=
  (s.pendingTaskRequests.filterMap s.requests.get?).filter fun request =>
    !request.acceptInProgress

/-- No free pending request and unexpired offer have the same type. -/
def NoIdlePair (s : TaskBroker) : Prop :=
  ∀ request ∈ s.freeRequests, s.offersFor request = []

instance (s : TaskBroker) : Decidable s.NoIdlePair :=
  inferInstanceAs (Decidable (∀ request ∈ s.freeRequests, s.offersFor request = []))

/-- The request that is free and pending after the event because its acceptance
failed: a deferral always puts it into the list. -/
def freed (s : TaskBroker) (e : BrokerEvent) : Option TaskRequest :=
  match s.answered e with
  | none => none
  | some (_, a, answer) =>
    if answer ≠ .accepted ∧ (a.requestId ∈ s.pendingTaskRequests ∨ answer = .deferred) then
      s.requests.get? a.requestId
    else none

variable {request : TaskRequest}

theorem mem_freeRequests_iff : request ∈ s.freeRequests ↔
    (∃ requestId ∈ s.pendingTaskRequests, s.requests.get? requestId = some request) ∧
      request.acceptInProgress = false := by
  simp [freeRequests]

theorem offersFor_eq_nil_iff : s.offersFor request = [] ↔
    ∀ offer ∈ s.pendingTaskOffers, offer.expired s.now = false →
      offer.taskType ≠ request.taskType := by
  simp only [offersFor, List.filter_eq_nil_iff, Bool.and_eq_true, decide_eq_true_eq,
    Bool.not_eq_true', not_and]
  exact forall₂_congr fun offer _ =>
    ⟨fun h hexp htype => h htype hexp, fun h htype hexp => h hexp htype⟩

theorem offersFor_eq_nil_of_quiet {request' : TaskRequest} (hnow : s.now ≤ s'.now)
    (hoffers : s'.pendingTaskOffers ⊆ s.pendingTaskOffers)
    (htype : request'.taskType = request.taskType) (h : s.offersFor request = []) :
    s'.offersFor request' = [] := by
  rw [offersFor_eq_nil_iff] at h ⊢
  intro offer hoffer hexpired
  rw [htype]
  refine h offer (hoffers hoffer) ?_
  simp only [TaskOffer.expired, Bool.and_eq_false_iff, decide_eq_false_iff_not] at hexpired ⊢
  rcases hexpired with hlauncher | hvalid
  · exact .inl hlauncher
  · exact .inr fun hlt => hvalid (lt_of_lt_of_le hlt hnow)

theorem NoIdlePair.of_free (h : s.NoIdlePair) (hnow : s.now ≤ s'.now)
    (hoffers : s'.pendingTaskOffers ⊆ s.pendingTaskOffers)
    (hfree : ∀ request' ∈ s'.freeRequests,
      ∃ request ∈ s.freeRequests, request'.taskType = request.taskType) : s'.NoIdlePair := by
  intro request' hrequest'
  obtain ⟨request, hrequest, htype⟩ := hfree request' hrequest'
  exact offersFor_eq_nil_of_quiet hnow hoffers htype (h request hrequest)

/-- **Matching leaves no idle pair.** -/
theorem noIdlePair_settleTasks (s : TaskBroker) : s.settleTasks.NoIdlePair := by
  intro request hrequest
  obtain ⟨⟨requestId, hpending, hget⟩, hfree⟩ := mem_freeRequests_iff.mp hrequest
  rw [pending_settleTasks] at hpending
  rw [offersFor_eq_nil_iff]
  exact fun offer hoffer _ =>
    served_settleTasks s requestId hpending request hget hfree offer hoffer

variable {requestId : String}

theorem free_of_setRequest {timeout : Bool}
    (hget : s.requests.get? requestId = some request)
    (hpending : s'.pendingTaskRequests ⊆ s.pendingTaskRequests)
    (hrequests : s'.requests = s.requests.set requestId { request with timeout }) :
    ∀ request' ∈ s'.freeRequests,
      ∃ request ∈ s.freeRequests, request'.taskType = request.taskType := by
  intro request' hrequest'
  obtain ⟨⟨requestId', hmem, hget'⟩, hfree⟩ := mem_freeRequests_iff.mp hrequest'
  rw [hrequests, Dict.get?_set] at hget'
  split at hget'
  · rename_i heq
    cases hget'
    exact ⟨request, mem_freeRequests_iff.mpr ⟨⟨requestId, hpending (heq ▸ hmem), hget⟩, hfree⟩, rfl⟩
  · exact ⟨request', mem_freeRequests_iff.mpr ⟨⟨requestId', hpending hmem, hget'⟩, hfree⟩, rfl⟩

theorem noIdlePair_handleRequestTimeout
    (h : s.NoIdlePair) (hget : s.requests.get? requestId = some request) :
    (s.handleRequestTimeout requestId request).NoIdlePair := by
  rw [handleRequestTimeout]
  split
  · exact h.of_free (le_refl _) (List.Subset.refl _)
      (free_of_setRequest hget List.erase_subset rfl)
  · exact h.of_free (le_refl _) (List.Subset.refl _)
      (free_of_setRequest hget (List.Subset.refl _) rfl)

theorem noIdlePair_accepted {taskId : TaskId} {a : Acceptance}
    (h : s.NoIdlePair) (hget : s.requests.get? a.requestId = some request) :
    (s.afterRunnerAnswer taskId a.offer a.requestId request .accepted).NoIdlePair := by
  simp only [afterRunnerAnswer]
  split
  · exact h.of_free (le_refl _) (List.Subset.refl _)
      (free_of_setRequest hget List.erase_subset rfl)
  · exact h.of_free (le_refl _) (List.Subset.refl _)
      (free_of_setRequest hget (List.Subset.refl _) rfl)

theorem noIdlePair_freed_iff (timeout : Bool)
    (h : s.NoIdlePair) (hnow : s'.now = s.now)
    (hoffers : s'.pendingTaskOffers = s.pendingTaskOffers)
    (hpending : ∀ id, id ∈ s'.pendingTaskRequests → id = requestId ∨ id ∈ s.pendingTaskRequests)
    (hrequests : s'.requests
      = s.requests.set requestId { request with acceptInProgress := false, timeout }) :
    s'.NoIdlePair ↔ (requestId ∈ s'.pendingTaskRequests → s.offersFor request = []) := by
  have hsame : ∀ request' : TaskRequest, s'.offersFor request' = s.offersFor request' := by
    intro request'
    rw [offersFor, offersFor, hnow, hoffers]
  constructor
  · intro h' hmem
    have hfree := h' { request with acceptInProgress := false, timeout }
      (mem_freeRequests_iff.mpr ⟨⟨requestId, hmem, by rw [hrequests, Dict.get?_set_self]⟩, rfl⟩)
    rw [hsame] at hfree
    exact hfree
  · intro hnone request' hrequest'
    obtain ⟨⟨requestId', hmem, hget'⟩, hfree⟩ := mem_freeRequests_iff.mp hrequest'
    rw [hrequests, Dict.get?_set] at hget'
    rw [hsame]
    split at hget'
    · rename_i heq
      cases hget'
      exact hnone (heq ▸ hmem)
    · rename_i hne
      exact h request' (mem_freeRequests_iff.mpr
        ⟨⟨requestId', (hpending requestId' hmem).resolve_left hne, hget'⟩, hfree⟩)

theorem noIdlePair_step_iff (h : s.NoIdlePair) (hstep : step mode s e = .ok s') :
    s'.NoIdlePair ↔ ∀ request ∈ s.freed e, s.offersFor request = [] := by
  have hnotFreed : s.answered e = none → ∀ request ∈ s.freed e, s.offersFor request = [] := by
    intro hanswered request hrequest
    rw [freed, hanswered] at hrequest
    cases hrequest
  cases stepped_of_step hstep with
  | quiet hanswered hquiet =>
    refine iff_of_true (h.of_free hquiet.now hquiet.offers.subset ?_) (hnotFreed hanswered)
    intro request' hrequest'
    rw [freeRequests, hquiet.pending, hquiet.requests] at hrequest'
    exact ⟨request', hrequest', rfl⟩
  | offered offer => exact iff_of_true (noIdlePair_settleTasks _) (hnotFreed rfl)
  | requested => exact iff_of_true (noIdlePair_settleTasks _) (hnotFreed rfl)
  | timedOut hget => exact iff_of_true (noIdlePair_handleRequestTimeout h hget) (hnotFreed rfl)
  | @answered _ taskId a request answer hanswered hflight hget =>
    -- three answers have the same `catch` block
    have hfailed : answer ≠ .accepted → answer ≠ .deferred →
        ((s.acceptFailed taskId a.requestId request).NoIdlePair ↔
          ∀ request ∈ s.freed e, s.offersFor request = []) := by
      intro haccepted hdeferred
      refine Iff.trans (noIdlePair_freed_iff request.timeout h rfl rfl (fun _ => .inr) rfl) ?_
      simp [freed, hanswered, haccepted, hdeferred, hget, acceptFailed, endAccept]
    cases answer with
    | accepted =>
      refine iff_of_true (noIdlePair_accepted h hget) ?_
      simp [freed, hanswered]
    | deferred =>
      -- the deferred request is in the list again, behind the others
      refine Iff.trans (noIdlePair_freed_iff true h rfl rfl ?_ rfl) ?_
      · intro id hid
        rcases List.mem_append.mp hid with hid | hid
        · exact .inr hid
        · exact .inl (List.mem_singleton.mp hid)
      · simp [afterRunnerAnswer, freed, hanswered, hget]
    | rejected => exact hfailed (by simp) (by simp)
    | timedOut => exact hfailed (by simp) (by simp)
    | undelivered => exact hfailed (by simp) (by simp)

/-- **No pair is left idle along a run iff no acceptance fails beside an offer
for its request.** -/
theorem noIdlePair_iff (mode : TaskRunnerMode) (es : List BrokerEvent) :
    Along (step mode) (fun _ _ s' => s'.NoIdlePair) {} es ↔
      Along (step mode) (fun s e _ => ∀ request ∈ s.freed e, s.offersFor request = []) {} es := by
  refine Along.iff_of_step (I := NoIdlePair) (V := fun _ _ _ => True) ?_ ?_ ?_
    (Along.always (fun _ _ _ => trivial) _ _)
  · exact fun s e s' h hstep _ => noIdlePair_step_iff h hstep
  · exact fun _ _ _ _ _ _ h' => h'
  · exact fun request hrequest => by cases hrequest

/-- A runner with two offers rejects the request that got the first. -/
def rejectedBesideOffer : List BrokerEvent :=
  [.registerRunner "runner", .runnerMessage "runner" (.taskoffer "offer1" "javascript" 5000),
    .runnerMessage "runner" (.taskoffer "offer2" "javascript" 5000),
    .requesterMessage "requester" (.taskrequest "request" "javascript"), .runnerDelivery 0 true,
    .runnerMessage "runner" (.taskrejected 0), .runnerAnswered 0]

theorem not_noIdlePair_rejectedBesideOffer :
    ¬ Along (step .internal) (fun _ _ s' => s'.NoIdlePair) {} rejectedBesideOffer := by
  decide

end N8n.TaskBroker
