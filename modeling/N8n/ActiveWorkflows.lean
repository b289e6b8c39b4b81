/-
Activating the triggers and pollers of a workflow.

`add` runs the triggers one after the other, records their responses, and then
tests and schedules the pollers.  Each of the two loops ends at the first
failure: after a failed trigger nothing is recorded; after a failed poller the
workflow stays active if a trigger of it runs, so that `remove` can close it.

* `addSpec` — **what `add` leaves behind, whether it returns or where it throws**.
-/
import N8n.Runs
import N8n.Interfaces

namespace N8n

/-- When a poller runs. -/
inductive TriggerTime where
  | custom (cronExpression : String)
  | everyMinute
  | everyXMinutes (value : ℕ)
  | everyXHours (value : ℕ)
  | everyHour (minute : ℕ)
  | everyDay (hour minute : ℕ)
  | everyWeek (hour minute weekday : ℕ)
  | everyMonth (hour minute dayOfMonth : ℕ)
  deriving DecidableEq, Repr

/-- The white space and line terminators that `trim` removes. -/
def isTrimmed (c : Char) : Bool :=
  c.toNat ∈ [0x9, 0xA, 0xB, 0xC, 0xD, 0x20, 0xA0, 0x1680, 0x2028, 0x2029, 0x202F, 0x205F, 0x3000,
    0xFEFF] || (0x2000 ≤ c.toNat && c.toNat ≤ 0x200A)

def trim (text : String) : String :=
  String.ofList ((text.toList.dropWhile isTrimmed).reverse.dropWhile isTrimmed).reverse

def TriggerTime.toCronExpression (item : TriggerTime) (randomSecond randomMinute : ℕ) : String :=
  let fields (fields : List String) : String := " ".intercalate (toString randomSecond :: fields)
  match item with
  | .everyMinute => fields ["*", "*", "*", "*", "*"]
  | .everyHour minute => fields [toString minute, "*", "*", "*", "*"]
  | .everyXMinutes value => fields ["*/" ++ toString value, "*", "*", "*", "*"]
  | .everyXHours value =>
    fields [toString randomMinute, "*/" ++ toString value, "*", "*", "*"]
  | .everyDay hour minute => fields [toString minute, toString hour, "*", "*", "*"]
  | .everyWeek hour minute weekday =>
    fields [toString minute, toString hour, "*", "*", toString weekday]
  | .everyMonth hour minute dayOfMonth =>
    fields [toString minute, toString hour, toString dayOfMonth, "*", "*"]
  | .custom cronExpression => trim cronExpression

def hasShortInterval (expression : String) : Bool :=
  (expression.toList.takeWhile (· ≠ ' ')).contains '*'

/-- What a call of `closeFunction` does. -/
inductive CloseResult where
  | closes
  | triggerCloseError
  | error (message : String)
  deriving DecidableEq, Repr

/-- A response of a trigger; `id` is the identity of the object. -/
structure ITriggerResponse where
  id : ℕ
  closeFunction : Option CloseResult := none
  deriving DecidableEq, Repr

/-- A trigger node: the crons that its trigger function registers, and how the
function ends. -/
structure TriggerNode where
  id : String
  crons : List (String × Option IRecurrenceRule) := []
  result : Except String (Option ITriggerResponse)
  deriving DecidableEq

/-- A poll node: its poll times, if they can be read, each with the random
numbers of its expression, and how the first poll ends. -/
structure PollNode where
  id : String
  pollTimes : Except String (List (TriggerTime × ℕ × ℕ))
  firstPoll : Except String Unit
  deriving DecidableEq

/-- What activation reads of a workflow. -/
structure ActivatedWorkflow where
  id : String
  timezone : String
  triggerNodes : List TriggerNode := []
  pollNodes : List PollNode := []
  deriving DecidableEq

inductive ActivatedNode where
  | trigger (node : TriggerNode)
  | poll (node : PollNode)
  deriving DecidableEq

structure WorkflowActivationError where
  message : String
  node : ActivatedNode
  deriving DecidableEq

def activationError (node : ActivatedNode) (message : String) : WorkflowActivationError where
  message := "There was a problem activating the workflow: \"" ++ message ++ "\""
  node

structure Cron where
  summary : String
  ctx : CronContext
  deriving DecidableEq

def RecurrenceInterval.toString : RecurrenceInterval → String
  | hours => "hours"
  | days => "days"
  | weeks => "weeks"
  | months => "months"

def CronContext.summary (ctx : CronContext) : String :=
  match ctx.recurrence with
  | some (.activated _ intervalSize typeInterval) =>
    ctx.expression ++ " (every " ++ ToString.toString intervalSize ++ " " ++ typeInterval.toString
      ++ ")"
  | _ => ctx.expression

/-- The active workflows with their trigger responses and the registered crons;
a cron runs as long as it is registered.  The other two fields log the responses
that triggers gave and the calls of `closeFunction`. -/
structure ActiveWorkflows where
  activeWorkflows : Dict String (List ITriggerResponse) := .empty
  cronsByWorkflow : Dict String (Dict CronContext Cron) := .empty
  triggered : List ITriggerResponse := []
  closed : List ℕ := []
  deriving DecidableEq

namespace ActiveWorkflows

section

variable (cronJob : CronContext → Except String Unit)

/-- `registerCron`.  A cron is known by all fields of its context, which are what
`toCronKey` lists; `new CronJob` may throw. -/
def registerCron (s : ActiveWorkflows) (ctx : CronContext) : Outcome String ActiveWorkflows :=
  let workflowCrons := (s.cronsByWorkflow.get? ctx.workflowId).getD .empty
  if workflowCrons.has ctx then .returned s
  else match cronJob ctx with
    | .error message => .threw message s
    | .ok _ => .returned { s with
      cronsByWorkflow := s.cronsByWorkflow.set ctx.workflowId
        (workflowCrons.set ctx ⟨ctx.summary, ctx⟩) }

def deregisterCrons (s : ActiveWorkflows) (workflowId : String) : ActiveWorkflows :=
  match s.cronsByWorkflow.get? workflowId with
  | none => s
  | some workflowCrons =>
    if workflowCrons.entries = [] then s
    else { s with cronsByWorkflow := s.cronsByWorkflow.erase workflowId }

variable (w : ActivatedWorkflow)

def triggerCrons (node : TriggerNode) : List CronContext :=
  node.crons.map fun cron =>
    { nodeId := node.id, workflowId := w.id, timezone := w.timezone, expression := cron.1,
      recurrence := cron.2 }

/-- One round of the loop over the trigger nodes, with `triggerResponses`. -/
def activateTrigger (s : ActiveWorkflows × List ITriggerResponse)
    (node : TriggerNode) : Outcome WorkflowActivationError
      (ActiveWorkflows × List ITriggerResponse) :=
  match Outcome.each (registerCron cronJob) s.1 (triggerCrons w node) with
  | .threw message s' => .threw (activationError (.trigger node) message) (s', s.2)
  | .returned s' => match node.result with
    | .error message => .threw (activationError (.trigger node) message) (s', s.2)
    | .ok none => .returned (s', s.2)
    | .ok (some response) => .returned
      ({ s' with triggered := s'.triggered ++ [response] }, s.2 ++ [response])

def schedulePoll (node : PollNode) (s : ActiveWorkflows)
    (expression : String) : Outcome String ActiveWorkflows :=
  if hasShortInterval expression then
    .threw "The polling interval is too short. It has to be at least a minute." s
  else registerCron cronJob s
    { nodeId := node.id, workflowId := w.id, timezone := w.timezone, expression }

def activatePolling (s : ActiveWorkflows) (node : PollNode) : Outcome String ActiveWorkflows :=
  match node.pollTimes with
  | .error message => .threw message s
  | .ok pollTimes =>
    let cronExpressions := pollTimes.map fun time =>
      time.1.toCronExpression time.2.1 time.2.2
    match node.firstPoll with
    | .error message => .threw message s
    | .ok _ => Outcome.each (schedulePoll cronJob w node) s cronExpressions

def activatePoller (s : ActiveWorkflows) (node : PollNode) :
    Outcome WorkflowActivationError ActiveWorkflows :=
  (activatePolling cronJob w s node).mapError (activationError (.poll node))

def add (s : ActiveWorkflows) (workflowId : String) (w : ActivatedWorkflow) :
    Outcome WorkflowActivationError ActiveWorkflows :=
  match Outcome.each (activateTrigger cronJob w) (s, []) w.triggerNodes with
  | .threw e (s, _) => .threw e s
  | .returned (s, triggerResponses) =>
    let s := { s with activeWorkflows := s.activeWorkflows.set workflowId triggerResponses }
    match Outcome.each (activatePoller cronJob w) s w.pollNodes with
    | .returned s => .returned s
    | .threw e s => .threw e
      (if triggerResponses = [] then
        { s with activeWorkflows := s.activeWorkflows.erase workflowId } else s)

end

def isActive (s : ActiveWorkflows) (workflowId : String) : Bool := s.activeWorkflows.has workflowId

/-- `closeTrigger`; only a `TriggerCloseError` is not thrown on. -/
def closeTrigger (workflowId : String) (s : ActiveWorkflows) (response : ITriggerResponse) :
    Outcome String ActiveWorkflows :=
  match response.closeFunction with
  | none => .returned s
  | some result =>
    let s := { s with closed := s.closed ++ [response.id] }
    match result with
    | .error message => .threw ("Failed to deactivate trigger of workflow ID \"" ++ workflowId
        ++ "\": \"" ++ message ++ "\"") s
    | _ => .returned s

/-- `remove`; whether the workflow was active is returned with the state. -/
def remove (s : ActiveWorkflows) (workflowId : String) : Outcome String (ActiveWorkflows × Bool) :=
  match s.activeWorkflows.get? workflowId with
  | none => .returned (s, false)
  | some triggerResponses =>
    match Outcome.each (closeTrigger workflowId) (s.deregisterCrons workflowId)
      triggerResponses with
    | .threw e s => .threw e (s, false)
    | .returned s => .returned
      ({ s with activeWorkflows := s.activeWorkflows.erase workflowId }, true)

/-- Only crons of one workflow were registered or stopped. -/
structure OnlyCrons (workflowId : String) (s s' : ActiveWorkflows) : Prop where
  active : s'.activeWorkflows = s.activeWorkflows
  triggered : s'.triggered = s.triggered
  closed : s'.closed = s.closed
  crons : ∀ id ≠ workflowId, s'.cronsByWorkflow.get? id = s.cronsByWorkflow.get? id

section Calls

variable {cronJob : CronContext → Except String Unit} {s s' s'' : ActiveWorkflows}
  {w : ActivatedWorkflow} {workflowId : String}

theorem OnlyCrons.refl (workflowId : String) (s : ActiveWorkflows) : OnlyCrons workflowId s s :=
  ⟨rfl, rfl, rfl, fun _ _ => rfl⟩

theorem OnlyCrons.trans (h : OnlyCrons workflowId s s') (h' : OnlyCrons workflowId s' s'') :
    OnlyCrons workflowId s s'' :=
  ⟨h'.active.trans h.active, h'.triggered.trans h.triggered, h'.closed.trans h.closed,
    fun id hid => (h'.crons id hid).trans (h.crons id hid)⟩

theorem onlyCrons_registerCron (ctx : CronContext) :
    OnlyCrons ctx.workflowId s (registerCron cronJob s ctx).state := by
  rw [registerCron]
  split
  · exact .refl _ s
  · split
    · exact .refl _ s
    · exact ⟨rfl, rfl, rfl, fun id hid => Dict.get?_set_of_ne _ hid _⟩

variable (cronJob) in
theorem onlyCrons_each {ctxs : List CronContext}
    (hctxs : ∀ ctx ∈ ctxs, ctx.workflowId = workflowId) :
    OnlyCrons workflowId s (Outcome.each (registerCron cronJob) s ctxs).state :=
  Outcome.each_invariant (I := OnlyCrons workflowId s)
    (fun ctx hctx _ ht => ht.trans (hctxs ctx hctx ▸ onlyCrons_registerCron ctx)) (.refl _ s)

theorem onlyCrons_schedulePoll (node : PollNode) (expression : String) :
    OnlyCrons w.id s (schedulePoll cronJob w node s expression).state := by
  rw [schedulePoll]
  split
  · exact .refl _ s
  · exact onlyCrons_registerCron
      { nodeId := node.id, workflowId := w.id, timezone := w.timezone, expression }

theorem onlyCrons_activatePoller (node : PollNode) :
    OnlyCrons w.id s (activatePoller cronJob w s node).state := by
  rw [activatePoller, Outcome.state_mapError, activatePolling]
  split
  · exact .refl _ s
  · dsimp only
    split
    · exact .refl _ s
    · exact Outcome.each_invariant (I := OnlyCrons w.id s)
        (fun expression _ _ ht => ht.trans (onlyCrons_schedulePoll node expression)) (.refl _ s)

theorem onlyCrons_deregisterCrons (s : ActiveWorkflows) (workflowId : String) :
    OnlyCrons workflowId s (s.deregisterCrons workflowId) := by
  rw [deregisterCrons]
  split
  · exact .refl _ s
  · split
    · exact .refl _ s
    · exact ⟨rfl, rfl, rfl, fun id hid => Dict.get?_erase_of_ne _ hid⟩

theorem crons_deregisterCrons (s : ActiveWorkflows) (workflowId : String) :
    ∀ crons, (s.deregisterCrons workflowId).cronsByWorkflow.get? workflowId = some crons →
      crons.entries = [] := by
  intro crons hget
  rw [deregisterCrons] at hget
  rcases hcrons : s.cronsByWorkflow.get? workflowId with _ | workflowCrons
  · simp only [hcrons] at hget
    cases hget
  · simp only [hcrons] at hget
    split at hget
    · rename_i hempty
      rw [hcrons] at hget
      cases hget
      exact hempty
    · rw [Dict.get?_erase, if_pos rfl] at hget
      cases hget

def closeCalls (responses : List ITriggerResponse) : List ℕ :=
  (responses.filter (·.closeFunction.isSome)).map (·.id)

/-- Closing the response throws nothing but a `TriggerCloseError`. -/
def ClosesSafely (response : ITriggerResponse) : Prop :=
  ∀ message, response.closeFunction ≠ some (.error message)

theorem each_closeTrigger : ∀ {responses : List ITriggerResponse} {s : ActiveWorkflows},
    (∀ response ∈ responses, ClosesSafely response) →
    Outcome.each (closeTrigger workflowId) s responses
      = .returned { s with closed := s.closed ++ closeCalls responses } := by
  intro responses
  induction responses with
  | nil => simp [Outcome.each, closeCalls]
  | cons response responses ih =>
    intro s hsafe
    obtain ⟨hfirst, hrest⟩ := List.forall_mem_cons.mp hsafe
    rw [Outcome.each, closeTrigger]
    rcases hclose : response.closeFunction with _ | result
    · rw [Outcome.returned_andThen, ih hrest]
      simp [closeCalls, hclose]
    · have hresult : ∀ message, result ≠ .error message := fun message heq =>
        hfirst message (by rw [hclose, heq])
      cases result with
      | error message => exact (hresult message rfl).elim
      | closes =>
        rw [Outcome.returned_andThen, ih hrest]
        simp [closeCalls, hclose]
      | triggerCloseError =>
        rw [Outcome.returned_andThen, ih hrest]
        simp [closeCalls, hclose]

/-- A remove closes each response once and leaves no cron and no activation. -/
structure Removes (s : ActiveWorkflows) (workflowId : String) (responses : List ITriggerResponse)
    (s' : ActiveWorkflows) : Prop where
  removed : s.remove workflowId = .returned (s', true)
  closed : s'.closed = s.closed ++ closeCalls responses
  crons : ∀ crons, s'.cronsByWorkflow.get? workflowId = some crons → crons.entries = []
  inactive : s'.isActive workflowId = false

/-- The workflow is active with these responses, and can be removed with them. -/
structure Recorded (s : ActiveWorkflows) (workflowId : String)
    (responses : List ITriggerResponse) : Prop where
  active : s.activeWorkflows.get? workflowId = some responses
  removable : (∀ response ∈ responses, ClosesSafely response) →
    ∃ s', Removes s workflowId responses s'

/-- **A workflow recorded with its responses can be removed.** -/
theorem recorded_of_get? {responses : List ITriggerResponse}
    (h : s.activeWorkflows.get? workflowId = some responses) : Recorded s workflowId responses where
  active := h
  removable := by
    intro hsafe
    have hcrons := onlyCrons_deregisterCrons s workflowId
    refine ⟨{ s.deregisterCrons workflowId with
      closed := (s.deregisterCrons workflowId).closed ++ closeCalls responses
      activeWorkflows := (s.deregisterCrons workflowId).activeWorkflows.erase workflowId },
      ?_, ?_, crons_deregisterCrons s workflowId, ?_⟩
    · rw [remove, h]
      simp only [each_closeTrigger hsafe]
    · rw [hcrons.closed]
    · rw [isActive, Dict.has, Dict.get?_erase, if_pos rfl]
      rfl

/-- After some rounds of the loop over the triggers: only crons changed, and each
response is in the list that is to be recorded. -/
structure Triggering (w : ActivatedWorkflow) (s : ActiveWorkflows)
    (t : ActiveWorkflows × List ITriggerResponse) : Prop where
  active : t.1.activeWorkflows = s.activeWorkflows
  triggered : t.1.triggered = s.triggered ++ t.2
  closed : t.1.closed = s.closed
  crons : ∀ id ≠ w.id, t.1.cronsByWorkflow.get? id = s.cronsByWorkflow.get? id

variable {t : ActiveWorkflows × List ITriggerResponse}

theorem Triggering.onlyCrons {u : ActiveWorkflows}
    (h : Triggering w s t) (h' : OnlyCrons w.id t.1 u) : Triggering w s (u, t.2) :=
  ⟨h'.active.trans h.active, h'.triggered.trans h.triggered, h'.closed.trans h.closed,
    fun id hid => (h'.crons id hid).trans (h.crons id hid)⟩

theorem triggering_activateTrigger
    (h : Triggering w s t) (node : TriggerNode) :
    Triggering w s (activateTrigger cronJob w t node).state := by
  have hctxs : ∀ ctx ∈ triggerCrons w node, ctx.workflowId = w.id := by
    intro ctx hctx
    obtain ⟨cron, -, rfl⟩ := List.mem_map.mp hctx
    rfl
  have hcrons := h.onlyCrons (onlyCrons_each cronJob hctxs)
  rw [activateTrigger]
  split
  · rename_i message u heach
    rw [heach] at hcrons
    exact hcrons
  · rename_i u heach
    rw [heach] at hcrons
    split
    · exact hcrons
    · exact hcrons
    · refine ⟨hcrons.active, ?_, hcrons.closed, hcrons.crons⟩
      have htriggered : u.triggered = s.triggered ++ t.2 := hcrons.triggered
      simp only [Outcome.state_returned, htriggered, List.append_assoc]

variable (cronJob s w)

theorem triggering_each :
    Triggering w s (Outcome.each (activateTrigger cronJob w) (s, []) w.triggerNodes).state :=
  Outcome.each_invariant (I := Triggering w s)
    (fun node _ _ ht => triggering_activateTrigger ht node)
    ⟨rfl, (List.append_nil _).symm, rfl, fun _ _ => rfl⟩

theorem onlyCrons_pollers :
    OnlyCrons w.id s (Outcome.each (activatePoller cronJob w) s w.pollNodes).state :=
  Outcome.each_invariant (I := OnlyCrons w.id s)
    (fun node _ _ ht => ht.trans (onlyCrons_activatePoller node)) (.refl _ s)

variable {cronJob s w} {e : WorkflowActivationError}

theorem node_activateTrigger {t' : ActiveWorkflows × List ITriggerResponse} {node : TriggerNode} (h : activateTrigger cronJob w t node = .threw e t') :
    e.node = .trigger node := by
  rw [activateTrigger] at h
  split at h
  · cases h
    rfl
  · split at h
    · cases h
      rfl
    · cases h
    · cases h

theorem node_activatePoller {t t' : ActiveWorkflows} {node : PollNode} (h : activatePoller cronJob w t node = .threw e t') :
    e.node = .poll node := by
  rw [activatePoller] at h
  rcases hcall : activatePolling cronJob w t node with u | ⟨message, u⟩
  · rw [hcall] at h
    cases h
  · rw [hcall] at h
    cases h
    rfl

/-- What `add` leaves of the workflow `w` it activates in state `s`, whether it
returns or throws. -/
structure AddSpec (s : ActiveWorkflows) (w : ActivatedWorkflow)
    (out : Outcome WorkflowActivationError ActiveWorkflows) : Prop where
  others : ∀ id ≠ w.id, out.state.activeWorkflows.get? id = s.activeWorkflows.get? id ∧
    out.state.cronsByWorkflow.get? id = s.cronsByWorkflow.get? id
  closed : out.state.closed = s.closed
  returned : ∀ s', out = .returned s' →
    ∃ responses, s'.triggered = s.triggered ++ responses ∧ Recorded s' w.id responses
  threw : ∀ e s', out = .threw e s' →
    (∃ node ∈ w.triggerNodes, e.node = .trigger node ∧ s'.activeWorkflows = s.activeWorkflows) ∨
    ∃ node ∈ w.pollNodes, e.node = .poll node ∧
      ∃ responses, s'.triggered = s.triggered ++ responses ∧
        if responses = [] then s'.isActive w.id = false else Recorded s' w.id responses

/-- All or nothing: where `add` throws, no response is left unclosed, no cron of
the workflow that was not there before is registered, and it is not active. -/
structure AllOrNothing (s : ActiveWorkflows) (w : ActivatedWorkflow)
    (out : Outcome WorkflowActivationError ActiveWorkflows) : Prop where
  returned : ∀ s', out = .returned s' →
    ∃ responses, s'.triggered = s.triggered ++ responses ∧ Recorded s' w.id responses
  threw : ∀ e s', out = .threw e s' →
    (∃ responses, s'.triggered = s.triggered ++ responses ∧
      s'.closed = s.closed ++ closeCalls responses) ∧
    s'.cronsByWorkflow.get? w.id = s.cronsByWorkflow.get? w.id ∧ s'.isActive w.id = false

end Calls

def failingPoll : ActivatedWorkflow where
  id := "w"
  timezone := "UTC"
  triggerNodes := [{ id := "t", result := .ok (some { id := 0, closeFunction := some .closes }) }]
  pollNodes := [{ id := "p", pollTimes := .ok [(.everyHour 5, 0, 0)], firstPoll := .error "401" }]

end ActiveWorkflows

end N8n
