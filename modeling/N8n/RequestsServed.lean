/-
The node that made a request is resumed after all its actions, with their
results.

The results travel by index: a request reserves a slot of `runData` for each
action, and the item the requesting node is resumed with says which slots to
read.  While this item is on the stack, every action has an item above it or
was executed in its slot (`Waits`), which each round keeps (`Waits.round`).

* `served_of_asks` — **in the v1 order, for nodes with one main input, the node
  is resumed after all its actions and gets one response for each, as long as
  no requested node is skipped, returns `null` or is lost itself, and the
  resumed node is not retried**.
-/
import N8n.RoundChanges

namespace N8n

section Property

variable (env : ExecutionEnvironment)

/-- The round of `s` executes the node of an item and ends in a request. -/
structure Asks (s t : LoopState) (rest : List IExecuteData) (executionData : IExecuteData)
    (node : INode) (runIndex : ℕ) : Prop where
  taken : ∃ item, s.ed.nodeExecutionStack = item :: rest ∧
    intake env (s.taken rest) item = .execute executionData node runIndex
  tries : ∃ u, runTries env executionData node runIndex (s.taken rest) = (u, .requested) ∧
    u.loop = t

/-- A round that executes the node of an action in its slot and goes on with
the task it recorded there. -/
structure Executes (a : SubNodeExecutionDataAction) (s t : LoopState) (task : ITaskData) : Prop where
  executed : ∃ item rest executionData node, s.ed.nodeExecutionStack = item :: rest ∧
    intake env (s.taken rest) item = .execute executionData node a.runIndex ∧
    node.name = a.nodeName ∧
    (runTries env executionData node a.runIndex (s.taken rest)).2 = .done ∧
    round env s item rest = .continued t
  task : taskAt t.ed.runData a.nodeName a.runIndex = some task

/-- The task data of the action comes from a round between `s` and `t`. -/
def Executed (s t : LoopState) (a : SubNodeExecutionDataAction) (task : ITaskData) : Prop :=
  ∃ u v, Rounds env s u ∧ Executes env a u v task ∧ Rounds env v t

/-- The response answers the action with the task data of its run. -/
structure Answers (s t : LoopState) (a : SubNodeExecutionDataAction)
    (response : ExecuteNodeResult) : Prop where
  action : response.action = a.action
  executed : Executed env s t a response.data

variable (Cond : IExecuteData → LoopState → Prop)

/-- The rounds before the one that takes the item, all of which meet a
condition. -/
def Meanwhile (item : IExecuteData) : LoopState → LoopState → Prop :=
  Relation.ReflTransGen fun a b =>
    (Cond item a ∧ a.ed.nodeExecutionStack.head? ≠ some item) ∧ Round env a b

/-- What becomes of the request that the round from `s` to `t` made, where
`item` resumes the requesting node. -/
structure RequestServed (s t : LoopState) (item : IExecuteData) (request : EngineRequest) :
    Prop where
  /-- There is one slot for each action, in the order of the request. -/
  actions : item.subActions.map (·.action) = request.actions
  /-- No two actions share a slot, and none has a slot in use. -/
  slots : (item.subActions.map (·.slot)).Nodup
  fresh : ∀ a ∈ item.subActions, taskAt s.ed.runData a.nodeName a.runIndex = none
  /-- No earlier run of a requested node is written over. -/
  earlier : ∀ u, Meanwhile env Cond item t u → ∀ a ∈ item.subActions, ∀ i task,
    taskAt s.ed.runData a.nodeName i = some task → taskAt u.ed.runData a.nodeName i = some task
  /-- When the node is resumed, all its actions have been executed, and it gets
  one response for each. -/
  answered : ∀ u rest, Meanwhile env Cond item t u → u.ed.nodeExecutionStack = item :: rest →
    Cond item u → ∃ responses, List.Forall₂ (Answers env t u) item.subActions responses ∧
      ∀ call ∈ (round env u item rest).state.calls.drop u.calls.length,
        call.subNodeExecutionResults = some ⟨responses, request.metadata⟩

/-- The request of the last call of the round is served by whatever item the
round put on the stack to resume the requesting node. -/
def Served (s t : LoopState) (rest : List IExecuteData) : Prop :=
  ∀ item ∈ t.ed.nodeExecutionStack.diff rest, item.metadata.bind (·.subNodeExecutionData) ≠ none →
    ∃ request, (env.runNode (t.calls.length - 1)).result = .request request ∧
      RequestServed env Cond s t item request

/-- The condition on the request: the v1 order, unless there are no actions,
and nodes with one main input. -/
structure Servable (s t : LoopState) (node : INode) : Prop where
  order : env.workflow.isLegacyExecutionOrder = false ∨
    ∀ request, (env.runNode (t.calls.length - 1)).result = .request request → request.actions = []
  single : SingleRequests env node s t

/-- The condition on a round while the item waits: a requested node passes the
filter of the run, does not end without data, and has a parent to be resumed
with; the resumed node is not retried. -/
structure Undisturbed (item : IExecuteData) (s : LoopState) : Prop where
  filter : ∀ top rest, s.ed.nodeExecutionStack = top :: rest → ∀ a ∈ item.subActions,
    IsFor top a → s.ed.runNodeFilter.any (a.nodeName ∉ ·) = false
  data : ∀ top rest executionData node runIndex, s.ed.nodeExecutionStack = top :: rest →
    (∃ a ∈ item.subActions, IsFor top a) →
    intake env (s.taken rest) top = .execute executionData node runIndex →
    (runTries env executionData node runIndex (s.taken rest)).2 ≠ .nullData ∧
      (resumeParent executionData).isSome
  once : ∀ rest executionData node runIndex, s.ed.nodeExecutionStack = item :: rest →
    intake env (s.taken rest) item = .execute executionData node runIndex →
    NotRetried env executionData node runIndex (s.taken rest)

end Property

section Waiting

variable {env : ExecutionEnvironment}

/-- The requested nodes are in the workflow and have one main input. -/
def Known (w : Workflow) (item : IExecuteData) : Prop :=
  ∀ a ∈ item.subActions, w.numberOfInputs a.nodeName ≤ 1 ∧ ∃ node, w.getNode a.nodeName = some node

/-- The action has an item among those above, or was executed in its slot. -/
def Pending (env : ExecutionEnvironment) (t u : LoopState) (above : List IExecuteData)
    (a : SubNodeExecutionDataAction) : Prop :=
  (∃ x ∈ above, IsFor x a ∧ (x.data.get? .main).isSome) ∨
    ∃ task, taskAt u.ed.runData a.nodeName a.runIndex = some task ∧ Executed env t u a task

/-- **The invariant of the rounds in which the item waits.**  The round from
`s` to `t` made the request. -/
structure Waits (env : ExecutionEnvironment) (s t : LoopState) (item : IExecuteData)
    (u : LoopState) : Prop where
  rounds : Rounds env t u
  kept : RunsKept NothingWritten s.ed.runData u.ed.runData
  reserved : RunsKept (fun _ _ => True) t.ed.runData u.ed.runData
  stack : ∃ above rest, u.ed.nodeExecutionStack = above ++ item :: rest ∧
    (∀ x ∈ above, Newcomer NothingWritten s.ed.runData x) ∧
    (∀ x ∈ above, WaitsForFree t.ed.runData x) ∧
    ∀ a ∈ item.subActions, Pending env t u above a

variable {s t u v : LoopState} {item top executionData : IExecuteData}
  {rest above : List IExecuteData} {node : INode} {runIndex : ℕ} {a : SubNodeExecutionDataAction}

theorem Executed.later {task : ITaskData} (h : Executed env t u a task) (hround : Round env u v) :
    Executed env t v a task := by
  obtain ⟨p, q, hp, hexecutes, hq⟩ := h
  exact ⟨p, q, hp, hexecutes, hq.tail hround⟩

section

variable (hintake : intake env s top = .execute executionData node runIndex)
include hintake

theorem free_of_runIndex_none
    (hrun : top.runIndex = none) : taskAt s.ed.runData node.name runIndex = none := by
  obtain ⟨-, -, hcurrent⟩ := intake_execute hintake
  have hlength : runIndex = ((s.ed.runData.get? node.name).getD []).length := by
    rw [hcurrent, currentRunIndex, hrun, Option.getD_none]
    cases s.ed.runData.get? node.name <;> rfl
  rw [taskAt, hlength, List.getElem?_eq_none (le_refl _)]

theorem runIndex_of_some {i : ℕ}
    (hrun : top.runIndex = some i) : top.node = some node ∧ runIndex = i := by
  obtain ⟨hnode, -, hcurrent⟩ := intake_execute hintake
  rw [currentRunIndex, hrun, Option.getD_some] at hcurrent
  exact ⟨hnode, hcurrent⟩

theorem slot_of_isFor
    (h : IsFor top a) : node.name = a.nodeName ∧ runIndex = a.runIndex := by
  obtain ⟨hnode, hindex⟩ := runIndex_of_some hintake h.runIndex
  obtain ⟨n, hn, hname⟩ := h.node
  rw [hnode] at hn
  cases hn
  exact ⟨hname, hindex⟩

theorem isFor_of_slot
    (hslot : OwnSlot node runIndex a.nodeName a.runIndex)
    (hused : (taskAt s.ed.runData a.nodeName a.runIndex).isSome) : IsFor top a := by
  obtain ⟨hname, hindex⟩ := hslot
  rcases hrun : top.runIndex with _ | i
  · rw [hname, hindex, free_of_runIndex_none hintake hrun] at hused
    cases hused
  · obtain ⟨hnode, hcurrent⟩ := runIndex_of_some hintake hrun
    exact ⟨⟨node, hnode, hname.symm⟩, by rw [hrun, hindex, hcurrent]⟩

end

theorem Newcomer.free {runData : IRunData} (h : Newcomer NothingWritten runData top)
    (hkept : RunsKept NothingWritten runData s.ed.runData)
    (hintake : intake env s top = .execute executionData node runIndex) :
    taskAt runData node.name runIndex = none := by
  rcases hrun : top.runIndex with _ | i
  · exact hkept.fresh (free_of_runIndex_none hintake hrun)
  · obtain ⟨hnode, rfl⟩ := runIndex_of_some hintake hrun
    exact h.slot node runIndex hnode hrun id

theorem pending_of_isFor (hv1 : env.workflow.isLegacyExecutionOrder = false)
    (hnamed : env.workflow.Named) (hknown : Known env.workflow item)
    (hcond : Undisturbed env item u) (ha : a ∈ item.subActions)
    (hstack : u.ed.nodeExecutionStack = top :: rest) (htop : IsFor top a)
    (hintake : intake env (u.taken rest) top = .execute executionData node runIndex)
    (hround : round env u top rest = .continued v) (hrounds : Rounds env t u)
    (hused : (taskAt v.ed.runData a.nodeName a.runIndex).isSome)
    {items : List IExecuteData} (hv : v.ed.nodeExecutionStack = items ++ rest) :
    Pending env t v (items ++ above) a := by
  obtain ⟨hname, rfl⟩ := slot_of_isFor hintake htop
  obtain ⟨hnotNull, hparent⟩ := hcond.data top rest executionData node a.runIndex hstack
    ⟨a, ha, htop⟩ hintake
  rcases htries : runTries env executionData node a.runIndex (u.taken rest) with ⟨w, triesEnd⟩
  cases triesEnd with
  | nullData =>
    rw [htries] at hnotNull
    exact absurd rfl hnotNull
  | requested =>
    obtain ⟨hsingle, n, hn⟩ := hknown a ha
    rw [← hname] at hsingle hn
    obtain ⟨items', y, hy, hynode, hyindex, hymain, hw⟩ :=
      exists_resumed_runTries hv1 hnamed hsingle hn hparent htries
    have hvw : v = w.loop := by
      simp only [round, hintake, executeItem, htries] at hround
      exact (RoundEnd.continued.inj hround).symm
    have hitems : items = items' := by
      rw [hvw, hw] at hv
      exact (List.append_cancel_right hv).symm
    refine Or.inl ⟨y, List.mem_append_left _ (hitems ▸ hy), ⟨⟨n, hynode, ?_⟩, hyindex⟩, hymain⟩
    rw [hnamed _ _ hn, hname]
  | done =>
    obtain ⟨task, htask⟩ := Option.isSome_iff_exists.mp hused
    have hexecutes : Executes env a u v task :=
      ⟨⟨top, rest, executionData, node, hstack, hintake, hname, by rw [htries], hround⟩, htask⟩
    exact Or.inr ⟨task, htask, u, v, hrounds, hexecutes, .refl⟩

theorem Pending.keep (h : Pending env t u (top :: above) a)
    (htop : ¬ (IsFor top a ∧ (top.data.get? .main).isSome)) (hround : Round env u v)
    (hkept : ∀ task, taskAt u.ed.runData a.nodeName a.runIndex = some task →
      taskAt v.ed.runData a.nodeName a.runIndex = some task) (items : List IExecuteData) :
    Pending env t v (items ++ above) a := by
  rcases h with ⟨x, hx, hfor, hmain⟩ | ⟨task, htask, hexecuted⟩
  · rcases List.mem_cons.mp hx with rfl | hx
    · exact absurd ⟨hfor, hmain⟩ htop
    · exact Or.inl ⟨x, List.mem_append_right _ hx, hfor, hmain⟩
  · exact Or.inr ⟨task, hkept task htask, hexecuted.later hround⟩

/-- **Each round keeps the invariant**, until the item is taken. -/
theorem Waits.round (hv1 : env.workflow.isLegacyExecutionOrder = false)
    (hnamed : env.workflow.Named) (hknown : Known env.workflow item)
    (hreserved : ∀ a ∈ item.subActions, (taskAt t.ed.runData a.nodeName a.runIndex).isSome)
    (h : Waits env s t item u) (hcond : Undisturbed env item u)
    (hhead : u.ed.nodeExecutionStack.head? ≠ some item) (hround : Round env u v) :
    Waits env s t item v := by
  obtain ⟨above, rest, hstack, hnew, hfree, hpending⟩ := h.stack
  obtain ⟨top, below, htop, hcontinued⟩ := id hround
  rcases above with _ | ⟨x, above⟩
  · rw [hstack] at hhead
    exact absurd rfl hhead
  rw [hstack, List.cons_append, List.cons.injEq] at htop
  obtain ⟨rfl, rfl⟩ := htop
  obtain ⟨hnewTop, hnew⟩ := List.forall_mem_cons.mp hnew
  obtain ⟨-, hfree⟩ := List.forall_mem_cons.mp hfree
  rcases hintake : intake env (u.taken (above ++ item :: rest)) x
    with ⟨executionData, node, runIndex⟩ | w | e
  · -- the node of the item on top is executed, in a slot that was free at first
    have hprogress := progress_round hv1 hnamed (by simp) hintake hcontinued
    obtain ⟨items, hitems, hv⟩ := hprogress.pushed
    have hown : taskAt s.ed.runData node.name runIndex = none :=
      hnewTop.free (s := u.taken (above ++ item :: rest)) h.kept hintake
    have hkept : RunsKept (OwnSlot node runIndex) u.ed.runData v.ed.runData := hprogress.kept
    refine ⟨h.rounds.tail hround, ⟨fun {n i task} _ htask => ?_, fun hsome =>
      hkept.isSome (h.kept.isSome hsome)⟩, h.reserved.trans (hkept.mono fun _ _ _ => trivial),
      items ++ above, rest, ?_, fun y hy => ?_, fun y hy => ?_, fun a ha => ?_⟩
    · refine hkept.same (fun hslot => ?_) (h.kept.same id htask)
      obtain ⟨rfl, rfl⟩ := hslot
      rw [hown] at htask
      cases htask
    · rw [hv]
      exact (List.append_assoc _ _ _).symm
    · rcases List.mem_append.mp hy with hy | hy
      · refine ⟨fun a ha => h.kept.fresh ((hitems y hy).waits a ha), fun n i hn hi _ => ?_⟩
        by_cases hslot : OwnSlot node runIndex n.name i
        · obtain ⟨hname, rfl⟩ := hslot
          rw [hname]
          exact hown
        · exact h.kept.fresh ((hitems y hy).slot n i hn hi hslot)
      · exact hnew y hy
    · rcases List.mem_append.mp hy with hy | hy
      · exact fun a ha => h.reserved.fresh ((hitems y hy).waits a ha)
      · exact hfree y hy
    · have hused := h.reserved.isSome (hreserved a ha)
      by_cases hfor : IsFor x a
      · exact pending_of_isFor hv1 hnamed hknown hcond ha hstack hfor hintake hcontinued h.rounds
          (hkept.isSome hused) hv
      · refine (hpending a ha).keep (fun hmain => hfor hmain.1) hround (fun task htask => ?_) items
        refine hkept.same (fun hslot => hfor ?_) htask
        exact isFor_of_slot hintake hslot hused
  · -- it is skipped, so it is not the item of an action
    obtain ⟨hruns, items, hw⟩ := intake_skip hintake
    have hvw : v = w := by
      rw [N8n.round, hintake] at hcontinued
      exact (RoundEnd.continued.inj hcontinued).symm
    have hv : v.ed.runData = u.ed.runData := by
      rw [hvw]
      exact hruns
    refine ⟨h.rounds.tail hround, hv ▸ h.kept, hv ▸ h.reserved, above, rest ++ items, ?_, hnew,
      hfree, fun a ha => ?_⟩
    · rw [hvw, hw]
      exact List.append_assoc _ _ _
    · refine (hpending a ha).keep (fun hmain => ?_) hround (fun task htask => by rw [hv]; exact htask)
        []
      refine intake_ne_skip hv1 hmain.2 (fun n hn => ?_) hintake
      obtain ⟨n', hn', hname⟩ := hmain.1.node
      rw [hn] at hn'
      cases hn'
      rw [hname]
      exact hcond.filter x _ hstack a ha hmain.1
  · rw [N8n.round, hintake] at hcontinued
    cases hcontinued

theorem Waits.meanwhile (hv1 : env.workflow.isLegacyExecutionOrder = false)
    (hnamed : env.workflow.Named) (hknown : Known env.workflow item)
    (hreserved : ∀ a ∈ item.subActions, (taskAt t.ed.runData a.nodeName a.runIndex).isSome)
    (h : Waits env s t item t) (hmeanwhile : Meanwhile env (Undisturbed env) item t u) :
    Waits env s t item u := by
  induction hmeanwhile with
  | refl => exact h
  | tail _ hstep ih => exact ih.round hv1 hnamed hknown hreserved hstep.1.1 hstep.1.2 hstep.2

theorem Waits.executed (h : Waits env s t item u)
    (hreserved : ∀ a ∈ item.subActions, (taskAt t.ed.runData a.nodeName a.runIndex).isSome)
    (hstack : u.ed.nodeExecutionStack = item :: rest) (ha : a ∈ item.subActions) :
    ∃ task, taskAt u.ed.runData a.nodeName a.runIndex = some task ∧ Executed env t u a task := by
  obtain ⟨above, below, habove, -, hfree, hpending⟩ := h.stack
  rcases above with _ | ⟨x, above⟩
  · rcases hpending a ha with ⟨x, hx, -⟩ | hexecuted
    · cases hx
    · exact hexecuted
  · -- no item above waits for a slot reserved by the request
    rw [hstack, List.cons_append, List.cons.injEq] at habove
    have hnone := hfree x List.mem_cons_self a (habove.1 ▸ ha)
    have hsome := hreserved a ha
    rw [hnone] at hsome
    cases hsome

end Waiting

section Responses

variable {env : ExecutionEnvironment} {s t u : LoopState} {item executionData : IExecuteData}
  {rest : List IExecuteData} {node : INode} {runIndex : ℕ}

theorem forall₂_collectResponses {actions : List SubNodeExecutionDataAction}
    (h : ∀ a ∈ actions, ∃ task, taskAt u.ed.runData a.nodeName a.runIndex = some task ∧
      Executed env t u a task) :
    List.Forall₂ (Answers env t u) actions (collectResponses u.ed.runData actions) := by
  induction actions with
  | nil => exact .nil
  | cons a actions ih =>
    obtain ⟨⟨task, htask, hexecuted⟩, hactions⟩ := List.forall_mem_cons.mp h
    have hcollect : collectResponses u.ed.runData (a :: actions)
        = ⟨a.action, task⟩ :: collectResponses u.ed.runData actions := by
      rw [taskAt] at htask
      rw [collectResponses, List.filterMap_cons, htask]
      rfl
    rw [hcollect]
    exact .cons ⟨rfl, hexecuted⟩ (ih hactions)

theorem responses_round {sub : SubNodeExecutionData}
    (hsub : item.metadata.bind (·.subNodeExecutionData) = some sub)
    (hstack : u.ed.nodeExecutionStack = item :: rest) (hcond : Undisturbed env item u) :
    ∀ call ∈ (round env u item rest).state.calls.drop u.calls.length,
      call.subNodeExecutionResults
        = some ⟨collectResponses u.ed.runData sub.actions, sub.metadata⟩ := by
  intro call hcall
  by_cases hexecute : ∃ executionData node runIndex,
      intake env (u.taken rest) item = .execute executionData node runIndex
  · obtain ⟨executionData, node, runIndex, hintake⟩ := hexecute
    obtain ⟨calls, hcalls, hresults⟩ :=
      calls_runTries_once (hcond.once rest executionData node runIndex hstack hintake)
    have hmetadata : executionData.metadata = item.metadata := by
      rw [(intake_execute hintake).2.1]
    rw [calls_round hintake, hcalls] at hcall
    change call ∈ (u.calls ++ calls).drop u.calls.length at hcall
    rw [List.drop_left] at hcall
    rw [hresults call hcall, addResponses, hmetadata, hsub]
    rfl
  · rw [calls_round_of_not_execute fun executionData node runIndex h =>
      hexecute ⟨executionData, node, runIndex, h⟩, List.drop_length] at hcall
    cases hcall

theorem mem_of_mem_diff {stack : List IExecuteData} (above old below : List IExecuteData)
    (hstack : stack = above ++ old ++ below) (h : item ∈ stack.diff old) :
    item ∈ above ++ below := by
  have hdiff : ∀ old : List IExecuteData, (old ++ (above ++ below)).diff old = above ++ below := by
    intro old
    induction old with
    | nil => rfl
    | cons x old ih => rw [List.cons_append, List.diff_cons, List.erase_cons_head, ih]
  have hperm : stack.Perm (old ++ (above ++ below)) := by
    rw [hstack, List.append_assoc]
    exact List.perm_append_comm_assoc above old below
  have hmem := (hperm.diff_right old).mem_iff.mp h
  rw [hdiff] at hmem
  exact hmem

/-- What is on the stack of a state besides what was there before the request
of its last call: the item that resumes the requesting node and those of the
requested ones. -/
structure Pushed (env : ExecutionEnvironment) (s t : LoopState) (rest : List IExecuteData)
    (item : IExecuteData) (request : EngineRequest) (items : List IExecuteData) : Prop where
  kept : RunsKept NothingWritten s.ed.runData t.ed.runData
  actions : item.subActions.map (·.action) = request.actions
  slots : (item.subActions.map (·.slot)).Nodup
  fresh : ∀ a ∈ item.subActions, taskAt s.ed.runData a.nodeName a.runIndex = none
  reserved : ∀ a ∈ item.subActions, (taskAt t.ed.runData a.nodeName a.runIndex).isSome
  known : Known env.workflow item
  metadata : item.metadata.bind (·.subNodeExecutionData) = some ⟨item.subActions, request.metadata⟩
  requested : List.Forall₂ Requested items item.subActions
  stack : t.ed.nodeExecutionStack = if env.workflow.isLegacyExecutionOrder
    then rest ++ item :: items else items.reverse ++ item :: rest

theorem exists_pushed (hnamed : env.workflow.Named)
    (hasks : Asks env s t rest executionData node runIndex) (hsingle : SingleRequests env node s t)
    (hitem : item ∈ t.ed.nodeExecutionStack.diff rest)
    (hsub : item.metadata.bind (·.subNodeExecutionData) ≠ none) :
    ∃ request items, (env.runNode (t.calls.length - 1)).result = .request request ∧
      Pushed env s t rest item request items := by
  obtain ⟨u, htries, rfl⟩ := hasks.tries
  obtain ⟨loop, request, ed, rewire, hkept, hbelow, hlt, hrequests, ht⟩ :=
    requested_runTries (s := s.taken rest) hnamed hsingle htries
  have hcalls : u.loop.calls = loop.calls := by rw [ht]
  have hlt' : s.calls.length < loop.calls.length := hlt
  have hone : SingleInputs env.workflow node request :=
    hsingle (loop.calls.length - 1) request (by omega) (by rw [hcalls]; omega) hrequests.result
  obtain ⟨prepared, hreserved, hruns, hstack⟩ :=
    stack_handleEngineRequest hnamed hone hrequests.handled
  have hed : u.loop.ed = ed := by rw [ht]
  have hbelow' : loop.ed.nodeExecutionStack = rest := hbelow
  dsimp only at hruns hstack
  rw [← hed] at hruns hstack
  rcases hstack with hstack | ⟨parentNode, items, hitems, heq⟩
  · -- an ignored request pushes nothing
    have hmem := mem_of_mem_diff [] rest [] (by rw [hstack, hbelow']; simp) hitem
    cases hmem
  · have hstack : u.loop.ed.nodeExecutionStack
        = if env.workflow.isLegacyExecutionOrder then rest ++ ((resumedItem env.workflow node
            runIndex executionData request prepared.actions parentNode).toList ++ items)
          else ((resumedItem env.workflow node runIndex executionData request prepared.actions
            parentNode).toList ++ items).reverse ++ rest := by
      rw [heq, ← hbelow']
      rfl
    have hmem : item ∈ (resumedItem env.workflow node runIndex executionData request
        prepared.actions parentNode).toList ++ items := by
      split at hstack
      · have hmem := mem_of_mem_diff [] rest _ hstack hitem
        exact hmem
      · have hmem := mem_of_mem_diff _ rest [] (by rw [hstack, List.append_nil]) hitem
        rw [List.append_nil, List.mem_reverse] at hmem
        exact hmem
    -- the requested nodes wait for nothing, so it is the requesting one
    have hresumed : resumedItem env.workflow node runIndex executionData request prepared.actions
        parentNode = some item := by
      rcases List.mem_append.mp hmem with hmem | hmem
      · exact Option.mem_toList.mp hmem
      · obtain ⟨a, -, hfor⟩ := exists_mem_of_forall₂ hitems hmem
        exact absurd hfor.metadata hsub
    rw [hresumed, Option.toList_some, List.singleton_append] at hstack
    obtain ⟨n, -, rfl⟩ := Option.map_eq_some_iff.mp hresumed
    have hactions : IExecuteData.subActions ((resumingNode runIndex executionData request
        prepared.actions node.name parentNode).delivery.item n) = prepared.actions := rfl
    have hfree : RunsKept NothingWritten s.ed.runData loop.ed.runData := hkept
    refine ⟨request, items, by rw [hcalls]; exact hrequests.result, ?_, ?_, ?_, ?_, ?_, ?_, rfl, ?_, ?_⟩
    · rw [hruns]
      exact hfree.trans hreserved.kept
    · rw [hactions]
      exact hreserved.actions
    · rw [hactions]
      exact hreserved.nodup
    · rw [hactions]
      exact fun a ha => hfree.fresh (hreserved.fresh a ha)
    · rw [hactions, hruns]
      exact hreserved.reserved
    · intro a ha
      rw [hactions] at ha
      obtain ⟨m, -, hfor⟩ := exists_mem_of_forall₂ hreserved.nodes.flip ha
      exact ⟨hreserved.single hone a ha, hfor.known⟩
    · rw [hactions]
      exact hitems
    · rw [hstack]
      split
      · rfl
      · rw [List.reverse_cons, List.append_assoc]
        rfl

/-- **The requesting node is resumed after all its actions and gets one response
for each, with the task data of its run**, in the v1 order and for nodes with
one main input, through rounds that skip, lose and retry none of them. -/
theorem served_of_asks (env : ExecutionEnvironment) (hnamed : env.workflow.Named)
    (hasks : Asks env s t rest executionData node runIndex) (hservable : Servable env s t node) :
    Served env (Undisturbed env) s t rest := by
  intro item hitem hsub
  obtain ⟨request, items, hresult, hpushed⟩ :=
    exists_pushed hnamed hasks hservable.single hitem hsub
  -- through the rounds in between: the earlier runs, and the actions that are executed
  have hbetween : ∀ u, Meanwhile env (Undisturbed env) item t u → ∀ a ∈ item.subActions,
      RunsKept NothingWritten s.ed.runData u.ed.runData ∧
      ∀ rest', u.ed.nodeExecutionStack = item :: rest' →
        ∃ task, taskAt u.ed.runData a.nodeName a.runIndex = some task ∧ Executed env t u a task := by
    intro u hmeanwhile a ha
    rcases hservable.order with hv1 | hnone
    · have hstart : Waits env s t item t := by
        refine ⟨.refl, hpushed.kept, .refl _ _, items.reverse, rest, ?_, ?_, ?_, ?_⟩
        · rw [hpushed.stack, hv1, if_neg Bool.false_ne_true]
        · intro x hx
          obtain ⟨b, hb, hfor⟩ := exists_mem_of_forall₂ hpushed.requested (List.mem_reverse.mp hx)
          refine ⟨waitsForFree_of_metadata hfor.metadata, fun n i hn hi _ => ?_⟩
          obtain ⟨n', hn', hname⟩ := hfor.isFor.node
          rw [hn] at hn'
          cases hn'
          rw [hfor.isFor.runIndex] at hi
          cases hi
          rw [hname]
          exact hpushed.fresh b hb
        · intro x hx
          obtain ⟨b, -, hfor⟩ := exists_mem_of_forall₂ hpushed.requested (List.mem_reverse.mp hx)
          exact waitsForFree_of_metadata hfor.metadata
        · intro b hb
          obtain ⟨x, hx, hfor⟩ := exists_mem_of_forall₂ hpushed.requested.flip hb
          exact Or.inl ⟨x, List.mem_reverse.mpr hx, hfor.isFor, hfor.main⟩
      have hwaits := hstart.meanwhile hv1 hnamed hpushed.known hpushed.reserved hmeanwhile
      exact ⟨hwaits.kept, fun rest' hstack => hwaits.executed hpushed.reserved hstack ha⟩
    · -- a request without actions
      have hactions := hpushed.actions
      rw [hnone request hresult, List.map_eq_nil_iff] at hactions
      rw [hactions] at ha
      cases ha
  refine ⟨request, hresult, hpushed.actions, hpushed.slots, hpushed.fresh, ?_, ?_⟩
  · intro u hmeanwhile a ha i task htask
    exact (hbetween u hmeanwhile a ha).1.same id htask
  · intro u rest' hmeanwhile hstack hcond
    refine ⟨collectResponses u.ed.runData item.subActions, forall₂_collectResponses fun a ha =>
      (hbetween u hmeanwhile a ha).2 rest' hstack, ?_⟩
    exact responses_round hpushed.metadata hstack hcond

end Responses

def agentNode : INode := { name := "Agent" }

def toolNode : INode := { name := "Tool" }

variable (order : Option ExecutionOrder)

def agentWorkflow : Workflow where
  nodes := (Dict.empty.set "Agent" agentNode).set "Tool" toolNode
  settings := ⟨order⟩

/-- The first call asks for the tool, the others return an item. -/
def agentEnvironment : ExecutionEnvironment where
  workflow := agentWorkflow order
  runNode i := if i = 0 then ⟨.request { actions := [⟨"Tool", .aiTool, "call", [], {}⟩] }, false⟩
    else ⟨.returned (some [.data [{}]]), false⟩

def agentItem : IExecuteData where
  node := some agentNode
  data := mainOnly [.data [{}]]
  source := some (mainOnly [.data ⟨"Start", some 0, some 0⟩])

def agentOnStack : LoopState where
  ed := { nodeExecutionStack := [agentItem] }

def agentAsked : LoopState :=
  (round (agentEnvironment order) agentOnStack agentItem []).state

theorem asks_agent : Asks (agentEnvironment order) agentOnStack (agentAsked order) []
      { agentItem with data := updatePairedItems agentItem } agentNode 0 :=
  ⟨⟨agentItem, rfl, rfl⟩, _, rfl, rfl⟩

def agentResumed : IExecuteData where
  node := some agentNode
  data := mainOnly [.data [{ pairedItem := some (.origin { item := 0 }) }]]
  source := some (mainOnly [.data ⟨"Start", some 0, some 0⟩])
  runIndex := some 0
  metadata := some {
    nodeWasResumed := true
    subNodeExecutionData := some {
      actions := [⟨"Tool", 0, ⟨"Tool", .aiTool, "call", [], {}⟩⟩]
      metadata := .object [] } }

def toolItem : IExecuteData where
  node := some toolNode
  data := mainOnly [.data [{
    json := .object [("toolCallId", .string "call")]
    pairedItem := some (.origin {
      item := 0
      input := some 0
      sourceOverwrite := some ⟨"Start", some 0, some 0⟩ }) }]]
  source := some (mainOnly [.data ⟨"Agent", some 0, some 0⟩])
  runIndex := some 0
  metadata := some {
    preserveSourceOverwrite := true
    preservedSourceOverwrite := some ⟨"Start", some 0, some 0⟩ }

theorem stack_agentAsked : (agentAsked none).ed.nodeExecutionStack = [agentResumed, toolItem] ∧
    (agentAsked (some .v1)).ed.nodeExecutionStack = [toolItem, agentResumed] :=
  ⟨rfl, rfl⟩

/-- **In the v1 order the agent is resumed after its tool**, with its result. -/
theorem served_agent : agentResumed ∈ (agentAsked (some .v1)).ed.nodeExecutionStack.diff [] ∧
    Served (agentEnvironment (some .v1)) (Undisturbed (agentEnvironment (some .v1))) agentOnStack
      (agentAsked (some .v1)) [] := by
  have hconstruct : Workflow.construct [agentNode, toolNode] Dict.empty ⟨some .v1⟩
      = .ok (agentEnvironment (some .v1)).workflow := rfl
  have hnamed := Workflow.named_construct hconstruct
  refine ⟨by decide, served_of_asks _ hnamed (asks_agent _) ⟨Or.inl rfl, ?_⟩⟩
  -- no node has a main input
  have hinputs : ∀ name, (agentWorkflow (some .v1)).numberOfInputs name ≤ 1 := by
    intro name
    rw [Workflow.numberOfInputs, Workflow.mainInputs, agentWorkflow, Dict.get?_empty]
    exact Nat.zero_le 1
  exact fun _ _ _ _ _ => ⟨hinputs _, fun _ _ => hinputs _⟩

/-- The states in the legacy order after the agent was resumed and after its
tool was executed. -/
def agentAgain : LoopState :=
  (round (agentEnvironment none) (agentAsked none) agentResumed [toolItem]).state

def toolLast : LoopState := (round (agentEnvironment none) agentAgain toolItem []).state

theorem round_agentResumed :
    round (agentEnvironment none) (agentAsked none) agentResumed [toolItem]
      = .continued agentAgain := RoundEnd.eq_continued (by decide)

theorem stack_agentAgain : agentAgain.ed.nodeExecutionStack = [toolItem] := by decide

theorem round_toolItem :
    round (agentEnvironment none) agentAgain toolItem [] = .continued toolLast :=
  RoundEnd.eq_continued (by decide)

theorem stack_toolLast : toolLast.ed.nodeExecutionStack = [] := by decide

theorem rounds_agentAsked {s : LoopState} : Rounds (agentEnvironment none) (agentAsked none) s ↔
    s = agentAsked none ∨ s = agentAgain ∨ s = toolLast := by
  rw [rounds_iff stack_agentAsked.1 round_agentResumed, rounds_iff stack_agentAgain round_toolItem,
    rounds_of_nil stack_toolLast]

/-- **In the legacy order the agent is resumed before its tool**, and is handed
the entry that only reserves the slot. -/
theorem not_served_legacy : Asks (agentEnvironment none) agentOnStack (agentAsked none) []
      { agentItem with data := updatePairedItems agentItem } agentNode 0 ∧
    ¬ Served (agentEnvironment none) (fun _ _ => True) agentOnStack (agentAsked none) [] := by
  refine ⟨asks_agent none, fun h => ?_⟩
  obtain ⟨request, -, hserved⟩ := h agentResumed (by decide) (by decide)
  obtain ⟨responses, hresponses, -⟩ :=
    hserved.answered (agentAsked none) [toolItem] .refl stack_agentAsked.1 trivial
  have hactions : agentResumed.subActions = [⟨"Tool", 0, ⟨"Tool", .aiTool, "call", [], {}⟩⟩] := rfl
  rw [hactions] at hresponses
  rcases hresponses with _ | ⟨⟨-, u, v, hu, ⟨hexecuted, -⟩, hv⟩, -⟩
  obtain ⟨item, rest, executionData, node, hstack, hintake, hname, -, hround⟩ := hexecuted
  have hnode := (intake_execute hintake).1
  rcases rounds_agentAsked.mp hu with rfl | rfl | rfl
  · -- the first round is that of the agent
    rw [stack_agentAsked.1] at hstack
    cases hstack
    rw [← Option.some_inj.mp hnode] at hname
    exact absurd hname (by decide)
  · -- the second one is that of the tool, and no other follows it
    rw [stack_agentAgain] at hstack
    cases hstack
    rw [round_toolItem] at hround
    cases hround
    have hend := (rounds_of_nil stack_toolLast).mp hv
    have hstack := stack_agentAsked.1
    rw [hend, stack_toolLast] at hstack
    cases hstack
  · rw [stack_toolLast] at hstack
    cases hstack

end N8n
