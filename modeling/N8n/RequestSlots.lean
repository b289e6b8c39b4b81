/-
The slots of `runData` that a request reserves, and the items it pushes.

An action is known by a slot, the name of its node and a run index.  A slot is
reserved by an entry put there before the node runs, and the results are read
from it when the requesting node is resumed.

* `reserved_prepareRequestedNodes` — **the slots of the actions are fresh and
  pairwise distinct, and no earlier entry changes**.
-/
import N8n.EngineRequest

namespace N8n

def taskAt (runData : IRunData) (nodeName : String) (runIndex : ℕ) : Option ITaskData :=
  ((runData.get? nodeName).getD [])[runIndex]?

/-- Every entry of `a`, apart from those at the slots in `written`, stands
unchanged in `b`, and none of them is gone. -/
structure RunsKept (written : String → ℕ → Prop) (a b : IRunData) : Prop where
  same : ∀ {nodeName runIndex task}, ¬ written nodeName runIndex →
    taskAt a nodeName runIndex = some task → taskAt b nodeName runIndex = some task
  isSome : ∀ {nodeName runIndex}, (taskAt a nodeName runIndex).isSome →
    (taskAt b nodeName runIndex).isSome

section RunsKept

variable {written : String → ℕ → Prop} {a b c : IRunData}

theorem RunsKept.refl (written : String → ℕ → Prop) (a : IRunData) : RunsKept written a a :=
  ⟨fun _ h => h, fun h => h⟩

theorem RunsKept.trans (hab : RunsKept written a b) (hbc : RunsKept written b c) :
    RunsKept written a c :=
  ⟨fun hnot h => hbc.same hnot (hab.same hnot h), fun h => hbc.isSome (hab.isSome h)⟩

theorem RunsKept.mono {written' : String → ℕ → Prop} (h : RunsKept written a b)
    (hw : ∀ nodeName runIndex, written nodeName runIndex → written' nodeName runIndex) :
    RunsKept written' a b :=
  ⟨fun hnot => h.same fun hwritten => hnot (hw _ _ hwritten), h.isSome⟩

theorem RunsKept.fresh (h : RunsKept written a b) {nodeName : String} {runIndex : ℕ}
    (hfree : taskAt b nodeName runIndex = none) : taskAt a nodeName runIndex = none := by
  by_contra hsome
  have hb := h.isSome (Option.isSome_iff_ne_none.mpr hsome)
  rw [hfree] at hb
  cases hb

end RunsKept

/-- No entry is written over. -/
abbrev NothingWritten : String → ℕ → Prop := fun _ _ => False

theorem taskAt_set (runData : IRunData) (name : String) (runs : List ITaskData)
    (nodeName : String) (runIndex : ℕ) :
    taskAt (runData.set name runs) nodeName runIndex
      = if nodeName = name then runs[runIndex]? else taskAt runData nodeName runIndex := by
  rw [taskAt, Dict.get?_set]
  split
  · rfl
  · rfl

theorem runsKept_append (runData : IRunData) (name : String) (tasks : List ITaskData) :
    RunsKept NothingWritten runData
      (runData.set name (((runData.get? name).getD []) ++ tasks)) := by
  have hsame : ∀ {nodeName runIndex task}, taskAt runData nodeName runIndex = some task →
      taskAt (runData.set name (((runData.get? name).getD []) ++ tasks)) nodeName runIndex
        = some task := by
    intro nodeName runIndex task h
    rw [taskAt_set]
    split
    · next heq =>
      subst heq
      rw [taskAt] at h
      rw [List.getElem?_append_left (List.getElem?_eq_some_iff.mp h).1]
      exact h
    · exact h
  refine ⟨fun _ => hsame, fun h => ?_⟩
  obtain ⟨task, htask⟩ := Option.isSome_iff_exists.mp h
  rw [hsame htask]
  rfl

section Reserved

variable {w : Workflow} {currentNode : INode} {runIndex : ℕ} {executionData : IExecuteData}
  {request : EngineRequest} {runData : IRunData} {rewireOutputLogTo : Dict String NodeConnectionType}

/-- The slot of an action. -/
def SubNodeExecutionDataAction.slot (a : SubNodeExecutionDataAction) : String × ℕ :=
  (a.nodeName, a.runIndex)

/-- The node to execute is the one the action asks for, in its slot. -/
structure RequestedFor (w : Workflow) (n : NodeToBeExecuted) (a : SubNodeExecutionDataAction) :
    Prop where
  node : n.inputConnectionData.node = a.nodeName
  runIndex : n.nodeRunIndex = a.runIndex
  known : ∃ node, w.getNode a.nodeName = some node
  parentOutputData : n.parentOutputData.isSome
  metadata : n.metadata.bind (·.subNodeExecutionData) = none

/-- What the loop over the actions has reserved. -/
structure Reserved (w : Workflow) (runData : IRunData) (actions : List ExecuteNodeAction)
    (s : Prepared) : Prop where
  kept : RunsKept NothingWritten runData s.runData
  actions : s.actions.map (·.action) = actions
  names : ∀ a ∈ s.actions, a.nodeName = a.action.nodeName
  fresh : ∀ a ∈ s.actions, taskAt runData a.nodeName a.runIndex = none
  reserved : ∀ a ∈ s.actions, (taskAt s.runData a.nodeName a.runIndex).isSome
  nodup : (s.actions.map (·.slot)).Nodup
  nodes : List.Forall₂ (RequestedFor w) s.nodesToBeExecuted s.actions

theorem Reserved.prepareAction (hnamed : w.Named) {actions : List ExecuteNodeAction}
    {action : ExecuteNodeAction} {s s' : Prepared} (hs : Reserved w runData actions s)
    (h : prepareAction w currentNode runIndex executionData s action = .ok s') :
    Reserved w runData (actions ++ [action]) s' := by
  obtain ⟨node, task, n, hnode, hruns, hnodes, hname, hparent, hindex, hactions, hmetadata⟩ :=
    prepareAction_eq_ok h
  have hnodeName : node.name = action.nodeName := hnamed _ _ hnode
  rw [hnodeName] at hruns hindex
  have hkept : RunsKept NothingWritten s.runData s'.runData := by
    rw [hruns]
    exact runsKept_append s.runData action.nodeName [task]
  -- the slot is the first behind the runs of the node, and it is filled
  have hfree : taskAt s.runData action.nodeName n.nodeRunIndex = none := by
    rw [taskAt, hindex, List.getElem?_eq_none (le_refl _)]
  have hfilled : taskAt s'.runData action.nodeName n.nodeRunIndex = some task := by
    rw [hruns, taskAt_set, if_pos rfl, hindex]
    exact List.getElem?_concat_length
  refine ⟨hs.kept.trans hkept, ?_, ?_, ?_, ?_, ?_, ?_⟩
  · rw [hactions, List.map_append, hs.actions]
    rfl
  · intro a ha
    rw [hactions, List.mem_append, List.mem_singleton] at ha
    rcases ha with ha | rfl
    · exact hs.names a ha
    · rfl
  · intro a ha
    rw [hactions, List.mem_append, List.mem_singleton] at ha
    rcases ha with ha | rfl
    · exact hs.fresh a ha
    · exact hs.kept.fresh hfree
  · intro a ha
    rw [hactions, List.mem_append, List.mem_singleton] at ha
    rcases ha with ha | rfl
    · exact hkept.isSome (hs.reserved a ha)
    · rw [hfilled]
      rfl
  · rw [hactions, List.map_append, List.nodup_append]
    refine ⟨hs.nodup, List.nodup_singleton _, fun slot hslot slot' hslot' heq => ?_⟩
    obtain ⟨a, ha, rfl⟩ := List.mem_map.mp hslot
    rw [List.map_singleton, List.mem_singleton] at hslot'
    -- a slot reserved before is not free
    have hsome := hs.reserved a ha
    rw [hslot'] at heq
    obtain ⟨hnameEq, hindexEq⟩ := Prod.mk.inj heq
    rw [hnameEq, hindexEq, hfree] at hsome
    cases hsome
  · rw [hnodes, hactions]
    refine List.rel_append hs.nodes (.cons ⟨hname, rfl, ⟨node, hnode⟩, hparent, hmetadata⟩ .nil)

/-- **The slots of the actions are fresh and pairwise distinct**, in the order
of the request, and the loop changes no earlier entry. -/
theorem reserved_prepareRequestedNodes (hnamed : w.Named) {s : Prepared}
    (h : prepareRequestedNodes w currentNode runIndex executionData request runData
      rewireOutputLogTo = .returned s) : Reserved w runData request.actions s := by
  have key : ∀ (rest done : List ExecuteNodeAction) (s₀ : Prepared), Reserved w runData done s₀ →
      Outcome.forEach (prepareAction w currentNode runIndex executionData) s₀ rest = .returned s →
      Reserved w runData (done ++ rest) s := by
    intro rest
    induction rest with
    | nil =>
      intro done s₀ hs₀ h
      cases h
      rw [List.append_nil]
      exact hs₀
    | cons action rest ih =>
      intro done s₀ hs₀ h
      rw [Outcome.forEach] at h
      split at h
      · next s₁ hs₁ =>
        rw [List.append_cons]
        exact ih _ s₁ (hs₀.prepareAction hnamed hs₁) h
      · cases h
  have hstart : Reserved w runData []
      { runData := runData, rewireOutputLogTo := rewireOutputLogTo } :=
    ⟨.refl _ _, rfl, List.forall_mem_nil _, List.forall_mem_nil _, List.forall_mem_nil _,
      List.nodup_nil, .nil⟩
  exact key request.actions [] _ hstart h

theorem runsKept_prepareRequestedNodes : RunsKept NothingWritten runData
    (prepareRequestedNodes w currentNode runIndex executionData request runData
      rewireOutputLogTo).state.runData := by
  refine Outcome.forEach_invariant (I := fun s : Prepared => RunsKept NothingWritten runData
    s.runData) (fun s action s' hs hbody => ?_) (.refl _ _)
  obtain ⟨node, task, n, -, hruns, -⟩ := prepareAction_eq_ok hbody
  rw [hruns]
  exact hs.trans (runsKept_append s.runData node.name [task])

end Reserved

theorem exists_mem_of_forall₂ {α β : Type*} {R : α → β → Prop} {as : List α} {bs : List β}
    (h : List.Forall₂ R as bs) {a : α} (ha : a ∈ as) : ∃ b ∈ bs, R a b := by
  induction h with
  | nil => cases ha
  | cons hab _ ih =>
    rcases List.mem_cons.mp ha with rfl | ha
    · exact ⟨_, List.mem_cons_self, hab⟩
    · obtain ⟨b, hb, hR⟩ := ih ha
      exact ⟨b, List.mem_cons_of_mem _ hb, hR⟩

/-- Where the results of the actions are that the node of the item waits for. -/
def IExecuteData.subActions (item : IExecuteData) : List SubNodeExecutionDataAction :=
  ((item.metadata.bind (·.subNodeExecutionData)).map (·.actions)).getD []

/-- The node of the item waits for slots only that are still free. -/
def WaitsForFree (runData : IRunData) (item : IExecuteData) : Prop :=
  ∀ a ∈ item.subActions, taskAt runData a.nodeName a.runIndex = none

variable {runData : IRunData} {item : IExecuteData}

theorem waitsForFree_of_metadata
    (h : item.metadata.bind (·.subNodeExecutionData) = none) : WaitsForFree runData item := by
  intro a ha
  rw [IExecuteData.subActions, h] at ha
  cases ha

/-- An item that comes to the stack: it waits for slots only that are free, and
its own slot, if it has one, is free or among those of `written`. -/
structure Newcomer (written : String → ℕ → Prop) (runData : IRunData) (item : IExecuteData) :
    Prop where
  waits : WaitsForFree runData item
  slot : ∀ node i, item.node = some node → item.runIndex = some i → ¬ written node.name i →
    taskAt runData node.name i = none

theorem newcomer_of_none {written : String → ℕ → Prop}
    (hindex : item.runIndex = none) (hmetadata : item.metadata = none) :
    Newcomer written runData item := by
  refine ⟨waitsForFree_of_metadata (by rw [hmetadata]; rfl), fun node i _ hi => ?_⟩
  rw [hindex] at hi
  cases hi

/-- The one slot of a run. -/
def OwnSlot (node : INode) (runIndex : ℕ) : String → ℕ → Prop :=
  fun nodeName i => nodeName = node.name ∧ i = runIndex

/-- The item is there to execute an action in its slot. -/
structure IsFor (item : IExecuteData) (a : SubNodeExecutionDataAction) : Prop where
  node : ∃ node, item.node = some node ∧ node.name = a.nodeName
  runIndex : item.runIndex = some a.runIndex

/-- The item the requesting node is resumed with: none if the workflow has no
node of its name. -/
def resumedItem (w : Workflow) (currentNode : INode) (runIndex : ℕ) (executionData : IExecuteData)
    (request : EngineRequest) (actions : List SubNodeExecutionDataAction) (parentNode : String) :
    Option IExecuteData :=
  (w.getNode currentNode.name).map (resumingNode runIndex executionData request actions
    currentNode.name parentNode).delivery.item

section Pushing

variable {w : Workflow} {currentNode : INode} {runIndex : ℕ} {executionData : IExecuteData}
  {request : EngineRequest} {ed : IRunExecutionData}
  {rewireOutputLogTo : Dict String NodeConnectionType}

theorem isSome_main_item (d : Delivery) (node : INode) :
    ((d.item node).data.get? .main).isSome := by
  rw [Delivery.item, mainOnly_get?_main]
  rfl

theorem Grown.mono {P Q : IExecuteData → Prop} {a b : IRunExecutionData} (h : Grown w P a b)
    (hPQ : ∀ item, P item → Q item) : Grown w Q a b := by
  obtain ⟨items, hitems, hstack⟩ := h.stack
  exact ⟨h.eq, items, fun item hitem => hPQ item (hitems item hitem), hstack⟩

theorem grown_addNodes (w : Workflow) (ed : IRunExecutionData) (nodes : List NodeToBeExecuted) :
    Grown w (fun item => (item.runIndex = none ∧ item.metadata = none) ∨
      ∃ n ∈ nodes, ∃ node, w.getNode n.inputConnectionData.node = some node ∧
        item = n.delivery.item node) ed
      (addNodes w ed nodes).state := by
  refine Outcome.each_invariant (I := Grown w _ ed) (fun n hn s hs => ?_) (.of_waiting rfl)
  split
  · exact hs
  · refine hs.trans ((grown_addNodeToBeExecuted _ _ _).mono ?_)
    rintro item (hnone | ⟨node, hnode, hitem⟩)
    · exact Or.inl hnone
    · exact Or.inr ⟨n, hn, node, hnode, hitem⟩

/-- What may happen to the runs and the stack, in the v1 order, while nothing
is taken from the stack: entries are added to the runs, those of `written` are
written over, and items are pushed. -/
structure Progress (written : String → ℕ → Prop) (a b : IRunExecutionData) : Prop where
  kept : RunsKept written a.runData b.runData
  pushed : ∃ items, (∀ item ∈ items, Newcomer written a.runData item) ∧
    b.nodeExecutionStack = items ++ a.nodeExecutionStack

theorem Progress.refl (written : String → ℕ → Prop) (a : IRunExecutionData) :
    Progress written a a := ⟨.refl _ _, [], List.forall_mem_nil _, rfl⟩

variable {written : String → ℕ → Prop}

theorem Progress.trans {a b c : IRunExecutionData}
    (hab : Progress written a b) (hbc : Progress written b c) : Progress written a c := by
  obtain ⟨items, hitems, hb⟩ := hab.pushed
  obtain ⟨items', hitems', hc⟩ := hbc.pushed
  refine ⟨hab.kept.trans hbc.kept, items' ++ items, fun item hitem => ?_, ?_⟩
  · rcases List.mem_append.mp hitem with hitem | hitem
    · exact ⟨fun a ha => hab.kept.fresh ((hitems' item hitem).waits a ha),
        fun node i hnode hi hnot => hab.kept.fresh ((hitems' item hitem).slot node i hnode hi hnot)⟩
    · exact hitems item hitem
  · rw [hc, hb, List.append_assoc]

theorem Grown.progress {P : IExecuteData → Prop}
    {a b : IRunExecutionData} (hv1 : w.isLegacyExecutionOrder = false) (h : Grown w P a b)
    (hP : ∀ item, P item → Newcomer written a.runData item) : Progress written a b := by
  obtain ⟨items, hitems, hstack⟩ := h.stack
  rw [hv1, if_neg Bool.false_ne_true] at hstack
  refine ⟨?_, items, fun item hitem => hP item (hitems item hitem), hstack⟩
  rw [h.eq]
  exact .refl _ _

theorem newcomer_handledNodes (hnamed : w.Named) {s : Prepared}
    (hs : Reserved w ed.runData request.actions s) {n : NodeToBeExecuted}
    (hn : n ∈ handledNodes currentNode runIndex executionData request s) {node : INode}
    (hnode : w.getNode n.inputConnectionData.node = some node) :
    Newcomer (OwnSlot currentNode runIndex) ed.runData (n.delivery.item node) := by
  rw [handledNodes] at hn
  split at hn
  · cases hn
  · rcases List.mem_cons.mp hn with rfl | hn
    · refine ⟨fun a ha => hs.fresh a ha, fun node' i hnode' hi hnot => ?_⟩
      cases hnode'
      cases hi
      exact absurd ⟨hnamed _ _ hnode, rfl⟩ hnot
    · obtain ⟨a, ha, hfor⟩ := exists_mem_of_forall₂ hs.nodes hn
      refine ⟨waitsForFree_of_metadata hfor.metadata, fun node' i hnode' hi _ => ?_⟩
      cases hnode'
      cases hi
      rw [hnamed _ _ hnode, hfor.node]
      show taskAt ed.runData a.nodeName n.nodeRunIndex = none
      rw [hfor.runIndex]
      exact hs.fresh a ha

theorem runData_handleEngineRequest :
    (handleEngineRequest w currentNode runIndex executionData request ed
      rewireOutputLogTo).state.1.runData
      = (prepareRequestedNodes w currentNode runIndex executionData request ed.runData
          rewireOutputLogTo).state.runData := by
  rw [handleEngineRequest]
  split
  · next heq =>
    rw [heq]
    rfl
  · next s hs =>
    have hgrown := grown_addNodes w { ed with runData := s.runData }
      (handledNodes currentNode runIndex executionData request s)
    rw [hs]
    split
    · next heq =>
      rw [heq] at hgrown
      exact congrArg IRunExecutionData.runData hgrown.eq
    · next heq =>
      rw [heq] at hgrown
      exact congrArg IRunExecutionData.runData hgrown.eq

theorem runsKept_handleEngineRequest : RunsKept NothingWritten ed.runData
    (handleEngineRequest w currentNode runIndex executionData request ed
      rewireOutputLogTo).state.1.runData := by
  rw [runData_handleEngineRequest]
  exact runsKept_prepareRequestedNodes

/-- **What any request does**, whether it is handed on or throws on the way. -/
theorem progress_handleEngineRequest (hv1 : w.isLegacyExecutionOrder = false) (hnamed : w.Named) :
    Progress (OwnSlot currentNode runIndex) ed (handleEngineRequest w currentNode runIndex
      executionData request ed rewireOutputLogTo).state.1 := by
  refine ⟨runsKept_handleEngineRequest.mono fun _ _ h => h.elim, ?_⟩
  rw [handleEngineRequest]
  split
  · exact ⟨[], List.forall_mem_nil _, rfl⟩
  · next s hs =>
    have hreserved := reserved_prepareRequestedNodes hnamed hs
    obtain ⟨items, hitems, hstack⟩ := (grown_addNodes w { ed with runData := s.runData }
      (handledNodes currentNode runIndex executionData request s)).stack
    rw [hv1, if_neg Bool.false_ne_true] at hstack
    refine ⟨items, fun item hitem => ?_, ?_⟩
    · rcases hitems item hitem with ⟨hindex, hmetadata⟩ | ⟨n, hn, node, hnode, rfl⟩
      · exact newcomer_of_none hindex hmetadata
      · exact newcomer_handledNodes hnamed hreserved hn hnode
    · split
      · next heq =>
        rw [heq] at hstack
        exact hstack
      · next heq =>
        rw [heq] at hstack
        exact hstack

def enqueueAll (w : Workflow) (ed : IRunExecutionData) (items : List IExecuteData) :
    IRunExecutionData :=
  { ed with nodeExecutionStack :=
      if w.isLegacyExecutionOrder then ed.nodeExecutionStack ++ items
      else items.reverse ++ ed.nodeExecutionStack }

@[simp] theorem enqueueAll_nil (w : Workflow) (ed : IRunExecutionData) :
    enqueueAll w ed [] = ed := by
  rw [enqueueAll]
  split
  · rw [List.append_nil]
  · rfl

theorem enqueueAll_append (w : Workflow) (ed : IRunExecutionData) (items items' : List IExecuteData) :
    enqueueAll w (enqueueAll w ed items) items' = enqueueAll w ed (items ++ items') := by
  simp only [enqueueAll]
  split
  · rw [List.append_assoc]
  · rw [List.reverse_append, List.append_assoc]

theorem enqueueAll_cons (w : Workflow) (ed : IRunExecutionData) (item : IExecuteData)
    (items : List IExecuteData) :
    enqueueAll w ed (item :: items) = enqueueAll w (enqueue w ed item) items :=
  (enqueueAll_append w ed [item] items).symm

/-- The item of a requested node: it executes the action and waits for none. -/
structure Requested (item : IExecuteData) (a : SubNodeExecutionDataAction) : Prop where
  isFor : IsFor item a
  main : (item.data.get? .main).isSome
  metadata : item.metadata.bind (·.subNodeExecutionData) = none

variable {nodes : List NodeToBeExecuted} {actions : List SubNodeExecutionDataAction}

theorem addNodes_single (ed : IRunExecutionData) (hnamed : w.Named)
    (hnodes : List.Forall₂ (RequestedFor w) nodes actions)
    (hsingle : ∀ a ∈ actions, w.numberOfInputs a.nodeName ≤ 1) :
    ∃ items, List.Forall₂ Requested items actions ∧
      addNodes w ed nodes = .returned (enqueueAll w ed items) := by
  induction hnodes generalizing ed with
  | nil => exact ⟨[], .nil, by rw [enqueueAll_nil]; rfl⟩
  | @cons n a nodes actions hfor _ ih =>
    obtain ⟨hsingleA, hsingle⟩ := List.forall_mem_cons.mp hsingle
    obtain ⟨node, hnode⟩ := hfor.known
    have hrequested : Requested (n.delivery.item node) a := by
      refine ⟨⟨⟨node, rfl, hnamed _ _ hnode⟩, ?_⟩, isSome_main_item _ _, hfor.metadata⟩
      show some n.nodeRunIndex = some a.runIndex
      rw [hfor.runIndex]
    obtain ⟨items, hitems, heq⟩ := ih (enqueue w ed (n.delivery.item node)) hsingle
    refine ⟨n.delivery.item node :: items, .cons hrequested hitems, ?_⟩
    have hadd : addNodeToBeExecuted w ed n.delivery
        = .returned (enqueue w ed (n.delivery.item node)) := by
      refine addNodeToBeExecuted_single ?_ ?_
      · show w.numberOfInputs n.inputConnectionData.node ≤ 1
        rw [hfor.node]
        exact hsingleA
      · show w.getNode n.inputConnectionData.node = some node
        rw [hfor.node]
        exact hnode
    obtain ⟨main, hmain⟩ := Option.isSome_iff_exists.mp hfor.parentOutputData
    rw [addNodes, Outcome.each]
    simp only [hmain, hadd, Outcome.returned_andThen]
    rw [enqueueAll_cons]
    exact heq

variable {parentNode : String}

theorem addNodes_resumingNode (hsingle : w.numberOfInputs currentNode.name ≤ 1)
    (hmain : (executionData.data.get? .main).isSome) :
    addNodes w ed (resumingNode runIndex executionData request actions currentNode.name
      parentNode :: nodes)
      = addNodes w (enqueueAll w ed (resumedItem w currentNode runIndex executionData request
          actions parentNode).toList) nodes := by
  set first := resumingNode runIndex executionData request actions currentNode.name parentNode
  have hresumed : resumedItem w currentNode runIndex executionData request actions parentNode
      = (w.getNode currentNode.name).map first.delivery.item := rfl
  obtain ⟨main, hmain⟩ := Option.isSome_iff_exists.mp hmain
  have hdata : first.parentOutputData = some main := hmain
  rw [hresumed, addNodes, Outcome.each]
  simp only [hdata]
  rcases hnode : w.getNode currentNode.name with _ | node
  · have hadd : addNodeToBeExecuted w ed first.delivery = .returned ed := by
      have hnone : w.getNode first.delivery.connectionData.node = none := hnode
      have hinputs : ¬ 1 < w.numberOfInputs first.delivery.connectionData.node :=
        not_lt.mpr hsingle
      rw [addNodeToBeExecuted]
      simp only [if_neg hinputs, hnone]
    rw [hadd, Outcome.returned_andThen, Option.map_none, Option.toList_none, enqueueAll_nil]
    rfl
  · have hadd : addNodeToBeExecuted w ed first.delivery
        = .returned (enqueue w ed (first.delivery.item node)) :=
      addNodeToBeExecuted_single hsingle hnode
    rw [hadd, Outcome.returned_andThen]
    rfl

theorem addNodes_resumingNode_of_none
    (hmain : executionData.data.get? .main = none) :
    addNodes w ed (resumingNode runIndex executionData request actions currentNode.name
      parentNode :: nodes) = .threw .typeError ed := by
  rw [addNodes, Outcome.each]
  simp only [resumingNode, hmain, Outcome.threw_andThen]

theorem Reserved.single {s : Prepared}
    (hs : Reserved w runData request.actions s) (hsingle : SingleInputs w currentNode request) :
    ∀ a ∈ s.actions, w.numberOfInputs a.nodeName ≤ 1 := by
  intro a ha
  rw [hs.names a ha]
  refine hsingle.requested a.action ?_
  rw [← hs.actions]
  exact List.mem_map_of_mem ha

variable {out : IRunExecutionData × Dict String NodeConnectionType}

/-- **What a request leaves that was handed on**: nothing on the stack if it is
ignored; else the requesting node and then the requested ones are enqueued. -/
theorem stack_handleEngineRequest (hnamed : w.Named) (hsingle : SingleInputs w currentNode request)
    (h : handleEngineRequest w currentNode runIndex executionData request ed rewireOutputLogTo
      = .returned out) :
    ∃ s, Reserved w ed.runData request.actions s ∧ out.1.runData = s.runData ∧
      (out.1.nodeExecutionStack = ed.nodeExecutionStack ∨
        ∃ parentNode items, List.Forall₂ Requested items s.actions ∧
          out.1 = enqueueAll w { ed with runData := s.runData } ((resumedItem w currentNode runIndex
            executionData request s.actions parentNode).toList ++ items)) := by
  rw [handleEngineRequest] at h
  split at h
  · cases h
  · next s hs =>
    have hreserved := reserved_prepareRequestedNodes hnamed hs
    refine ⟨s, hreserved, ?_⟩
    rcases hparent : resumeParent executionData with _ | parentNode
    · rw [handledNodes, hparent] at h
      cases h
      exact ⟨rfl, Or.inl rfl⟩
    · simp only [handledNodes, hparent] at h
      obtain ⟨items, hitems, heq⟩ := addNodes_single (enqueueAll w { ed with
        runData := s.runData } (resumedItem w currentNode runIndex executionData request s.actions
          parentNode).toList) hnamed hreserved.nodes (hreserved.single hsingle)
      rcases hmain : executionData.data.get? .main with _ | main
      · rw [addNodes_resumingNode_of_none hmain] at h
        cases h
      · rw [addNodes_resumingNode hsingle.requesting (by rw [hmain]; rfl), heq] at h
        cases h
        exact ⟨rfl, Or.inr ⟨parentNode, items, hitems, enqueueAll_append _ _ _ _⟩⟩

theorem stack_of_threw (hnamed : w.Named) (hsingle : SingleInputs w currentNode request)
    {e : JsError}
    (h : handleEngineRequest w currentNode runIndex executionData request ed rewireOutputLogTo
      = .threw e out) : out.1.nodeExecutionStack = ed.nodeExecutionStack := by
  rw [handleEngineRequest] at h
  split at h
  · cases h
    rfl
  · next s hs =>
    have hreserved := reserved_prepareRequestedNodes hnamed hs
    rcases hparent : resumeParent executionData with _ | parentNode
    · rw [handledNodes, hparent] at h
      cases h
    · simp only [handledNodes, hparent] at h
      obtain ⟨items, -, heq⟩ := addNodes_single (enqueueAll w { ed with
        runData := s.runData } (resumedItem w currentNode runIndex executionData request s.actions
          parentNode).toList) hnamed hreserved.nodes (hreserved.single hsingle)
      rcases hmain : executionData.data.get? .main with _ | main
      · rw [addNodes_resumingNode_of_none hmain] at h
        cases h
        rfl
      · -- the nodes themselves are pushed without a throw
        rw [addNodes_resumingNode hsingle.requesting (by rw [hmain]; rfl), heq] at h
        cases h

theorem exists_resumed_handleEngineRequest (hv1 : w.isLegacyExecutionOrder = false) {node : INode}
    (hsingle : w.numberOfInputs currentNode.name ≤ 1) (hnode : w.getNode currentNode.name = some node)
    (hparent : (resumeParent executionData).isSome)
    (h : handleEngineRequest w currentNode runIndex executionData request ed rewireOutputLogTo
      = .returned out) :
    ∃ items item, item.node = some node ∧ item.runIndex = some runIndex ∧
      (item.data.get? .main).isSome ∧
      out.1.nodeExecutionStack = items ++ item :: ed.nodeExecutionStack := by
  obtain ⟨parentNode, hparent⟩ := Option.isSome_iff_exists.mp hparent
  rw [handleEngineRequest] at h
  split at h
  · cases h
  · next s hs =>
    simp only [handledNodes, hparent] at h
    rcases hmain : executionData.data.get? .main with _ | main
    · rw [addNodes_resumingNode_of_none hmain] at h
      cases h
    · rw [addNodes_resumingNode hsingle (by rw [hmain]; rfl)] at h
      obtain ⟨items, -, hstack⟩ := (grown_addNodes w (enqueueAll w { ed with
        runData := s.runData } (resumedItem w currentNode runIndex executionData request s.actions
          parentNode).toList) s.nodesToBeExecuted).stack
      rw [hv1, if_neg Bool.false_ne_true] at hstack
      split at h
      · cases h
      · next ed' heq =>
        cases h
        rw [heq, Outcome.state_returned] at hstack
        refine ⟨items, (resumingNode runIndex executionData request s.actions currentNode.name
          parentNode).delivery.item node, rfl, rfl, isSome_main_item _ _, ?_⟩
        rw [hstack, resumedItem, hnode, enqueueAll, hv1, if_neg Bool.false_ne_true]
        rfl

end Pushing

end N8n
