/-
`recreateNodeExecutionStack`: the engine's state rebuilt for a partial execution.

A start node without main parents is put on the stack with one empty item.  For
every other start node each complete group of its incoming connections becomes
an item of the stack (`completeGroup`), and each incomplete group an entry of
`waitingExecution` (`addWaitingConnection`).

* `recreate_aligned_iff` — **all of them are aligned iff the inputs of every
  start node fill up in order and no source lacks items**.
-/
import N8n.SourceDataGroups

namespace N8n

structure RecreatedState where
  nodeExecutionStack : List IExecuteData := []
  waitingExecution : Dict String (Dict ℕ ITaskDataConnections) := Dict.empty
  waitingExecutionSource : Dict String (Dict ℕ ITaskDataConnectionsSource) := Dict.empty

/-- The common body of `addWaitingExecution` and `addWaitingExecutionSource`. -/
def addWaiting {α : Type} (waiting : Dict String (Dict ℕ (Dict NodeConnectionType (List (Slot α)))))
    (nodeName : String) (runIndex : ℕ) (inputType : NodeConnectionType) (inputIndex : ℕ)
    (value : Slot α) : Dict String (Dict ℕ (Dict NodeConnectionType (List (Slot α)))) :=
  let waitingObject := (waiting.get? nodeName).getD Dict.empty
  let taskDataConnections := (waitingObject.get? runIndex).getD Dict.empty
  let dataList := (taskDataConnections.get? inputType).getD []
  waiting.set nodeName (waitingObject.set runIndex
    (taskDataConnections.set inputType (Slot.assign dataList inputIndex value)))

def addWaitingExecution (waitingExecution : Dict String (Dict ℕ ITaskDataConnections))
    (nodeName : String) (runIndex : ℕ) (inputType : NodeConnectionType) (inputIndex : ℕ)
    (executionData : Slot Items) : Dict String (Dict ℕ ITaskDataConnections) :=
  addWaiting waitingExecution nodeName runIndex inputType inputIndex executionData

def addWaitingExecutionSource
    (waitingExecutionSource : Dict String (Dict ℕ ITaskDataConnectionsSource))
    (nodeName : String) (runIndex : ℕ) (inputType : NodeConnectionType) (inputIndex : ℕ)
    (sourceData : Slot ISourceData) : Dict String (Dict ℕ ITaskDataConnectionsSource) :=
  addWaiting waitingExecutionSource nodeName runIndex inputType inputIndex sourceData

section

variable (localeCompare : String → String → ℤ) (graph : DirectedGraph) (runData : IRunData)
  (pinData : IPinData)

/-- The loop body for a connection of a complete group: its data is pushed if
there is any, its source is pushed in any case. -/
def addIncoming (incoming : List (Slot Items) × List (Slot ISourceData)) (c : GraphConnection) :
    Except JsError (List (Slot Items) × List (Slot ISourceData)) :=
  let source (runIndex : ℕ) : Slot ISourceData :=
    .data ⟨c.fromName, some c.outputIndex, some runIndex⟩
  match pinData.get? c.fromName with
  | some items => .ok (incoming.1 ++ [.data items], incoming.2 ++ [source 0])
  | none =>
    if runData.has c.fromName then
      match getIncomingDataFromAnyRun runData c.fromName c.type c.outputIndex with
      | .error e => .error e
      | .ok none => .ok (incoming.1, incoming.2 ++ [source 0])
      | .ok (some (items, runIndex)) =>
        .ok (incoming.1 ++ [.data items], incoming.2 ++ [source runIndex])
    else .error .assertionError

def completeGroup (startNode : INode) (group : SourceConnectionGroup) (s : RecreatedState) :
    Except JsError RecreatedState := do
  let incoming ← group.connections.foldlM (addIncoming runData pinData) ([], [])
  return { s with nodeExecutionStack := s.nodeExecutionStack ++ [{
    node := some startNode
    data := mainOnly incoming.1
    source := some (mainOnly incoming.2) }] }

def addWaitingConnection (nodeName : String) (nextRunIndex : ℕ) (s : RecreatedState)
    (c : GraphConnection) : Except JsError RecreatedState :=
  match getIncomingDataFromAnyRun runData c.fromName c.type c.outputIndex with
  | .error e => .error e
  | .ok none => .ok s
  | .ok (some (items, _)) => .ok { s with
      waitingExecution := addWaitingExecution s.waitingExecution nodeName nextRunIndex c.type
        c.inputIndex (.data items)
      waitingExecutionSource := addWaitingExecutionSource s.waitingExecutionSource nodeName
        nextRunIndex c.type c.inputIndex
        (.data ⟨c.fromName, some c.outputIndex, some nextRunIndex⟩) }

def incompleteGroup (startNode : INode) (group : SourceConnectionGroup) (s : RecreatedState) :
    Except JsError RecreatedState :=
  let nextRunIndex := ((s.waitingExecution.get? startNode.name).map (·.keys.length)).getD 0
  group.connections.foldlM (addWaitingConnection runData startNode.name nextRunIndex) s

def recreateGroup (startNode : INode) (s : RecreatedState) (group : SourceConnectionGroup) :
    Except JsError RecreatedState :=
  if group.complete then completeGroup runData pinData startNode group s
  else incompleteGroup runData startNode group s

def recreateStartNode (s : RecreatedState) (startNode : INode) : Except JsError RecreatedState := do
  let parents ← graph.getDirectParentConnections startNode
  if parents.filter (fun c => c.type = .main) = [] then
    return { s with nodeExecutionStack := s.nodeExecutionStack ++ [{
      node := some startNode
      data := mainOnly [.data [{}]]
      source := none }] }
  else
    let sourceDataSets := getSourceDataGroups localeCompare graph startNode runData pinData
    sourceDataSets.foldlM (recreateGroup runData pinData startNode) s

def recreateNodeExecutionStack (startNodes : List INode) : Except JsError RecreatedState :=
  if graph.nodes.values.any (fun node => node.disabled = some true) then .error .assertionError
  else startNodes.foldlM (recreateStartNode localeCompare graph runData pinData) {}

end

/-- The pinned data of the source of a connection, or its first non-empty run
on the output, with the run index. -/
def sourceItems (runData : IRunData) (pinData : IPinData) (c : GraphConnection) :
    Option (Items × ℕ) :=
  match pinData.get? c.fromName with
  | some items => some (items, 0)
  | none => match getIncomingDataFromAnyRun runData c.fromName c.type c.outputIndex with
    | .ok found => found
    | .error _ => none

def sourceEntry (runData : IRunData) (pinData : IPinData) (c : GraphConnection) : ISourceData :=
  ⟨c.fromName, some c.outputIndex, some (((sourceItems runData pinData c).map Prod.snd).getD 0)⟩

/-- The item pushed for a complete group. -/
def executeDataOf (runData : IRunData) (pinData : IPinData) (startNode : INode)
    (group : SourceConnectionGroup) : IExecuteData where
  node := some startNode
  data := mainOnly (group.connections.filterMap fun c =>
    (sourceItems runData pinData c).map fun found => .data found.1)
  source := some (mainOnly (group.connections.map fun c => .data (sourceEntry runData pinData c)))

section Complete

variable {localeCompare : String → String → ℤ} {graph : DirectedGraph} {runData : IRunData}
  {pinData : IPinData} {startNode : INode} {startNodes : List INode}

theorem addIncoming_eq_ok {incoming incoming' : List (Slot Items) × List (Slot ISourceData)}
    {c : GraphConnection} (h : addIncoming runData pinData incoming c = .ok incoming') :
    incoming' = (incoming.1 ++ ((sourceItems runData pinData c).map fun found => .data found.1).toList,
      incoming.2 ++ [.data (sourceEntry runData pinData c)]) := by
  rw [addIncoming] at h
  rcases hpin : pinData.get? c.fromName with _ | items
  · rw [hpin] at h
    simp only at h
    split at h
    · split at h
      · cases h
      · next hrun =>
        cases h
        simp [sourceEntry, sourceItems, hpin, hrun]
      · next items runIndex hrun =>
        cases h
        simp [sourceEntry, sourceItems, hpin, hrun]
    · cases h
  · rw [hpin] at h
    cases h
    simp [sourceEntry, sourceItems, hpin]

theorem foldlM_addIncoming {cs : List GraphConnection}
    {incoming incoming' : List (Slot Items) × List (Slot ISourceData)}
    (h : cs.foldlM (addIncoming runData pinData) incoming = .ok incoming') :
    incoming' = (incoming.1 ++ cs.filterMap (fun c =>
        (sourceItems runData pinData c).map fun found => .data found.1),
      incoming.2 ++ cs.map (fun c => .data (sourceEntry runData pinData c))) := by
  induction cs generalizing incoming with
  | nil =>
    cases h
    simp
  | cons c cs ih =>
    rw [List.foldlM_cons] at h
    obtain ⟨middle, hmiddle, hrest⟩ := exists_of_bind_eq_ok h
    rw [ih hrest, addIncoming_eq_ok hmiddle, List.map_cons, List.append_assoc, List.append_assoc,
      List.singleton_append]
    rcases hitems : sourceItems runData pinData c with _ | found
    · rw [List.filterMap_cons_none (by rw [hitems]; rfl)]
      rfl
    · rw [List.filterMap_cons_some (by rw [hitems]; rfl)]
      rfl

variable {group : SourceConnectionGroup}

theorem completeGroup_eq_ok {s s' : RecreatedState}
    (h : completeGroup runData pinData startNode group s = .ok s') :
    s' = { s with nodeExecutionStack :=
      s.nodeExecutionStack ++ [executeDataOf runData pinData startNode group] } := by
  obtain ⟨incoming, hincoming, h⟩ := exists_of_bind_eq_ok h
  cases h
  rw [foldlM_addIncoming hincoming]
  rfl

def pushed (s : RecreatedState) : List IExecuteData :=
  s.nodeExecutionStack.filter (fun e => e.source.isSome)

theorem getDirectParentConnections_eq_ok {parents : List GraphConnection}
    (h : graph.getDirectParentConnections startNode = .ok parents) :
    parents = incomingConnections graph startNode := by
  rw [DirectedGraph.getDirectParentConnections] at h
  split at h
  · cases h
    rfl
  · cases h

def startNodeGroups (localeCompare : String → String → ℤ) (graph : DirectedGraph)
    (runData : IRunData) (pinData : IPinData) (startNode : INode) :
    List (INode × SourceConnectionGroup) :=
  if (incomingConnections graph startNode).filter (fun c => c.type = .main) = [] then []
  else (getSourceDataGroups localeCompare graph startNode runData pinData).map (startNode, ·)

def startGroups (localeCompare : String → String → ℤ) (graph : DirectedGraph) (runData : IRunData)
    (pinData : IPinData) (startNodes : List INode) : List (INode × SourceConnectionGroup) :=
  startNodes.flatMap (startNodeGroups localeCompare graph runData pinData)

/-- A start node all of whose incoming connections are of type main and come
from sources with run or pinned data. -/
def SourcesHaveData (graph : DirectedGraph) (runData : IRunData) (pinData : IPinData)
    (startNode : INode) : Prop :=
  ∀ c ∈ incomingConnections graph startNode, c.type = .main ∧ hasData runData pinData c = true

theorem dealtConnections_eq (h : SourcesHaveData graph runData pinData startNode) :
    dealtConnections graph startNode runData pinData = incomingConnections graph startNode :=
  dealtConnections_of_main fun c hc => (h c hc).1

theorem complete_of_sourcesHaveData (h : SourcesHaveData graph runData pinData startNode)
    (hne : incomingConnections graph startNode ≠ []) :
    ∀ group ∈ getSourceDataGroups localeCompare graph startNode runData pinData,
      group.complete = true := by
  obtain ⟨W, O, next, hrun, hperm, hW, hO, -⟩ := groupRun_getSourceDataGroups localeCompare
    (by rw [dealtConnections_eq h]; exact hne)
  intro group hgroup
  refine (hrun.complete_iff (p := fun c => hasData runData pinData c = true) hW
    (fun c hc => by simp [(hO c hc).1]) (iff_of_true rfl fun c hc => by cases hc) group hgroup).mpr ?_
  intro c hc
  rcases hrun.mem_of_mem_groups hgroup hc with hc | hc | hc
  · cases hc
  · exact hW c hc
  · refine (h c ?_).2
    rw [← dealtConnections_eq h]
    exact hperm.mem_iff.mp (List.mem_append_right _ hc)

theorem pushed_recreateGroups {groups : List SourceConnectionGroup} {s s' : RecreatedState}
    (hcomplete : ∀ group ∈ groups, group.complete = true)
    (h : groups.foldlM (recreateGroup runData pinData startNode) s = .ok s') :
    pushed s' = pushed s ++ groups.map (executeDataOf runData pinData startNode) := by
  induction groups generalizing s with
  | nil =>
    cases h
    simp
  | cons group groups ih =>
    obtain ⟨hgroup, hrest⟩ := List.forall_mem_cons.mp hcomplete
    rw [List.foldlM_cons] at h
    obtain ⟨middle, hmiddle, h⟩ := exists_of_bind_eq_ok h
    rw [recreateGroup, if_pos hgroup] at hmiddle
    rw [ih hrest h, completeGroup_eq_ok hmiddle, pushed, List.filter_append, pushed, List.map_cons,
      List.append_assoc]
    rfl

/-- **The items pushed for start nodes with parents**: one for each group. -/
theorem pushed_eq {s : RecreatedState}
    (hdata : ∀ startNode ∈ startNodes, SourcesHaveData graph runData pinData startNode)
    (h : recreateNodeExecutionStack localeCompare graph runData pinData startNodes = .ok s) :
    pushed s = (startGroups localeCompare graph runData pinData startNodes).map
      (fun p => executeDataOf runData pinData p.1 p.2) := by
  have key : ∀ {startNodes : List INode} {s s' : RecreatedState},
      (∀ startNode ∈ startNodes, SourcesHaveData graph runData pinData startNode) →
      startNodes.foldlM (recreateStartNode localeCompare graph runData pinData) s = .ok s' →
      pushed s' = pushed s ++ (startGroups localeCompare graph runData pinData startNodes).map
        (fun p => executeDataOf runData pinData p.1 p.2) := by
    intro startNodes
    induction startNodes with
    | nil =>
      intro s s' _ h
      cases h
      simp [startGroups]
    | cons startNode startNodes ih =>
      intro s s' hdata h
      obtain ⟨hstart, hrest⟩ := List.forall_mem_cons.mp hdata
      rw [List.foldlM_cons] at h
      obtain ⟨middle, hmiddle, h⟩ := exists_of_bind_eq_ok h
      have hcons : startGroups localeCompare graph runData pinData (startNode :: startNodes)
          = startNodeGroups localeCompare graph runData pinData startNode
            ++ startGroups localeCompare graph runData pinData startNodes := List.flatMap_cons
      rw [ih hrest h, hcons, List.map_append, ← List.append_assoc, startNodeGroups]
      congr 1
      obtain ⟨parents, hparents, hmiddle⟩ := exists_of_bind_eq_ok hmiddle
      rw [getDirectParentConnections_eq_ok hparents] at hmiddle
      split at hmiddle
      · next hnone =>
        cases hmiddle
        rw [if_pos hnone, List.map_nil, List.append_nil, pushed, List.filter_append]
        exact List.append_nil _
      · next hsome =>
        have hne : incomingConnections graph startNode ≠ [] := by
          intro hnil
          exact hsome (by rw [hnil]; rfl)
        rw [if_neg hsome, List.map_map]
        exact pushed_recreateGroups (complete_of_sourcesHaveData hstart hne) hmiddle
  rw [recreateNodeExecutionStack] at h
  split at h
  · cases h
  · exact key hdata h

/-- The item has, at each input of the group, the data and the source of its
connection, and data at no other input. -/
structure Aligned (runData : IRunData) (pinData : IPinData) (group : SourceConnectionGroup)
    (e : IExecuteData) : Prop where
  connection : ∀ c ∈ group.connections, ∃ items run,
    sourceItems runData pinData c = some (items, run) ∧
    Slot.read ((e.data.get? .main).getD []) c.inputIndex = .data items ∧
    Slot.read ((e.source.bind (·.get? .main)).getD []) c.inputIndex
      = .data ⟨c.fromName, some c.outputIndex, some run⟩
  input : ∀ i items, Slot.read ((e.data.get? .main).getD []) i = .data items →
    ∃ c ∈ group.connections, c.inputIndex = i

theorem read_map_data {α β : Type*} (f : α → β) (l : List α) (i : ℕ) :
    Slot.read (l.map fun a => .data (f a)) i
      = match l[i]? with
        | some a => .data (f a)
        | none => .undefined := by
  rw [Slot.read, List.getElem?_map]
  cases l[i]? <;> rfl

/-- **An item is aligned iff its group starts at input 0 and every source has a
run with items.** -/
theorem aligned_iff (hcontiguous : ∃ k,
      group.connections.map (·.inputIndex) = List.range' k group.connections.length) :
    Aligned runData pinData group (executeDataOf runData pinData startNode group) ↔
      FromZero group ∧ ∀ c ∈ group.connections, (sourceItems runData pinData c).isSome := by
  obtain ⟨k, hk⟩ := hcontiguous
  have hidx : ∀ i (hi : i < group.connections.length), (group.connections[i]).inputIndex = k + i := by
    intro i hi
    have h := congrArg (·[i]?) hk
    simpa [hi, List.getElem?_range'] using h
  have hdata : ((executeDataOf runData pinData startNode group).data.get? .main).getD []
      = group.connections.filterMap fun c =>
        (sourceItems runData pinData c).map fun found => Slot.data found.1 := by
    rw [executeDataOf, mainOnly_get?_main, Option.getD_some]
  have hsource : ((executeDataOf runData pinData startNode group).source.bind (·.get? .main)).getD []
      = group.connections.map fun c => Slot.data (sourceEntry runData pinData c) := by
    rw [executeDataOf, Option.bind_some, mainOnly_get?_main, Option.getD_some]
  constructor
  · intro h
    have hitems : ∀ c ∈ group.connections, (sourceItems runData pinData c).isSome := by
      intro c hc
      obtain ⟨items, run, hfound, -⟩ := h.connection c hc
      rw [hfound]
      rfl
    refine ⟨?_, hitems⟩
    -- the last connection has its source at its input, so its input is its position
    rcases Nat.eq_zero_or_pos group.connections.length with hlen | hlen
    · rw [FromZero, List.eq_nil_of_length_eq_zero hlen]
      rfl
    · have hlast : group.connections.length - 1 < group.connections.length := by omega
      obtain ⟨_, _, _, -, hread⟩ := h.connection _ (List.getElem_mem hlast)
      rw [hsource, read_map_data, hidx _ hlast] at hread
      have hbound : k + (group.connections.length - 1) < group.connections.length := by
        by_contra hge
        rw [List.getElem?_eq_none (by omega)] at hread
        cases hread
      have hzero : k = 0 := by omega
      rw [FromZero, hk, hzero, List.range_eq_range']
  · rintro ⟨hzero, hitems⟩
    -- all data is there, so data and sources both stand at the position of their connection
    have hall : (group.connections.filterMap fun c =>
        (sourceItems runData pinData c).map fun found => Slot.data found.1)
        = group.connections.map fun c =>
          Slot.data (((sourceItems runData pinData c).map Prod.fst).getD []) := by
      rw [← List.filterMap_eq_map]
      refine List.filterMap_congr fun c hc => ?_
      obtain ⟨found, hfound⟩ := Option.isSome_iff_exists.mp (hitems c hc)
      simp [hfound]
    have hpos : ∀ i (hi : i < group.connections.length), (group.connections[i]).inputIndex = i := by
      intro i hi
      have h := congrArg (·[i]?) hzero
      simpa [hi] using h
    refine ⟨fun c hc => ?_, fun i items hread => ?_⟩
    · obtain ⟨i, hi, rfl⟩ := List.getElem_of_mem hc
      obtain ⟨⟨items, run⟩, hfound⟩ := Option.isSome_iff_exists.mp (hitems _ hc)
      refine ⟨items, run, hfound, ?_, ?_⟩
      · rw [hdata, hall, read_map_data, hpos i hi, List.getElem?_eq_getElem hi]
        simp [hfound]
      · rw [hsource, read_map_data, hpos i hi, List.getElem?_eq_getElem hi]
        simp [sourceEntry, hfound]
    · rw [hdata, hall, read_map_data] at hread
      by_cases hi : i < group.connections.length
      · exact ⟨_, List.getElem_mem hi, hpos i hi⟩
      · rw [List.getElem?_eq_none (by omega)] at hread
        cases hread

/-- **All items pushed for start nodes with parents are aligned with the inputs
of their node iff** the inputs of each start node fill up in order and every
source is pinned or has a run with items on its output. -/
theorem recreate_aligned_iff {s : RecreatedState}
    (hdata : ∀ startNode ∈ startNodes, SourcesHaveData graph runData pinData startNode)
    (h : recreateNodeExecutionStack localeCompare graph runData pinData startNodes = .ok s) :
    List.Forall₂ (fun p e => e.node = some p.1 ∧ Aligned runData pinData p.2 e)
        (startGroups localeCompare graph runData pinData startNodes) (pushed s) ↔
      ∀ startNode ∈ startNodes, FillsUp (incomingConnections graph startNode) ∧
        ∀ c ∈ incomingConnections graph startNode, (sourceItems runData pinData c).isSome := by
  rw [pushed_eq hdata h, List.forall₂_map_right_iff, List.forall₂_same]
  have hnode : ∀ startNode ∈ startNodes,
      (∀ p ∈ startNodeGroups localeCompare graph runData pinData startNode,
        (executeDataOf runData pinData p.1 p.2).node = some p.1 ∧
          Aligned runData pinData p.2 (executeDataOf runData pinData p.1 p.2)) ↔
      FillsUp (incomingConnections graph startNode) ∧
        ∀ c ∈ incomingConnections graph startNode, (sourceItems runData pinData c).isSome := by
    intro startNode hstart
    have hsource := hdata startNode hstart
    rcases eq_or_ne (incomingConnections graph startNode) [] with hnil | hne
    · rw [startNodeGroups, hnil]
      refine iff_of_true (fun p hp => by cases hp) ⟨fun i => le_refl _, fun c hc => by cases hc⟩
    · obtain ⟨W, O, next, hrun, hperm, -, -, hmin, hfirst⟩ :=
        groupRun_getSourceDataGroups localeCompare (by rw [dealtConnections_eq hsource]; exact hne)
      rw [dealtConnections_eq hsource] at hperm
      have hmain : (incomingConnections graph startNode).filter (fun c => c.type = .main)
          = incomingConnections graph startNode :=
        List.filter_eq_self.mpr fun c hc => by simp [(hsource c hc).1]
      have hall := hrun.perm.trans hperm
      rw [startNodeGroups, hmain, if_neg hne, List.forall_mem_map]
      have hgroup : ∀ group ∈ getSourceDataGroups localeCompare graph startNode runData pinData,
          ((executeDataOf runData pinData startNode group).node = some startNode ∧
            Aligned runData pinData group (executeDataOf runData pinData startNode group)) ↔
          FromZero group ∧ ∀ c ∈ group.connections, (sourceItems runData pinData c).isSome := by
        intro group hgroup
        rw [aligned_iff (hrun.contiguous rfl rfl group hgroup)]
        exact and_iff_right rfl
      rw [forall₂_congr hgroup, ← fillsUp_perm hperm, ← hrun.fromZero_iff hmin hfirst]
      constructor
      · intro hboth
        refine ⟨fun group hg => (hboth group hg).1, fun c hc => ?_⟩
        obtain ⟨group, hg, hcg⟩ := List.mem_flatMap.mp (hall.mem_iff.mpr hc)
        exact (hboth group hg).2 c hcg
      · rintro ⟨hzero, hitems⟩ group hg
        refine ⟨hzero group hg, fun c hc => hitems c ?_⟩
        exact hall.mem_iff.mp (List.mem_flatMap.mpr ⟨group, hg, hc⟩)
  rw [startGroups]
  constructor
  · intro hpairs startNode hstart
    refine (hnode startNode hstart).mp fun p hp => ?_
    exact hpairs p (List.mem_flatMap.mpr ⟨startNode, hstart, hp⟩)
  · intro hnodes p hp
    obtain ⟨startNode, hstart, hp⟩ := List.mem_flatMap.mp hp
    exact (hnode startNode hstart).mpr (hnodes startNode hstart) p hp

end Complete

/-- The order of plain names by code points. -/
def compareNames (a b : String) : ℤ := if a < b then -1 else if b < a then 1 else 0

def mergeNode : INode := { name := "Merge" }

def mergeGraph (inputA inputB : ℕ) : DirectedGraph :=
  [⟨"A", "Merge", .main, 0, inputA⟩, ⟨"B", "Merge", .main, 0, inputB⟩].foldl
    DirectedGraph.putConnection
    (DirectedGraph.addNodes {} [{ name := "A" }, { name := "B" }, mergeNode])

def mergeRunData : IRunData :=
  let ran (items : Items) : List ITaskData := [{ data := some (mainOnly [.data items]) }]
  (Dict.empty.set "A" (ran [{}])).set "B" (ran [{}, {}])

theorem recreate_aligned_merge :
    ∃ s, recreateNodeExecutionStack compareNames (mergeGraph 0 1) mergeRunData Dict.empty
        [mergeNode] = .ok s ∧
      List.Forall₂ (fun p e => e.node = some p.1 ∧ Aligned mergeRunData Dict.empty p.2 e)
        (startGroups compareNames (mergeGraph 0 1) mergeRunData Dict.empty [mergeNode])
        (pushed s) := by
  have hincoming : incomingConnections (mergeGraph 0 1) mergeNode
      = [⟨"A", "Merge", .main, 0, 0⟩, ⟨"B", "Merge", .main, 0, 1⟩] := rfl
  refine ⟨_, rfl, (recreate_aligned_iff (fun startNode hstart => ?_) rfl).mpr
    fun startNode hstart => ?_⟩
  all_goals
    rw [List.mem_singleton.mp hstart]
  · rw [SourcesHaveData, hincoming]
    decide
  · rw [hincoming]
    refine ⟨fun i => ?_, by decide⟩
    rcases i with _ | _ | i
    all_goals simp [inputCount]

/-- With input 0 unconnected the items of `A` are pushed for input 0 and those
of `B` for input 1, the input of `A`. -/
theorem recreate_not_aligned_merge :
    ∃ s, recreateNodeExecutionStack compareNames (mergeGraph 1 2) mergeRunData Dict.empty
        [mergeNode] = .ok s ∧
      SourcesHaveData (mergeGraph 1 2) mergeRunData Dict.empty mergeNode ∧
      ¬ List.Forall₂ (fun p e => e.node = some p.1 ∧ Aligned mergeRunData Dict.empty p.2 e)
        (startGroups compareNames (mergeGraph 1 2) mergeRunData Dict.empty [mergeNode])
        (pushed s) := by
  refine ⟨_, rfl, by unfold SourcesHaveData; decide, fun h => ?_⟩
  obtain ⟨⟨-, haligned⟩, -⟩ := List.forall₂_cons.mp h
  obtain ⟨items, run, hitems, hread, -⟩ :=
    haligned.connection ⟨"A", "Merge", .main, 0, 1⟩ (by decide)
  have hA : sourceItems mergeRunData Dict.empty ⟨"A", "Merge", .main, 0, 1⟩ = some ([{}], 0) := rfl
  rw [hA] at hitems
  cases hitems
  revert hread
  decide

end N8n
