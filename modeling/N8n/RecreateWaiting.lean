/-
The waiting state of a partial execution and that of the engine.

The engine opens an entry of `waitingExecution` with a `null` for every input
of the node and releases it when no `null` is left.  The entry of a group with
a missing source should therefore be `engineMain`: the data there is, and
`null` at every other input.  `addWaitingExecution` starts from an empty array
instead and never writes `null`.

* `waitingAsInEngine_iff` — **the rebuilt waiting state is one of the engine
  iff no incomplete group has any data at all**.
-/
import N8n.RecreateStack
import N8n.WaitingConservation

namespace N8n

section Release

variable {w : Workflow} {N : String} {ed : IRunExecutionData} {d : Delivery}

/-- Entries without holes: each slot holds data or `null`. -/
def NoHoles (N : String) (ed : IRunExecutionData) : Prop :=
  ∀ index main, (waitingEntries ed N).get? index = some main → .undefined ∉ main

def HasAllInputs (w : Workflow) (N : String) (item : IExecuteData) : Prop :=
  ∃ main, item.data = mainOnly main ∧ main.length = w.numberOfInputs N ∧
    ∀ slot ∈ main, slot.isFalsy = false

/-- In every run of deliveries, what reaches the stack has data for every
input, or is the empty item of a forced parent. -/
def ReleasedLate (w : Workflow) (N : String) (ed : IRunExecutionData) : Prop :=
  ∀ calls : List (IRunData × Delivery), (∀ c ∈ calls, c.2.Delivers w N) →
    ∀ item ∈ (deliverAll w ed calls).nodeExecutionStack,
      item ∈ ed.nodeExecutionStack ∨ item.data = mainOnly [.data [{}]] ∨ HasAllInputs w N item

theorem mem_enqueue {item item' : IExecuteData} :
    item ∈ (enqueue w ed item').nodeExecutionStack ↔
      item = item' ∨ item ∈ ed.nodeExecutionStack := by
  rw [enqueue]
  split
  · rw [List.mem_append, List.mem_singleton]
    exact or_comm
  · exact List.mem_cons

theorem mem_forceInputs {item : IExecuteData}
    (h : item ∈ (forceInputs w ed d).state.nodeExecutionStack) :
    item ∈ ed.nodeExecutionStack ∨ item.data = mainOnly [.data [{}]] := by
  rw [forceInputs] at h
  split at h
  · exact Or.inl h
  · revert item
    refine Outcome.forEach_invariant (I := fun s : IRunExecutionData =>
      ∀ {item : IExecuteData}, item ∈ s.nodeExecutionStack →
        item ∈ ed.nodeExecutionStack ∨ item.data = mainOnly [.data [{}]]) ?_ Or.inl
    intro s inputData s' hs hbody item hitem
    rcases forceInput_cases hbody with rfl | ⟨nodeToAdd, rfl⟩
    · exact hs hitem
    · rcases mem_enqueue.mp hitem with rfl | hitem
      · exact Or.inr rfl
      · exact hs hitem

section

variable (hN : 1 < w.numberOfInputs N) (hwf : WellFormedWaiting w N ed)
include hN hwf

theorem mem_addNodeToBeExecuted
    (hd : d.Delivers w N) {item : IExecuteData}
    (h : item ∈ (addNodeToBeExecuted w ed d).state.nodeExecutionStack) :
    let main := Slot.assign (targetArray w N ed d.connectionData.index) d.connectionData.index d.slot
    item ∈ ed.nodeExecutionStack ∨ item.data = mainOnly [.data [{}]] ∨
      item.data = mainOnly main ∧ .null ∉ main := by
  intro main
  obtain ⟨ed₁, hfile, hstack, hentries, -⟩ := fileDelivery_spec hwf hd
  obtain ⟨rfl, -, -⟩ := hd
  set N := d.connectionData.node with hNdef
  set index := chooseWaitingNodeIndex (waitingEntries ed N) d.connectionData.index with hindex
  have hget : (waitingEntries ed₁ N).get? index = some main := by
    rw [hentries]
    exact Dict.get?_set_self _ _ _
  rw [addNodeToBeExecuted, ← hNdef, if_pos hN, addToWaiting, hfile, Outcome.returned_andThen,
    ← hNdef] at h
  simp only [← hindex, hget, Option.getD_some] at h
  split at h
  · next hcomplete =>
    rw [Outcome.state_returned, nodeExecutionStack_deleteWaiting] at h
    rcases mem_enqueue.mp h with rfl | h
    · exact Or.inr (Or.inr ⟨rfl, hcomplete⟩)
    · exact Or.inl (hstack ▸ h)
  · have hforced : item ∈ (if ed.waitingExecution.has N then Outcome.returned ed₁
        else forceInputs w ed₁ d).state.nodeExecutionStack := by
      set forced := if ed.waitingExecution.has N then Outcome.returned ed₁ else forceInputs w ed₁ d
      rcases forced with ed₂ | ⟨e, ed₂⟩
      · exact h
      · exact h
    rw [← hstack]
    split at hforced
    · exact Or.inl hforced
    · rcases mem_forceInputs hforced with h | h
      · exact Or.inl h
      · exact Or.inr (Or.inl h)

/-- Step lemma: a call keeps the entries without holes. -/
theorem noHoles_addNodeToBeExecuted
    (hd : d.Delivers w N) (hholes : NoHoles N ed) :
    NoHoles N (addNodeToBeExecuted w ed d).state ∧
      .undefined ∉ Slot.assign (targetArray w N ed d.connectionData.index) d.connectionData.index
        d.slot := by
  obtain ⟨-, hcases⟩ := addNodeToBeExecuted_spec hN hwf hd
  obtain ⟨-, hinput, items, hitems⟩ := hd
  have htarget : .undefined ∉ targetArray w N ed d.connectionData.index := by
    rw [targetArray]
    split
    · next hfound =>
      obtain ⟨i, hi⟩ := Option.isSome_iff_exists.mp hfound
      obtain ⟨main, hmain, -⟩ := findWaitingNodeIndex_some hi
      rw [chooseWaitingNodeIndex, hi, Option.getD_some, hmain, Option.getD_some]
      exact hholes i main hmain
    · intro hmem
      cases List.eq_of_mem_replicate hmem
  have hassign : .undefined ∉ Slot.assign (targetArray w N ed d.connectionData.index)
      d.connectionData.index d.slot := by
    rw [Slot.assign_of_lt (by rw [(targetArray_spec hwf hinput).1]; exact hinput), hitems]
    intro hmem
    rcases List.mem_or_eq_of_mem_set hmem with hmem | hmem
    · exact htarget hmem
    · cases hmem
  refine ⟨fun index main hmain => ?_, hassign⟩
  rcases hcases with ⟨-, hentries, -⟩ | ⟨-, hentries, -⟩
  · rw [hentries, Dict.get?_set] at hmain
    split at hmain
    · rw [← Option.some_inj.mp hmain]
      exact hassign
    · exact hholes index main hmain
  · rw [hentries, Dict.get?_erase] at hmain
    split at hmain
    · cases hmain
    · exact hholes index main hmain

/-- **An entry with one slot for each input and no holes is released only when
all its inputs have data**, whatever is delivered. -/
theorem releasedLate
    (hholes : NoHoles N ed) : ReleasedLate w N ed := by
  intro calls
  induction calls generalizing ed with
  | nil => exact fun _ item hitem => Or.inl hitem
  | cons c calls ih =>
    intro hcalls item hitem
    obtain ⟨hc, hcalls⟩ := List.forall_mem_cons.mp hcalls
    have hwf' : WellFormedWaiting w N { ed with runData := c.1 } := ⟨hwf.length, hwf.source⟩
    have hholes' : NoHoles N { ed with runData := c.1 } := hholes
    obtain ⟨hnext, hassign⟩ := noHoles_addNodeToBeExecuted hN hwf' hc hholes'
    have hwfnext := (addNodeToBeExecuted_spec hN hwf' hc).1
    rcases ih hwfnext hnext hcalls item hitem with hitem | hitem
    · rcases mem_addNodeToBeExecuted hN hwf' hc hitem with hitem | hitem | ⟨hdata, hnull⟩
      · exact Or.inl hitem
      · exact Or.inr (Or.inl hitem)
      · refine Or.inr (Or.inr ⟨_, hdata, ?_, fun slot hslot => ?_⟩)
        · rw [Slot.length_assign, (targetArray_spec hwf' hc.input).1]
          have := hc.input
          omega
        · cases slot with
          | undefined => exact absurd hslot hassign
          | null => exact absurd hslot hnull
          | data items => rfl
    · exact Or.inr hitem

end

end Release

section Recreate

/-- The number of main inputs of a node, up to the last connected one. -/
def DirectedGraph.numberOfInputs (graph : DirectedGraph) (name : String) : ℕ :=
  ((graph.getConnections.filter (fun c => c.toName = name ∧ c.type = .main)).map
    (·.inputIndex + 1)).foldr max 0

/-- The main connection of the group at the input. -/
def SourceConnectionGroup.at? (group : SourceConnectionGroup) (i : ℕ) : Option GraphConnection :=
  group.connections.find? (fun c => c.type = .main ∧ c.inputIndex = i)

variable (graph : DirectedGraph) (runData : IRunData) (pinData : IPinData)

/-- The entry as the engine would hold it: at each input the data of the source
if there is any, else `null`. -/
def engineMain (p : INode × SourceConnectionGroup) : List (Slot Items) :=
  (List.range (graph.numberOfInputs p.1.name)).map fun i =>
    match (p.2.at? i).bind (sourceItems runData pinData) with
    | some found => .data found.1
    | none => .null

def engineSource (p : INode × SourceConnectionGroup) : List (Slot ISourceData) :=
  (List.range (graph.numberOfInputs p.1.name)).map fun i =>
    match p.2.at? i with
    | none => .null
    | some c => match sourceItems runData pinData c with
      | some found => .data ⟨c.fromName, some c.outputIndex, some found.2⟩
      | none => .null

/-- `waitingExecution[node][index]`. -/
def RecreatedState.entry? (s : RecreatedState) (node : String) (index : ℕ) :
    Option ITaskDataConnections := (s.waitingExecution.get? node).bind (·.get? index)

def RecreatedState.entrySource? (s : RecreatedState) (node : String) (index : ℕ) :
    Option ITaskDataConnectionsSource := (s.waitingExecutionSource.get? node).bind (·.get? index)

/-- The state the engine starts from: of each entry it uses the main inputs. -/
def RecreatedState.engineState (s : RecreatedState) : IRunExecutionData where
  nodeExecutionStack := s.nodeExecutionStack
  waitingExecution := s.waitingExecution.mapValues fun entries =>
    entries.mapValues fun entry => (entry.get? .main).getD []
  waitingExecutionSource := s.waitingExecutionSource.mapValues fun entries =>
    entries.mapValues fun entry => (entry.get? .main).getD []
  runData := runData
  pinData := pinData

/-- The entry of the engine for a group. -/
structure EngineEntry (s : RecreatedState) (p : INode × SourceConnectionGroup) (index : ℕ) :
    Prop where
  main : (s.entry? p.1.name index).bind (·.get? .main) = some (engineMain graph runData pinData p)
  source : (s.entrySource? p.1.name index).bind (·.get? .main)
    = some (engineSource graph runData pinData p)

/-- The waiting state is one of the engine: each entry is that of an incomplete
group, each incomplete group with data has its entry, and no entry can be
released before all inputs have data. -/
structure WaitingAsInEngine (localeCompare : String → String → ℤ) (startNodes : List INode)
    (s : RecreatedState) : Prop where
  entry : ∀ node index, (s.entry? node index).isSome →
    ∃ p ∈ startGroups localeCompare graph runData pinData startNodes, p.1.name = node ∧
      p.2.complete = false ∧ EngineEntry graph runData pinData s p index
  group : ∀ p ∈ startGroups localeCompare graph runData pinData startNodes, p.2.complete = false →
    (∃ c ∈ p.2.connections, (sourceItems runData pinData c).isSome) →
    ∃ index, EngineEntry graph runData pinData s p index
  released : ∀ (w : Workflow) (N : String), 1 < w.numberOfInputs N →
    w.numberOfInputs N = graph.numberOfInputs N →
    ReleasedLate w N (s.engineState runData pinData)

end Recreate

section AsInEngine

variable {localeCompare : String → String → ℤ} {graph : DirectedGraph} {runData : IRunData}
  {pinData : IPinData} {startNode : INode} {startNodes : List INode}
  {p : INode × SourceConnectionGroup}

theorem engineMain_getElem? (runData : IRunData) (pinData : IPinData) {i : ℕ} (hi : i < graph.numberOfInputs p.1.name) :
    (engineMain graph runData pinData p)[i]? = some
      (match (p.2.at? i).bind (sourceItems runData pinData) with
        | some found => .data found.1
        | none => .null) := by
  rw [engineMain, List.getElem?_map, List.getElem?_range hi, Option.map_some]

def NoNullEntries (s : RecreatedState) : Prop :=
  ∀ node index entry, s.entry? node index = some entry → .null ∉ (entry.get? .main).getD []

theorem null_notMem_assign {α : Type*} {l : List (Slot α)} (h : .null ∉ l) (i : ℕ) (a : α) :
    .null ∉ Slot.assign l i (.data a) := by
  rw [Slot.assign]
  split
  · intro hmem
    rcases List.mem_or_eq_of_mem_set hmem with hmem | hmem
    · exact h hmem
    · cases hmem
  · intro hmem
    rcases List.mem_append.mp hmem with hmem | hmem
    · rcases List.mem_append.mp hmem with hmem | hmem
      · exact h hmem
      · cases List.eq_of_mem_replicate hmem
    · cases List.mem_singleton.mp hmem

theorem entry?_addWaiting {waiting : Dict String (Dict ℕ ITaskDataConnections)} {name : String}
    {runIndex inputIndex : ℕ} {inputType : NodeConnectionType} {value : Slot Items} {node : String}
    {index : ℕ} {entry : ITaskDataConnections}
    (h : ((addWaiting waiting name runIndex inputType inputIndex value).get? node).bind
      (·.get? index) = some entry) :
    ((waiting.get? node).bind (·.get? index) = some entry) ∨
      ∃ old : ITaskDataConnections,
        (old = Dict.empty ∨ (waiting.get? node).bind (·.get? index) = some old) ∧
        entry = old.set inputType (Slot.assign ((old.get? inputType).getD []) inputIndex value) := by
  rw [addWaiting, Dict.get?_set] at h
  split at h
  · next hnode =>
    subst hnode
    rw [Option.bind_some, Dict.get?_set] at h
    rcases hold : waiting.get? node with _ | entries
    · rw [hold, Option.getD_none] at h
      split at h
      · exact Or.inr ⟨_, Or.inl rfl, (Option.some_inj.mp h).symm⟩
      · cases h
    · rw [hold, Option.getD_some] at h
      split at h
      · next hindex =>
        subst hindex
        refine Or.inr ⟨(entries.get? index).getD Dict.empty, ?_, (Option.some_inj.mp h).symm⟩
        rcases hentry : entries.get? index with _ | old
        · exact Or.inl rfl
        · exact Or.inr (by rw [Option.bind_some, hentry]; rfl)
      · exact Or.inl h
  · exact Or.inl h

variable {s : RecreatedState} {c : GraphConnection}

theorem noNull_addWaitingConnection {nodeName : String} {nextRunIndex : ℕ} {s' : RecreatedState} (hs : NoNullEntries s)
    (h : addWaitingConnection runData nodeName nextRunIndex s c = .ok s') : NoNullEntries s' := by
  rw [addWaitingConnection] at h
  split at h
  · cases h
  · cases h
    exact hs
  · cases h
    intro node index entry hentry
    rcases entry?_addWaiting hentry with hentry | ⟨old, hold, rfl⟩
    · exact hs node index entry hentry
    · have hnull : .null ∉ (old.get? .main).getD [] := by
        rcases hold with rfl | hold
        · simp
        · exact hs node index old hold
      rw [Dict.get?_set]
      split
      · next htype =>
        rw [← htype]
        exact null_notMem_assign hnull _ _
      · exact hnull

/-- **The rebuilt entries hold no `null`.** -/
theorem noNull_recreate
    (h : recreateNodeExecutionStack localeCompare graph runData pinData startNodes = .ok s) :
    NoNullEntries s := by
  rw [recreateNodeExecutionStack] at h
  split at h
  · cases h
  · refine foldlM_invariant (I := NoNullEntries) (fun s startNode s' hs hstart => ?_) ?_ h
    · obtain ⟨parents, -, hstart⟩ := exists_of_bind_eq_ok hstart
      split at hstart
      · cases hstart
        exact hs
      · refine foldlM_invariant (I := NoNullEntries) (fun s group s' hs hgroup => ?_) hs hstart
        rw [recreateGroup] at hgroup
        split at hgroup
        · rw [completeGroup_eq_ok hgroup]
          exact hs
        · exact foldlM_invariant (fun _ _ _ hs hc => noNull_addWaitingConnection hs hc) hs hgroup
    · intro node index entry hentry
      cases hentry

theorem lt_numberOfInputs (hc : c ∈ graph.getConnections)
    (htype : c.type = .main) : c.inputIndex < graph.numberOfInputs c.toName := by
  have hmem : c.inputIndex + 1 ∈ (graph.getConnections.filter
      (fun d => d.toName = c.toName ∧ d.type = .main)).map (·.inputIndex + 1) :=
    List.mem_map_of_mem (List.mem_filter.mpr ⟨hc, by simp [htype]⟩)
  have hle : ∀ {l : List ℕ} {n : ℕ}, n ∈ l → n ≤ l.foldr max 0 := by
    intro l n hn
    induction l with
    | nil => cases hn
    | cons m l ih =>
      rw [List.foldr_cons]
      rcases List.mem_cons.mp hn with rfl | hn
      · exact le_max_left _ _
      · exact (ih hn).trans (le_max_right _ _)
  exact hle hmem

theorem exists_without_data
    (hp : p ∈ startGroups localeCompare graph runData pinData startNodes)
    (hincomplete : p.2.complete = false) :
    ∃ c ∈ p.2.connections, c ∈ graph.getConnections ∧ c.toName = p.1.name ∧ c.type = .main ∧
      hasData runData pinData c = false ∧
      ∀ d ∈ p.2.connections, d.inputIndex = c.inputIndex → d = c := by
  obtain ⟨startNode, -, hp⟩ := List.mem_flatMap.mp hp
  rw [startNodeGroups] at hp
  split at hp
  · cases hp
  · next hparents =>
    obtain ⟨group, hgroup, rfl⟩ := List.mem_map.mp hp
    have hne : dealtConnections graph startNode runData pinData ≠ [] := by
      intro hnil
      refine hparents (List.filter_eq_nil_iff.mpr fun c hc hmain => ?_)
      have hdealt := List.filter_eq_nil_iff.mp hnil c hc
      simp only [decide_eq_true_eq] at hmain hdealt
      exact hdealt (Or.inr hmain)
    obtain ⟨W, O, next, hrun, hperm, hW, hO, -⟩ := groupRun_getSourceDataGroups localeCompare hne
    have hiff := hrun.complete_iff (p := fun c => hasData runData pinData c = true) hW
      (fun c hc => by simp [(hO c hc).1]) (iff_of_true rfl fun c hc => by cases hc) group hgroup
    rw [hincomplete] at hiff
    have hsome : ∃ c ∈ group.connections, ¬ hasData runData pinData c = true := by
      by_contra hall
      push Not at hall
      exact absurd (hiff.mpr hall) (by simp)
    obtain ⟨c, hc, hdata⟩ := hsome
    have hcO : c ∈ O := by
      rcases hrun.mem_of_mem_groups hgroup hc with h | h | h
      · cases h
      · exact absurd (hW c h) hdata
      · exact h
    have hdealt := hperm.mem_iff.mp (List.mem_append_right W hcO)
    obtain ⟨hincoming, -⟩ := List.mem_filter.mp hdealt
    obtain ⟨hgraph, hto⟩ := List.mem_filter.mp hincoming
    refine ⟨c, hc, hgraph, by simpa using hto, (hO c hcO).2, (hO c hcO).1, fun d hd hidx => ?_⟩
    -- the inputs of a group are consecutive, so no two connections share one
    obtain ⟨k, hk⟩ := hrun.contiguous rfl rfl group hgroup
    have hnodup : (group.connections.map (·.inputIndex)).Nodup := by
      rw [hk]
      exact List.nodup_range'
    exact List.inj_on_of_nodup_map hnodup hd hc hidx

theorem sourceItems_eq_none (h : hasData runData pinData c = false) :
    sourceItems runData pinData c = none := by
  rw [hasData, Bool.or_eq_false_iff] at h
  have hpin : pinData.get? c.fromName = none := by
    rw [Dict.get?_eq_none_iff, ← Dict.has_iff, h.2]
    simp
  have hrun : runData.get? c.fromName = none := by
    rw [Dict.get?_eq_none_iff, ← Dict.has_iff, h.1]
    simp
  rw [sourceItems, hpin, getIncomingDataFromAnyRun, hrun]
  rfl

theorem null_mem_engineMain
    (hp : p ∈ startGroups localeCompare graph runData pinData startNodes)
    (hincomplete : p.2.complete = false) : .null ∈ engineMain graph runData pinData p := by
  obtain ⟨c, -, hgraph, hto, htype, hdata, hunique⟩ := exists_without_data hp hincomplete
  have hlt := lt_numberOfInputs hgraph htype
  rw [hto] at hlt
  have hget := engineMain_getElem? runData pinData hlt
  have hnone : (p.2.at? c.inputIndex).bind (sourceItems runData pinData) = none := by
    rcases hat : p.2.at? c.inputIndex with _ | d
    · rfl
    · have hidx : d.inputIndex = c.inputIndex := by
        have := List.find?_some hat
        simp only [decide_eq_true_eq] at this
        exact this.2
      rw [Option.bind_some, hunique d (List.mem_of_find?_eq_some hat) hidx,
        sourceItems_eq_none hdata]
  rw [hnone] at hget
  exact List.mem_of_getElem? hget

theorem not_engineEntry (hs : NoNullEntries s)
    (hp : p ∈ startGroups localeCompare graph runData pinData startNodes)
    (hincomplete : p.2.complete = false) (index : ℕ) :
    ¬ EngineEntry graph runData pinData s p index := by
  intro h
  obtain ⟨entry, hentry, hmain⟩ := Option.bind_eq_some_iff.mp h.main
  refine hs _ _ _ hentry ?_
  rw [hmain, Option.getD_some]
  exact null_mem_engineMain hp hincomplete

theorem recreate_waiting_empty
    (hnone : ∀ p ∈ startGroups localeCompare graph runData pinData startNodes,
      p.2.complete = false → ∀ c ∈ p.2.connections, sourceItems runData pinData c = none)
    (h : recreateNodeExecutionStack localeCompare graph runData pinData startNodes = .ok s) :
    s.waitingExecution = Dict.empty := by
  rw [recreateNodeExecutionStack] at h
  split at h
  · cases h
  · refine foldlM_invariant_of_mem (I := fun s => s.waitingExecution = Dict.empty)
      (fun startNode hstart s s' hs hbody => ?_) rfl h
    have hnone' : ∀ p ∈ startNodeGroups localeCompare graph runData pinData startNode,
        p.2.complete = false → ∀ c ∈ p.2.connections, sourceItems runData pinData c = none :=
      fun p hp => hnone p (List.mem_flatMap.mpr ⟨startNode, hstart, hp⟩)
    obtain ⟨parents, hparents, hbody⟩ := exists_of_bind_eq_ok hbody
    have hincoming : parents = incomingConnections graph startNode :=
      getDirectParentConnections_eq_ok hparents
    rw [hincoming] at hbody
    split at hbody
    · cases hbody
      exact hs
    · next hparents =>
      rw [startNodeGroups, if_neg hparents] at hnone'
      refine foldlM_invariant_of_mem (I := fun s => s.waitingExecution = Dict.empty)
        (fun group hgroup s s' hs hbody => ?_) hs hbody
      rw [recreateGroup] at hbody
      split at hbody
      · rw [completeGroup_eq_ok hbody]
        exact hs
      · next hincomplete =>
        refine foldlM_invariant_of_mem (I := fun s => s.waitingExecution = Dict.empty)
          (fun c hc s s' hs hbody => ?_) hs hbody
        have hsource := hnone' (startNode, group) (List.mem_map_of_mem hgroup)
          (Bool.eq_false_iff.mpr hincomplete) c hc
        rw [addWaitingConnection] at hbody
        split at hbody
        · cases hbody
        · cases hbody
          exact hs
        · next items runIndex hrun =>
          rw [sourceItems, hrun] at hsource
          split at hsource <;> cases hsource

theorem waitingEntries_engineState (runData : IRunData) (pinData : IPinData)
    (hs : s.waitingExecution = Dict.empty) (N : String) :
    waitingEntries (s.engineState runData pinData) N = Dict.empty := by
  rw [waitingEntries, RecreatedState.engineState, hs]
  rfl

/-- **The rebuilt waiting state is one of the engine iff no incomplete group of
a start node has a source that is pinned or has a run with items.** -/
theorem waitingAsInEngine_iff {s : RecreatedState}
    (h : recreateNodeExecutionStack localeCompare graph runData pinData startNodes = .ok s) :
    WaitingAsInEngine graph runData pinData localeCompare startNodes s ↔
      ∀ p ∈ startGroups localeCompare graph runData pinData startNodes, p.2.complete = false →
        ∀ c ∈ p.2.connections, sourceItems runData pinData c = none := by
  have hnull := noNull_recreate h
  constructor
  · intro hengine p hp hincomplete c hc
    by_contra hsome
    obtain ⟨index, hentry⟩ := hengine.group p hp hincomplete
      ⟨c, hc, Option.isSome_iff_ne_none.mpr hsome⟩
    exact not_engineEntry hnull hp hincomplete index hentry
  · intro hnone
    have hempty := recreate_waiting_empty hnone h
    refine ⟨fun node index hentry => ?_, fun p hp hincomplete hsome => ?_, fun w N hN _ => ?_⟩
    · rw [RecreatedState.entry?, hempty] at hentry
      cases hentry
    · obtain ⟨c, hc, hsome⟩ := hsome
      rw [hnone p hp hincomplete c hc] at hsome
      cases hsome
    · have hentries := waitingEntries_engineState runData pinData hempty N
      refine releasedLate hN ⟨fun index main hmain => ?_, fun index hindex => ?_⟩
        fun index main hmain => ?_
      all_goals
        first
        | rw [hentries] at hmain
          cases hmain
        | rw [hentries] at hindex
          cases hindex

end AsInEngine

def joinNode : INode := { name := "Join" }

def joinGraph : DirectedGraph :=
  [⟨"A", "Join", .main, 0, 0⟩, ⟨"B", "Join", .main, 0, 1⟩, ⟨"C", "Join", .main, 0, 2⟩].foldl
    DirectedGraph.putConnection
    (DirectedGraph.addNodes {} [{ name := "A" }, { name := "B" }, { name := "C" }, joinNode])

def ranA (items : Items) : IRunData :=
  Dict.empty.set "A" [{ data := some (mainOnly [.data items]) }]

theorem waitingAsInEngine_quiet :
    ∃ s, recreateNodeExecutionStack compareNames joinGraph (ranA []) Dict.empty [joinNode] = .ok s ∧
      WaitingAsInEngine joinGraph (ranA []) Dict.empty compareNames [joinNode] s :=
  ⟨_, rfl, (waitingAsInEngine_iff rfl).mpr (by decide)⟩

def joinWorkflow : Workflow :=
  let feeds (input : ℕ) : INodeConnections := Dict.empty.set .main [some [⟨"Join", .main, input⟩]]
  let connections := ((Dict.empty.set "A" (feeds 0)).set "B" (feeds 1)).set "C" (feeds 2)
  { nodes := Dict.empty.set "Join" joinNode
    connectionsBySourceNode := connections
    connectionsByDestinationNode := mapConnectionsByDestination connections
    settings := ⟨some .v1⟩ }

/-- `A` has an item.  When `B` delivers another one, the node goes to the stack
without data for its third input. -/
theorem not_waitingAsInEngine_join :
    ∃ s, recreateNodeExecutionStack compareNames joinGraph (ranA [{}]) Dict.empty [joinNode]
        = .ok s ∧
      ¬ WaitingAsInEngine joinGraph (ranA [{}]) Dict.empty compareNames [joinNode] s := by
  refine ⟨_, rfl, fun h => ?_⟩
  have hinputs : joinWorkflow.numberOfInputs "Join" = 3 := rfl
  have hlate := h.released joinWorkflow "Join" (by decide) rfl
    [(Dict.empty, ⟨⟨"Join", .main, 1⟩, 0, "B", some [.data [{}]], 0, none, none⟩)]
    (fun c hc => by
      rw [List.mem_singleton.mp hc]
      exact ⟨rfl, by decide, _, rfl⟩)
    { node := some joinNode
      data := mainOnly [.data [{}], .data [{}]]
      source := some (mainOnly [.data ⟨"A", some 0, some 0⟩, .data ⟨"B", some 0, some 0⟩]) }
    (by decide)
  rcases hlate with hmem | hforced | ⟨main, hdata, hlength, -⟩
  · cases hmem
  · revert hforced
    decide
  · have hmain : some [.data [{}], .data [{}]] = some main := by
      have h := congrArg (·.get? .main) hdata
      rwa [mainOnly_get?_main, mainOnly_get?_main] at h
    rw [hinputs, ← Option.some_inj.mp hmain] at hlength
    cases hlength

end N8n
