/-
The round trip from a `DirectedGraph` to a `Workflow` and back.

`toIConnections` succeeds iff no connection starts at a node with an inherited
name and all connections of a node have one type (`exists_toIConnections_iff`).
What it builds lists exactly the connections it was given, in the order
`exportOrder`.  Reading the workflow back files them under their keys again.

* `roundTrips_iff_representable` — **the round trip returns the nodes and the
  connections that were added iff their keys are distinct, each node has
  connections of one type, and no name collides with a property that every
  object has**.
-/
import N8n.DirectedGraph

namespace N8n

variable (cs : List GraphConnection)

def sources : List String :=
  cs.foldl (fun names c => if c.fromName ∈ names then names else names ++ [c.fromName]) []

/-- Every output index is below this bound. -/
def outputBound : ℕ :=
  cs.foldr (fun c bound => max (c.outputIndex + 1) bound) 0

def onOutput (name : String) (output : ℕ) : List GraphConnection :=
  cs.filter (fun c => c.fromName = name ∧ c.outputIndex = output)

/-- The order in which the exported map lists the connections: by source, in
property order, then by output, then as they were added. -/
def exportOrder : List GraphConnection :=
  (Dict.propertyOrder (sources cs)).flatMap fun name =>
    (List.range (outputBound cs)).flatMap fun output => onOutput cs name output

/-- The link a connection is exported as. -/
def GraphConnection.link (c : GraphConnection) : Link :=
  ⟨c.fromName, c.type, c.outputIndex, ⟨c.toName, c.type, c.inputIndex⟩⟩

theorem sources_append (c : GraphConnection) :
    sources (cs ++ [c]) = if c.fromName ∈ sources cs then sources cs
      else sources cs ++ [c.fromName] := by
  rw [sources, List.foldl_append]
  rfl

theorem mem_sources {cs : List GraphConnection} {name : String} :
    name ∈ sources cs ↔ ∃ c ∈ cs, c.fromName = name := by
  induction cs using List.reverseRecOn with
  | nil => simp [sources]
  | append_singleton cs c ih =>
    rw [sources_append]
    have hsnoc : (∃ c' ∈ cs ++ [c], c'.fromName = name) ↔
        (∃ c' ∈ cs, c'.fromName = name) ∨ c.fromName = name := by
      simp only [List.mem_append, List.mem_singleton, or_and_right, exists_or, exists_eq_left]
    rw [hsnoc, ← ih]
    split
    · next hin =>
      constructor
      · exact Or.inl
      · rintro (h | rfl)
        · exact h
        · exact hin
    · rw [List.mem_append, List.mem_singleton, eq_comm (a := name)]

variable {c : GraphConnection}

theorem outputIndex_lt_outputBound {cs : List GraphConnection}
    (h : c ∈ cs) : c.outputIndex < outputBound cs := by
  induction cs with
  | nil => cases h
  | cons d cs ih =>
    show c.outputIndex < max (d.outputIndex + 1) (outputBound cs)
    rcases List.mem_cons.mp h with rfl | h
    · omega
    · have := ih h
      omega

theorem mem_onOutput {cs : List GraphConnection} {name : String} {output : ℕ} :
    c ∈ onOutput cs name output ↔ c ∈ cs ∧ c.fromName = name ∧ c.outputIndex = output := by
  simp [onOutput]

theorem onOutput_append (cs ds : List GraphConnection) (name : String) (output : ℕ) :
    onOutput (cs ++ ds) name output = onOutput cs name output ++ onOutput ds name output :=
  List.filter_append ..

@[simp] theorem mem_exportOrder {cs : List GraphConnection} :
    c ∈ exportOrder cs ↔ c ∈ cs := by
  have hperm : ∀ names : List String, (Dict.propertyOrder names).Perm names := by
    intro names
    have hnot : (fun k => (Dict.arrayIndex? k).isNone)
        = fun k => !(Dict.arrayIndex? k).isSome := by
      funext k
      exact (Option.not_isSome _).symm
    rw [Dict.propertyOrder, hnot]
    exact ((List.perm_insertionSort _ _).append_right _).trans (List.filter_append_perm _ _)
  simp only [exportOrder, List.mem_flatMap, (hperm _).mem_iff, mem_sources, List.mem_range,
    mem_onOutput]
  constructor
  · rintro ⟨_, -, _, -, h, -, -⟩
    exact h
  · intro h
    exact ⟨c.fromName, ⟨c, h, rfl⟩, c.outputIndex, outputIndex_lt_outputBound h, h, rfl, rfl⟩

theorem flatMap_range_eq {α : Type*} {f : ℕ → List α} {m n : ℕ} (hm : ∀ i, m ≤ i → f i = [])
    (hn : ∀ i, n ≤ i → f i = []) : (List.range m).flatMap f = (List.range n).flatMap f := by
  have key : ∀ {a b : ℕ}, a ≤ b → (∀ i, a ≤ i → f i = []) →
      (List.range b).flatMap f = (List.range a).flatMap f := by
    intro a b hab ha
    obtain ⟨k, rfl⟩ := Nat.exists_eq_add_of_le hab
    rw [List.range_add, List.flatMap_append, List.flatMap_map]
    have hrest : (List.range k).flatMap (fun i => f (a + i)) = [] := by
      rw [List.flatMap_eq_nil_iff]
      exact fun i _ => ha (a + i) (Nat.le_add_right a i)
    rw [hrest, List.append_nil]
  rcases Nat.le_total m n with h | h
  · exact (key h hm).symm
  · exact key h hn

/-- The conditions under which the export does not throw. -/
structure Exportable : Prop where
  own : ∀ c ∈ cs, c.fromName ∉ DirectedGraph.inheritedNames
  type : ∀ a ∈ cs, ∀ b ∈ cs, a.fromName = b.fromName → a.type = b.type

structure Exported (result : IConnections) : Prop where
  keys : result.keys = sources cs
  outputs : ∀ c ∈ cs, ∃ outputs, result.get? c.fromName = some (Dict.empty.set c.type outputs) ∧
    ∀ i, ((outputs[i]?).join).getD []
      = (onOutput cs c.fromName i).map (fun c => ⟨c.toName, c.type, c.inputIndex⟩)

theorem getElem?_pushOutput (outputs : NodeInputConnections) (index i : ℕ) (c : IConnection) :
    (((DirectedGraph.pushOutput outputs index c)[i]?).join).getD []
      = ((outputs[i]?).join).getD [] ++ if i = index then [c] else [] := by
  rw [DirectedGraph.pushOutput]
  split
  · next h =>
    rw [List.getElem?_modify]
    by_cases hi : i = index
    · subst hi
      rw [List.getElem?_eq_getElem h]
      simp
    · rcases outputs[i]? with _ | _ | _ <;> simp [hi, Ne.symm hi]
  · next h =>
    rw [not_lt] at h
    by_cases hlt : i < outputs.length
    · have hi : i ≠ index := by omega
      rw [List.append_assoc, List.getElem?_append_left hlt, if_neg hi, List.append_nil]
    · rw [List.getElem?_eq_none (l := outputs) (by omega), List.append_assoc,
        List.getElem?_append_right (by omega)]
      by_cases hi : i = index
      · subst hi
        rw [if_pos rfl, List.getElem?_append_right (by simp), List.length_replicate,
          Nat.sub_self]
        rfl
      · rw [if_neg hi]
        rcases Nat.lt_or_ge i index with h' | h'
        · rw [List.getElem?_append_left (by simp; omega), List.getElem?_replicate,
            if_pos (by omega)]
          rfl
        · rw [List.getElem?_eq_none (by simp; omega)]
          rfl

theorem flatMap_zipIdx_eq {β : Type*} (slots : NodeInputConnections)
    (f : List IConnection → ℕ → List β) :
    slots.zipIdx.flatMap (fun s => f (s.1.getD []) s.2)
      = (List.range slots.length).flatMap (fun i => f (((slots[i]?).join).getD []) i) := by
  have hzip : slots.zipIdx = (List.range slots.length).map (fun i => ((slots[i]?).join, i)) := by
    refine List.ext_getElem (by simp) fun i h1 h2 => ?_
    have hi : i < slots.length := by simpa using h1
    simp [List.getElem?_eq_getElem hi]
  rw [hzip, List.flatMap_map]

section Export

variable {cs : List GraphConnection} {result : IConnections} {c : GraphConnection}

theorem Exported.type (h : Exported cs result) {a b : GraphConnection} (ha : a ∈ cs) (hb : b ∈ cs)
    (hfrom : a.fromName = b.fromName) : a.type = b.type := by
  obtain ⟨outputs, hget, -⟩ := h.outputs a ha
  obtain ⟨outputs', hget', -⟩ := h.outputs b hb
  rw [hfrom, hget', Option.some_inj] at hget
  have hkeys := congrArg Dict.keys hget
  rw [Dict.keys_set, Dict.keys_set] at hkeys
  simpa using hkeys.symm

theorem Exported.target (h : Exported cs result) (c : GraphConnection) :
    (∃ a ∈ cs, a.fromName = c.fromName ∧ ∃ outputs,
      (result.get? c.fromName).getD (Dict.empty.set c.type []) = Dict.empty.set a.type outputs ∧
      ∀ i, ((outputs[i]?).join).getD []
        = (onOutput cs c.fromName i).map (fun c => ⟨c.toName, c.type, c.inputIndex⟩)) ∨
    (c.fromName ∉ sources cs ∧
      (result.get? c.fromName).getD (Dict.empty.set c.type []) = Dict.empty.set c.type []) := by
  by_cases hsource : c.fromName ∈ sources cs
  · obtain ⟨a, ha, hfrom⟩ := mem_sources.mp hsource
    obtain ⟨outputs, hget, houtputs⟩ := h.outputs a ha
    rw [hfrom] at hget houtputs
    exact Or.inl ⟨a, ha, hfrom, outputs, by rw [hget, Option.getD_some], houtputs⟩
  · refine Or.inr ⟨hsource, ?_⟩
    rw [← h.keys, ← Dict.get?_eq_none_iff] at hsource
    rw [hsource, Option.getD_none]

/-- Step lemma: a connection of an own name and of the type of its node is
exported, and no other. -/
theorem Exported.exportConnection (h : Exported cs result) (c : GraphConnection) :
    (c.fromName ∉ DirectedGraph.inheritedNames ∧ (∀ a ∈ cs, a.fromName = c.fromName → a.type = c.type)
      ∧ ∃ result', DirectedGraph.exportConnection result c = .ok result' ∧
        Exported (cs ++ [c]) result') ∨
    (¬ Exportable (cs ++ [c]) ∧ DirectedGraph.exportConnection result c = .error .typeError) := by
  by_cases hown : c.fromName ∈ DirectedGraph.inheritedNames
  · refine Or.inr ⟨fun hexp => hexp.own c (by simp) hown, ?_⟩
    rw [DirectedGraph.exportConnection, if_pos hown]
  -- the array of the type that the connection is pushed to, if there is one
  obtain ⟨type, outputs, htarget, houtputs, htype, hold⟩ : ∃ type outputs,
      (result.get? c.fromName).getD (Dict.empty.set c.type []) = Dict.empty.set type outputs ∧
      (∀ i, ((outputs[i]?).join).getD []
        = (onOutput cs c.fromName i).map (fun c => ⟨c.toName, c.type, c.inputIndex⟩)) ∧
      (type ≠ c.type → ∃ a ∈ cs, a.fromName = c.fromName ∧ a.type ≠ c.type) ∧
      ∀ a ∈ cs, a.fromName = c.fromName → a.type = type := by
    rcases h.target c with ⟨a, ha, hfrom, outputs, htarget, houtputs⟩ | ⟨hnew, htarget⟩
    · refine ⟨a.type, outputs, htarget, houtputs, fun hne => ⟨a, ha, hfrom, hne⟩, ?_⟩
      exact fun b hb hbfrom => h.type hb ha (hbfrom.trans hfrom.symm)
    · have hnone : ∀ i, onOutput cs c.fromName i = [] := by
        intro i
        rw [List.eq_nil_iff_forall_not_mem]
        intro b hb
        exact hnew (mem_sources.mpr ⟨b, (mem_onOutput.mp hb).1, (mem_onOutput.mp hb).2.1⟩)
      refine ⟨c.type, [], htarget, fun i => by rw [hnone]; rfl, fun hne => absurd rfl hne, ?_⟩
      exact fun b hb hbfrom => absurd (mem_sources.mpr ⟨b, hb, hbfrom⟩) hnew
  by_cases hsame : type = c.type
  · subst hsame
    refine Or.inl ⟨hown, hold, ?_⟩
    have hcall : DirectedGraph.exportConnection result c = .ok (result.set c.fromName
        (Dict.empty.set c.type
          (DirectedGraph.pushOutput outputs c.outputIndex ⟨c.toName, c.type, c.inputIndex⟩))) := by
      rw [DirectedGraph.exportConnection, if_neg hown, htarget]
      simp only [Dict.get?_set_self, Dict.set_set]
    refine ⟨_, hcall, ?_, ?_⟩
    · rw [Dict.keys_set, h.keys, sources_append]
    · intro a ha
      rw [Dict.get?_set]
      split
      · next hfrom =>
        have hatype : a.type = c.type := by
          rcases List.mem_append.mp ha with ha | ha
          · exact hold a ha hfrom
          · rw [List.mem_singleton.mp ha]
        refine ⟨_, by rw [hatype], fun i => ?_⟩
        rw [getElem?_pushOutput, houtputs, hfrom, onOutput_append, List.map_append]
        congr 1
        by_cases hi : i = c.outputIndex
        · simp [onOutput, hi]
        · simp [onOutput, hi, Ne.symm hi]
      · next hfrom =>
        have hmem : a ∈ cs := by
          rcases List.mem_append.mp ha with ha | ha
          · exact ha
          · exact absurd (by rw [List.mem_singleton.mp ha]) hfrom
        obtain ⟨outputs', hget, houtputs'⟩ := h.outputs a hmem
        refine ⟨outputs', hget, fun i => ?_⟩
        rw [houtputs', onOutput_append]
        simp [onOutput, Ne.symm hfrom]
  · obtain ⟨a, ha, hfrom, hne⟩ := htype hsame
    refine Or.inr ⟨fun hexp => hne (hexp.type a (by simp [ha]) c (by simp) hfrom), ?_⟩
    rw [DirectedGraph.exportConnection, if_neg hown, htarget]
    simp only [Dict.get?_set, Ne.symm hsame, if_false, Dict.get?_empty]

theorem exported_nil : Exported [] Dict.empty := by
  refine ⟨rfl, fun c hc => ?_⟩
  cases hc

theorem export_spec (cs : List GraphConnection) :
    (Exportable cs ∧ ∃ result, cs.foldlM DirectedGraph.exportConnection Dict.empty = .ok result ∧
      Exported cs result) ∨
    (¬ Exportable cs ∧ ∃ e, cs.foldlM DirectedGraph.exportConnection Dict.empty = .error e) := by
  induction cs using List.reverseRecOn with
  | nil =>
    refine Or.inl ⟨⟨?_, ?_⟩, Dict.empty, rfl, exported_nil⟩
    · intro c hc
      cases hc
    · intro a ha
      cases ha
  | append_singleton cs c ih =>
    rw [List.foldlM_append]
    rcases ih with ⟨hexp, result, hfold, hexported⟩ | ⟨hnot, e, hfold⟩
    · rcases hexported.exportConnection c with ⟨hown, htype, result', hcall, hexported'⟩ | ⟨hnot, hcall⟩
      · refine Or.inl ⟨⟨?_, ?_⟩, result', ?_, hexported'⟩
        · intro a ha
          rcases List.mem_append.mp ha with ha | ha
          · exact hexp.own a ha
          · rw [List.mem_singleton.mp ha]
            exact hown
        · intro a ha b hb hfrom
          rcases List.mem_append.mp ha with ha | ha <;> rcases List.mem_append.mp hb with hb | hb
          · exact hexp.type a ha b hb hfrom
          · rw [List.mem_singleton.mp hb] at hfrom ⊢
            exact htype a ha hfrom
          · rw [List.mem_singleton.mp ha] at hfrom ⊢
            exact (htype b hb hfrom.symm).symm
          · rw [List.mem_singleton.mp ha, List.mem_singleton.mp hb]
        · rw [hfold]
          show (DirectedGraph.exportConnection result c >>= fun r => pure r) = _
          rw [hcall]
          rfl
      · refine Or.inr ⟨hnot, .typeError, ?_⟩
        rw [hfold]
        show (DirectedGraph.exportConnection result c >>= fun r => pure r) = _
        rw [hcall]
        rfl
    · refine Or.inr ⟨fun hexp => hnot ⟨?_, ?_⟩, e, by rw [hfold]; rfl⟩
      · exact fun a ha => hexp.own a (List.mem_append_left _ ha)
      · exact fun a ha b hb => hexp.type a (List.mem_append_left _ ha) b (List.mem_append_left _ hb)

/-- **The exported map lists the connections in export order.** -/
theorem links_exported (h : Exported cs result) :
    links result = (exportOrder cs).map GraphConnection.link := by
  rw [links, Dict.objectKeys, h.keys, exportOrder, List.map_flatMap]
  refine List.flatMap_congr fun name hname => ?_
  have hsource : name ∈ sources cs := by
    rw [← h.keys, ← Dict.mem_objectKeys, Dict.objectKeys, h.keys]
    exact hname
  obtain ⟨a, ha, rfl⟩ := mem_sources.mp hsource
  obtain ⟨outputs, hget, houtputs⟩ := h.outputs a ha
  rw [hget, Option.getD_some, linksOfNode]
  show linksOfArray a.fromName a.type outputs ++ [] = _
  rw [List.append_nil, linksOfArray, List.map_flatMap, flatMap_zipIdx_eq outputs
    (fun cs i => cs.map fun c => (⟨a.fromName, a.type, i, c⟩ : Link))]
  have hrange : ∀ i, (((outputs[i]?).join).getD []).map
      (fun c => (⟨a.fromName, a.type, i, c⟩ : Link))
        = (onOutput cs a.fromName i).map GraphConnection.link := by
    intro i
    rw [houtputs, List.map_map]
    refine List.map_congr_left fun c hc => ?_
    obtain ⟨hmem, hfrom, hout⟩ := mem_onOutput.mp hc
    rw [GraphConnection.link, hfrom, hout, ← h.type hmem ha hfrom]
    rfl
  simp only [hrange]
  refine flatMap_range_eq (fun i hi => ?_) (fun i hi => ?_)
  · rw [← hrange, List.getElem?_eq_none hi]
    rfl
  · rw [List.map_eq_nil_iff, List.eq_nil_iff_forall_not_mem]
    intro c hc
    obtain ⟨hmem, -, hout⟩ := mem_onOutput.mp hc
    have := outputIndex_lt_outputBound hmem
    omega

end Export

/-- The connection a link is imported as. -/
def Link.graphConnection (l : Link) : GraphConnection :=
  ⟨l.node, l.connection.node, l.type, l.index, l.connection.index⟩

namespace DirectedGraph

theorem nodes_setNodes (w : Workflow) (nodes : List INode) :
    (w.setNodes nodes).nodes
      = (addNodes {} (nodes.filter (fun n => n.name ≠ "__proto__"))).nodes := by
  rw [Workflow.setNodes]
  show nodes.foldl Workflow.putNode Dict.empty = _
  induction nodes using List.reverseRecOn with
  | nil => rfl
  | append_singleton nodes n ih =>
    rw [List.foldl_append, List.filter_append, ih]
    by_cases hn : n.name = "__proto__"
    · simp [Workflow.putNode, hn]
    · simp [Workflow.putNode, hn, addNodes_append, addNode]

variable {g : DirectedGraph}

theorem get?_setNodes (h : Valid g) (w : Workflow) {name : String}
    {node : INode} :
    (w.setNodes g.nodes.values).nodes.get? name = some node ↔
      g.nodes.get? name = some node ∧ name ≠ "__proto__" := by
  have hnodup : ((g.nodes.values.filter (fun n => n.name ≠ "__proto__")).map (·.name)).Nodup :=
    h.nodup_names.sublist (List.Sublist.map _ List.filter_sublist)
  rw [nodes_setNodes, get?_addNodes hnodup, List.mem_filter, h.mem_nodes, decide_eq_true_eq]
  constructor
  · rintro ⟨⟨hget, hproto⟩, rfl⟩
    exact ⟨hget, hproto⟩
  · rintro ⟨hget, hproto⟩
    have hname := h.node name node hget
    subst hname
    exact ⟨⟨hget, hproto⟩, rfl⟩

def importedNodes (w : Workflow) : DirectedGraph :=
  addNodes {} (w.nodes.objectKeys.filterMap w.getNode)

variable {w : Workflow}

theorem get?_importedNodes
    (hw : ∀ name node, w.getNode name = some node → node.name = name) (name : String) :
    (importedNodes w).nodes.get? name = w.getNode name := by
  have hnames : ∀ names : List String,
      (names.filterMap w.getNode).map (·.name) = names.filter (fun n => (w.getNode n).isSome) := by
    intro names
    induction names with
    | nil => rfl
    | cons n names ih =>
      rcases hn : w.getNode n with _ | node
      · rw [List.filterMap_cons_none hn, ih, List.filter_cons_of_neg (by simp [hn])]
      · rw [List.filterMap_cons_some hn, List.map_cons, ih, hw n node hn,
          List.filter_cons_of_pos (by simp [hn])]
  have hnodup : ((w.nodes.objectKeys.filterMap w.getNode).map (·.name)).Nodup := by
    rw [hnames]
    exact (Dict.nodup_objectKeys w.nodes).filter _
  apply Option.ext
  intro node
  rw [importedNodes, get?_addNodes hnodup, List.mem_filterMap]
  constructor
  · rintro ⟨⟨n, -, hn⟩, rfl⟩
    rwa [hw n node hn]
  · intro hnode
    refine ⟨⟨name, ?_, hnode⟩, hw name node hnode⟩
    rw [Dict.mem_objectKeys, Dict.mem_keys_iff]
    exact ⟨node, hnode⟩

theorem importLink_eq_ok {l : Link} {fromNode toNode : INode}
    (hfrom : w.getNode l.node = some fromNode) (hto : w.getNode l.connection.node = some toNode)
    (hfromName : fromNode.name = l.node) (htoName : toNode.name = l.connection.node)
    (hnodes : ∀ name, g.nodes.get? name = w.getNode name) :
    importLink w g l = .ok (g.putConnection l.graphConnection) := by
  rw [importLink, hfrom, hto]
  show g.addConnection _ = _
  rw [addConnection, if_pos ⟨by rw [hnodes, hfromName, hfrom], by rw [hnodes, htoName, hto]⟩,
    ConnectionInput.connection, Link.graphConnection, hfromName, htoName]

theorem fromWorkflow_eq_ok
    (hw : ∀ name node, w.getNode name = some node → node.name = name)
    (hkeys : ∀ name ∈ w.connectionsBySourceNode.keys, ∃ node, w.getNode name = some node)
    (hlinks : ∀ l ∈ links w.connectionsBySourceNode, ∃ node, w.getNode l.connection.node = some node) :
    fromWorkflow w = .ok (((links w.connectionsBySourceNode).map Link.graphConnection).foldl
      putConnection (importedNodes w)) := by
  have hall : w.connectionsBySourceNode.keys.all (fun name => (w.getNode name).isSome) = true := by
    rw [List.all_eq_true]
    intro name hname
    rw [Option.isSome_iff_exists]
    exact hkeys name hname
  rw [fromWorkflow, if_pos hall, List.foldl_map]
  refine foldlM_eq_ok (I := fun g => g.nodes = (importedNodes w).nodes) ?_ rfl
  intro g hg l hl
  obtain ⟨byType, -, -, hget, -⟩ := mem_links.mp hl
  obtain ⟨fromNode, hfrom⟩ := hkeys l.node (Dict.mem_keys_iff.mpr ⟨byType, hget⟩)
  obtain ⟨toNode, hto⟩ := hlinks l hl
  refine ⟨importLink_eq_ok hfrom hto (hw _ _ hfrom) (hw _ _ hto) ?_, hg⟩
  intro name
  rw [hg, get?_importedNodes hw]

def build (nodes : List INode) (added : List ConnectionInput) : Except JsError DirectedGraph :=
  (addNodes {} nodes).addConnections added

/-- The round trip succeeds with the nodes of the graph and the connections
that were added. -/
def RoundTrips (settings : IWorkflowSettings) (added : List ConnectionInput) (g : DirectedGraph) :
    Prop :=
  ∃ g', (g.toWorkflow settings >>= fromWorkflow) = .ok g' ∧
    (∀ name, g'.nodes.get? name = g.nodes.get? name) ∧
    ∀ c, c ∈ g'.getConnections ↔ ∃ i ∈ added, i.connection = c

/-- What the names and types have to be like for the round trip. -/
structure Representable (added : List ConnectionInput) (g : DirectedGraph) : Prop where
  /-- distinct connections have distinct keys -/
  key : ∀ a ∈ added, ∀ b ∈ added, makeKey a.connection = makeKey b.connection →
    a.connection = b.connection
  /-- the connections of a node have one type -/
  type : ∀ a ∈ added, ∀ b ∈ added, a.fromNode.name = b.fromNode.name → a.type = b.type
  /-- no connection starts at a node named like a property of every object -/
  own : ∀ a ∈ added, a.fromNode.name ∉ inheritedNames
  /-- no node is named `__proto__` -/
  proto : "__proto__" ∉ g.nodes.keys
  /-- only the connection exported last can lead to a node `hasOwnProperty` -/
  order : ∀ c ∈ (exportOrder g.getConnections).dropLast, c.toName ≠ "hasOwnProperty"

section RoundTrip

variable {nodes : List INode} {added : List ConnectionInput} {g : DirectedGraph}

theorem build_eq_ok (h : build nodes added = .ok g) :
    Valid g ∧ (∀ i ∈ added, g.nodes.get? i.fromNode.name = some i.fromNode ∧
      g.nodes.get? i.toNode.name = some i.toNode) ∧
    (∀ c ∈ g.getConnections, ∃ i ∈ added, i.connection = c) ∧
    ((∀ a ∈ added, ∀ b ∈ added, makeKey a.connection = makeKey b.connection →
      a.connection = b.connection) → ∀ i ∈ added, i.connection ∈ g.getConnections) := by
  obtain ⟨hends, rfl⟩ := addConnections_eq_ok.mp h
  have hstart : Valid (addNodes {} nodes) := valid_empty.addNodes nodes
  have hnone := getConnections_addNodes nodes
  refine ⟨hstart.putConnections _, ?_, ?_, ?_⟩
  · intro i hi
    rw [nodes_putConnections]
    exact hends i hi
  · intro c hc
    rcases hstart.mem_of_mem_putConnections hc with hc | hc
    · rw [hnone] at hc
      cases hc
    · obtain ⟨i, hi, hic⟩ := List.mem_map.mp hc
      exact ⟨i, hi, hic⟩
  · intro hinj i hi
    rw [hstart.mem_putConnections]
    · exact Or.inr (List.mem_map_of_mem hi)
    · intro a ha b hb hkey
      rw [hnone, List.nil_append, List.mem_map] at ha hb
      obtain ⟨i, hi, rfl⟩ := ha
      obtain ⟨j, hj, rfl⟩ := hb
      exact hinj i hi j hj hkey

theorem hidesHasOwnProperty_exported {cs : List GraphConnection} {result : IConnections}
    (hexp : Exportable cs) (h : Exported cs result) :
    Workflow.hidesHasOwnProperty result = true ↔
      ∃ c ∈ (exportOrder cs).dropLast, c.toName = "hasOwnProperty" := by
  have hown : result.has "hasOwnProperty" = false := by
    rw [← Bool.not_eq_true, Dict.has_iff, h.keys, mem_sources]
    rintro ⟨c, hc, hname⟩
    exact hexp.own c hc (by rw [hname]; decide)
  rw [Workflow.hidesHasOwnProperty, hown, Bool.false_or, links_exported h, ← List.map_dropLast,
    List.any_map, List.any_eq_true]
  simp only [Function.comp_apply, decide_eq_true_eq]
  rfl

/-- **The round trip returns exactly what was added, iff the names and types
are representable.** -/
theorem roundTrips_iff_representable {settings : IWorkflowSettings}
    (h : build nodes added = .ok g) :
    RoundTrips settings added g ↔ Representable added g := by
  obtain ⟨hvalid, hends, hsub, hsuper⟩ := build_eq_ok h
  rcases export_spec g.getConnections with ⟨hexp, result, hresult, hexported⟩ | ⟨hnot, e, herror⟩
  · -- the export succeeds: what comes back depends on the names alone
    set w : Workflow := { ({} : Workflow).setNodes g.nodes.values with
      settings := settings
      connectionsBySourceNode := result
      connectionsByDestinationNode := mapConnectionsByDestination result } with hw
    have hto : g.toWorkflow settings =
        if Workflow.hidesHasOwnProperty result then .error .typeError else .ok w := by
      rw [toWorkflow, toIConnections, hresult]
      rfl
    have hnode : ∀ name node, w.getNode name = some node ↔
        g.nodes.get? name = some node ∧ name ≠ "__proto__" := fun name node => get?_setNodes hvalid {}
    have hname : ∀ name node, w.getNode name = some node → node.name = name :=
      fun name node hget => hvalid.node name node ((hnode name node).mp hget).1
    constructor
    · rintro ⟨g', hbind, hnodes, hconns⟩
      obtain ⟨w', hw', hfrom⟩ := exists_of_bind_eq_ok hbind
      rw [hto] at hw'
      split at hw'
      · cases hw'
      · next hhides =>
        cases hw'
        obtain ⟨⟨hvalid', -, -⟩, hnodes'⟩ := closed_fromWorkflow hfrom
        have hkey : ∀ a ∈ added, ∀ b ∈ added, makeKey a.connection = makeKey b.connection →
            a.connection = b.connection := by
          intro a ha b hb hkey
          have hgeta := hvalid'.mem_getConnections.mp ((hconns _).mpr ⟨a, ha, rfl⟩)
          have hgetb := hvalid'.mem_getConnections.mp ((hconns _).mpr ⟨b, hb, rfl⟩)
          rw [hkey, hgetb] at hgeta
          exact (Option.some_inj.mp hgeta).symm
        have hin := hsuper hkey
        refine ⟨hkey, ?_, ?_, ?_, ?_⟩
        · exact fun a ha b hb hab => hexp.type _ (hin a ha) _ (hin b hb) hab
        · exact fun a ha => hexp.own _ (hin a ha)
        · intro hproto
          obtain ⟨node, hget⟩ := Dict.mem_keys_iff.mp hproto
          rw [← hnodes, hnodes', ← importedNodes, get?_importedNodes hname, hnode] at hget
          exact hget.2 rfl
        · intro c hc hto
          exact hhides ((hidesHasOwnProperty_exported hexp hexported).mpr ⟨c, hc, hto⟩)
    · intro hrep
      have hhides : Workflow.hidesHasOwnProperty result = false := by
        rw [← Bool.not_eq_true, hidesHasOwnProperty_exported hexp hexported]
        rintro ⟨c, hc, hto⟩
        exact hrep.order c hc hto
      have hpresent : ∀ name node, g.nodes.get? name = some node → w.getNode name = some node := by
        intro name node hget
        refine (hnode name node).mpr ⟨hget, ?_⟩
        rintro rfl
        exact hrep.proto (Dict.mem_keys_iff.mpr ⟨node, hget⟩)
      have hlinks : (links result).map Link.graphConnection = exportOrder g.getConnections := by
        rw [links_exported hexported, List.map_map]
        exact List.map_id _
      have hread := fromWorkflow_eq_ok (w := w) hname ?_ ?_
      · refine ⟨((links result).map Link.graphConnection).foldl putConnection (importedNodes w),
          ?_, ?_, ?_⟩
        · rw [hto, hhides]
          exact hread
        · intro name
          rw [nodes_putConnections, get?_importedNodes hname]
          apply Option.ext
          intro node
          constructor
          · exact fun hget => ((hnode name node).mp hget).1
          · exact hpresent name node
        · intro c
          rw [hlinks, importedNodes, (valid_empty.addNodes _).mem_putConnections,
            getConnections_addNodes, mem_exportOrder]
          · constructor
            · rintro (hc | hc)
              · cases hc
              · exact hsub c hc
            · rintro ⟨i, hi, rfl⟩
              exact Or.inr (hsuper hrep.key i hi)
          · intro a ha b hb hkey
            rw [getConnections_addNodes, List.nil_append, mem_exportOrder] at ha hb
            obtain ⟨i, hi, rfl⟩ := hsub a ha
            obtain ⟨j, hj, rfl⟩ := hsub b hb
            exact hrep.key i hi j hj hkey
      · intro name hmem
        have hsource : name ∈ sources g.getConnections := hexported.keys ▸ hmem
        obtain ⟨c, hc, rfl⟩ := mem_sources.mp hsource
        obtain ⟨i, hi, rfl⟩ := hsub c hc
        exact ⟨_, hpresent _ _ (hends i hi).1⟩
      · intro l hl
        have hl : l ∈ links result := hl
        rw [links_exported hexported, List.mem_map] at hl
        obtain ⟨c, hc, rfl⟩ := hl
        obtain ⟨i, hi, rfl⟩ := hsub c (mem_exportOrder.mp hc)
        exact ⟨_, hpresent _ _ (hends i hi).2⟩
  · -- the export throws: then a name or a type is not representable
    refine iff_of_false ?_ ?_
    · rintro ⟨g', hbind, -⟩
      obtain ⟨w, hw, -⟩ := exists_of_bind_eq_ok hbind
      obtain ⟨result, hresult, -⟩ := exists_of_bind_eq_ok hw
      rw [toIConnections, herror] at hresult
      cases hresult
    · intro hrep
      refine hnot ⟨?_, ?_⟩
      · intro c hc
        obtain ⟨i, hi, rfl⟩ := hsub c hc
        exact hrep.own i hi
      · intro a ha b hb hab
        obtain ⟨i, hi, rfl⟩ := hsub a ha
        obtain ⟨j, hj, rfl⟩ := hsub b hb
        exact hrep.type i hi j hj hab

end RoundTrip

def twoBranches : List ConnectionInput :=
  let node (name : String) : INode := { name := name }
  [⟨node "Trigger", node "10", .main, 0, 0⟩, ⟨node "Trigger", node "Merge", .main, 1, 0⟩,
    ⟨node "10", node "Merge", .main, 0, 1⟩, ⟨node "Trigger", node "Merge", .main, 2, 1⟩]

def twoBranchesNodes : List INode := [{ name := "Trigger" }, { name := "10" }, { name := "Merge" }]

def twoBranchesGraph : DirectedGraph :=
  (twoBranches.map ConnectionInput.connection).foldl putConnection (addNodes {} twoBranchesNodes)

theorem twoBranches_roundTrips : RoundTrips {} twoBranches twoBranchesGraph := by
  have hbuild : build twoBranchesNodes twoBranches = .ok twoBranchesGraph := rfl
  exact (roundTrips_iff_representable hbuild).mpr
    ⟨by decide, by decide, by decide, by decide, by decide⟩

def twoTypes : List ConnectionInput :=
  let node (name : String) : INode := { name := name }
  [⟨node "Store", node "Set", .main, 0, 0⟩, ⟨node "Store", node "Agent", .aiTool, 0, 0⟩]

def twoTypesNodes : List INode := [{ name := "Store" }, { name := "Set" }, { name := "Agent" }]

/-- The export of a node with connections of two types throws. -/
theorem twoTypes_not_roundTrips :
    ∃ g, build twoTypesNodes twoTypes = .ok g ∧ ¬ RoundTrips {} twoTypes g := by
  refine ⟨_, rfl, ?_⟩
  rintro ⟨g', hbind, -⟩
  obtain ⟨w, hw, -⟩ := exists_of_bind_eq_ok hbind
  obtain ⟨connections, hconnections, -⟩ := exists_of_bind_eq_ok hw
  cases hconnections

end DirectedGraph

end N8n
