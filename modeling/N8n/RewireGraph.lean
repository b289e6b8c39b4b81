/-
Executing a single tool: `rewireGraph`.

The agent at the root of the tool's connections is replaced by an executor for the tool.  The
root is taken to be the last of the nodes that the depth-first traversal of all connections of
the tool discovers, and of the connections of the root only source and type are kept.

* `replaced_iff` — **when exactly the root is replaced**.
-/
import N8n.GraphWalks

namespace N8n.RewireGraph

open DirectedGraph

def toolExecutorNodeName : String := "PartialExecutionToolExecutor"

structure AiAgentRequest where
  query : JsValue
  toolName : Option String

/-- The virtual agent node; `stringify` is `JSON.stringify`. -/
def toolExecutor (stringify : JsValue → String) (agentRequest : Option AiAgentRequest)
    (tool : INode) : INode where
  name := toolExecutorNodeName
  disabled := some false
  type := "@n8n/n8n-nodes-langchain.toolExecutor"
  parameters := .object [
    ("query", .string (stringify ((agentRequest.map AiAgentRequest.query).getD (.object [])))),
    ("toolName", .string ((agentRequest.bind AiAgentRequest.toolName).getD "")),
    ("node", .string tool.name)]
  typeVersion := 0
  position := (0, 0)

/-- The graph that is returned, and what is written to `tool.rewireOutputLogTo`. -/
structure Rewired where
  graph : DirectedGraph
  rewireOutputLogTo : Option NodeConnectionType := none

variable (g : DirectedGraph)

def removeNode (node : INode) : DirectedGraph :=
  { g.dropConnections node.name with nodes := g.nodes.erase node.name }

def rewireConnection (modifiedGraph : DirectedGraph) (executor : INode) (g : DirectedGraph)
    (cn : GraphConnection) : Except JsError DirectedGraph :=
  match modifiedGraph.nodes.get? cn.fromName with
  | some fromNode => g.addConnection { fromNode, toNode := executor, type := cn.type }
  | none => .error .assertionError

def rewireGraph (stringify : JsValue → String) (tool : INode) (graph : DirectedGraph)
    (agentRequest : Option AiAgentRequest) : Except JsError Rewired := do
  let modifiedGraph ← graph.clone
  if modifiedGraph.nodes.get? tool.name ≠ some tool then throw .assertionError
  let children ← modifiedGraph.getChildren tool.name
  match children.getLast?.bind modifiedGraph.nodes.get? with
  | none => return { graph }
  | some rootNode =>
    let allIncomingConnection := (← modifiedGraph.getDirectParentConnections rootNode).filter
      fun cn => cn.type = .main
    let executor := toolExecutor stringify agentRequest tool
    let g ← (modifiedGraph.addNode executor).addConnection
      { fromNode := tool, toNode := executor, type := .aiTool }
    let g ← allIncomingConnection.foldlM (rewireConnection modifiedGraph executor) g
    return { graph := removeNode g rootNode, rewireOutputLogTo := some .aiTool }

/-- A connection of another type than main leads from one node to the other. -/
def LeadsNonMain (a b : String) : Prop :=
  ∃ c ∈ g.getConnections, c.type ≠ .main ∧ c.fromName = a ∧ c.toName = b

/-- A node that the tool reaches through such connections and that has none itself. -/
structure IsRoot (tool root : String) : Prop where
  reaches : Relation.TransGen (LeadsNonMain g) tool root
  sink : ∀ c ∈ g.getConnections, c.type ≠ .main → c.fromName ≠ root

/-- A tool of a graph with its only root. -/
structure Rooted (tool root : INode) : Prop where
  closed : g.Closed
  hasTool : g.nodes.get? tool.name = some tool
  hasRoot : g.nodes.get? root.name = some root
  isRoot : IsRoot g tool.name root.name
  unique : ∀ other, IsRoot g tool.name other → other = root.name

def toolConnection (tool : INode) : GraphConnection where
  fromName := tool.name
  toName := toolExecutorNodeName
  type := .aiTool
  outputIndex := 0
  inputIndex := 0

/-- The graph has the executor in place of the root: its other nodes and their connections are
as they were, and the main connections of the root lead to the executor. -/
structure Replaced (tool root executor : INode) (result : DirectedGraph) : Prop where
  nodes : result.nodes.values.Perm (executor :: g.nodes.values.erase root)
  connections : ∀ c, c ∈ result.getConnections ↔
    (c ∈ g.getConnections ∧ c.toName ≠ root.name ∧ c.fromName ≠ root.name) ∨
    c = toolConnection tool ∨
    ∃ d ∈ g.getConnections, d.toName = root.name ∧ d.type = .main ∧
      c = { d with toName := toolExecutorNodeName }

/-- What lets exactly the root be replaced. -/
structure Replaceable (tool root : INode) : Prop where
  /-- Of the nodes below the tool the traversal discovers the root last. -/
  last : ∃ before, g.getChildren tool.name = .ok (before ++ [root.name])
  /-- No node has the name of the executor. -/
  executor : toolExecutorNodeName ∉ g.nodes.keys
  /-- The main connections of the root come from other nodes, from their first output, and lead
  to its first input. -/
  first : ∀ c ∈ g.getConnections, c.toName = root.name → c.type = .main →
    c.fromName ≠ root.name ∧ c.outputIndex = 0 ∧ c.inputIndex = 0
  /-- No connection that stays has the key of a new one. -/
  keys : ∀ c ∈ g.getConnections, c.toName ≠ root.name → c.fromName ≠ root.name →
    makeKey c ≠ makeKey (toolConnection tool) ∧
    ∀ d ∈ g.getConnections, d.toName = root.name → d.type = .main →
      makeKey c ≠ makeKey { d with toName := toolExecutorNodeName }

def newConnections (tool rootNode : INode) : List GraphConnection :=
  toolConnection tool :: ((g.pred rootNode.name).filter fun cn => cn.type = .main).map fun cn =>
    { fromName := cn.fromName, toName := toolExecutorNodeName, type := cn.type,
      outputIndex := 0, inputIndex := 0 }

def rewired (tool rootNode executor : INode) : DirectedGraph :=
  removeNode ((newConnections g tool rootNode).foldl putConnection (g.addNode executor)) rootNode

section

variable {stringify : JsValue → String} {agentRequest : Option AiAgentRequest}
  {g : DirectedGraph} {tool root rootNode : INode} {children : List String} {result : Rewired}

theorem eq_putConnection_of_addConnection {g g' : DirectedGraph} {i : ConnectionInput}
    (h : g.addConnection i = .ok g') : g' = g.putConnection i.connection := by
  rw [addConnection] at h
  split at h
  · exact (Except.ok.inj h).symm
  · cases h

section

variable (hg : g.Closed) (htool : g.nodes.get? tool.name = some tool)
  (hchildren : g.getChildren tool.name = .ok children)
include hg htool hchildren

section

variable (hroot : children.getLast?.bind g.nodes.get? = some rootNode)
include hroot

theorem rewireGraph_eq :
    rewireGraph stringify tool g agentRequest = do
      let executor := toolExecutor stringify agentRequest tool
      let h ← (g.addNode executor).addConnection
        { fromNode := tool, toNode := executor, type := .aiTool }
      let h ← ((g.pred rootNode.name).filter fun cn => cn.type = .main).foldlM
        (rewireConnection g executor) h
      return { graph := removeNode h rootNode, rewireOutputLogTo := some .aiTool } := by
  have hname : (g.nodes.get? rootNode.name) = some rootNode := by
    obtain ⟨name, -, hname⟩ := Option.bind_eq_some_iff.mp hroot
    rwa [hg.valid.node name rootNode hname]
  have hparents : g.getDirectParentConnections rootNode = .ok (g.pred rootNode.name) := by
    rw [getDirectParentConnections, if_pos hname]
    rfl
  simp only [rewireGraph, hg.clone_eq, hchildren, hroot, hparents, htool, ne_eq, not_true_eq_false,
    if_false, bind, Except.bind]

/-- **The graph that is returned** when a root was found. -/
theorem rewireGraph_eq_ok
    (h : rewireGraph stringify tool g agentRequest = .ok result) :
    result.graph = rewired g tool rootNode (toolExecutor stringify agentRequest tool) := by
  rw [rewireGraph_eq hg htool hchildren hroot] at h
  obtain ⟨g', hg', h⟩ := exists_of_bind_eq_ok h
  obtain ⟨g'', hg'', h⟩ := exists_of_bind_eq_ok h
  cases h
  have hfold := eq_foldl_of_foldlM_eq_ok (f := fun g (cn : GraphConnection) => g.putConnection
    { fromName := cn.fromName, toName := toolExecutorNodeName, type := cn.type,
      outputIndex := 0, inputIndex := 0 }) ?_ hg''
  · rw [hfold, eq_putConnection_of_addConnection hg', rewired, newConnections, List.foldl_cons,
      List.foldl_map]
    rfl
  · intro s cn s' hs
    rw [rewireConnection] at hs
    split at hs
    · next fromNode hfrom =>
      rw [eq_putConnection_of_addConnection hs, ConnectionInput.connection,
        hg.valid.node _ _ hfrom]
      rfl
    · cases hs

theorem exists_rewireGraph_eq_ok
    (hname : toolExecutorNodeName ∉ g.nodes.keys) :
    ∃ result, rewireGraph stringify tool g agentRequest = .ok result := by
  rw [rewireGraph_eq hg htool hchildren hroot]
  have hkeep : ∀ {name : String} {node : INode}, g.nodes.get? name = some node →
      (g.addNode (toolExecutor stringify agentRequest tool)).nodes.get? name = some node := by
    intro name node hnode
    rw [addNode, Dict.get?_set_of_ne _ ?_, hnode]
    rintro rfl
    exact hname (Dict.mem_keys_iff.mpr ⟨node, hnode⟩)
  have hnew : (g.addNode (toolExecutor stringify agentRequest tool)).nodes.get?
      toolExecutorNodeName = some (toolExecutor stringify agentRequest tool) :=
    Dict.get?_set_self _ _ _
  have hadd : ∀ {h : DirectedGraph} {name : String} {node : INode} (type : NodeConnectionType),
      h.nodes = (g.addNode (toolExecutor stringify agentRequest tool)).nodes →
      g.nodes.get? name = some node → ∃ h', h.addConnection
        { fromNode := node, toNode := toolExecutor stringify agentRequest tool, type } = .ok h' ∧
        h'.nodes = h.nodes := by
    intro h name node type hnodes hnode
    refine ⟨_, if_pos ⟨?_, ?_⟩, rfl⟩
    · rw [hnodes, hg.valid.node _ _ hnode]
      exact hkeep hnode
    · rw [hnodes]
      exact hnew
  obtain ⟨h, hh, hnodes⟩ := hadd .aiTool rfl htool
  have hfold : ∀ (cns : List GraphConnection) (h : DirectedGraph),
      h.nodes = (g.addNode (toolExecutor stringify agentRequest tool)).nodes →
      (∀ cn ∈ cns, cn ∈ g.getConnections) → ∃ h', cns.foldlM
        (rewireConnection g (toolExecutor stringify agentRequest tool)) h = .ok h' := by
    intro cns
    induction cns with
    | nil => exact fun h _ _ => ⟨h, rfl⟩
    | cons cn cns ih =>
      intro h hnodes hmem
      obtain ⟨hcn, hcns⟩ := List.forall_mem_cons.mp hmem
      obtain ⟨fromNode, hfrom⟩ := Dict.mem_keys_iff.mp (hg.fromName cn hcn)
      obtain ⟨h', hh', hnodes'⟩ := hadd cn.type hnodes hfrom
      obtain ⟨h'', hh''⟩ := ih h' (hnodes'.trans hnodes) hcns
      refine ⟨h'', ?_⟩
      rw [List.foldlM_cons, rewireConnection, hfrom]
      show (h.addConnection _ >>= _) = _
      rw [hh']
      exact hh''
  obtain ⟨h', hh'⟩ := hfold ((g.pred rootNode.name).filter fun cn => cn.type = .main) h hnodes
    fun cn hcn => (mem_pred.mp (List.mem_filter.mp hcn).1).1
  refine ⟨{ graph := removeNode h' rootNode, rewireOutputLogTo := some .aiTool }, ?_⟩
  simp only [hh, hh', bind, Except.bind]
  rfl

end

end

variable {c : GraphConnection}

theorem mem_putConnections_iff (hg : g.Valid) {cs : List GraphConnection}
    (hkeys : ∀ a ∈ cs, ∀ b ∈ cs, makeKey a = makeKey b → a = b) :
    c ∈ (cs.foldl putConnection g).getConnections ↔
      c ∈ cs ∨ c ∈ g.getConnections ∧ ∀ d ∈ cs, makeKey c ≠ makeKey d := by
  induction cs using List.reverseRecOn with
  | nil => simp
  | append_singleton cs d ih =>
    have hvalid := hg.putConnections cs
    have hsub : ∀ a ∈ cs, ∀ b ∈ cs, makeKey a = makeKey b → a = b := fun a ha b hb =>
      hkeys a (List.mem_append_left _ ha) b (List.mem_append_left _ hb)
    rw [List.foldl_append, List.foldl_cons, List.foldl_nil,
      (hvalid.putConnection d).mem_getConnections, DirectedGraph.putConnection, Dict.get?_set]
    by_cases hkey : makeKey c = makeKey d
    · rw [if_pos hkey, Option.some_inj]
      constructor
      · rintro rfl
        exact .inl (List.mem_append_right _ List.mem_cons_self)
      · rintro (hc | ⟨-, hc⟩)
        · exact (hkeys c hc d (List.mem_append_right _ List.mem_cons_self) hkey).symm
        · exact absurd hkey (hc d (List.mem_append_right _ List.mem_cons_self))
    · have hne : c ≠ d := fun heq => hkey (congrArg makeKey heq)
      rw [if_neg hkey, ← hvalid.mem_getConnections, ih hsub]
      simp only [List.mem_append, List.mem_singleton, hne, or_false, or_imp, forall_and,
        forall_eq, hkey, ne_eq, not_false_eq_true, and_true]

/-- What stands behind the name of the source in the key of a new connection. -/
def keyTail (type : NodeConnectionType) : List Char :=
  ("-" ++ type.toString ++ "-" ++ toString 0 ++ "-" ++ toString 0 ++ "-"
    ++ toolExecutorNodeName).toList

theorem mem_newConnections_iff : c ∈ newConnections g tool rootNode ↔
    c = toolConnection tool ∨ ∃ d ∈ g.getConnections, d.toName = rootNode.name ∧ d.type = .main ∧
      c = { d with toName := toolExecutorNodeName, outputIndex := 0, inputIndex := 0 } := by
  simp only [newConnections, List.mem_cons, List.mem_map, List.mem_filter, mem_pred,
    decide_eq_true_iff, and_assoc]
  refine or_congr_right (exists_congr fun d => and_congr_right fun _ => and_congr_right fun _ =>
    and_congr_right fun _ => ?_)
  exact eq_comm

theorem key_newConnections {a b : GraphConnection} (ha : a ∈ newConnections g tool rootNode)
    (hb : b ∈ newConnections g tool rootNode) (h : makeKey a = makeKey b) : a = b := by
  have hform : ∀ {c : GraphConnection}, c ∈ newConnections g tool rootNode →
      c = ⟨c.fromName, toolExecutorNodeName, c.type, 0, 0⟩ ∧ (c.type = .aiTool ∨ c.type = .main) ∧
        (makeKey c).toList = c.fromName.toList ++ keyTail c.type := by
    intro c hc
    have hkey : ∀ (name : String) (type : NodeConnectionType),
        (makeKey ⟨name, toolExecutorNodeName, type, 0, 0⟩).toList =
          name.toList ++ keyTail type := by
      intro name type
      simp only [makeKey, keyTail, String.toList_append, List.append_assoc]
    rcases mem_newConnections_iff.mp hc with rfl | ⟨d, -, -, htype, rfl⟩
    · exact ⟨rfl, .inl rfl, hkey _ _⟩
    · exact ⟨rfl, .inr htype, hkey _ _⟩
  obtain ⟨hca, hta, hka⟩ := hform ha
  obtain ⟨hcb, htb, hkb⟩ := hform hb
  rw [h, hkb] at hka
  by_cases htype : a.type = b.type
  · rw [htype] at hka
    have hfrom := String.toList_inj.mp (List.append_cancel_right hka)
    rw [hca, hcb, htype, hfrom]
  · -- the shorter one of the two endings is no ending of the longer one
    have hnot : ¬ keyTail .main <:+ keyTail .aiTool := by decide +kernel
    have hlen : (keyTail .main).length ≤ (keyTail .aiTool).length := by decide +kernel
    rcases hta with hta | hta <;> rcases htb with htb | htb
    · exact absurd (hta.trans htb.symm) htype
    · rw [hta, htb] at hka
      exact absurd (List.suffix_of_suffix_length_le ⟨_, hka⟩ (List.suffix_append _ _) hlen) hnot
    · rw [hta, htb] at hka
      exact absurd (List.suffix_of_suffix_length_le ⟨_, hka.symm⟩ (List.suffix_append _ _) hlen)
        hnot
    · exact absurd (hta.trans htb.symm) htype

variable {executor : INode}

/-- **The nodes** are those of the graph with the root replaced iff the root was found and no
node had the name of the executor. -/
theorem perm_rewired_iff (hg : g.Closed) (hroot : g.nodes.get? root.name = some root)
    (hfound : g.nodes.get? rootNode.name = some rootNode)
    (hexecutor : executor.name = toolExecutorNodeName) :
    (rewired g tool rootNode executor).nodes.values.Perm
        (executor :: g.nodes.values.erase root) ↔
      toolExecutorNodeName ∉ g.nodes.keys ∧ rootNode = root := by
  have hnodes : (rewired g tool rootNode executor).nodes =
      (g.nodes.set toolExecutorNodeName executor).erase rootNode.name := by
    rw [rewired, removeNode, nodes_putConnections, addNode, hexecutor]
  have hlength : (g.nodes.values.erase root).length + 1 = g.nodes.values.length :=
    List.length_erase_add_one (hg.valid.mem_nodes.mpr hroot)
  have hkeys : ∀ d : Dict String INode, d.values.length = d.keys.length := by
    intro d
    rw [Dict.values, Dict.keys, List.length_map, List.length_map]
  constructor
  · intro hperm
    have hname : toolExecutorNodeName ∉ g.nodes.keys := by
      -- the executor takes the place of a node, and the root is missing
      intro hmem
      have hlen := hperm.length_eq
      have herase := Dict.length_keys_erase (d := g.nodes.set toolExecutorNodeName executor)
        (k := rootNode.name) (Dict.mem_keys_set.mpr (.inr (Dict.mem_keys_iff.mpr ⟨_, hfound⟩)))
      rw [Dict.keys_set, if_pos hmem, ← hkeys, ← hkeys, ← hnodes, hlen, List.length_cons,
        hlength] at herase
      omega
    refine ⟨hname, ?_⟩
    by_contra hne
    have hmem : rootNode ∈ (rewired g tool rootNode executor).nodes.values := by
      refine hperm.mem_iff.mpr (List.mem_cons_of_mem _ ((List.mem_erase_of_ne hne).mpr ?_))
      exact hg.valid.mem_nodes.mpr hfound
    rw [hnodes, Dict.mem_values_iff] at hmem
    obtain ⟨name, hget⟩ := hmem
    have hset := Dict.get?_of_get?_erase hget
    rw [Dict.get?_set] at hset
    split at hset
    · have hsame := Option.some_inj.mp hset
      rw [← hsame, hexecutor] at hfound
      exact hname (Dict.mem_keys_iff.mpr ⟨_, hfound⟩)
    · rw [hg.valid.node name rootNode hset, Dict.get?_erase_self] at hget
      cases hget
  · rintro ⟨hname, rfl⟩
    have hget : (g.nodes.set toolExecutorNodeName executor).get? rootNode.name = some rootNode := by
      rw [Dict.get?_set_of_ne _ ?_, hroot]
      exact fun heq => hname (heq ▸ Dict.mem_keys_iff.mpr ⟨_, hroot⟩)
    have hset : (g.nodes.set toolExecutorNodeName executor).values =
        g.nodes.values ++ [executor] := by
      rw [Dict.values, Dict.entries_set_of_not_mem hname, List.map_append]
      rfl
    have hwithout := (Dict.perm_cons_erase hget).map Prod.snd
    have hvalues : (g.nodes.values ++ [executor]).Perm
        (rootNode :: executor :: g.nodes.values.erase rootNode) := by
      refine (List.perm_append_singleton _ _).trans ?_
      refine ((List.perm_cons_erase (hg.valid.mem_nodes.mpr hroot)).cons _).trans ?_
      exact List.Perm.swap _ _ _
    rw [← hset] at hvalues
    rw [hnodes]
    exact (hwithout.symm.trans hvalues).cons_inv

theorem mem_rewired_iff (hg : g.Closed) :
    c ∈ (rewired g tool rootNode executor).getConnections ↔
      (c ∈ newConnections g tool rootNode ∨
        c ∈ g.getConnections ∧ ∀ d ∈ newConnections g tool rootNode, makeKey c ≠ makeKey d) ∧
      c.toName ≠ rootNode.name ∧ c.fromName ≠ rootNode.name := by
  have hdrop : (rewired g tool rootNode executor).getConnections =
      (((newConnections g tool rootNode).foldl putConnection (g.addNode executor)).dropConnections
        rootNode.name).getConnections := rfl
  rw [hdrop, mem_dropConnections, mem_putConnections_iff (hg.valid.addNode executor)
    fun a ha b hb => key_newConnections ha hb]
  rfl

theorem mem_newConnections_iff_of_first (hfirst : ∀ c ∈ g.getConnections,
      c.toName = rootNode.name → c.type = .main →
        c.fromName ≠ rootNode.name ∧ c.outputIndex = 0 ∧ c.inputIndex = 0) :
    c ∈ newConnections g tool rootNode ↔ c = toolConnection tool ∨
      ∃ d ∈ g.getConnections, d.toName = rootNode.name ∧ d.type = .main ∧
        c = { d with toName := toolExecutorNodeName } := by
  rw [mem_newConnections_iff]
  refine or_congr_right (exists_congr fun d => and_congr_right fun hd => and_congr_right fun hto =>
    and_congr_right fun htype => ?_)
  obtain ⟨-, houtput, hinput⟩ := hfirst d hd hto htype
  rw [houtput, hinput]

theorem Rooted.exists_connection (h : Rooted g tool root) :
    ∃ c ∈ g.getConnections, c.type ≠ .main ∧ c.fromName = tool.name := by
  obtain ⟨b, ⟨c, hc, htype, hfrom, -⟩, -⟩ := Relation.TransGen.head'_iff.mp h.isRoot.reaches
  exact ⟨c, hc, htype, hfrom⟩

theorem Rooted.tool_ne_root (h : Rooted g tool root) : tool.name ≠ root.name := by
  obtain ⟨c, hc, htype, hfrom⟩ := h.exists_connection
  rw [← hfrom]
  exact h.isRoot.sink c hc htype

/-- **The connections** of the graph that is returned are those of the graph with the root
replaced, iff the main connections of the root are found again and nothing else is replaced. -/
theorem connections_rewired_iff (h : Rooted g tool root)
    (hname : toolExecutorNodeName ∉ g.nodes.keys) :
    (∀ c, c ∈ (rewired g tool root executor).getConnections ↔
      (c ∈ g.getConnections ∧ c.toName ≠ root.name ∧ c.fromName ≠ root.name) ∨
      c = toolConnection tool ∨
      ∃ d ∈ g.getConnections, d.toName = root.name ∧ d.type = .main ∧
        c = { d with toName := toolExecutorNodeName }) ↔
    (∀ c ∈ g.getConnections, c.toName = root.name → c.type = .main →
      c.fromName ≠ root.name ∧ c.outputIndex = 0 ∧ c.inputIndex = 0) ∧
    ∀ c ∈ g.getConnections, c.toName ≠ root.name → c.fromName ≠ root.name →
      makeKey c ≠ makeKey (toolConnection tool) ∧
      ∀ d ∈ g.getConnections, d.toName = root.name → d.type = .main →
        makeKey c ≠ makeKey { d with toName := toolExecutorNodeName } := by
  have hto : ∀ c ∈ g.getConnections, c.toName ≠ toolExecutorNodeName := fun c hc heq =>
    hname (heq ▸ h.closed.toName c hc)
  have hroot : toolExecutorNodeName ≠ root.name := fun heq =>
    hname (heq ▸ Dict.mem_keys_iff.mpr ⟨_, h.hasRoot⟩)
  constructor
  · intro hall
    have hfirst : ∀ d ∈ g.getConnections, d.toName = root.name → d.type = .main →
        d.fromName ≠ root.name ∧ d.outputIndex = 0 ∧ d.inputIndex = 0 := by
      intro d hd hdto htype
      have hin := (hall _).mpr (.inr (.inr ⟨d, hd, hdto, htype, rfl⟩))
      obtain ⟨hnew, -, hfrom⟩ := (mem_rewired_iff h.closed).mp hin
      refine ⟨hfrom, ?_⟩
      rcases hnew with hnew | ⟨hold, -⟩
      · rcases mem_newConnections_iff.mp hnew with heq | ⟨d', -, -, -, heq⟩
        · have hais := congrArg GraphConnection.type heq
          rw [htype] at hais
          cases hais
        · exact ⟨congrArg GraphConnection.outputIndex heq, congrArg GraphConnection.inputIndex heq⟩
      · exact absurd rfl (hto _ hold)
    refine ⟨hfirst, fun c hc hcto hcfrom => ?_⟩
    have hin := (hall c).mpr (.inl ⟨hc, hcto, hcfrom⟩)
    rcases ((mem_rewired_iff h.closed).mp hin).1 with hnew | ⟨-, hkeys⟩
    · rcases (mem_newConnections_iff_of_first hfirst).mp hnew with rfl | ⟨d, -, -, -, rfl⟩
      · exact absurd rfl (hto _ hc)
      · exact absurd rfl (hto _ hc)
    · refine ⟨hkeys _ ((mem_newConnections_iff_of_first hfirst).mpr (.inl rfl)), ?_⟩
      exact fun d hd hdto htype => hkeys _
        ((mem_newConnections_iff_of_first hfirst).mpr (.inr ⟨d, hd, hdto, htype, rfl⟩))
  · rintro ⟨hfirst, hkeys⟩ c
    rw [mem_rewired_iff h.closed, mem_newConnections_iff_of_first hfirst]
    constructor
    · rintro ⟨hnew | ⟨hc, -⟩, hcto, hcfrom⟩
      · exact .inr hnew
      · exact .inl ⟨hc, hcto, hcfrom⟩
    · rintro (⟨hc, hcto, hcfrom⟩ | rfl | ⟨d, hd, hdto, htype, rfl⟩)
      · refine ⟨.inr ⟨hc, fun d hd => ?_⟩, hcto, hcfrom⟩
        obtain ⟨htool, hmain⟩ := hkeys c hc hcto hcfrom
        rcases (mem_newConnections_iff_of_first hfirst).mp hd with rfl | ⟨e, he, heto, htype, rfl⟩
        · exact htool
        · exact hmain e he heto htype
      · exact ⟨.inl (.inl rfl), hroot, h.tool_ne_root⟩
      · exact ⟨.inl (.inr ⟨d, hd, hdto, htype, rfl⟩), hroot, (hfirst d hd hdto htype).1⟩

end

/-- **When exactly the root is replaced.** -/
theorem replaced_iff (stringify : JsValue → String) (agentRequest : Option AiAgentRequest)
    {g : DirectedGraph} {tool root : INode} (h : Rooted g tool root) :
    (∃ result, rewireGraph stringify tool g agentRequest = .ok result ∧
      Replaced g tool root (toolExecutor stringify agentRequest tool) result.graph) ↔
    Replaceable g tool root := by
  obtain ⟨children, hchildren, hmem⟩ :=
    exists_getChildren h.closed (Dict.mem_keys_iff.mpr ⟨_, h.hasTool⟩)
  have hne : children ≠ [] := by
    obtain ⟨c, hc, -, hfrom⟩ := h.exists_connection
    have hchild : c.toName ∈ children :=
      (hmem c.toName).mpr ⟨tool.name, .refl, mem_succ.mpr ⟨c, hc, hfrom, rfl⟩⟩
    exact List.ne_nil_of_mem hchild
  obtain ⟨before, last, rfl⟩ := (List.eq_nil_or_concat' children).resolve_left hne
  have hlast : last ∈ g.nodes.keys := by
    obtain ⟨m, -, hsucc⟩ := (hmem last).mp (by simp)
    obtain ⟨c, hc, -, hto⟩ := mem_succ.mp hsucc
    exact hto ▸ h.closed.toName c hc
  obtain ⟨rootNode, hrootNode⟩ := Dict.mem_keys_iff.mp hlast
  have hlastName := h.closed.valid.node _ _ hrootNode
  have hfound : (before ++ [last]).getLast?.bind g.nodes.get? = some rootNode := by
    rw [List.getLast?_concat]
    exact hrootNode
  constructor
  · rintro ⟨result, hresult, hreplaced⟩
    have hgraph := rewireGraph_eq_ok h.closed h.hasTool hchildren hfound hresult
    rw [hgraph] at hreplaced
    have hfoundNode : g.nodes.get? rootNode.name = some rootNode := by rwa [hlastName]
    obtain ⟨hname, rfl⟩ :=
      (perm_rewired_iff h.closed h.hasRoot hfoundNode rfl).mp hreplaced.nodes
    obtain ⟨hfirst, hkeys⟩ := (connections_rewired_iff h hname).mp hreplaced.connections
    exact ⟨⟨before, by rw [hchildren, hlastName]⟩, hname, hfirst, hkeys⟩
  · intro hreplaceable
    obtain ⟨before', hlastRoot⟩ := hreplaceable.last
    have hroot : rootNode = root := by
      rw [hchildren, Except.ok.injEq] at hlastRoot
      have hsame : last = root.name := by
        simpa using congrArg List.getLast? hlastRoot
      rw [hsame, h.hasRoot] at hrootNode
      exact (Option.some_inj.mp hrootNode).symm
    subst hroot
    obtain ⟨result, hresult⟩ := exists_rewireGraph_eq_ok h.closed h.hasTool hchildren hfound
      hreplaceable.executor
    refine ⟨result, hresult, ?_⟩
    rw [rewireGraph_eq_ok h.closed h.hasTool hchildren hfound hresult]
    exact ⟨(perm_rewired_iff h.closed h.hasRoot h.hasRoot rfl).mpr ⟨hreplaceable.executor, rfl⟩,
      (connections_rewired_iff h hreplaceable.executor).mpr
        ⟨hreplaceable.first, hreplaceable.keys⟩⟩

def ifNode : INode := { name := "If" }

def agent : INode := { name := "Agent" }

def agentTool : INode := { name := "Tool" }

def intoAgent (outputIndex : ℕ) : GraphConnection := ⟨"If", "Agent", .main, outputIndex, 0⟩

def fromTool : GraphConnection := ⟨"Tool", "Agent", .aiTool, 0, 0⟩

def agentNodes : DirectedGraph := DirectedGraph.addNodes {} [ifNode, agent, agentTool]

def agentGraph (outputIndex : ℕ) : DirectedGraph :=
  (agentNodes.putConnection (intoAgent outputIndex)).putConnection fromTool

theorem closed_agentGraph (outputIndex : ℕ) : (agentGraph outputIndex).Closed := by
  have hinto : agentNodes.addConnection { fromNode := ifNode, toNode := agent, outputIndex } =
      .ok (agentNodes.putConnection (intoAgent outputIndex)) :=
    if_pos ⟨rfl, rfl⟩
  have htool : (agentNodes.putConnection (intoAgent outputIndex)).addConnection
      { fromNode := agentTool, toNode := agent, type := .aiTool } = .ok (agentGraph outputIndex) :=
    if_pos ⟨rfl, rfl⟩
  exact (((closed_addNodes _).addConnection hinto).1.addConnection htool).1

theorem rooted_agentGraph {outputIndex : ℕ}
    (h : (agentGraph outputIndex).getConnections = [intoAgent outputIndex, fromTool]) :
    Rooted (agentGraph outputIndex) agentTool agent := by
  have hmem : ∀ c ∈ (agentGraph outputIndex).getConnections,
      c.toName = "Agent" ∧ c.fromName ≠ "Agent" := by
    rw [h]
    simp [intoAgent, fromTool]
  have hfrom : fromTool ∈ (agentGraph outputIndex).getConnections := by
    rw [h]
    exact List.mem_cons_of_mem _ List.mem_cons_self
  refine ⟨closed_agentGraph outputIndex, rfl, rfl, ⟨?_, fun c hc _ => (hmem c hc).2⟩, ?_⟩
  · exact .single ⟨fromTool, hfrom, by decide, rfl, rfl⟩
  · intro other hother
    obtain ⟨b, -, c, hc, -, -, hto⟩ := Relation.TransGen.tail'_iff.mp hother.reaches
    exact hto.symm.trans (hmem c hc).1

/-- Behind the first output the agent is replaced. -/
theorem replaced_firstOutput :
    ∃ result, rewireGraph (fun _ => "\x7b\x7d") agentTool (agentGraph 0) none = .ok result ∧
      Replaced (agentGraph 0) agentTool agent
        (toolExecutor (fun _ => "\x7b\x7d") none agentTool) result.graph :=
  (replaced_iff (fun _ => "\x7b\x7d") none (rooted_agentGraph (by decide +kernel))).mpr
    { last := ⟨[], by rfl⟩
      executor := by decide +kernel
      first := by decide +kernel
      keys := by decide +kernel }

/-- Behind the second output its connection is lost. -/
theorem not_replaced_secondOutput : Rooted (agentGraph 1) agentTool agent ∧
    ¬ ∃ result, rewireGraph (fun _ => "\x7b\x7d") agentTool (agentGraph 1) none = .ok result ∧
      Replaced (agentGraph 1) agentTool agent
        (toolExecutor (fun _ => "\x7b\x7d") none agentTool) result.graph := by
  have hrooted : Rooted (agentGraph 1) agentTool agent := rooted_agentGraph (by decide +kernel)
  refine ⟨hrooted, ?_⟩
  rintro ⟨result, hresult, hreplaced⟩
  have hconnections : (rewireGraph (fun _ => "\x7b\x7d") agentTool (agentGraph 1)
      none).toOption.map (fun result => result.graph.getConnections) =
      some [⟨"Tool", toolExecutorNodeName, .aiTool, 0, 0⟩,
        ⟨"If", toolExecutorNodeName, .main, 0, 0⟩] := by
    decide +kernel
  rw [hresult] at hconnections
  have hlist : result.graph.getConnections = [⟨"Tool", toolExecutorNodeName, .aiTool, 0, 0⟩,
      ⟨"If", toolExecutorNodeName, .main, 0, 0⟩] := Option.some_inj.mp hconnections
  have hin := (hreplaced.connections ⟨"If", toolExecutorNodeName, .main, 1, 0⟩).mpr
    (.inr (.inr ⟨intoAgent 1, by decide +kernel, rfl, rfl, rfl⟩))
  rw [hlist] at hin
  exact absurd hin (by decide)

end N8n.RewireGraph
