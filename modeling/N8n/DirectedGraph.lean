/-
The `DirectedGraph` of partial executions.

Nodes are kept in a map by name and connections in a map by a string key that
joins the names and indexes with dashes (`makeKey`).  The nodes of a graph have
distinct names, so a connection refers to its two nodes by name; `addConnection`
takes the nodes themselves and checks that they are the ones of the graph.

`Valid` is what `addNode`, `addConnection` and `removeNode` keep: nodes are
filed under their names and connections under their keys.
-/
import N8n.Workflow
import N8n.Runs
import Mathlib.Data.List.Induction

namespace N8n

structure GraphConnection where
  fromName : String
  toName : String
  type : NodeConnectionType
  outputIndex : ℕ
  inputIndex : ℕ
  deriving DecidableEq, Repr

structure DirectedGraph where
  nodes : Dict String INode := Dict.empty
  connections : Dict String GraphConnection := Dict.empty
  deriving DecidableEq

def makeKey (c : GraphConnection) : String :=
  c.fromName ++ "-" ++ c.type.toString ++ "-" ++ toString c.outputIndex ++ "-"
    ++ toString c.inputIndex ++ "-" ++ c.toName

theorem NodeConnectionType.toString_injective {s t : NodeConnectionType}
    (h : s.toString = t.toString) : s = t := by
  cases s <;> cases t <;> first | rfl | exact absurd h (by decide)

theorem dash_not_mem_type (t : NodeConnectionType) : '-' ∉ t.toString.toList := by
  cases t <;> decide

theorem toList_toString (n : ℕ) : (toString n).toList = Nat.toDigits 10 n := Nat.toList_repr

theorem dash_not_mem_toString (n : ℕ) : '-' ∉ (toString n).toList := by
  rw [toList_toString]
  intro h
  exact absurd (Nat.isDigit_of_mem_toDigits (by decide) (by decide) h) (by decide)

theorem toString_injective {m n : ℕ} (h : toString m = toString n) : m = n := by
  have hdigits : Nat.toDigits 10 m = Nat.toDigits 10 n := by
    rw [← toList_toString, ← toList_toString, h]
  rw [← Nat.ofDigitChars_toDigits (by decide) (by decide) (n := m) (b := 10), hdigits,
    Nat.ofDigitChars_toDigits (by decide) (by decide)]

theorem append_dash_inj {l l' r r' : List Char} (hl : '-' ∉ l) (hl' : '-' ∉ l')
    (h : l ++ '-' :: r = l' ++ '-' :: r') : l = l' ∧ r = r' := by
  induction l generalizing l' with
  | nil =>
    cases l' with
    | nil => exact ⟨rfl, by simpa using h⟩
    | cons c l' =>
      have hc : '-' = c := by simpa using congrArg List.head? h
      exact absurd (hc ▸ List.mem_cons_self) hl'
  | cons c l ih =>
    cases l' with
    | nil =>
      have hc : c = '-' := by simpa using congrArg List.head? h
      exact absurd (hc ▸ List.mem_cons_self) hl
    | cons c' l' =>
      rw [List.mem_cons, not_or] at hl hl'
      rw [List.cons_append, List.cons_append, List.cons.injEq] at h
      obtain ⟨hll, hrr⟩ := ih hl.2 hl'.2 h.2
      exact ⟨by rw [h.1, hll], hrr⟩

theorem makeKey_injective {a b : GraphConnection} (ha : '-' ∉ a.fromName.toList)
    (hb : '-' ∉ b.fromName.toList) (h : makeKey a = makeKey b) : a = b := by
  have hdash : ∀ l : List Char, "-".toList ++ l = '-' :: l := fun _ => rfl
  have hchars := congrArg String.toList h
  simp only [makeKey, String.toList_append, List.append_assoc, hdash] at hchars
  obtain ⟨hfrom, hchars⟩ := append_dash_inj ha hb hchars
  obtain ⟨htype, hchars⟩ := append_dash_inj (dash_not_mem_type _) (dash_not_mem_type _) hchars
  obtain ⟨hout, hchars⟩ := append_dash_inj (dash_not_mem_toString _) (dash_not_mem_toString _) hchars
  obtain ⟨hin, hto⟩ := append_dash_inj (dash_not_mem_toString _) (dash_not_mem_toString _) hchars
  rw [String.toList_inj] at hfrom htype hout hin hto
  obtain ⟨fromName, toName, type, outputIndex, inputIndex⟩ := a
  obtain ⟨fromName', toName', type', outputIndex', inputIndex'⟩ := b
  rw [GraphConnection.mk.injEq]
  exact ⟨hfrom, hto, NodeConnectionType.toString_injective htype, toString_injective hout,
    toString_injective hin⟩

namespace DirectedGraph

def getConnections (g : DirectedGraph) : List GraphConnection := g.connections.values

def addNode (g : DirectedGraph) (node : INode) : DirectedGraph :=
  { g with nodes := g.nodes.set node.name node }

def addNodes (g : DirectedGraph) (nodes : List INode) : DirectedGraph := nodes.foldl addNode g

def putConnection (g : DirectedGraph) (c : GraphConnection) : DirectedGraph :=
  { g with connections := g.connections.set (makeKey c) c }

/-- The argument of `addConnection`, its defaults filled in. -/
structure ConnectionInput where
  fromNode : INode
  toNode : INode
  type : NodeConnectionType := .main
  outputIndex : ℕ := 0
  inputIndex : ℕ := 0

def ConnectionInput.connection (i : ConnectionInput) : GraphConnection where
  fromName := i.fromNode.name
  toName := i.toNode.name
  type := i.type
  outputIndex := i.outputIndex
  inputIndex := i.inputIndex

def addConnection (g : DirectedGraph) (i : ConnectionInput) : Except JsError DirectedGraph :=
  if g.nodes.get? i.fromNode.name = some i.fromNode ∧ g.nodes.get? i.toNode.name = some i.toNode then
    .ok (g.putConnection i.connection)
  else .error .assertionError

def addConnections (g : DirectedGraph) : List ConnectionInput → Except JsError DirectedGraph
  | [] => .ok g
  | i :: is => match g.addConnection i with
    | .ok g' => addConnections g' is
    | .error e => .error e

def getDirectChildConnections (g : DirectedGraph) (node : INode) :
    Except JsError (List GraphConnection) :=
  if g.nodes.get? node.name = some node then
    .ok (g.getConnections.filter (fun c => c.fromName = node.name))
  else .error .assertionError

def getDirectParentConnections (g : DirectedGraph) (node : INode) :
    Except JsError (List GraphConnection) :=
  if g.nodes.get? node.name = some node then
    .ok (g.getConnections.filter (fun c => c.toName = node.name))
  else .error .assertionError

/-- The connections that bypass a node: every incoming one joined with every
outgoing one, as far as neither is skipped. -/
def bypass (skipConnectionFn : GraphConnection → Bool)
    (incomingConnections outgoingConnections : List GraphConnection) : List GraphConnection :=
  (incomingConnections.filter (fun c => ¬ skipConnectionFn c)).flatMap fun incoming =>
    (outgoingConnections.filter (fun c => ¬ skipConnectionFn c)).map fun outgoing =>
      { incoming with toName := outgoing.toName, inputIndex := outgoing.inputIndex }

def dropConnections (g : DirectedGraph) (name : String) : DirectedGraph where
  nodes := g.nodes
  connections :=
    { entries := g.connections.entries.filter (fun e => ¬ (e.2.toName = name ∨ e.2.fromName = name))
      nodup := g.connections.nodup.sublist (List.Sublist.map _ List.filter_sublist) }

/-- `removeNode(node, { reconnectConnections: true, skipConnectionFn })`. -/
def removeNode (g : DirectedGraph) (node : INode) (skipConnectionFn : GraphConnection → Bool) :
    Except JsError DirectedGraph := do
  let incomingConnections ← g.getDirectParentConnections node
  let outgoingConnections ← g.getDirectChildConnections node
  let newConnections := bypass skipConnectionFn incomingConnections outgoingConnections
  let g := newConnections.foldl putConnection (g.dropConnections node.name)
  return { g with nodes := g.nodes.erase node.name }

def connectionInput (g : DirectedGraph) (c : GraphConnection) : Option ConnectionInput :=
  match g.nodes.get? c.fromName, g.nodes.get? c.toName with
  | some fromNode, some toNode =>
    some ⟨fromNode, toNode, c.type, c.outputIndex, c.inputIndex⟩
  | _, _ => none

/-- `new DirectedGraph().addNodes(...).addConnections(...)` with the nodes and
connections of the graph; a connection that lost a node fails the assertion. -/
def clone (g : DirectedGraph) : Except JsError DirectedGraph :=
  g.getConnections.foldlM (fun copy c => match g.connectionInput c with
    | some i => copy.addConnection i
    | none => .error .assertionError) (addNodes {} g.nodes.values)

/-- The names that `result[name]` finds on the prototype of every object. -/
def inheritedNames : List String :=
  ["__defineGetter__", "__defineSetter__", "__lookupGetter__", "__lookupSetter__", "__proto__",
    "constructor", "hasOwnProperty", "isPrototypeOf", "propertyIsEnumerable", "toLocaleString",
    "toString", "valueOf"]

/-- `outputs[index] = outputs[index] ?? []` and the push; positions in between
stay holes. -/
def pushOutput (outputs : NodeInputConnections) (index : ℕ) (c : IConnection) :
    NodeInputConnections :=
  if index < outputs.length then outputs.modify index (fun slot => some (slot.getD [] ++ [c]))
  else outputs ++ List.replicate (index - outputs.length) none ++ [some [c]]

/-- One round of the loop of `toIConnections`.  For an inherited name
`result[name]` is not `undefined`, but has no array of the type; and the object
made for the first connection of a node has no array of another type. -/
def exportConnection (result : IConnections) (c : GraphConnection) : Except JsError IConnections :=
  if c.fromName ∈ inheritedNames then .error .typeError
  else
    let resultConnection := (result.get? c.fromName).getD (Dict.empty.set c.type [])
    match resultConnection.get? c.type with
    | none => .error .typeError
    | some outputs => .ok (result.set c.fromName (resultConnection.set c.type
        (pushOutput outputs c.outputIndex ⟨c.toName, c.type, c.inputIndex⟩)))

def toIConnections (g : DirectedGraph) : Except JsError IConnections :=
  g.getConnections.foldlM exportConnection Dict.empty

def toWorkflow (g : DirectedGraph) (settings : IWorkflowSettings) : Except JsError Workflow := do
  let connections ← g.toIConnections
  Workflow.construct g.nodes.values connections settings

def importLink (w : Workflow) (g : DirectedGraph) (l : Link) : Except JsError DirectedGraph :=
  match w.getNode l.node, w.getNode l.connection.node with
  | some fromNode, some toNode => g.addConnection {
      fromNode, toNode
      type := l.type
      outputIndex := l.index
      inputIndex := l.connection.index }
  | _, _ => .error .assertionError

/-- Every source of connections has to be a node, also one without any. -/
def fromWorkflow (w : Workflow) : Except JsError DirectedGraph :=
  if w.connectionsBySourceNode.keys.all (fun name => (w.getNode name).isSome) then
    (links w.connectionsBySourceNode).foldlM (importLink w)
      (addNodes {} (w.nodes.objectKeys.filterMap w.getNode))
  else .error .assertionError

/-- Nodes are filed under their names, connections under their keys. -/
structure Valid (g : DirectedGraph) : Prop where
  node : ∀ name node, g.nodes.get? name = some node → node.name = name
  key : ∀ key c, g.connections.get? key = some c → key = makeKey c

theorem valid_empty : Valid {} where
  node := by
    intro name node h
    cases h
  key := by
    intro key c h
    cases h

variable {g : DirectedGraph}

theorem Valid.addNode (h : Valid g) (node : INode) : Valid (g.addNode node) where
  node := by
    intro name node' h'
    rw [DirectedGraph.addNode, Dict.get?_set] at h'
    split at h'
    · next hname => rw [← Option.some_inj.mp h', hname]
    · exact h.node name node' h'
  key := h.key

theorem Valid.putConnection (h : Valid g) (c : GraphConnection) : Valid (g.putConnection c) where
  node := h.node
  key := by
    intro key c' h'
    rw [DirectedGraph.putConnection, Dict.get?_set] at h'
    split at h'
    · next hkey => rw [← Option.some_inj.mp h', hkey]
    · exact h.key key c' h'

theorem Valid.addNodes (h : Valid g) (nodes : List INode) : Valid (g.addNodes nodes) := by
  induction nodes generalizing g with
  | nil => exact h
  | cons node nodes ih => exact ih (h.addNode node)

theorem Valid.putConnections (h : Valid g) (cs : List GraphConnection) :
    Valid (cs.foldl DirectedGraph.putConnection g) := by
  induction cs generalizing g with
  | nil => exact h
  | cons c cs ih => exact ih (h.putConnection c)

theorem Valid.dropConnections (h : Valid g) (name : String) : Valid (g.dropConnections name) where
  node := h.node
  key := by
    intro key c hc
    rw [← Dict.mem_entries_iff] at hc
    exact h.key key c (Dict.mem_entries_iff.mp (List.mem_of_mem_filter hc))

variable {c : GraphConnection}

theorem mem_dropConnections {name : String} :
    c ∈ (g.dropConnections name).getConnections ↔
      c ∈ g.getConnections ∧ c.toName ≠ name ∧ c.fromName ≠ name := by
  simp only [DirectedGraph.getConnections, DirectedGraph.dropConnections, Dict.values,
    List.mem_map, List.mem_filter, decide_eq_true_eq, not_or]
  constructor
  · rintro ⟨e, ⟨he, hto, hfrom⟩, rfl⟩
    exact ⟨⟨e, he, rfl⟩, hto, hfrom⟩
  · rintro ⟨⟨e, he, rfl⟩, hto, hfrom⟩
    exact ⟨e, ⟨he, hto, hfrom⟩, rfl⟩

theorem Valid.mem_getConnections (h : Valid g) :
    c ∈ g.getConnections ↔ g.connections.get? (makeKey c) = some c := by
  rw [getConnections, Dict.mem_values_iff]
  constructor
  · rintro ⟨key, hkey⟩
    rw [← h.key key c hkey]
    exact hkey
  · exact fun hc => ⟨_, hc⟩

variable {cs : List GraphConnection}

theorem Valid.mem_putConnections (h : Valid g)
    (hinj : ∀ a ∈ g.getConnections ++ cs, ∀ b ∈ g.getConnections ++ cs,
      makeKey a = makeKey b → a = b) :
    c ∈ (cs.foldl DirectedGraph.putConnection g).getConnections ↔ c ∈ g.getConnections ∨ c ∈ cs := by
  induction cs generalizing g with
  | nil => simp
  | cons d cs ih =>
    have hput : ∀ e, e ∈ (g.putConnection d).getConnections ↔ e = d ∨ e ∈ g.getConnections := by
      intro e
      rw [(h.putConnection d).mem_getConnections, h.mem_getConnections,
        DirectedGraph.putConnection, Dict.get?_set]
      split
      · next hkey =>
        constructor
        · intro he
          exact Or.inl (Option.some_inj.mp he).symm
        · rintro (rfl | he)
          · rfl
          · rw [hinj e (List.mem_append_left _ (h.mem_getConnections.mpr he)) d (by simp) hkey]
      · next hkey =>
        constructor
        · exact Or.inr
        · rintro (rfl | he)
          · exact absurd rfl hkey
          · exact he
    have hin : ∀ e ∈ (g.putConnection d).getConnections ++ cs, e ∈ g.getConnections ++ d :: cs := by
      intro e he
      rw [List.mem_append, hput] at he
      rw [List.mem_append, List.mem_cons]
      tauto
    rw [List.foldl_cons, ih (h.putConnection d) (fun a ha b hb => hinj a (hin a ha) b (hin b hb)),
      hput, List.mem_cons]
    tauto

theorem Valid.mem_of_mem_putConnections (h : Valid g)
    (hc : c ∈ (cs.foldl DirectedGraph.putConnection g).getConnections) :
    c ∈ g.getConnections ∨ c ∈ cs := by
  induction cs generalizing g with
  | nil => exact Or.inl hc
  | cons d cs ih =>
    rcases ih (h.putConnection d) hc with hc | hc
    · rw [(h.putConnection d).mem_getConnections, DirectedGraph.putConnection, Dict.get?_set] at hc
      split at hc
      · exact Or.inr (Option.some_inj.mp hc ▸ List.mem_cons_self)
      · exact Or.inl (h.mem_getConnections.mpr hc)
    · exact Or.inr (List.mem_cons_of_mem _ hc)

theorem nodes_putConnections (g : DirectedGraph) (cs : List GraphConnection) :
    (cs.foldl DirectedGraph.putConnection g).nodes = g.nodes := by
  induction cs generalizing g with
  | nil => rfl
  | cons c cs ih => exact ih (g.putConnection c)

theorem addNodes_append (g : DirectedGraph) (nodes : List INode) (node : INode) :
    g.addNodes (nodes ++ [node]) = (g.addNodes nodes).addNode node := by
  rw [DirectedGraph.addNodes, List.foldl_append]
  rfl

theorem getConnections_addNodes (nodes : List INode) :
    (addNodes {} nodes).getConnections = [] := by
  have hconn : (addNodes {} nodes).connections = Dict.empty := by
    induction nodes using List.reverseRecOn with
    | nil => rfl
    | append_singleton nodes n ih => rw [addNodes_append, addNode, ih]
  rw [getConnections, hconn]
  rfl

variable {node : INode}

theorem get?_addNodes {nodes : List INode} (hnodup : (nodes.map (·.name)).Nodup) {name : String} :
    (addNodes {} nodes).nodes.get? name = some node ↔ node ∈ nodes ∧ node.name = name := by
  induction nodes using List.reverseRecOn with
  | nil => exact ⟨fun h => (nomatch h), fun h => (nomatch h.1)⟩
  | append_singleton nodes n ih =>
    rw [List.map_append, List.nodup_append] at hnodup
    obtain ⟨hinit, -, hdisj⟩ := hnodup
    rw [addNodes_append, DirectedGraph.addNode, Dict.get?_set]
    split
    · next hname =>
      constructor
      · intro h
        rw [← Option.some_inj.mp h]
        exact ⟨by simp, hname.symm⟩
      · rintro ⟨hmem, hnode⟩
        rcases List.mem_append.mp hmem with hmem | hmem
        · exact absurd (hnode.trans hname)
            (hdisj _ (List.mem_map_of_mem hmem) _ (by simp))
        · rw [List.mem_singleton.mp hmem]
    · next hname =>
      rw [ih hinit]
      constructor
      · exact fun h => ⟨List.mem_append_left _ h.1, h.2⟩
      · rintro ⟨hmem, hnode⟩
        rcases List.mem_append.mp hmem with hmem | hmem
        · exact ⟨hmem, hnode⟩
        · rw [List.mem_singleton.mp hmem] at hnode
          exact absurd hnode.symm hname

theorem Valid.mem_nodes (h : Valid g) :
    node ∈ g.nodes.values ↔ g.nodes.get? node.name = some node := by
  rw [Dict.mem_values_iff]
  constructor
  · rintro ⟨name, hname⟩
    rw [h.node name node hname]
    exact hname
  · exact fun hnode => ⟨_, hnode⟩

theorem Valid.nodup_names (h : Valid g) : (g.nodes.values.map (·.name)).Nodup := by
  have hnames : g.nodes.values.map (·.name) = g.nodes.keys := by
    rw [Dict.values, Dict.keys, List.map_map]
    refine List.map_congr_left fun e he => ?_
    exact h.node e.1 e.2 (Dict.mem_entries_iff.mp he)
  rw [hnames]
  exact g.nodes.nodup_keys

variable {g' : DirectedGraph}

theorem addConnections_eq_ok {is : List ConnectionInput} :
    g.addConnections is = .ok g' ↔
      (∀ i ∈ is, g.nodes.get? i.fromNode.name = some i.fromNode ∧
        g.nodes.get? i.toNode.name = some i.toNode) ∧
      g' = (is.map ConnectionInput.connection).foldl DirectedGraph.putConnection g := by
  induction is generalizing g with
  | nil =>
    constructor
    · intro h
      cases h
      exact ⟨fun i hi => (nomatch hi), rfl⟩
    · rintro ⟨-, rfl⟩
      rfl
  | cons i is ih =>
    rw [DirectedGraph.addConnections, DirectedGraph.addConnection]
    by_cases hi : g.nodes.get? i.fromNode.name = some i.fromNode ∧
        g.nodes.get? i.toNode.name = some i.toNode
    · rw [if_pos hi]
      show (g.putConnection i.connection).addConnections is = .ok g' ↔ _
      rw [ih, List.forall_mem_cons, List.map_cons, List.foldl_cons]
      constructor
      · rintro ⟨hall, hg'⟩
        exact ⟨⟨hi, hall⟩, hg'⟩
      · rintro ⟨⟨-, hall⟩, hg'⟩
        exact ⟨hall, hg'⟩
    · rw [if_neg hi, List.forall_mem_cons]
      constructor
      · intro h
        cases h
      · rintro ⟨⟨h, -⟩, -⟩
        exact absurd h hi

/-- A graph whose connections lead from nodes of the graph to nodes of it. -/
structure Closed (g : DirectedGraph) : Prop where
  valid : g.Valid
  fromName : ∀ c ∈ g.getConnections, c.fromName ∈ g.nodes.keys
  toName : ∀ c ∈ g.getConnections, c.toName ∈ g.nodes.keys

theorem Valid.addNodes_values (h : Valid g) :
    (DirectedGraph.addNodes {} g.nodes.values).nodes = g.nodes := by
  have hfold : ∀ (es : List (String × INode)) (d : DirectedGraph),
      (∀ e ∈ es, e.2.name = e.1) → (d.addNodes (es.map Prod.snd)).nodes =
        es.foldl (fun nodes e => nodes.set e.1 e.2) d.nodes := by
    intro es
    induction es with
    | nil => exact fun _ _ => rfl
    | cons e es ih =>
      intro d hnames
      obtain ⟨hname, hrest⟩ := List.forall_mem_cons.mp hnames
      rw [List.foldl_cons, ← hname]
      exact ih (d.addNode e.2) hrest
  refine (hfold g.nodes.entries {} fun e he => h.node e.1 e.2 (Dict.mem_entries_iff.mp he)).trans ?_
  exact Dict.ext_entries (Dict.entries_foldl_set g.nodes.nodup)

theorem Valid.putConnections_getConnections (h : Valid g)
    {empty : DirectedGraph} (hempty : empty.connections = Dict.empty) :
    (g.getConnections.foldl DirectedGraph.putConnection empty).connections = g.connections := by
  have hfold : ∀ (es : List (String × GraphConnection)) (d : DirectedGraph),
      (∀ e ∈ es, e.1 = makeKey e.2) →
        ((es.map Prod.snd).foldl DirectedGraph.putConnection d).connections =
          es.foldl (fun connections e => connections.set e.1 e.2) d.connections := by
    intro es
    induction es with
    | nil => exact fun _ _ => rfl
    | cons e es ih =>
      intro d hkeys
      obtain ⟨hkey, hrest⟩ := List.forall_mem_cons.mp hkeys
      rw [List.foldl_cons, hkey]
      exact ih (d.putConnection e.2) hrest
  refine (hfold g.connections.entries empty
    fun e he => h.key e.1 e.2 (Dict.mem_entries_iff.mp he)).trans ?_
  rw [hempty]
  exact Dict.ext_entries (Dict.entries_foldl_set g.connections.nodup)

/-- **A copy is its original**, with the nodes and connections in the same order. -/
theorem Closed.clone_eq (hg : Closed g) : g.clone = .ok g := by
  have hcopy : g.clone =
      .ok (g.getConnections.foldl DirectedGraph.putConnection (addNodes {} g.nodes.values)) := by
    refine foldlM_eq_ok (I := fun h => h.nodes = g.nodes) ?_ hg.valid.addNodes_values
    intro h hh c hc
    obtain ⟨fromNode, hfrom⟩ := Dict.mem_keys_iff.mp (hg.fromName c hc)
    obtain ⟨toNode, hto⟩ := Dict.mem_keys_iff.mp (hg.toName c hc)
    have hfromName := hg.valid.node _ _ hfrom
    have htoName := hg.valid.node _ _ hto
    have hinput : g.connectionInput c =
        some ⟨fromNode, toNode, c.type, c.outputIndex, c.inputIndex⟩ := by
      rw [connectionInput, hfrom, hto]
    rw [hinput]
    refine ⟨?_, hh⟩
    show h.addConnection _ = _
    rw [addConnection, if_pos ⟨by rw [hh, hfromName, hfrom], by rw [hh, htoName, hto]⟩,
      ConnectionInput.connection, hfromName, htoName]
  have hconnections : (addNodes {} g.nodes.values).connections = Dict.empty := by
    have hnone := getConnections_addNodes g.nodes.values
    refine Dict.ext_entries (List.map_eq_nil_iff.mp hnone)
  rw [hcopy]
  refine congrArg Except.ok ?_
  rcases hresult : g.getConnections.foldl DirectedGraph.putConnection
    (addNodes {} g.nodes.values) with ⟨nodes, connections⟩
  have hn := nodes_putConnections (addNodes {} g.nodes.values) g.getConnections
  have hc := hg.valid.putConnections_getConnections hconnections
  rw [hresult] at hn hc
  rw [show nodes = g.nodes from hn.trans hg.valid.addNodes_values, show connections = _ from hc]

theorem closed_addNodes (nodes : List INode) : Closed (addNodes {} nodes) := by
  refine ⟨valid_empty.addNodes nodes, fun c hc => ?_, fun c hc => ?_⟩
  · rw [getConnections_addNodes] at hc
    cases hc
  · rw [getConnections_addNodes] at hc
    cases hc

theorem Closed.addConnection {i : ConnectionInput} (h : Closed g)
    (hadd : g.addConnection i = .ok g') : Closed g' ∧ g'.nodes = g.nodes := by
  rw [DirectedGraph.addConnection] at hadd
  split at hadd
  · next hends =>
    cases hadd
    have hmem : ∀ c ∈ (g.putConnection i.connection).getConnections,
        c ∈ g.getConnections ∨ c = i.connection := by
      intro c hc
      have hc : c ∈ ([i.connection].foldl DirectedGraph.putConnection g).getConnections := hc
      rcases h.valid.mem_of_mem_putConnections hc with hc | hc
      · exact Or.inl hc
      · exact Or.inr (List.mem_singleton.mp hc)
    refine ⟨⟨h.valid.putConnection _, fun c hc => ?_, fun c hc => ?_⟩, rfl⟩
    · rcases hmem c hc with hc | rfl
      · exact h.fromName c hc
      · exact Dict.mem_keys_iff.mpr ⟨_, hends.1⟩
    · rcases hmem c hc with hc | rfl
      · exact h.toName c hc
      · exact Dict.mem_keys_iff.mpr ⟨_, hends.2⟩
  · cases hadd

theorem closed_fromWorkflow {w : Workflow} (h : fromWorkflow w = .ok g) :
    Closed g ∧ g.nodes = (addNodes {} (w.nodes.objectKeys.filterMap w.getNode)).nodes := by
  rw [fromWorkflow] at h
  split at h
  · refine foldlM_invariant (I := fun g => Closed g ∧
      g.nodes = (addNodes {} (w.nodes.objectKeys.filterMap w.getNode)).nodes) ?_
        ⟨closed_addNodes _, rfl⟩ h
    intro s l s' hs hbody
    rw [importLink] at hbody
    split at hbody
    · obtain ⟨hclosed, hnodes⟩ := hs.1.addConnection hbody
      exact ⟨hclosed, hnodes.trans hs.2⟩
    · cases hbody
  · cases h

end DirectedGraph

end N8n
