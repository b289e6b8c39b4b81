/-
The lookups of `getHighestNode`.

`getHighestNode` as the execution loop uses it takes the nodes and the connections for
dictionaries.  They are plain objects: `connection.node in this.nodes` is also true for the
names that every object inherits, and a node named `hasOwnProperty` hides the method that the
search calls on the map of connections.  Here the lookups are those of the code.

* `highestOf_of_known` — **the search ends and returns enabled nodes that feed the input,
  and none iff all nodes that feed it are disabled**, unless it meets an inherited name that
  is no node.
-/
import N8n.HighestNodes
import N8n.DirectedGraph

namespace N8n.Workflow

open DirectedGraph (inheritedNames)

/-- `this.nodes[nodeName].disabled`.  An inherited name finds an object or a function without
the property. -/
def disabledOf (w : Workflow) (nodeName : String) : Except (Stopped JsError) (Option Bool) :=
  match w.getNode nodeName with
  | some node => .ok node.disabled
  | none => if nodeName ∈ inheritedNames then .ok none else .error (.threw .typeError)

def inNodes (w : Workflow) (nodeName : String) : Bool :=
  w.nodes.has nodeName || decide (nodeName ∈ inheritedNames)

/-- The array of main inputs, behind the two calls of `hasOwnProperty`. -/
def ownMainInputs (w : Workflow) (nodeName : String) :
    Except (Stopped JsError) (Option NodeInputConnections) :=
  if w.connectionsByDestinationNode.has "hasOwnProperty" then .error (.threw .typeError)
  else .ok (w.mainInputs nodeName)

/-- The body of the loop over the connections: `state` is `returnNodes` and `checkedNodes`. -/
def lookUpConnection (w : Workflow)
    (search : String → List String → Except (Stopped JsError) (List String × List String))
    (state : List String × List String) (connection : IConnection) :
    Except (Stopped JsError) (List String × List String) :=
  if connection.node ∈ state.2 then .ok state
  else if w.inNodes connection.node then do
    let (addNodes, checkedNodes) ← search connection.node state.2
    let disabled ← w.disabledOf connection.node
    let addNodes := if addNodes = [] ∧ disabled ≠ some true then [connection.node] else addNodes
    return (state.1 ++ addNodes.filter (· ∉ state.1), checkedNodes)
  else .ok state

/-- `getHighestNode`, with the names checked so far. -/
def lookUpHighest (w : Workflow) : ℕ → String → Option ℕ → List String →
    Except (Stopped JsError) (List String × List String)
  | 0, _, _, _ => .error .unfinished
  | depth + 1, nodeName, nodeConnectionIndex, checkedNodes => do
    let disabled ← w.disabledOf nodeName
    let currentHighest := if disabled = some false then [nodeName] else []
    match ← w.ownMainInputs nodeName with
    | none => return (currentHighest, checkedNodes)
    | some slots =>
      if nodeName ∈ checkedNodes then return (currentHighest, checkedNodes)
      else
        let connections := (slots.zipIdx.filter fun slot =>
          nodeConnectionIndex.all (· = slot.2)).flatMap fun slot => slot.1.getD []
        connections.foldlM
          (w.lookUpConnection fun name checked => w.lookUpHighest depth name none checked)
          ([], nodeName :: checkedNodes)

/-- Each level of calls checks one more key of the map, which bounds their depth. -/
def lookUpHighestNode (w : Workflow) (nodeName : String) (nodeConnectionIndex : Option ℕ) :
    Except (Stopped JsError) (List String) :=
  (w.lookUpHighest (w.connectionsByDestinationNode.keys.length + 2) nodeName nodeConnectionIndex
    []).map Prod.fst

/-- A node of the workflow reaches the input along main connections between nodes of the
workflow, on a path that does not pass through the node of the input. -/
def ReachesInput (w : Workflow) (m nodeName : String) (input : ℕ) : Prop :=
  ∃ parent, w.Feeds nodeName (some input) parent ∧ parent ≠ nodeName ∧ w.Upstream nodeName parent m

/-- What `getHighestNode` should return for an input. -/
structure HighestOf (w : Workflow) (nodeName : String) (input : ℕ) (names : List String) :
    Prop where
  nodup : names.Nodup
  sound : ∀ m ∈ names, w.Enabled m ∧ w.ReachesInput m nodeName input
  empty : names = [] ↔ ∀ m, w.ReachesInput m nodeName input → ¬ w.Enabled m

/-- A connection that the search from the input meets starts at a node of this name. -/
def MetFrom (w : Workflow) (nodeName : String) (input : ℕ) (name : String) : Prop :=
  (∃ connection ∈ w.connectionsTo nodeName (some input), connection.node = name) ∨
    ∃ m, w.ReachesInput m nodeName input ∧ ∃ connection ∈ w.connectionsTo m none,
      connection.node = name

/-- The name is that of a node, or no object has it from the start. -/
def Known (w : Workflow) (name : String) : Prop := name ∈ inheritedNames → w.getNode name ≠ none

section

variable {w : Workflow} {N : String} {name : String}

theorem inNodes_of_known (h : w.Known name) :
    w.inNodes name = (w.getNode name).isSome := by
  by_cases hin : name ∈ inheritedNames
  · have hnode := h hin
    rw [← Option.isSome_iff_ne_none] at hnode
    rw [inNodes, Dict.has, hnode]
    exact Bool.or_eq_true_iff.mpr (.inl hnode)
  · rw [inNodes, decide_eq_false hin, Bool.or_false]
    rfl

theorem disabledOf_of_getNode {node : INode} (h : w.getNode name = some node) :
    w.disabledOf name = .ok node.disabled := by
  rw [disabledOf, h]

theorem ownMainInputs_eq (hkey : "hasOwnProperty" ∉ w.connectionsByDestinationNode.keys)
    (name : String) : w.ownMainInputs name = .ok (w.mainInputs name) := by
  rw [ownMainInputs, if_neg fun h => hkey (Dict.has_iff.mp h)]

/-- The connections of the nodes in `S` start at known names, and those of nodes in `S`. -/
structure Surveyed (w : Workflow) (N : String) (S : String → Prop) : Prop where
  known : ∀ a, S a → ∀ connection ∈ w.connectionsTo a none, w.Known connection.node
  closed : ∀ a, S a → ∀ connection ∈ w.connectionsTo a none,
    w.getNode connection.node ≠ none → connection.node ≠ N → S connection.node

variable {S : String → Prop}

theorem lookUpConnections_eq {depth : ℕ}
    (ih : ∀ {name : String} {node : INode} {checked : List String}, w.getNode name = some node →
      S name → name ∉ checked → N ∈ checked → checked.Nodup →
      checked ⊆ w.connectionsByDestinationNode.keys →
      w.connectionsByDestinationNode.keys.length + 2 ≤ depth + checked.length →
      w.lookUpHighest depth name none checked =
        (w.highestNodes depth name none checked).mapError .threw)
    (connections : List IConnection) (hknown : ∀ connection ∈ connections, w.Known connection.node)
    (hS : ∀ connection ∈ connections, w.getNode connection.node ≠ none → connection.node ≠ N →
      S connection.node) :
    ∀ (names : List String) {checked : List String}, N ∈ checked → checked.Nodup →
      checked ⊆ w.connectionsByDestinationNode.keys →
      w.connectionsByDestinationNode.keys.length + 2 ≤ depth + checked.length →
      connections.foldlM
          (w.lookUpConnection fun name checked => w.lookUpHighest depth name none checked)
          (names, checked) =
        (connections.foldlM
          (w.searchConnection fun name checked => w.highestNodes depth name none checked)
          (names, checked)).mapError .threw := by
  induction connections with
  | nil => exact fun names checked _ _ _ _ => rfl
  | cons connection connections ihrest =>
    intro names checked hN hnodup hkeys hroom
    have hrest := ihrest (fun c hc => hknown c (List.mem_cons_of_mem _ hc))
      (fun c hc => hS c (List.mem_cons_of_mem _ hc))
    rw [List.foldlM_cons, List.foldlM_cons, searchConnection, lookUpConnection,
      inNodes_of_known (hknown connection List.mem_cons_self)]
    by_cases hmem : connection.node ∈ checked
    · rw [if_pos hmem, if_pos hmem]
      exact hrest names hN hnodup hkeys hroom
    · rw [if_neg hmem, if_neg hmem]
      rcases hnode : w.getNode connection.node with _ | node
      · exact hrest names hN hnodup hkeys hroom
      · have hne : connection.node ≠ N := fun heq => hmem (heq ▸ hN)
        have hself := hS connection List.mem_cons_self (by rw [hnode]; exact Option.some_ne_none _)
          hne
        obtain ⟨addNodes, mid, hsearch, hmid⟩ :=
          exists_highestNodes depth hnode hmem hN hnodup hkeys hroom
        have hlen := (List.subperm_of_subset hnodup hmid.grows).length_le
        rw [ih hnode hself hmem hN hnodup hkeys hroom, hsearch, disabledOf_of_getNode hnode]
        exact hrest _ (hmid.grows hN) hmid.nodup hmid.keys (by omega)

theorem lookUpHighest_eq
    (hkey : "hasOwnProperty" ∉ w.connectionsByDestinationNode.keys) (hS : Surveyed w N S)
    (depth : ℕ) :
    ∀ {name : String} {node : INode} {checked : List String}, w.getNode name = some node →
      S name → name ∉ checked → N ∈ checked → checked.Nodup →
      checked ⊆ w.connectionsByDestinationNode.keys →
      w.connectionsByDestinationNode.keys.length + 2 ≤ depth + checked.length →
      w.lookUpHighest depth name none checked =
        (w.highestNodes depth name none checked).mapError .threw := by
  induction depth with
  | zero =>
    intro name node checked _ _ _ _ hnodup hkeys hroom
    have hlen := (List.subperm_of_subset hnodup hkeys).length_le
    omega
  | succ depth ih =>
    intro name node checked hnode hname hnew hN hnodup hkeys hroom
    rw [lookUpHighest, disabledOf_of_getNode hnode, ownMainInputs_eq hkey]
    rcases hslots : w.mainInputs name with _ | slots
    · rw [highestNodes, hnode, hslots]
      rfl
    · rw [highestNodes_of_mainInputs depth none hnode hslots hnew, connectionsTo, hslots]
      have hloop := lookUpConnections_eq ih (w.connectionsTo name none) (hS.known name hname)
        (hS.closed name hname) [] (List.mem_cons_of_mem name hN)
        (List.nodup_cons.mpr ⟨hnew, hnodup⟩)
        (List.cons_subset.mpr ⟨mem_keys_of_mainInputs hslots, hkeys⟩) (by
          rw [List.length_cons]
          omega)
      rw [connectionsTo, hslots] at hloop
      simp only [if_neg hnew]
      exact hloop

theorem nodup_append_filter {names addNodes : List String} (h : names.Nodup)
    (hadd : addNodes.Nodup) : (names ++ addNodes.filter (· ∉ names)).Nodup := by
  refine List.nodup_append'.mpr ⟨h, hadd.filter _, fun a ha hfilter => ?_⟩
  exact absurd ha (of_decide_eq_true (List.mem_filter.mp hfilter).2)

theorem nodup_highestNodes (depth : ℕ) :
    ∀ {name : String} {input : Option ℕ} {checked names checked' : List String},
      w.highestNodes depth name input checked = .ok (names, checked') → names.Nodup := by
  induction depth with
  | zero =>
    intro name input checked names checked' h
    cases h
    exact List.nodup_nil
  | succ depth ih =>
    intro name input checked names checked' h
    have hself : ∀ node : INode, (if node.disabled = some false then [name] else []).Nodup := by
      intro node
      split
      · exact List.nodup_singleton name
      · exact List.nodup_nil
    rcases hnode : w.getNode name with _ | node
    · rw [highestNodes, hnode] at h
      cases h
    · rcases hslots : w.mainInputs name with _ | slots
      · rw [highestNodes, hnode, hslots] at h
        cases h
        exact hself node
      · by_cases hnew : name ∈ checked
        · rw [highestNodes, hnode, hslots] at h
          simp only [if_pos hnew] at h
          cases h
          exact hself node
        · rw [highestNodes_of_mainInputs depth input hnode hslots hnew] at h
          refine foldlM_invariant (I := fun state => state.1.Nodup) ?_ List.nodup_nil h
          rintro ⟨found, seen⟩ connection state' hfound hstep
          rw [searchConnection] at hstep
          split at hstep
          · cases hstep
            exact hfound
          · split at hstep
            · cases hstep
              exact hfound
            · obtain ⟨⟨addNodes, mid⟩, hsearch, hret⟩ := exists_of_bind_eq_ok hstep
              cases hret
              refine nodup_append_filter hfound ?_
              split
              · exact List.nodup_singleton _
              · exact ih hsearch

/-- **What `getHighestNode` says of an input**, where it meets no inherited name that is not
the name of a node. -/
theorem highestOf_of_known {nodeName : String} (node : INode) (slots : NodeInputConnections)
    (hnode : w.getNode nodeName = some node) (hslots : w.mainInputs nodeName = some slots)
    (input : ℕ) (hkey : "hasOwnProperty" ∉ w.connectionsByDestinationNode.keys)
    (hknown : ∀ name, w.MetFrom nodeName input name → w.Known name) :
    ∃ names, w.lookUpHighestNode nodeName (some input) = .ok names ∧
      w.HighestOf nodeName input names := by
  set depth := w.connectionsByDestinationNode.keys.length + 1 with hdepth
  have hkeys : [nodeName] ⊆ w.connectionsByDestinationNode.keys :=
    List.cons_subset.mpr ⟨mem_keys_of_mainInputs hslots, List.nil_subset _⟩
  have hroom : w.connectionsByDestinationNode.keys.length + 2 ≤ depth + [nodeName].length := by
    simp [hdepth]
  -- the nodes that reach the input are surveyed
  have hS : Surveyed w nodeName fun m => w.ReachesInput m nodeName input := by
    refine ⟨fun a ha c hc => hknown _ (.inr ⟨a, ha, c, hc, rfl⟩), ?_⟩
    rintro a ⟨parent, hfeeds, hne, hup⟩ c hc hex hother
    exact ⟨parent, hfeeds, hne, hup.tail ⟨⟨hex, c, hc, rfl⟩, hother⟩⟩
  have hsame := lookUpConnections_eq (lookUpHighest_eq hkey hS depth)
    (w.connectionsTo nodeName (some input)) (fun c hc => hknown _ (.inl ⟨c, hc, rfl⟩))
    (fun c hc hex hother => ⟨c.node, ⟨hex, c, hc, rfl⟩, hother, .refl⟩) []
    (List.mem_singleton_self nodeName) (List.nodup_singleton nodeName) hkeys hroom
  obtain ⟨names, checked, hloop, h⟩ := exists_searchConnections (exists_highestNodes depth)
    (w.connectionsTo nodeName (some input)) [] (List.mem_singleton_self nodeName)
    (List.nodup_singleton nodeName) hkeys hroom
  have hold : w.highestNodes (depth + 1) nodeName (some input) [] = .ok (names, checked) := by
    rw [highestNodes_of_mainInputs depth _ hnode hslots List.not_mem_nil, hloop]
  have hnew : w.lookUpHighest (depth + 1) nodeName (some input) [] = .ok (names, checked) := by
    rw [hloop, connectionsTo, hslots] at hsame
    rw [lookUpHighest, disabledOf_of_getNode hnode, ownMainInputs_eq hkey, hslots]
    exact hsame
  obtain ⟨names', hhighest, hiff⟩ := exists_getHighestNode hnode hslots input
  have hnames : names' = names := by
    rw [getHighestNode, hold] at hhighest
    exact (Except.ok.inj hhighest).symm
  rw [hnames] at hiff
  refine ⟨names, by rw [lookUpHighestNode, hnew]; rfl, nodup_highestNodes _ hold, fun m hm => ?_,
    ?_⟩
  · obtain ⟨hen, c, hc, hex, hne, hup⟩ := (h.sound m hm).resolve_left List.not_mem_nil
    exact ⟨hen, c.node, ⟨hex, c, hc, rfl⟩, hne, hup⟩
  · rw [← not_iff_not, ← ne_eq, hiff]
    push Not
    constructor
    · rintro ⟨parent, name, hfeeds, hne, hup, hen⟩
      exact ⟨name, ⟨parent, hfeeds, hne, hup⟩, hen⟩
    · rintro ⟨name, ⟨parent, hfeeds, hne, hup⟩, hen⟩
      exact ⟨parent, name, hfeeds, hne, hup, hen⟩

variable {nodeName : String}

theorem exists_link_of_mem_connectionsTo {input : Option ℕ}
    {connection : IConnection} (h : connection ∈ w.connectionsTo nodeName input) :
    ∃ l ∈ links w.connectionsByDestinationNode, l.connection = connection := by
  rw [connectionsTo, List.mem_flatMap] at h
  obtain ⟨⟨slot, index⟩, hslot, hc⟩ := h
  have hat := List.mk_mem_zipIdx_iff_getElem?.mp (List.mem_filter.mp hslot).1
  rcases slot with _ | cs
  · cases hc
  · rcases hget : w.connectionsByDestinationNode.get? nodeName with _ | byType
    · rw [mainInputs, hget] at hat
      simp at hat
    · rcases hmain : byType.get? .main with _ | slots
      · rw [mainInputs, hget, Option.bind_some, hmain] at hat
        simp at hat
      · rw [mainInputs, hget, Option.bind_some, hmain] at hat
        exact ⟨⟨nodeName, .main, index, connection⟩,
          mem_links.mpr ⟨byType, slots, cs, hget, hmain, hat, hc⟩, rfl⟩

theorem known_of_links (h : ∀ l ∈ links w.connectionsByDestinationNode,
    l.connection.node ∉ inheritedNames) {input : ℕ}
    (hmet : w.MetFrom nodeName input name) : w.Known name := by
  intro hin
  rcases hmet with ⟨c, hc, rfl⟩ | ⟨m, -, c, hc, rfl⟩
  · obtain ⟨l, hl, rfl⟩ := exists_link_of_mem_connectionsTo hc
    exact absurd hin (h l hl)
  · obtain ⟨l, hl, rfl⟩ := exists_link_of_mem_connectionsTo hc
    exact absurd hin (h l hl)

end

def ofConnections (nodes : List INode) (connections : IConnections) : Workflow where
  nodes := nodes.foldl putNode Dict.empty
  connectionsBySourceNode := connections
  connectionsByDestinationNode := mapConnectionsByDestination connections

/-- A node of the workflow, and a connection to it from a name that is no node. -/
def fedByToString : Workflow :=
  ofConnections [{ name := "Set" }]
    (Dict.empty.set "toString" (Dict.empty.set .main [some [⟨"Set", .main, 0⟩]]))

def fedTwice : Workflow :=
  ofConnections [{ name := "Trigger" }, { name := "IF", disabled := some true }, { name := "Set" }]
    ((Dict.empty.set "Trigger" (Dict.empty.set .main
      [some [⟨"IF", .main, 0⟩, ⟨"Set", .main, 0⟩]])).set "IF" (Dict.empty.set .main
      [some [⟨"Set", .main, 0⟩]]))

theorem not_highestOf_fedByToString :
    ¬ ∃ names, fedByToString.lookUpHighestNode "Set" (some 0) = .ok names ∧
      fedByToString.HighestOf "Set" 0 names := by
  rintro ⟨names, hnames, h⟩
  have hrun : fedByToString.lookUpHighestNode "Set" (some 0) = .ok ["toString"] := by
    decide +kernel
  rw [hrun] at hnames
  cases hnames
  obtain ⟨⟨node, hnode, -⟩, -⟩ := h.sound "toString" List.mem_cons_self
  have hnone : fedByToString.getNode "toString" = none := by decide +kernel
  rw [hnone] at hnode
  cases hnode

theorem highestOf_fedTwice :
    ∃ names, fedTwice.lookUpHighestNode "Set" (some 0) = .ok names ∧
      fedTwice.HighestOf "Set" 0 names :=
  highestOf_of_known { name := "Set" } [some [⟨"Trigger", .main, 0⟩, ⟨"IF", .main, 0⟩]]
    (by decide +kernel) (by decide +kernel) 0 (by decide +kernel) fun _ hmet =>
      known_of_links (by decide +kernel) hmet

end N8n.Workflow
