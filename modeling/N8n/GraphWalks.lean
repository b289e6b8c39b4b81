/-
The nodes below a node and the connections above it.

`getChildren` collects the nodes that the connections of a node lead to, `getParentConnections`
the connections that lead to a node, over any number of connections of any type.

* `exists_getChildren`, `exists_getParentConnections` — **both end, cycles or not, with the
  nodes and connections on the paths from and to the node**.
-/
import N8n.Collect
import N8n.StronglyConnectedComponents

namespace N8n

open DepthFirst

namespace DirectedGraph

def stackOverflow : JsError := .raised "Maximum call stack size exceeded"

variable (g : DirectedGraph) (node : String)

def directChildConnections : Except JsError (List GraphConnection) :=
  match g.nodes.get? node with
  | some node => g.getDirectChildConnections node
  | none => .error .assertionError

def directParentConnections : Except JsError (List GraphConnection) :=
  match g.nodes.get? node with
  | some node => g.getDirectParentConnections node
  | none => .error .assertionError

def getChildrenRecursive : ℕ → String → List String → Except JsError (List String) :=
  collect g.directChildren id stackOverflow

def getChildren : Except JsError (List String) :=
  getChildrenRecursive g (g.nodes.keys.length + 1) node []

def getParentConnectionsRecursive : ℕ → String → List GraphConnection →
    Except JsError (List GraphConnection) :=
  collect g.directParentConnections GraphConnection.fromName stackOverflow

def getParentConnections : Except JsError (List GraphConnection) :=
  getParentConnectionsRecursive g (g.getConnections.length + 1) node []

def outgoing : List GraphConnection :=
  g.getConnections.filter fun c => decide (c.fromName = node)

def pred : List GraphConnection :=
  g.getConnections.filter fun c => decide (c.toName = node)

section

variable {g : DirectedGraph} {node : String}

theorem mem_succ {n m : String} :
    m ∈ g.succ n ↔ ∃ c ∈ g.getConnections, c.fromName = n ∧ c.toName = m := by
  simp only [succ, List.mem_map, List.mem_filter, decide_eq_true_eq, and_assoc]

variable {c : GraphConnection}

theorem mem_pred :
    c ∈ g.pred node ↔ c ∈ g.getConnections ∧ c.toName = node := by
  rw [pred, List.mem_filter, decide_eq_true_eq]

theorem mem_outgoing :
    c ∈ g.outgoing node ↔ c ∈ g.getConnections ∧ c.fromName = node := by
  rw [outgoing, List.mem_filter, decide_eq_true_eq]

theorem Closed.directChildConnections (hg : Closed g) (h : node ∈ g.nodes.keys) :
    g.directChildConnections node = .ok (g.outgoing node) := by
  obtain ⟨n, hn⟩ := Dict.mem_keys_iff.mp h
  have hname := hg.valid.node node n hn
  rw [DirectedGraph.directChildConnections, hn]
  simp only [getDirectChildConnections]
  rw [hname, if_pos hn]
  rfl

theorem Closed.directParentConnections (hg : Closed g) (h : node ∈ g.nodes.keys) :
    g.directParentConnections node = .ok (g.pred node) := by
  obtain ⟨n, hn⟩ := Dict.mem_keys_iff.mp h
  have hname := hg.valid.node node n hn
  rw [DirectedGraph.directParentConnections, hn]
  simp only [getDirectParentConnections]
  rw [hname, if_pos hn]
  rfl

theorem exists_getChildren (hg : Closed g) (h : node ∈ g.nodes.keys) :
    ∃ children, g.getChildren node = .ok children ∧
      ∀ n, n ∈ children ↔ ∃ m, Reaches g.succ node m ∧ n ∈ g.succ m := by
  obtain ⟨children, hchildren, -, hmem⟩ := exists_collect_nil id stackOverflow
    (N := (· ∈ g.nodes.keys)) (K := g.nodes.keys)
    (fun _ hn => hg.directChildren hn)
    (fun _ _ a ha => ⟨hg.succ_mem ha, hg.succ_mem ha⟩) h
  have hleads : Leads g.succ id = Reaches g.succ := by
    simp only [Leads, Reaches, id_eq, exists_eq_right]
  rw [hleads] at hmem
  exact ⟨children, hchildren, hmem⟩

theorem leads_pred {m : String} :
    Leads g.pred GraphConnection.fromName node m ↔ Reaches g.succ m node := by
  have hstep : (fun m n => ∃ c ∈ g.pred m, c.fromName = n) = Function.swap fun m n => n ∈ g.succ m := by
    funext m n
    simp only [Function.swap, mem_succ, mem_pred, and_assoc, eq_iff_iff]
    exact exists_congr fun c => and_congr_right fun _ => and_comm
  rw [Leads, hstep, Relation.reflTransGen_swap]
  rfl

theorem exists_getParentConnections (hg : Closed g) (h : node ∈ g.nodes.keys) :
    ∃ connections, g.getParentConnections node = .ok connections ∧
      ∀ c, c ∈ connections ↔ c ∈ g.getConnections ∧ Reaches g.succ c.toName node := by
  obtain ⟨connections, hconnections, -, hmem⟩ := exists_collect_nil
    GraphConnection.fromName stackOverflow (N := (· ∈ g.nodes.keys)) (K := g.getConnections)
    (fun _ hn => hg.directParentConnections hn)
    (fun _ _ c hc => ⟨(mem_pred.mp hc).1, hg.fromName c (mem_pred.mp hc).1⟩) h
  refine ⟨connections, hconnections, fun c => (hmem c).trans ?_⟩
  simp only [leads_pred, mem_pred]
  constructor
  · rintro ⟨m, hreach, hc, rfl⟩
    exact ⟨hc, hreach⟩
  · rintro ⟨hc, hreach⟩
    exact ⟨_, hreach, hc, rfl⟩

end

end DirectedGraph

end N8n
