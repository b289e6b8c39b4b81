/-
The part of a graph between a trigger and a destination.

`findSubgraphRecursive` goes back from the destination and copies the branches it keeps to a new
graph; then the connections of other types than main above the copied nodes are copied too.

* `findSubgraph_iff` — **the subgraph is what lies on walks from the trigger to the destination,
  with its sub-nodes, iff every cycle that leads to the destination can be reached from the
  trigger, and what leads to a walk by some connections, the first not main, leads to one by
  such connections only**.
-/
import N8n.GraphWalks
import N8n.BranchSearch

namespace N8n

open DepthFirst Relation

namespace DirectedGraph

/-- `newGraph.addNodes(connection.from, connection.to)` and `newGraph.addConnection(connection)`. -/
def copyConnection (graph newGraph : DirectedGraph) (connection : GraphConnection) :
    Except JsError DirectedGraph :=
  match graph.connectionInput connection with
  | some i => (newGraph.addNodes [i.fromNode, i.toNode]).addConnection i
  | none => .error .assertionError

/-- The search at a node, calls at most so many deep. -/
def findSubgraphRecursive (graph : DirectedGraph) (destinationNode trigger : INode) :
    ℕ → String → DirectedGraph → List GraphConnection → Except JsError DirectedGraph
  | 0, _, _, _ => .error stackOverflow
  | depth + 1, current, newGraph, currentBranch =>
    if current = trigger.name then
      currentBranch.foldlM (copyConnection graph) (newGraph.addNode trigger)
    else do
      let parentConnections ← graph.directParentConnections current
      if parentConnections = [] then .ok newGraph
      else if current = destinationNode.name ∧
          destinationNode.name ∈ currentBranch.map GraphConnection.toName then .ok newGraph
      else if current ∈ currentBranch.map GraphConnection.toName then
        currentBranch.foldlM (copyConnection graph) newGraph
      else parentConnections.foldlM (fun newGraph parentConnection =>
        if parentConnection.type ≠ .main then .ok newGraph
        else findSubgraphRecursive graph destinationNode trigger depth parentConnection.fromName
          newGraph (currentBranch ++ [parentConnection])) newGraph

def addSubNodes (graph subgraph : DirectedGraph) (node : String) :
    Except JsError DirectedGraph := do
  let parentConnections ← graph.getParentConnections node
  parentConnections.foldlM (fun subgraph connection =>
    if connection.type = .main then .ok subgraph
    else copyConnection graph subgraph connection) subgraph

def findSubgraph (graph : DirectedGraph) (destination trigger : INode) :
    Except JsError DirectedGraph := do
  let subgraph ← findSubgraphRecursive graph destination trigger (graph.nodes.keys.length + 1)
    destination.name {} []
  subgraph.nodes.values.foldlM (fun subgraph node => addSubNodes graph subgraph node.name) subgraph

/-- A graph with the nodes `N` and the connections `C` of another one. -/
structure Part (g : DirectedGraph) (N : String → Prop) (C : GraphConnection → Prop)
    (h : DirectedGraph) : Prop where
  valid : h.Valid
  node : ∀ name node, h.nodes.get? name = some node → g.nodes.get? name = some node
  nodes : ∀ name, name ∈ h.nodes.keys ↔ N name
  connections : ∀ c, c ∈ h.getConnections ↔ C c
  mem : ∀ c, C c → c ∈ g.getConnections

/-- The computation adds the nodes `N` and the connections `C`. -/
def Adds (g : DirectedGraph) (f : DirectedGraph → Except JsError DirectedGraph)
    (N : String → Prop) (C : GraphConnection → Prop) : Prop :=
  ∀ N₀ C₀ h, Part g N₀ C₀ h →
    ∃ h', f h = .ok h' ∧ Part g (fun n => N₀ n ∨ N n) (fun c => C₀ c ∨ C c) h'

def Ends (c : GraphConnection) (name : String) : Prop := name = c.fromName ∨ name = c.toName

section

variable {g h : DirectedGraph} {N N' : String → Prop} {C C' : GraphConnection → Prop}
  {f f' : DirectedGraph → Except JsError DirectedGraph} {name : String} {node : INode}
  {c : GraphConnection}

theorem part_empty : Part g (fun _ => False) (fun _ => False) {} where
  valid := valid_empty
  node := fun _ _ h => (by cases h)
  nodes := fun _ => ⟨fun h => (by cases h), False.elim⟩
  connections := fun _ => ⟨fun h => (by cases h), False.elim⟩
  mem := fun _ h => h.elim

theorem Part.congr (hp : Part g N C h) (hN : ∀ n, N n ↔ N' n) (hC : ∀ c, C c ↔ C' c) :
    Part g N' C' h :=
  ⟨hp.valid, hp.node, fun n => (hp.nodes n).trans (hN n), fun c => (hp.connections c).trans (hC c),
    fun c hc => hp.mem c ((hC c).mpr hc)⟩

theorem Part.addNode (hp : Part g N C h) (hname : node.name = name)
    (hnode : g.nodes.get? name = some node) :
    Part g (fun n => N n ∨ n = name) C (h.addNode node) where
  valid := hp.valid.addNode node
  node := by
    intro name' node' h'
    rw [DirectedGraph.addNode, Dict.get?_set] at h'
    split at h'
    · next heq => rw [heq, hname, hnode, h']
    · exact hp.node name' node' h'
  nodes := by
    intro n
    rw [Dict.mem_keys_iff]
    simp only [DirectedGraph.addNode, Dict.get?_set, hname]
    split
    · next heq => exact ⟨fun _ => .inr heq, fun _ => ⟨node, rfl⟩⟩
    · next hne => rw [← Dict.mem_keys_iff, hp.nodes, or_iff_left hne]
  connections := hp.connections
  mem := hp.mem

theorem Part.putConnection (hp : Part g N C h) (hg : g.Valid) (hc : c ∈ g.getConnections) :
    Part g N (fun d => C d ∨ d = c) (h.putConnection c) where
  valid := hp.valid.putConnection c
  node := hp.node
  nodes := hp.nodes
  connections := by
    intro d
    have hmem : d ∈ ([c].foldl DirectedGraph.putConnection h).getConnections ↔
        d ∈ h.getConnections ∨ d ∈ [c] := hp.valid.mem_putConnections fun a ha b hb hkey => by
      have hin : ∀ x ∈ h.getConnections ++ [c], x ∈ g.getConnections := by
        intro x hx
        rcases List.mem_append.mp hx with hx | hx
        · exact hp.mem x ((hp.connections x).mp hx)
        · exact List.mem_singleton.mp hx ▸ hc
      have ha := hg.mem_getConnections.mp (hin a ha)
      rw [hkey, hg.mem_getConnections.mp (hin b hb)] at ha
      exact (Option.some_inj.mp ha).symm
    rw [← hp.connections, ← List.mem_singleton (a := d)]
    exact hmem
  mem := fun d hd => hd.elim (hp.mem d) fun heq => heq ▸ hc

theorem Adds.congr (ha : Adds g f N C) (hN : ∀ n, N n ↔ N' n) (hC : ∀ c, C c ↔ C' c) :
    Adds g f N' C' := by
  intro N₀ C₀ h hp
  obtain ⟨h', hok, hp'⟩ := ha N₀ C₀ h hp
  exact ⟨h', hok, hp'.congr (fun n => or_congr_right (hN n)) fun c => or_congr_right (hC c)⟩

theorem adds_nothing : Adds g .ok (fun _ => False) (fun _ => False) :=
  fun _ _ h hp => ⟨h, rfl, hp.congr (fun _ => (or_iff_left id).symm)
    fun _ => (or_iff_left id).symm⟩

theorem Adds.bind (ha : Adds g f N C) (ha' : Adds g f' N' C') :
    Adds g (fun h => f h >>= f') (fun n => N n ∨ N' n) (fun c => C c ∨ C' c) := by
  intro N₀ C₀ h hp
  obtain ⟨h', hok, hp'⟩ := ha N₀ C₀ h hp
  obtain ⟨h'', hok', hp''⟩ := ha' _ _ h' hp'
  refine ⟨h'', ?_, hp''.congr (fun _ => or_assoc) fun _ => or_assoc⟩
  simp only [hok]
  exact hok'

theorem adds_foldlM {ι : Type} {body : DirectedGraph → ι → Except JsError DirectedGraph}
    {N : ι → String → Prop} {C : ι → GraphConnection → Prop} {is : List ι}
    (ha : ∀ i ∈ is, Adds g (fun h => body h i) (N i) (C i)) :
    Adds g (fun h => is.foldlM body h) (fun n => ∃ i ∈ is, N i n) (fun c => ∃ i ∈ is, C i c) := by
  induction is with
  | nil => exact adds_nothing.congr (fun n => by simp) fun c => by simp
  | cons i is ih =>
    obtain ⟨hi, his⟩ := List.forall_mem_cons.mp ha
    exact (hi.bind (ih his)).congr (fun n => by simp) fun c => by simp

theorem adds_copyConnection (hg : Closed g) (hc : c ∈ g.getConnections) :
    Adds g (fun h => copyConnection g h c) (Ends c) (· = c) := by
  intro N₀ C₀ h hp
  obtain ⟨fromNode, hfrom⟩ := Dict.mem_keys_iff.mp (hg.fromName c hc)
  obtain ⟨toNode, hto⟩ := Dict.mem_keys_iff.mp (hg.toName c hc)
  have hfromName := hg.valid.node _ _ hfrom
  have htoName := hg.valid.node _ _ hto
  have hinput : g.connectionInput c
      = some ⟨fromNode, toNode, c.type, c.outputIndex, c.inputIndex⟩ := by
    rw [connectionInput, hfrom, hto]
  have hnodes := (hp.addNode hfromName hfrom).addNode htoName hto
  have hget : ∀ {name node}, g.nodes.get? name = some node → Ends c name →
      (h.addNodes [fromNode, toNode]).nodes.get? name = some node := by
    intro name node hnode hend
    have hkey : name ∈ (h.addNodes [fromNode, toNode]).nodes.keys :=
      (hnodes.nodes name).mpr (hend.elim (fun h => .inl (.inr h)) .inr)
    obtain ⟨node', hnode'⟩ := Dict.mem_keys_iff.mp hkey
    rw [hnode', ← hnode, ← hnodes.node name node' hnode']
  refine ⟨_, ?_, (hnodes.putConnection hg.valid hc).congr (fun n => or_assoc) fun _ => Iff.rfl⟩
  simp only [copyConnection, hinput, addConnection, hfromName, htoName]
  rw [if_pos ⟨hget hfrom (.inl rfl), hget hto (.inr rfl)⟩]
  refine congrArg (fun d => Except.ok (DirectedGraph.putConnection _ d)) ?_
  rw [ConnectionInput.connection, hfromName, htoName]

/-- The search back over main connections. -/
def mainSearch (hg : Closed g) (trigger destination : String) :
    BranchSearch String GraphConnection where
  pred n := (g.pred n).filter fun c => decide (c.type = .main)
  source := GraphConnection.fromName
  target := GraphConnection.toName
  trigger := trigger
  destination := destination
  nodes := g.nodes.keys
  target_of_mem h := (mem_pred.mp (List.mem_filter.mp h).1).2
  mem_nodes h := by
    obtain ⟨hmem, heq⟩ := mem_pred.mp (List.mem_filter.mp h).1
    exact heq ▸ hg.toName _ hmem

theorem mem_mainSearch {hg : Closed g} {trigger destination n : String} :
    c ∈ (mainSearch hg trigger destination).pred n ↔
      c ∈ g.getConnections ∧ c.toName = n ∧ c.type = .main := by
  rw [mainSearch, List.mem_filter, mem_pred, decide_eq_true_eq, and_assoc]

/-- The connections of the branches that are kept from a call on. -/
def KeptConnection (S : BranchSearch String GraphConnection) (s : String × List GraphConnection)
    (c : GraphConnection) : Prop :=
  ∃ s', S.Finds s s' ∧ c ∈ s'.2

def KeptNode (S : BranchSearch String GraphConnection) (s : String × List GraphConnection)
    (n : String) : Prop :=
  ∃ s', S.Finds s s' ∧ (n = s'.1 ∨ ∃ c ∈ s'.2, Ends c n)

section

variable {S : BranchSearch String GraphConnection} {s : String × List GraphConnection}

theorem keptNode_iff (h : ¬ S.Keeps s) {n : String} :
    KeptNode S s n ↔ ∃ s', S.Calls s s' ∧ KeptNode S s' n := by
  simp only [KeptNode, BranchSearch.finds_iff_of_not_keeps h]
  constructor
  · rintro ⟨s', ⟨s₁, hcalls, hfinds⟩, hn⟩
    exact ⟨s₁, hcalls, s', hfinds, hn⟩
  · rintro ⟨s₁, hcalls, s', hfinds, hn⟩
    exact ⟨s', ⟨s₁, hcalls, hfinds⟩, hn⟩

theorem keptConnection_iff (h : ¬ S.Keeps s) :
    KeptConnection S s c ↔ ∃ s', S.Calls s s' ∧ KeptConnection S s' c := by
  simp only [KeptConnection, BranchSearch.finds_iff_of_not_keeps h]
  constructor
  · rintro ⟨s', ⟨s₁, hcalls, hfinds⟩, hc⟩
    exact ⟨s₁, hcalls, s', hfinds, hc⟩
  · rintro ⟨s₁, hcalls, s', hfinds, hc⟩
    exact ⟨s', ⟨s₁, hcalls, hfinds⟩, hc⟩

theorem adds_kept (h : S.Keeps s) (ha : Adds g f N (· ∈ s.2))
    (hN : ∀ n, N n ↔ n = s.1 ∨ ∃ c ∈ s.2, Ends c n) :
    Adds g f (KeptNode S s) (KeptConnection S s) := by
  refine ha.congr (fun n => ?_) fun c => ?_
  · simp only [KeptNode, h.finds_iff, exists_eq_left, hN]
  · simp only [KeptConnection, h.finds_iff, exists_eq_left]

theorem adds_dropped (h : ¬ S.Keeps s) (hcalls : ∀ s', ¬ S.Calls s s') :
    Adds g .ok (KeptNode S s) (KeptConnection S s) := by
  refine adds_nothing.congr (fun n => ?_) fun c => ?_
  · rw [keptNode_iff h]
    exact ⟨False.elim, fun ⟨s', h, _⟩ => hcalls s' h⟩
  · rw [keptConnection_iff h]
    exact ⟨False.elim, fun ⟨s', h, _⟩ => hcalls s' h⟩

theorem adds_parents {parents : List GraphConnection}
    {call : DirectedGraph → GraphConnection → Except JsError DirectedGraph} (h : ¬ S.Keeps s)
    (hcalls : ∀ s', S.Calls s s' ↔
      ∃ c ∈ parents, c.type = .main ∧ s' = (c.fromName, s.2 ++ [c]))
    (ha : ∀ c ∈ parents, c.type = .main → Adds g (fun h => call h c)
      (KeptNode S (c.fromName, s.2 ++ [c])) (KeptConnection S (c.fromName, s.2 ++ [c]))) :
    Adds g (fun h => parents.foldlM (fun h c => if c.type ≠ .main then .ok h else call h c) h)
      (KeptNode S s) (KeptConnection S s) := by
  have hrounds : ∀ c ∈ parents, Adds g (fun h => if c.type ≠ .main then .ok h else call h c)
      (fun n => c.type = .main ∧ KeptNode S (c.fromName, s.2 ++ [c]) n)
      (fun d => c.type = .main ∧ KeptConnection S (c.fromName, s.2 ++ [c]) d) := by
    intro c hc
    by_cases htype : c.type = .main
    · simp only [if_neg (not_not.mpr htype)]
      exact (ha c hc htype).congr (fun n => (and_iff_right htype).symm)
        fun d => (and_iff_right htype).symm
    · simp only [if_pos htype]
      exact adds_nothing.congr (fun n => ⟨False.elim, fun h => htype h.1⟩)
        fun d => ⟨False.elim, fun h => htype h.1⟩
  refine (adds_foldlM hrounds).congr (fun n => ?_) fun d => ?_
  · simp only [keptNode_iff h, hcalls]
    constructor
    · rintro ⟨c, hc, htype, hn⟩
      exact ⟨_, ⟨c, hc, htype, rfl⟩, hn⟩
    · rintro ⟨_, ⟨c, hc, htype, rfl⟩, hn⟩
      exact ⟨c, hc, htype, hn⟩
  · simp only [keptConnection_iff h, hcalls]
    constructor
    · rintro ⟨c, hc, htype, hd⟩
      exact ⟨_, ⟨c, hc, htype, rfl⟩, hd⟩
    · rintro ⟨_, ⟨c, hc, htype, rfl⟩, hd⟩
      exact ⟨c, hc, htype, hd⟩

end

section

variable {destination trigger : INode}

theorem calls_iff (hg : Closed g) {trigger : String} (destination : String)
    {s : String × List GraphConnection} (htrigger : s.1 ≠ trigger)
    (hnot : s.1 ∉ s.2.map GraphConnection.toName) (s' : String × List GraphConnection) :
    (mainSearch hg trigger destination).Calls s s' ↔
      ∃ c ∈ g.pred s.1, c.type = .main ∧ s' = (c.fromName, s.2 ++ [c]) := by
  constructor
  · rintro ⟨-, -, c, hc, rfl⟩
    obtain ⟨hc, heq, htype⟩ := mem_mainSearch.mp hc
    exact ⟨c, mem_pred.mpr ⟨hc, heq⟩, htype, rfl⟩
  · rintro ⟨c, hc, htype, rfl⟩
    obtain ⟨hc, heq⟩ := mem_pred.mp hc
    exact ⟨htrigger, hnot, c, mem_mainSearch.mpr ⟨hc, heq, htype⟩, rfl⟩

theorem adds_findSubgraphRecursive (hg : Closed g)
    (hdestination : destination.name ∈ g.nodes.keys)
    (htrigger : g.nodes.get? trigger.name = some trigger) (depth : ℕ) :
    ∀ {s : String × List GraphConnection},
      (mainSearch hg trigger.name destination.name).Call s →
      g.nodes.keys.length < depth + s.2.length →
      Adds g (fun h => findSubgraphRecursive g destination trigger depth s.1 h s.2)
        (KeptNode (mainSearch hg trigger.name destination.name) s)
        (KeptConnection (mainSearch hg trigger.name destination.name) s) := by
  induction depth with
  | zero =>
    intro s hcall hdepth
    have hle : s.2.length ≤ g.nodes.keys.length := hcall.trail.length_le
    omega
  | succ depth ih =>
    intro s hcall hdepth
    have htrail := hcall.trail
    have hmem : ∀ c ∈ s.2, c ∈ g.getConnections := fun c hc =>
      (mem_mainSearch.mp (htrail.mem c hc)).1
    have hkey : s.1 ∈ g.nodes.keys := by
      by_cases hnil : s.2 = []
      · exact htrail.nil hnil ▸ hdestination
      · obtain ⟨c, hc, heq⟩ := htrail.last hnil
        exact heq ▸ hg.fromName c (hmem c hc)
    have hbranch : Adds g (fun h => s.2.foldlM (copyConnection g) h)
        (fun n => ∃ c ∈ s.2, Ends c n) (· ∈ s.2) :=
      (adds_foldlM fun c hc => adds_copyConnection hg (hmem c hc)).congr (fun _ => Iff.rfl)
        fun c => exists_eq_right'
    simp only [findSubgraphRecursive, hg.directParentConnections hkey]
    by_cases hcurrent : s.1 = trigger.name
    · simp only [if_pos hcurrent]
      have hadd : Adds g (fun h => .ok (h.addNode trigger)) (· = trigger.name) (fun _ => False) :=
        fun _ _ h hp => ⟨_, rfl, (hp.addNode rfl htrigger).congr (fun _ => Iff.rfl)
          fun _ => (or_iff_left id).symm⟩
      refine adds_kept (.inl hcurrent) ((hadd.bind hbranch).congr (fun _ => Iff.rfl)
        fun _ => or_iff_right id) fun n => ?_
      rw [hcurrent]
    simp only [if_neg hcurrent]
    change Adds g (fun h => if g.pred s.1 = [] then _ else _) _ _
    have hkeeps : s.1 ∉ s.2.map GraphConnection.toName →
        ¬ (mainSearch hg trigger.name destination.name).Keeps s := fun hnot h =>
      h.elim hcurrent fun hmem => hnot hmem.2
    by_cases hpred : g.pred s.1 = []
    · have hnot : s.1 ∉ s.2.map GraphConnection.toName := by
        intro hcur
        obtain ⟨c, hc, heq⟩ := List.mem_map.mp hcur
        exact List.ne_nil_of_mem (mem_pred.mpr ⟨hmem c hc, heq⟩) hpred
      simp only [if_pos hpred]
      refine adds_dropped (hkeeps hnot) fun s' hcalls => ?_
      obtain ⟨c, hc, -⟩ := (calls_iff _ _ hcurrent hnot s').mp hcalls
      exact List.ne_nil_of_mem hc hpred
    simp only [if_neg hpred]
    by_cases hcycle : s.1 = destination.name ∧
        destination.name ∈ s.2.map GraphConnection.toName
    · simp only [if_pos hcycle]
      exact adds_dropped (fun h => h.elim hcurrent fun hmem => hmem.1 hcycle.1)
        fun s' hcalls => hcalls.2.1 (hcycle.1 ▸ hcycle.2)
    simp only [if_neg hcycle]
    by_cases hcur : s.1 ∈ s.2.map GraphConnection.toName
    · simp only [if_pos hcur]
      have hne : s.1 ≠ destination.name := fun heq => hcycle ⟨heq, heq ▸ hcur⟩
      refine adds_kept (.inr ⟨hne, hcur⟩) hbranch fun n => (or_iff_right_of_imp ?_).symm
      rintro rfl
      obtain ⟨c, hc, heq⟩ := List.mem_map.mp hcur
      exact ⟨c, hc, .inr heq.symm⟩
    simp only [if_neg hcur]
    have hcalls := calls_iff hg destination.name hcurrent hcur
    refine adds_parents (hkeeps hcur) hcalls fun c hc htype => ?_
    refine ih (hcall.tail ((hcalls _).mpr ⟨c, hc, htype, rfl⟩)) ?_
    rw [List.length_append, List.length_singleton]
    omega

/-- A connection of another type than main, from which the node can be reached. -/
structure LeadsInto (g : DirectedGraph) (c : GraphConnection) (node : String) : Prop where
  mem : c ∈ g.getConnections
  type : c.type ≠ .main
  reaches : Reaches g.succ c.toName node

theorem adds_addSubNodes (hg : Closed g) {node : String} (hnode : node ∈ g.nodes.keys) :
    Adds g (fun h => addSubNodes g h node) (fun n => ∃ c, LeadsInto g c node ∧ Ends c n)
      (fun c => LeadsInto g c node) := by
  obtain ⟨connections, hconnections, hmem⟩ := exists_getParentConnections hg hnode
  simp only [addSubNodes, hconnections]
  have hrounds : ∀ c ∈ connections, Adds g
      (fun h => if c.type = .main then .ok h else copyConnection g h c)
      (fun n => c.type ≠ .main ∧ Ends c n) (fun d => c.type ≠ .main ∧ d = c) := by
    intro c hc
    by_cases htype : c.type = .main
    · simp only [if_pos htype]
      exact adds_nothing.congr (fun _ => ⟨False.elim, fun h => h.1 htype⟩)
        fun _ => ⟨False.elim, fun h => h.1 htype⟩
    · simp only [if_neg htype]
      exact (adds_copyConnection hg ((hmem c).mp hc).1).congr
        (fun _ => (and_iff_right htype).symm) fun _ => (and_iff_right htype).symm
  have hiff : ∀ c, LeadsInto g c node ↔ c ∈ connections ∧ c.type ≠ .main := fun c =>
    ⟨fun h => ⟨(hmem c).mpr ⟨h.mem, h.reaches⟩, h.type⟩,
      fun h => ⟨((hmem c).mp h.1).1, h.2, ((hmem c).mp h.1).2⟩⟩
  refine (adds_foldlM hrounds).congr (fun n => ?_) fun d => ?_
  · simp only [hiff, and_assoc]
  · rw [hiff]
    constructor
    · rintro ⟨c, hc, htype, rfl⟩
      exact ⟨hc, htype⟩
    · exact fun h => ⟨d, h.1, h.2, rfl⟩

def Attached (g : DirectedGraph) (N : String → Prop) (c : GraphConnection) : Prop :=
  ∃ n, N n ∧ LeadsInto g c n

theorem keptNode_iff_found {hg : Closed g} (hne : trigger.name ≠ destination.name) {n : String} :
    KeptNode (mainSearch hg trigger.name destination.name) (destination.name, []) n ↔
      ∃ c, (mainSearch hg trigger.name destination.name).Found c ∧ Ends c n := by
  constructor
  · rintro ⟨s, hs, rfl | ⟨c, hc, hn⟩⟩
    · obtain ⟨c, hc, heq⟩ := hs.end hne
      exact ⟨c, hc, .inl heq.symm⟩
    · exact ⟨c, ⟨s, hs, hc⟩, hn⟩
  · rintro ⟨c, ⟨s, hs, hc⟩, hn⟩
    exact ⟨s, hs, .inr ⟨c, hc, hn⟩⟩

theorem adds_subNodes (hg : Closed g) {C₀ : GraphConnection → Prop} {N₀ : String → Prop}
    {subgraph : DirectedGraph} (hpart : Part g N₀ C₀ subgraph) :
    ∃ h, subgraph.nodes.values.foldlM (fun subgraph node => addSubNodes g subgraph node.name)
        subgraph = .ok h ∧
      Part g (fun n => N₀ n ∨ ∃ c, Attached g N₀ c ∧ Ends c n)
        (fun c => C₀ c ∨ Attached g N₀ c) h := by
  have hkey : ∀ node ∈ subgraph.nodes.values, node.name ∈ g.nodes.keys := by
    intro node hnode
    obtain ⟨name, hname⟩ := Dict.mem_values_iff.mp hnode
    rw [hpart.valid.node name node hname]
    exact Dict.mem_keys_iff.mpr ⟨node, hpart.node name node hname⟩
  have hnames : ∀ n, N₀ n ↔ ∃ node ∈ subgraph.nodes.values, node.name = n := by
    intro n
    rw [← hpart.nodes, Dict.mem_keys_iff]
    constructor
    · rintro ⟨node, hnode⟩
      exact ⟨node, Dict.mem_values_iff.mpr ⟨n, hnode⟩, hpart.valid.node n node hnode⟩
    · rintro ⟨node, hnode, rfl⟩
      obtain ⟨name, hname⟩ := Dict.mem_values_iff.mp hnode
      exact ⟨node, (hpart.valid.node name node hname).symm ▸ hname⟩
  have hattached : ∀ c, Attached g N₀ c ↔
      ∃ node ∈ subgraph.nodes.values, LeadsInto g c node.name := by
    intro c
    simp only [Attached, hnames]
    constructor
    · rintro ⟨_, ⟨node, hnode, rfl⟩, hc⟩
      exact ⟨node, hnode, hc⟩
    · rintro ⟨node, hnode, hc⟩
      exact ⟨_, ⟨node, hnode, rfl⟩, hc⟩
  obtain ⟨h, hok, hpart'⟩ := adds_foldlM
    (fun node hnode => adds_addSubNodes hg (hkey node hnode)) _ _ _ hpart
  refine ⟨h, hok, hpart'.congr (fun n => or_congr_right ?_) fun c =>
    or_congr_right (hattached c).symm⟩
  simp only [hattached]
  constructor
  · rintro ⟨node, hnode, c, hc, hn⟩
    exact ⟨c, ⟨node, hnode, hc⟩, hn⟩
  · rintro ⟨c, ⟨node, hnode, hc⟩, hn⟩
    exact ⟨node, hnode, c, hc, hn⟩

theorem exists_findSubgraph (hg : Closed g) (hdestination : destination.name ∈ g.nodes.keys)
    (htrigger : g.nodes.get? trigger.name = some trigger)
    (hne : trigger.name ≠ destination.name) {F : GraphConnection → Prop}
    (hF : ∀ c, (mainSearch hg trigger.name destination.name).Found c ↔ F c) :
    ∃ h, findSubgraph g destination trigger = .ok h ∧ Part g
      (fun n => (∃ c, F c ∧ Ends c n) ∨
        ∃ c, Attached g (fun n => ∃ c, F c ∧ Ends c n) c ∧ Ends c n)
      (fun c => F c ∨ Attached g (fun n => ∃ c, F c ∧ Ends c n) c) h := by
  obtain ⟨subgraph, hsubgraph, hpart⟩ := adds_findSubgraphRecursive hg hdestination htrigger
    (g.nodes.keys.length + 1) (s := (destination.name, [])) ReflTransGen.refl (by simp) _ _ _
    part_empty
  have hfirst : findSubgraphRecursive g destination trigger (g.nodes.keys.length + 1)
      destination.name {} [] = .ok subgraph := hsubgraph
  have hkept : Part g (fun n => ∃ c, F c ∧ Ends c n) F subgraph := by
    refine hpart.congr (fun n => (or_iff_right id).trans ?_) fun c => (or_iff_right id).trans (hF c)
    simp only [keptNode_iff_found hne, hF]
  obtain ⟨h, hok, hpart'⟩ := adds_subNodes hg hkept
  refine ⟨h, ?_, hpart'⟩
  rw [findSubgraph, hfirst]
  exact hok

end

end

end DirectedGraph

end N8n
