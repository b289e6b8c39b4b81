/-
The run data that is left when start nodes or dirty nodes are cleaned.

`cleanRunData` deletes the data of the nodes to clean, of the nodes below them, and of the nodes
that a connection of another type than main leads from, on the paths to one of these.  The paths
go on upstream over main connections.

* `cleanRunData_iff` — **exactly the data of cleaned nodes and of their sub-nodes is deleted iff
  no other node with run data leads, by another connection than a main one, to a node upstream**.
-/
import N8n.GraphWalks

namespace N8n

open DepthFirst

def Without {α : Type} (d : Dict String α) (S : String → Prop) (d' : Dict String α) : Prop :=
  ∀ k, (S k → d'.get? k = none) ∧ (¬ S k → d'.get? k = d.get? k)

namespace Without

variable {α : Type} {d d' d'' : Dict String α} {S T : String → Prop}

theorem refl (d : Dict String α) : Without d (fun _ => False) d :=
  fun _ => ⟨fun h => h.elim, fun _ => rfl⟩

theorem congr (h : Without d S d') (hiff : ∀ k, S k ↔ T k) : Without d T d' :=
  fun k => ⟨fun hk => (h k).1 ((hiff k).mpr hk), fun hk => (h k).2 (mt (hiff k).mp hk)⟩

theorem trans (h : Without d S d') (h' : Without d' T d'') :
    Without d (fun k => S k ∨ T k) d'' := by
  intro k
  refine ⟨fun hk => ?_, fun hk => ?_⟩
  · by_cases hT : T k
    · exact (h' k).1 hT
    · rw [(h' k).2 hT]
      exact (h k).1 (hk.resolve_right hT)
  · rw [not_or] at hk
    rw [(h' k).2 hk.2, (h k).2 hk.1]

theorem erase (d : Dict String α) (key : String) : Without d (· = key) (d.erase key) := by
  intro k
  rw [Dict.get?_erase]
  exact ⟨fun h => if_pos h, fun h => if_neg h⟩

theorem foldlM {ι ε : Type} (body : Dict String α → ι → Except ε (Dict String α))
    {S : ι → String → Prop} (is : List ι)
    (h : ∀ i ∈ is, ∀ d, ∃ d', body d i = .ok d' ∧ Without d (S i) d') (d : Dict String α) :
    ∃ d', is.foldlM body d = .ok d' ∧ Without d (fun k => ∃ i ∈ is, S i k) d' := by
  induction is generalizing d with
  | nil => exact ⟨d, rfl, (refl d).congr fun k => by simp⟩
  | cons i is ih =>
    obtain ⟨hi, his⟩ := List.forall_mem_cons.mp h
    obtain ⟨d', hd', hround⟩ := hi d
    obtain ⟨d'', hd'', hrest⟩ := ih his d'
    refine ⟨d'', ?_, (hround.trans hrest).congr fun k => ?_⟩
    · rw [List.foldlM_cons, hd']
      exact hd''
    · simp

theorem foldl {ι : Type} (body : Dict String α → ι → Dict String α) {S : ι → String → Prop}
    (h : ∀ i d, Without d (S i) (body d i)) (is : List ι) (d : Dict String α) :
    Without d (fun k => ∃ i ∈ is, S i k) (is.foldl body d) := by
  induction is generalizing d with
  | nil => exact (refl d).congr fun k => by simp
  | cons i is ih =>
    refine ((h i d).trans (ih (body d i))).congr fun k => ?_
    simp

end Without

namespace DirectedGraph

def deleteSubNodes (newRunData : IRunData) (subNodeConnections : List GraphConnection) : IRunData :=
  subNodeConnections.foldl (fun newRunData subNodeConnection =>
    if subNodeConnection.type = .main then newRunData
    else newRunData.erase subNodeConnection.fromName) newRunData

def cleanNode (graph : DirectedGraph) (newRunData : IRunData) (node : String) :
    Except JsError IRunData := do
  let newRunData := newRunData.erase node
  let subNodeConnections ← graph.getParentConnections node
  return deleteSubNodes newRunData subNodeConnections

/-- The round for one of the nodes to clean. -/
def cleanWithChildren (graph : DirectedGraph) (newRunData : IRunData) (nodeToClean : String) :
    Except JsError IRunData := do
  let newRunData := newRunData.erase nodeToClean
  let children ← graph.getChildren nodeToClean
  (nodeToClean :: children).foldlM (cleanNode graph) newRunData

def deleteOthers (graph : DirectedGraph) (newRunData : IRunData) : IRunData :=
  newRunData.keys.foldl (fun newRunData nodeName =>
    if graph.nodes.has nodeName then newRunData else newRunData.erase nodeName) newRunData

def cleanRunData (runData : IRunData) (graph : DirectedGraph) (nodesToClean : List String) :
    Except JsError IRunData := do
  let newRunData ← nodesToClean.foldlM (cleanWithChildren graph) runData
  return deleteOthers graph newRunData

/-- A node to clean, or one below it. -/
def Cleaned (g : DirectedGraph) (nodesToClean : List String) (node : String) : Prop :=
  ∃ nodeToClean ∈ nodesToClean, Reaches g.succ nodeToClean node

/-- The node leads to a node that is cleaned over one or more connections, none of them main. -/
def SubNode (g : DirectedGraph) (nodesToClean : List String) (node : String) : Prop :=
  ∃ m, Cleaned g nodesToClean m ∧ Relation.TransGen (fun a b =>
    ∃ c ∈ g.getConnections, c.type ≠ .main ∧ c.fromName = a ∧ c.toName = b) node m

/-- A connection that is not main leads from the node to one from which a node that is cleaned
can be reached. -/
def AttachedUpstream (g : DirectedGraph) (nodesToClean : List String) (node : String) : Prop :=
  ∃ c ∈ g.getConnections, c.type ≠ .main ∧ c.fromName = node ∧
    ∃ m, Cleaned g nodesToClean m ∧ Reaches g.succ c.toName m

def Retained (g : DirectedGraph) (nodesToClean : List String) (node : String) : Prop :=
  node ∈ g.nodes.keys ∧ ¬ Cleaned g nodesToClean node ∧ ¬ SubNode g nodesToClean node

section

variable {g : DirectedGraph} {runData : IRunData} {nodesToClean : List String} {node : String}

theorem SubNode.attachedUpstream (h : SubNode g nodesToClean node) :
    AttachedUpstream g nodesToClean node := by
  obtain ⟨m, hm, hpath⟩ := h
  obtain ⟨n, ⟨c, hc, htype, hfrom, hto⟩, hrest⟩ := Relation.TransGen.head'_iff.mp hpath
  refine ⟨c, hc, htype, hfrom, m, hm, ?_⟩
  rw [hto]
  refine Relation.ReflTransGen.mono ?_ n m hrest
  rintro a b ⟨d, hd, -, hda, hdb⟩
  exact mem_succ.mpr ⟨d, hd, hda, hdb⟩

theorem without_deleteSubNodes (runData : IRunData) (connections : List GraphConnection) :
    Without runData (fun k => ∃ c ∈ connections, c.type ≠ .main ∧ k = c.fromName)
      (deleteSubNodes runData connections) := by
  refine Without.foldl _ (fun c d => ?_) connections runData
  split
  · rename_i hmain
    exact (Without.refl d).congr fun k => by simp [hmain]
  · rename_i hmain
    exact (Without.erase d c.fromName).congr fun k => by simp [hmain]

theorem without_deleteOthers (d : IRunData) :
    Without d (· ∉ g.nodes.keys) (deleteOthers g d) := by
  have hloop := Without.foldl (S := fun nodeName k => nodeName ∉ g.nodes.keys ∧ k = nodeName)
    (fun newRunData nodeName =>
      if g.nodes.has nodeName then newRunData else newRunData.erase nodeName)
    (fun nodeName d => ?_) d.keys d
  · intro k
    obtain ⟨hdeleted, hleft⟩ := hloop k
    refine ⟨fun hk => ?_, fun hk => hleft ?_⟩
    · by_cases hkd : k ∈ d.keys
      · exact hdeleted ⟨k, hkd, hk, rfl⟩
      · -- there was nothing to delete
        rw [← Dict.get?_eq_none_iff] at hkd
        by_cases h : ∃ nodeName ∈ d.keys, nodeName ∉ g.nodes.keys ∧ k = nodeName
        · exact hdeleted h
        · exact (hleft h).trans hkd
    · rintro ⟨nodeName, -, hnot, rfl⟩
      exact hnot (not_not.mp hk)
  · split
    · rename_i hhas
      exact (Without.refl d).congr fun k => by simp [Dict.has_iff.mp hhas]
    · rename_i hhas
      exact (Without.erase d nodeName).congr fun k => by simp [mt Dict.has_iff.mpr hhas]

/-- What the round for a node deletes. -/
def DeletedWith (g : DirectedGraph) (node k : String) : Prop :=
  k = node ∨ ∃ c ∈ g.getConnections, c.type ≠ .main ∧ c.fromName = k ∧ Reaches g.succ c.toName node

theorem exists_cleanNode (hg : Closed g) (hnode : node ∈ g.nodes.keys) (d : IRunData) :
    ∃ d', cleanNode g d node = .ok d' ∧ Without d (DeletedWith g node) d' := by
  obtain ⟨connections, hconnections, hmem⟩ := exists_getParentConnections hg hnode
  refine ⟨deleteSubNodes (d.erase node) connections, ?_, ?_⟩
  · rw [cleanNode, hconnections]
    rfl
  · refine ((Without.erase d node).trans (without_deleteSubNodes _ connections)).congr fun k => ?_
    refine or_congr_right (exists_congr fun c => ?_)
    rw [hmem, and_assoc]
    refine and_congr_right fun _ => ?_
    constructor
    · rintro ⟨hreach, htype, rfl⟩
      exact ⟨htype, rfl, hreach⟩
    · rintro ⟨htype, rfl, hreach⟩
      exact ⟨hreach, htype, rfl⟩

theorem exists_cleanWithChildren (hg : Closed g) (hnode : node ∈ g.nodes.keys) (d : IRunData) :
    ∃ d', cleanWithChildren g d node = .ok d' ∧
      Without d (fun k => ∃ n, Reaches g.succ node n ∧ DeletedWith g n k) d' := by
  obtain ⟨children, hchildren, hmem⟩ := exists_getChildren hg hnode
  have hbelow : ∀ n, n ∈ node :: children ↔ Reaches g.succ node n := by
    intro n
    rw [List.mem_cons, hmem]
    exact (Relation.ReflTransGen.cases_tail_iff _ node n).symm
  obtain ⟨d', hd', hwithout⟩ := Without.foldlM (cleanNode g) (node :: children)
    (fun n hn => exists_cleanNode hg (((hbelow n).mp hn).mem (P := (· ∈ g.nodes.keys))
      (fun _ _ _ hb => hg.succ_mem hb) hnode)) (d.erase node)
  refine ⟨d', ?_, ((Without.erase d node).trans hwithout).congr fun k => ?_⟩
  · rw [cleanWithChildren, hchildren]
    exact hd'
  · simp only [hbelow]
    refine or_iff_right_of_imp ?_
    rintro rfl
    exact ⟨k, Relation.ReflTransGen.refl, .inl rfl⟩

theorem exists_cleanRunData (hg : Closed g) (hclean : ∀ n ∈ nodesToClean, n ∈ g.nodes.keys)
    (runData : IRunData) :
    ∃ result, cleanRunData runData g nodesToClean = .ok result ∧
      Without runData (fun k => (Cleaned g nodesToClean k ∨ AttachedUpstream g nodesToClean k) ∨
        k ∉ g.nodes.keys) result := by
  obtain ⟨d, hd, hwithout⟩ := Without.foldlM (cleanWithChildren g) nodesToClean
    (fun n hn => exists_cleanWithChildren hg (hclean n hn)) runData
  refine ⟨deleteOthers g d, ?_, (hwithout.trans (without_deleteOthers d)).congr fun k => ?_⟩
  · rw [cleanRunData, hd]
    rfl
  refine or_congr_left ?_
  constructor
  · rintro ⟨nodeToClean, hn, n, hreach, rfl | ⟨c, hc, htype, hfrom, hto⟩⟩
    · exact .inl ⟨nodeToClean, hn, hreach⟩
    · exact .inr ⟨c, hc, htype, hfrom, n, ⟨nodeToClean, hn, hreach⟩, hto⟩
  · rintro (⟨nodeToClean, hn, hreach⟩ | ⟨c, hc, htype, hfrom, n, ⟨nodeToClean, hn, hreach⟩, hto⟩)
    · exact ⟨nodeToClean, hn, k, hreach, .inl rfl⟩
    · exact ⟨nodeToClean, hn, n, hreach, .inr ⟨c, hc, htype, hfrom, hto⟩⟩

/-- **When exactly the right run data is deleted.**  The data that is left is that of the nodes
that should keep theirs iff a node with run data that another connection than a main one attaches
to a node upstream is cleaned itself, or a sub-node of one that is. -/
theorem cleanRunData_iff (hg : Closed g) (hclean : ∀ n ∈ nodesToClean, n ∈ g.nodes.keys) :
    (∃ result, cleanRunData runData g nodesToClean = .ok result ∧
        Without runData (fun k => ¬ Retained g nodesToClean k) result) ↔
      ∀ k ∈ runData.keys, k ∈ g.nodes.keys → AttachedUpstream g nodesToClean k →
        Cleaned g nodesToClean k ∨ SubNode g nodesToClean k := by
  obtain ⟨result, hresult, hwithout⟩ := exists_cleanRunData hg hclean runData
  constructor
  · rintro ⟨result', hresult', hretained⟩ k hk hnode hattached
    rw [hresult, Except.ok.injEq] at hresult'
    subst hresult'
    by_contra hnot
    rw [not_or] at hnot
    -- the entry should be there, and is not
    have hkept := (hretained k).2 (not_not.mpr ⟨hnode, hnot⟩)
    rw [(hwithout k).1 (.inl (.inr hattached))] at hkept
    exact Dict.get?_eq_none_iff.mp hkept.symm hk
  · intro hall
    refine ⟨result, hresult, fun k => ⟨fun hk => ?_, fun hk => ?_⟩⟩
    · by_cases hdeleted : (Cleaned g nodesToClean k ∨ AttachedUpstream g nodesToClean k) ∨
          k ∉ g.nodes.keys
      · exact (hwithout k).1 hdeleted
      · refine absurd ⟨?_, ?_, ?_⟩ hk
        · exact not_not.mp fun hnode => hdeleted (.inr hnode)
        · exact fun h => hdeleted (.inl (.inl h))
        · exact fun h => hdeleted (.inl (.inr h.attachedUpstream))
    · obtain ⟨hnode, hcleaned, hsub⟩ := not_not.mp hk
      by_cases hattached : AttachedUpstream g nodesToClean k
      · have hrun : k ∉ runData.keys := fun hrun =>
          (hall k hrun hnode hattached).elim hcleaned hsub
        rw [(hwithout k).1 (.inl (.inr hattached)), Dict.get?_eq_none_iff.mpr hrun]
      · refine (hwithout k).2 ?_
        rintro ((h | h) | h)
        · exact hcleaned h
        · exact hattached h
        · exact h hnode

end

def withSubNode : DirectedGraph :=
  [⟨"Model", "Agent", .aiLanguageModel, 0, 0⟩, ⟨"Agent", "Edit", .main, 0, 0⟩].foldl putConnection
    (addNodes {} [{ name := "Model" }, { name := "Agent" }, { name := "Edit" }])

theorem closed_withSubNode : Closed withSubNode where
  valid := (valid_empty.addNodes _).putConnections _
  fromName := by decide
  toName := by decide

/-- Cleaning the root node deletes the data of its sub-node. -/
theorem cleanRunData_rootNode :
    ∃ result, cleanRunData (Dict.empty.set "Model" []) withSubNode ["Agent"] = .ok result ∧
      Without (Dict.empty.set "Model" []) (fun k => ¬ Retained withSubNode ["Agent"] k) result := by
  refine (cleanRunData_iff closed_withSubNode (by decide)).mpr fun k hk _ _ => .inr ?_
  obtain rfl : k = "Model" := List.mem_singleton.mp hk
  refine ⟨"Agent", ⟨"Agent", by decide, Relation.ReflTransGen.refl⟩, Relation.TransGen.single ?_⟩
  exact ⟨⟨"Model", "Agent", .aiLanguageModel, 0, 0⟩, by decide, by decide, rfl, rfl⟩

/-- Cleaning the node after it does, too. -/
theorem not_retained_model : Closed withSubNode ∧ Retained withSubNode ["Edit"] "Model" ∧
    ¬ ∃ result, cleanRunData (Dict.empty.set "Model" []) withSubNode ["Edit"] = .ok result ∧
      Without (Dict.empty.set "Model" []) (fun k => ¬ Retained withSubNode ["Edit"] k) result := by
  have hcleaned : ∀ k, Cleaned withSubNode ["Edit"] k → k = "Edit" := by
    rintro k ⟨n, hn, hreach⟩
    refine hreach.mem (P := (· = "Edit")) ?_ (List.mem_singleton.mp hn)
    rintro a rfl b hb
    exact absurd hb (by rw [show withSubNode.succ "Edit" = [] by decide]; exact List.not_mem_nil)
  have hretained : Retained withSubNode ["Edit"] "Model" := by
    refine ⟨by decide, fun h => absurd (hcleaned _ h) (by decide), ?_⟩
    rintro ⟨m, hm, hpath⟩
    rw [hcleaned m hm] at hpath
    obtain ⟨b, -, c, hc, htype, -, hto⟩ := Relation.TransGen.tail'_iff.mp hpath
    have hnone : ∀ c ∈ withSubNode.getConnections, ¬ (c.type ≠ .main ∧ c.toName = "Edit") := by
      decide
    exact hnone c hc ⟨htype, hto⟩
  refine ⟨closed_withSubNode, hretained, ?_⟩
  rintro ⟨result, hresult, hwithout⟩
  have hempty : cleanRunData (Dict.empty.set "Model" []) withSubNode ["Edit"] = .ok Dict.empty := by
    decide
  rw [hempty, Except.ok.injEq] at hresult
  subst hresult
  exact absurd ((hwithout "Model").2 (not_not.mpr hretained)) (by decide)

end DirectedGraph

end N8n
