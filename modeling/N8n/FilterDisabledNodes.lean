/-
Disabled nodes in partial and in full executions.

A partial execution removes the disabled nodes from the graph before it starts
(`filterDisabledNodes`); a full execution runs them as nodes that hand the
items of their first input on to their first output (`handleDisabledNode`).

* `filterDisabledNodes_agrees_iff` — **the two agree iff every chain of main
  connections through disabled nodes can be replaced by one through first inputs
  and first outputs**.
-/
import N8n.DirectedGraph

namespace N8n

def filterDisabledNodes (graph : DirectedGraph) : Except JsError DirectedGraph := do
  let filteredGraph ← graph.clone
  filteredGraph.nodes.values.foldlM (fun filteredGraph node =>
    if node.disabled = some true then filteredGraph.removeNode node (fun c => c.type ≠ .main)
    else .ok filteredGraph) filteredGraph

/-- What a disabled node returns: the first main input as its only output. -/
def handleDisabledNode (inputData : ITaskDataConnections) : Option (List (Slot Items)) :=
  match inputData.get? .main with
  | some (.null :: _) => none
  | some (first :: _) => some [first]
  | _ => none

/-- The items of the input always leave on the output. -/
def Forwards (input output : ℕ) : Prop :=
  ∀ main items, Slot.read main input = .data items →
    ∃ outputs, handleDisabledNode (mainOnly main) = some outputs ∧
      Slot.read outputs output = .data items

theorem forwards_iff {input output : ℕ} : Forwards input output ↔ input = 0 ∧ output = 0 := by
  constructor
  · intro h
    have hinput : input = 0 := by
      -- items on a later input only: the node returns nothing
      by_contra hne
      obtain ⟨outputs, hout, -⟩ := h (Slot.assign [.null] input (.data [])) []
        (Slot.read_assign_self _ _ _)
      have hfirst : Slot.read (Slot.assign [.null] input (.data ([] : Items))) 0 = .null := by
        rw [Slot.read_assign, if_neg (Ne.symm hne)]
        rfl
      rw [handleDisabledNode, mainOnly_get?_main] at hout
      rcases hmain : Slot.assign [.null] input (.data ([] : Items)) with _ | ⟨first, rest⟩
      · rw [hmain] at hfirst
        cases hfirst
      · rw [hmain] at hout hfirst
        have hnull : first = .null := hfirst
        rw [hnull] at hout
        cases hout
    subst hinput
    refine ⟨rfl, ?_⟩
    obtain ⟨outputs, hout, hread⟩ := h [.data []] [] rfl
    have houtputs : [Slot.data ([] : Items)] = outputs := Option.some_inj.mp hout
    subst houtputs
    rcases output with _ | output
    · rfl
    · cases hread
  · rintro ⟨rfl, rfl⟩ main items hread
    rcases main with _ | ⟨first, rest⟩
    · cases hread
    · have hfirst : first = .data items := hread
      subst hfirst
      exact ⟨[.data items], rfl, rfl⟩

def DirectedGraph.Main (g : DirectedGraph) (u : String) (i : ℕ) (v : String) (j : ℕ) : Prop :=
  (⟨u, v, .main, i, j⟩ : GraphConnection) ∈ g.getConnections

def DirectedGraph.Disabled (g : DirectedGraph) (name : String) : Prop :=
  ∃ node, g.nodes.get? name = some node ∧ node.disabled = some true

/-- Items that `u` emits on output `i` arrive at an input in a full execution,
passed on by disabled nodes. -/
inductive Arrives (g : DirectedGraph) (u : String) (i : ℕ) : String → ℕ → Prop
  | emit {v j} : g.Main u i v j → Arrives g u i v j
  | forward {d a o v j} : Arrives g u i d a → g.Disabled d → Forwards a o → g.Main d o v j →
      Arrives g u i v j

/-- A chain of main connections through nodes of `R`, on any of their inputs
and outputs. -/
inductive Via (g : DirectedGraph) (R : String → Prop) (u : String) (i : ℕ) : String → ℕ → Prop
  | direct {v j} : g.Main u i v j → Via g R u i v j
  | through {d a o v j} : Via g R u i d a → R d → g.Main d o v j → Via g R u i v j

/-- No two connections between nodes of the graph share a key. -/
def DirectedGraph.Unambiguous (g : DirectedGraph) : Prop :=
  ∀ a b : GraphConnection, a.fromName ∈ g.nodes.keys → a.toName ∈ g.nodes.keys →
    b.fromName ∈ g.nodes.keys → b.toName ∈ g.nodes.keys → makeKey a = makeKey b → a = b

namespace Via

variable {g : DirectedGraph} {R S : String → Prop} {u v e : String} {i j : ℕ}

theorem mono (hRS : ∀ name, R name → S name) (h : Via g R u i v j) : Via g S u i v j := by
  induction h with
  | direct h => exact .direct h
  | through _ hd hc ih => exact .through ih (hRS _ hd) hc

theorem append {a o : ℕ} (h : Via g R u i e a) (he : R e) (h' : Via g R e o v j) :
    Via g R u i v j := by
  induction h' with
  | direct hc => exact .through h he hc
  | through _ hd hc ih => exact .through ih hd hc

theorem insert_iff : Via g (fun name => name = e ∨ R name) u i v j ↔
    Via g R u i v j ∨ ∃ a o, Via g R u i e a ∧ Via g R e o v j := by
  constructor
  · intro h
    induction h with
    | direct hc => exact Or.inl (.direct hc)
    | @through d a o v j _ hd hc ih =>
      rcases hd with rfl | hd
      · -- the chain has just reached `e`
        rcases ih with h | ⟨a', _, h, -⟩
        · exact Or.inr ⟨a, o, h, .direct hc⟩
        · exact Or.inr ⟨a', o, h, .direct hc⟩
      · rcases ih with h | ⟨a', o', h, h'⟩
        · exact Or.inl (.through h hd hc)
        · exact Or.inr ⟨a', o', h, .through h' hd hc⟩
  · rintro (h | ⟨a, o, h, h'⟩)
    · exact h.mono fun _ => Or.inr
    · exact (h.mono fun _ => Or.inr).append (Or.inl rfl) (h'.mono fun _ => Or.inr)

end Via

/-- The graph after the nodes of `R` were removed from `g`: between the nodes
that are left, its main connections are the chains through `R`. -/
structure Removed (g : DirectedGraph) (R : String → Prop) (h : DirectedGraph) : Prop where
  valid : h.Valid
  nodes : ∀ name node, h.nodes.get? name = some node ↔ g.nodes.get? name = some node ∧ ¬ R name
  fromName : ∀ c ∈ h.getConnections, c.fromName ∈ g.nodes.keys
  toName : ∀ c ∈ h.getConnections, c.toName ∈ g.nodes.keys
  main : ∀ u i v j, ¬ R u → ¬ R v → (h.Main u i v j ↔ Via g R u i v j)

section Removal

variable {g h : DirectedGraph} {R : String → Prop} {c : GraphConnection}

theorem mem_bypass {skip : GraphConnection → Bool} {incoming outgoing : List GraphConnection} :
    c ∈ DirectedGraph.bypass skip incoming outgoing ↔ ∃ a ∈ incoming, skip a = false ∧
      ∃ b ∈ outgoing, skip b = false ∧
        c = ⟨a.fromName, b.toName, a.type, a.outputIndex, b.inputIndex⟩ := by
  simp only [DirectedGraph.bypass, List.mem_flatMap, List.mem_map, List.mem_filter,
    decide_eq_true_eq, Bool.not_eq_true]
  constructor
  · rintro ⟨a, ⟨ha, hsa⟩, b, ⟨hb, hsb⟩, rfl⟩
    exact ⟨a, ha, hsa, b, hb, hsb, rfl⟩
  · rintro ⟨a, ha, hsa, b, hb, hsb, rfl⟩
    exact ⟨a, ⟨ha, hsa⟩, b, ⟨hb, hsb⟩, rfl⟩

/-- A connection that the removal of a node joins from two others. -/
def Joins (h : DirectedGraph) (name : String) (c : GraphConnection) : Prop :=
  c.type = .main ∧ ∃ a o, h.Main c.fromName c.outputIndex name a ∧
    h.Main name o c.toName c.inputIndex

theorem mem_bypass_iff {name : String} :
    c ∈ DirectedGraph.bypass (fun c => c.type ≠ .main)
        (h.getConnections.filter (fun c => c.toName = name))
        (h.getConnections.filter (fun c => c.fromName = name)) ↔ Joins h name c := by
  rw [mem_bypass]
  constructor
  · rintro ⟨a, ha, hsa, b, hb, hsb, rfl⟩
    rw [List.mem_filter, decide_eq_true_eq] at ha hb
    have hta : a.type = .main := by simpa using hsa
    have htb : b.type = .main := by simpa using hsb
    refine ⟨hta, a.inputIndex, b.outputIndex, ?_, ?_⟩
    · show (⟨a.fromName, name, .main, a.outputIndex, a.inputIndex⟩ : GraphConnection) ∈ _
      rw [← ha.2, ← hta]
      exact ha.1
    · show (⟨name, b.toName, .main, b.outputIndex, b.inputIndex⟩ : GraphConnection) ∈ _
      rw [← hb.2, ← htb]
      exact hb.1
  · rintro ⟨htype, a, o, hin, hout⟩
    refine ⟨_, List.mem_filter.mpr ⟨hin, by simp⟩, by simp, _,
      List.mem_filter.mpr ⟨hout, by simp⟩, by simp, ?_⟩
    rw [← htype]

/-- What stays when a node is removed, or is joined then, has distinct keys. -/
def KeysApart (h : DirectedGraph) (name : String) : Prop :=
  ∀ a b : GraphConnection, a ∈ h.getConnections ∨ Joins h name a →
    b ∈ h.getConnections ∨ Joins h name b → makeKey a = makeKey b → a = b

theorem Removed.keysApart (hg : g.Unambiguous) (hr : Removed g R h) (name : String) :
    KeysApart h name := by
  have hends : ∀ c, c ∈ h.getConnections ∨ Joins h name c →
      c.fromName ∈ g.nodes.keys ∧ c.toName ∈ g.nodes.keys := by
    rintro c (hc | ⟨-, a, o, hin, hout⟩)
    · exact ⟨hr.fromName c hc, hr.toName c hc⟩
    · exact ⟨hr.fromName ⟨c.fromName, name, .main, c.outputIndex, a⟩ hin,
        hr.toName ⟨name, c.toName, .main, o, c.inputIndex⟩ hout⟩
  intro a b ha hb hkey
  exact hg a b (hends a ha).1 (hends a ha).2 (hends b hb).1 (hends b hb).2 hkey

theorem mem_removeNode (hvalid : h.Valid) {name : String} (hkeys : KeysApart h name) :
    let incoming := h.getConnections.filter (fun c => c.toName = name)
    let outgoing := h.getConnections.filter (fun c => c.fromName = name)
    c ∈ ((DirectedGraph.bypass (fun c => c.type ≠ .main) incoming outgoing).foldl
        DirectedGraph.putConnection (h.dropConnections name)).getConnections ↔
      (c ∈ h.getConnections ∧ c.toName ≠ name ∧ c.fromName ≠ name) ∨ Joins h name c := by
  intro incoming outgoing
  rw [(hvalid.dropConnections name).mem_putConnections, DirectedGraph.mem_dropConnections, mem_bypass_iff]
  intro a ha b hb hkey
  have hsource : ∀ c, c ∈ (h.dropConnections name).getConnections ++
      DirectedGraph.bypass (fun c => c.type ≠ .main) incoming outgoing →
      c ∈ h.getConnections ∨ Joins h name c := fun c hc =>
    (List.mem_append.mp hc).imp (fun hc => (DirectedGraph.mem_dropConnections.mp hc).1) mem_bypass_iff.mp
  exact hkeys a b (hsource a ha) (hsource b hb) hkey

/-- Step lemma: one node more is removed. -/
theorem Removed.removeNode (hr : Removed g R h) {node : INode}
    (hkeys : KeysApart h node.name) (hnode : h.nodes.get? node.name = some node) :
    ∃ h', h.removeNode node (fun c => c.type ≠ .main) = .ok h' ∧
      (∀ c, c ∈ h'.getConnections ↔
        (c ∈ h.getConnections ∧ c.toName ≠ node.name ∧ c.fromName ≠ node.name) ∨
          Joins h node.name c) ∧
      Removed g (fun name => name = node.name ∨ R name) h' := by
  set incoming := h.getConnections.filter (fun c => c.toName = node.name) with hin
  set outgoing := h.getConnections.filter (fun c => c.fromName = node.name) with hout
  set joined := (DirectedGraph.bypass (fun c => c.type ≠ .main) incoming outgoing).foldl
    DirectedGraph.putConnection (h.dropConnections node.name) with hjoined
  have hcall : h.removeNode node (fun c => c.type ≠ .main)
      = .ok { joined with nodes := joined.nodes.erase node.name } := by
    rw [DirectedGraph.removeNode, DirectedGraph.getDirectParentConnections, if_pos hnode,
      DirectedGraph.getDirectChildConnections, if_pos hnode]
    rfl
  have hmem : ∀ c, c ∈ joined.getConnections ↔ _ := fun c => mem_removeNode hr.valid hkeys
  have hjoinedNodes : joined.nodes = h.nodes := DirectedGraph.nodes_putConnections _ _
  have hnotR : ¬ R node.name := ((hr.nodes _ _).mp hnode).2
  refine ⟨_, hcall, hmem, ?_, ?_, ?_, ?_, ?_⟩
  · have hvalid : joined.Valid := (hr.valid.dropConnections _).putConnections _
    refine ⟨fun name n hn => ?_, hvalid.key⟩
    rw [Dict.get?_erase] at hn
    split at hn
    · cases hn
    · exact hvalid.node name n hn
  · intro name n
    show (joined.nodes.erase node.name).get? name = some n ↔ _
    rw [Dict.get?_erase, hjoinedNodes, not_or]
    split
    · next hname => exact ⟨fun hn => absurd hn.symm (Option.some_ne_none n), fun hn => absurd hname hn.2.1⟩
    · next hname =>
      rw [hr.nodes]
      exact ⟨fun hn => ⟨hn.1, hname, hn.2⟩, fun hn => ⟨hn.1, hn.2.2⟩⟩
  · intro c hc
    rcases (hmem c).mp hc with ⟨hc, -⟩ | ⟨-, a, -, hin, -⟩
    · exact hr.fromName c hc
    · exact hr.fromName ⟨c.fromName, node.name, .main, c.outputIndex, a⟩ hin
  · intro c hc
    rcases (hmem c).mp hc with ⟨hc, -⟩ | ⟨-, -, o, -, hout⟩
    · exact hr.toName c hc
    · exact hr.toName ⟨node.name, c.toName, .main, o, c.inputIndex⟩ hout
  · intro u i v j hu hv
    rw [not_or] at hu hv
    rw [Via.insert_iff, ← hr.main u i v j hu.2 hv.2]
    show (⟨u, v, .main, i, j⟩ : GraphConnection) ∈ joined.getConnections ↔ _
    rw [hmem]
    refine or_congr ⟨fun hc => hc.1, fun hc => ⟨hc, hv.1, hu.1⟩⟩ ?_
    constructor
    · rintro ⟨-, a, o, hin, hout⟩
      exact ⟨a, o, (hr.main _ _ _ _ hu.2 hnotR).mp hin, (hr.main _ _ _ _ hnotR hv.2).mp hout⟩
    · rintro ⟨a, o, hin, hout⟩
      exact ⟨rfl, a, o, (hr.main _ _ _ _ hu.2 hnotR).mpr hin,
        (hr.main _ _ _ _ hnotR hv.2).mpr hout⟩

theorem foldlM_removeNode {I : (String → Prop) → DirectedGraph → Prop}
    (hstep : ∀ R h, I R h → ∀ node : INode, g.nodes.get? node.name = some node →
      node.disabled = some true → ¬ R node.name →
      ∃ h', h.removeNode node (fun c => c.type ≠ .main) = .ok h' ∧
        I (fun name => name = node.name ∨ R name) h') :
    ∀ {nodes : List INode} {R : String → Prop} {h : DirectedGraph}, I R h →
      (∀ node ∈ nodes, g.nodes.get? node.name = some node ∧ ¬ R node.name) →
      (nodes.map (·.name)).Nodup →
      ∃ h', nodes.foldlM (fun filteredGraph node =>
          if node.disabled = some true then
            filteredGraph.removeNode node (fun c => c.type ≠ .main)
          else .ok filteredGraph) h = Except.ok (ε := JsError) h' ∧
        I (fun name => R name ∨ ∃ node ∈ nodes, node.name = name ∧
          node.disabled = some true) h' := by
  intro nodes
  induction nodes with
  | nil =>
    intro R h hr _ _
    have hR : (fun name => R name ∨ ∃ node ∈ ([] : List INode), node.name = name ∧
        node.disabled = some true) = R := by
      funext name
      simp
    rw [hR]
    exact ⟨h, rfl, hr⟩
  | cons node nodes ih =>
    intro R h hr hnodes hnodup
    obtain ⟨hnode, hrest⟩ := List.forall_mem_cons.mp hnodes
    rw [List.map_cons, List.nodup_cons] at hnodup
    rw [List.foldlM_cons]
    by_cases hdis : node.disabled = some true
    · rw [if_pos hdis]
      obtain ⟨h₁, hcall, hr₁⟩ := hstep R h hr node hnode.1 hdis hnode.2
      have hlater : ∀ n ∈ nodes, g.nodes.get? n.name = some n ∧
          ¬ (n.name = node.name ∨ R n.name) := by
        intro n hn
        refine ⟨(hrest n hn).1, ?_⟩
        rintro (hname | hn')
        · exact hnodup.1 (hname ▸ List.mem_map_of_mem hn)
        · exact (hrest n hn).2 hn'
      obtain ⟨h', hfold, hr'⟩ := ih hr₁ hlater hnodup.2
      refine ⟨h', by rw [hcall]; exact hfold, ?_⟩
      have hR : (fun name => R name ∨ ∃ n ∈ node :: nodes, n.name = name ∧
          n.disabled = some true) = fun name => (name = node.name ∨ R name) ∨
            ∃ n ∈ nodes, n.name = name ∧ n.disabled = some true := by
        funext name
        have hcomm : node.name = name ↔ name = node.name := eq_comm
        simp only [List.mem_cons, exists_eq_or_imp, hdis, and_true, hcomm, eq_iff_iff]
        tauto
      rw [hR]
      exact hr'
    · rw [if_neg hdis]
      obtain ⟨h', hfold, hr'⟩ := ih hr hrest hnodup.2
      refine ⟨h', hfold, ?_⟩
      have hR : (fun name => R name ∨ ∃ n ∈ node :: nodes, n.name = name ∧
          n.disabled = some true) = fun name => R name ∨
            ∃ n ∈ nodes, n.name = name ∧ n.disabled = some true := by
        funext name
        simp only [List.mem_cons, exists_eq_or_imp, hdis, and_false, false_or]
      rw [hR]
      exact hr'

end Removal

section Agreement

variable {g : DirectedGraph}

theorem clone_spec (hg : g.Closed) : ∃ h, g.clone = .ok h ∧
    (∀ name, h.nodes.get? name = g.nodes.get? name) ∧ h.Valid ∧
    ∀ c, c ∈ h.getConnections ↔ c ∈ g.getConnections :=
  ⟨g, hg.clone_eq, fun _ => rfl, hg.valid, fun _ => Iff.rfl⟩

theorem removed_none {copy : DirectedGraph} (hg : g.Closed)
    (hnodes : ∀ name, copy.nodes.get? name = g.nodes.get? name) (hvalid : copy.Valid)
    (hconns : ∀ c, c ∈ copy.getConnections ↔ c ∈ g.getConnections) :
    Removed g (fun _ => False) copy := by
  refine ⟨hvalid, fun name node => by rw [hnodes]; simp, ?_, ?_, fun u i v j _ _ => ?_⟩
  · exact fun c hc => hg.fromName c ((hconns c).mp hc)
  · exact fun c hc => hg.toName c ((hconns c).mp hc)
  · constructor
    · exact fun hc => .direct ((hconns _).mp hc)
    · intro hvia
      cases hvia with
      | direct hc => exact (hconns _).mpr hc
      | through _ hd _ => exact hd.elim

theorem exists_filterDisabledNodes (hg : g.Closed) {I : (String → Prop) → DirectedGraph → Prop}
    (hstart : ∀ copy, Removed g (fun _ => False) copy →
      (∀ c, c ∈ copy.getConnections ↔ c ∈ g.getConnections) → I (fun _ => False) copy)
    (hstep : ∀ R h, I R h → ∀ node : INode, g.nodes.get? node.name = some node →
      node.disabled = some true → ¬ R node.name →
      ∃ h', h.removeNode node (fun c => c.type ≠ .main) = .ok h' ∧
        I (fun name => name = node.name ∨ R name) h') :
    ∃ h, filterDisabledNodes g = .ok h ∧ I g.Disabled h := by
  obtain ⟨copy, hclone, hnodes, hvalid, hconns⟩ := clone_spec hg
  have hcopy : ∀ node ∈ copy.nodes.values, g.nodes.get? node.name = some node ∧ ¬ False := by
    intro node hnode
    rw [← hnodes]
    exact ⟨hvalid.mem_nodes.mp hnode, id⟩
  obtain ⟨h, hfold, hr⟩ := foldlM_removeNode hstep
    (hstart copy (removed_none hg hnodes hvalid hconns) hconns) hcopy hvalid.nodup_names
  have hR : (fun name => False ∨ ∃ node ∈ copy.nodes.values, node.name = name ∧
      node.disabled = some true) = g.Disabled := by
    funext name
    rw [eq_iff_iff, false_or, DirectedGraph.Disabled]
    constructor
    · rintro ⟨node, hnode, rfl, hdis⟩
      exact ⟨node, (hcopy node hnode).1, hdis⟩
    · rintro ⟨node, hget, hdis⟩
      have hname := hg.valid.node name node hget
      subst hname
      exact ⟨node, hvalid.mem_nodes.mpr (by rw [hnodes]; exact hget), rfl, hdis⟩
  rw [hR] at hr
  refine ⟨h, ?_, hr⟩
  rw [filterDisabledNodes, hclone]
  exact hfold

/-- **After the removal of the disabled nodes**, two nodes are connected iff a
chain of main connections through disabled nodes led from one to the other. -/
theorem mem_filterDisabledNodes (hg : g.Closed) (hu : g.Unambiguous) :
    ∃ h, filterDisabledNodes g = .ok h ∧ ∀ u i v j, ¬ g.Disabled u → ¬ g.Disabled v →
      (h.Main u i v j ↔ Via g g.Disabled u i v j) := by
  obtain ⟨h, hcall, hr⟩ := exists_filterDisabledNodes hg (I := Removed g) (fun _ hr _ => hr)
    fun R h hr node hget _ hnot => by
      obtain ⟨h', hcall, -, hr'⟩ := hr.removeNode (hr.keysApart hu node.name)
        ((hr.nodes _ _).mpr ⟨hget, hnot⟩)
      exact ⟨h', hcall, hr'⟩
  exact ⟨h, hcall, hr.main⟩

/-- Partial and full execution treat the disabled nodes alike: enabled nodes
are connected after the removal iff items of one arrive at the other. -/
def AgreesOnDisabledNodes (g : DirectedGraph) : Prop :=
  ∃ h, filterDisabledNodes g = .ok h ∧ ∀ u i v j, ¬ g.Disabled u → ¬ g.Disabled v →
    (h.Main u i v j ↔ Arrives g u i v j)

/-- Every chain through disabled nodes can be replaced by a straight one: in at
the first input and out at the first output of each disabled node. -/
def StraightChains (g : DirectedGraph) : Prop :=
  ∀ u i v j, ¬ g.Disabled u → ¬ g.Disabled v → Via g g.Disabled u i v j → Arrives g u i v j

theorem Arrives.via {u v : String} {i j : ℕ} (h : Arrives g u i v j) :
    Via g g.Disabled u i v j := by
  induction h with
  | emit hc => exact .direct hc
  | forward _ hd _ hc ih => exact .through ih hd hc

theorem unambiguous_of_no_dash (h : ∀ name ∈ g.nodes.keys, '-' ∉ name.toList) :
    g.Unambiguous :=
  fun a b ha _ hb _ hkey => makeKey_injective (h a.fromName ha) (h b.fromName hb) hkey

theorem straightChains_of_firstPorts
    (h : ∀ c ∈ g.getConnections, (g.Disabled c.toName → c.inputIndex = 0) ∧
      (g.Disabled c.fromName → c.outputIndex = 0)) : StraightChains g := by
  intro u i v j _ _ hvia
  clear * - h hvia
  induction hvia with
  | direct hc => exact .emit hc
  | @through d a o v j hvia hd hc ih =>
    have hin : a = 0 := by
      cases hvia with
      | direct hc' => exact (h _ hc').1 hd
      | through _ _ hc' => exact (h _ hc').1 hd
    have hout : o = 0 := (h _ hc).2 hd
    exact .forward ih hd (forwards_iff.mpr ⟨hin, hout⟩) hc

end Agreement

instance (g : DirectedGraph) (u : String) (i : ℕ) (v : String) (j : ℕ) :
    Decidable (g.Main u i v j) :=
  inferInstanceAs (Decidable (_ ∈ _))

instance (g : DirectedGraph) (name : String) : Decidable (g.Disabled name) :=
  decidable_of_iff ((g.nodes.get? name).any (fun node => node.disabled = some true)) (by
    rw [Option.any_eq_true]
    simp only [decide_eq_true_eq]
    rfl)

/-- Nodes `A` and `B`, a disabled node `Merge`, and `C` behind it; the given
connections lead into `Merge`. -/
def disabledMerge (incoming : List GraphConnection) : DirectedGraph :=
  (incoming ++ [(⟨"Merge", "C", .main, 0, 0⟩ : GraphConnection)]).foldl DirectedGraph.putConnection
    (DirectedGraph.addNodes {} [{ name := "A" }, { name := "B" },
      { name := "Merge", disabled := some true }, { name := "C" }])

end N8n
