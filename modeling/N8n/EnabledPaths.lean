/-
What the removal of the disabled nodes keeps of the paths of a graph.

`filterDisabledNodes` removes the disabled nodes one by one, and joins the connections into and
out of each of them.  A node that is connected with itself when it is removed is joined with
itself, so that connections of a node that is no longer there stay in the graph.

* `filterDisabledNodes_sound_iff` — **the graph is one of the enabled nodes and their paths iff
  no chain of main connections leads from a disabled node through disabled nodes back to it**.
-/
import N8n.FilterDisabledNodes
import Mathlib.Logic.Relation

namespace N8n

variable (g : DirectedGraph)

/-- There is a path of main connections from `u` to `v`. -/
def MainPath : String → String → Prop :=
  Relation.TransGen fun u v => ∃ i j, g.Main u i v j

/-- `h` has the enabled nodes of `g`, connections between them only, and the paths of `g`. -/
structure EnabledGraph (g h : DirectedGraph) : Prop where
  nodes : ∀ name node, h.nodes.get? name = some node ↔
    g.nodes.get? name = some node ∧ node.disabled ≠ some true
  fromName : ∀ c ∈ h.getConnections, c.fromName ∈ h.nodes.keys
  toName : ∀ c ∈ h.getConnections, c.toName ∈ h.nodes.keys
  paths : ∀ u ∈ h.nodes.keys, ∀ v ∈ h.nodes.keys, MainPath h u v ↔ MainPath g u v

/-- A connection of the graph, or one that removals of disabled nodes can join. -/
def Formed (c : GraphConnection) : Prop :=
  c ∈ g.getConnections ∨
    c.type = .main ∧ Via g g.Disabled c.fromName c.outputIndex c.toName c.inputIndex

/-- No two connections that there are or that can be joined share a key. -/
def DistinctKeys : Prop :=
  ∀ a b : GraphConnection, Formed g a → Formed g b → makeKey a = makeKey b → a = b

/-- A chain of main connections leads from a disabled node through disabled nodes back to it. -/
def DisabledCycle : Prop :=
  ∃ d i j, g.Disabled d ∧ Via g g.Disabled d i d j

/-- The graph after the nodes of `R`, which are disabled, were removed. -/
structure Rewritten (R : String → Prop) (h : DirectedGraph) : Prop where
  removed : Removed g R h
  disabled : ∀ name, R name → g.Disabled name
  formed : ∀ c ∈ h.getConnections, Formed g c
  /-- As long as no removed node led back to itself, no connection dangles; afterwards one does. -/
  dangling : ((∀ c ∈ h.getConnections, ¬ R c.fromName ∧ ¬ R c.toName) ∧
      ∀ d i j, R d → ¬ Via g R d i d j) ∨
    ∃ d i j, R d ∧ h.Main d i d j ∧ Via g R d i d j

section

variable {g h : DirectedGraph} {R : String → Prop}

theorem Rewritten.formed_of_joins (hr : Rewritten g R h) {name : String} (hname : g.Disabled name)
    {c : GraphConnection} (hc : Joins h name c) : Formed g c := by
  obtain ⟨htype, a, o, hin, hout⟩ := hc
  have hvia : ∀ {u i v j}, h.Main u i v j → Via g g.Disabled u i v j := by
    intro u i v j hmain
    rcases hr.formed _ hmain with hmain | ⟨-, hvia⟩
    · exact .direct hmain
    · exact hvia
  exact .inr ⟨htype, (hvia hin).append hname (hvia hout)⟩

theorem no_cycle_insert {e : String} (hR : ∀ d i j, R d → ¬ Via g R d i d j)
    (he : ∀ i j, ¬ Via g R e i e j) (d : String) (i j : ℕ) (hd : d = e ∨ R d) :
    ¬ Via g (fun name => name = e ∨ R name) d i d j := by
  rw [Via.insert_iff]
  rcases hd with rfl | hd
  · rintro (h | ⟨a, o, h, -⟩)
    · exact he i j h
    · exact he i a h
  · rintro (h | ⟨a, o, hin, hout⟩)
    · exact hR d i j hd h
    · exact he o a (hout.append hd hin)

/-- Step lemma: one disabled node more is removed. -/
theorem Rewritten.removeNode (hkeys : DistinctKeys g) (hr : Rewritten g R h) {node : INode}
    (hget : g.nodes.get? node.name = some node) (hdis : node.disabled = some true)
    (hnot : ¬ R node.name) :
    ∃ h', h.removeNode node (fun c => c.type ≠ .main) = .ok h' ∧
      Rewritten g (fun name => name = node.name ∨ R name) h' := by
  have hdisabled : g.Disabled node.name := ⟨node, hget, hdis⟩
  have hformed : ∀ c, c ∈ h.getConnections ∨ Joins h node.name c → Formed g c := fun c hc =>
    hc.elim (hr.formed c) (hr.formed_of_joins hdisabled)
  obtain ⟨h', hcall, hmem, hremoved⟩ := hr.removed.removeNode
    (fun a b ha hb hkey => hkeys a b (hformed a ha) (hformed b hb) hkey)
    ((hr.removed.nodes _ _).mpr ⟨hget, hnot⟩)
  refine ⟨h', hcall, hremoved, ?_, fun c hc => ?_, ?_⟩
  · rintro name (rfl | hname)
    · exact hdisabled
    · exact hr.disabled name hname
  · exact hformed c (((hmem c).mp hc).imp_left And.left)
  have hself : ∀ {i j}, h.Main node.name i node.name j ↔ Via g R node.name i node.name j :=
    hr.removed.main _ _ _ _ hnot hnot
  rcases hr.dangling with ⟨hcontained, hnone⟩ | ⟨d, i, j, hd, hmain, hvia⟩
  · by_cases hloop : ∃ i j, h.Main node.name i node.name j
    · -- the node is joined with itself, and then it is gone
      obtain ⟨i, j, hmain⟩ := hloop
      refine .inr ⟨node.name, i, j, .inl rfl, ?_, (hself.mp hmain).mono fun _ => .inr⟩
      exact (hmem _).mpr (.inr ⟨rfl, j, i, hmain, hmain⟩)
    · refine .inl ⟨fun c hc => ?_, no_cycle_insert hnone fun i j hvia =>
        hloop ⟨i, j, hself.mpr hvia⟩⟩
      rw [not_or, not_or]
      rcases (hmem c).mp hc with ⟨hc, hto, hfrom⟩ | ⟨-, a, o, hin, hout⟩
      · exact ⟨⟨hfrom, (hcontained c hc).1⟩, hto, (hcontained c hc).2⟩
      · refine ⟨⟨fun heq => hloop ⟨_, _, heq ▸ hin⟩, (hcontained _ hin).1⟩,
          fun heq => hloop ⟨_, _, heq ▸ hout⟩, (hcontained _ hout).2⟩
  · -- what dangles is not connected with the node
    refine .inr ⟨d, i, j, .inr hd, ?_, hvia.mono fun _ => .inr⟩
    have hne : d ≠ node.name := fun heq => hnot (heq ▸ hd)
    exact (hmem _).mpr (.inl ⟨hmain, hne, hne⟩)

theorem exists_rewritten (hg : g.Closed) (hkeys : DistinctKeys g) :
    ∃ h, filterDisabledNodes g = .ok h ∧ Rewritten g g.Disabled h := by
  refine exists_filterDisabledNodes hg (fun copy hcopy hconns => ?_)
    fun R h hr node hget hdis hnot => hr.removeNode hkeys hget hdis hnot
  exact ⟨hcopy, fun _ h => h.elim, fun c hc => .inl ((hconns c).mp hc),
    .inl ⟨fun _ _ => ⟨id, id⟩, fun _ _ _ h => h.elim⟩⟩

theorem Via.mainPath {u v : String} {i j : ℕ} (h : Via g R u i v j) : MainPath g u v := by
  induction h with
  | direct hc => exact Relation.TransGen.single ⟨_, _, hc⟩
  | through _ _ hc ih => exact Relation.TransGen.tail ih ⟨_, _, hc⟩

theorem mainPath_iff (hr : Rewritten g g.Disabled h)
    (hcontained : ∀ c ∈ h.getConnections, ¬ g.Disabled c.fromName ∧ ¬ g.Disabled c.toName)
    {u v : String} (hu : ¬ g.Disabled u) (hv : ¬ g.Disabled v) :
    MainPath h u v ↔ MainPath g u v := by
  constructor
  · intro hpath
    have hstep : ∀ {a b}, (∃ i j, h.Main a i b j) → MainPath g a b := by
      rintro a b ⟨i, j, hmain⟩
      obtain ⟨ha, hb⟩ := hcontained _ hmain
      exact ((hr.removed.main a i b j ha hb).mp hmain).mainPath
    induction hpath with
    | single hab => exact hstep hab
    | tail _ hab ih =>
      obtain ⟨i, j, hmain⟩ := hab
      exact (ih (hcontained _ hmain).1).trans (hstep ⟨i, j, hmain⟩)
  · -- a path has come from its last enabled node through disabled ones
    have hlast : ∀ {w}, MainPath g u w → ∃ x i j, (x = u ∨ MainPath h u x) ∧ ¬ g.Disabled x ∧
        Via g g.Disabled x i w j := by
      intro w hpath
      induction hpath with
      | single hab =>
        obtain ⟨i, j, hmain⟩ := hab
        exact ⟨u, i, j, .inl rfl, hu, .direct hmain⟩
      | @tail b w _ hbw ih =>
        obtain ⟨o, j', hmain⟩ := hbw
        obtain ⟨x, i, j, hx, hxe, hvia⟩ := ih
        by_cases hb : g.Disabled b
        · exact ⟨x, i, j', hx, hxe, .through hvia hb hmain⟩
        · refine ⟨b, o, j', .inr ?_, hb, .direct hmain⟩
          have hxb : ∃ i j, h.Main x i b j := ⟨i, j, (hr.removed.main x i b j hxe hb).mpr hvia⟩
          rcases hx with rfl | hx
          · exact Relation.TransGen.single hxb
          · exact Relation.TransGen.tail hx hxb
    intro hpath
    obtain ⟨x, i, j, hx, hxe, hvia⟩ := hlast hpath
    have hxv : ∃ i j, h.Main x i v j := ⟨i, j, (hr.removed.main x i v j hxe hv).mpr hvia⟩
    rcases hx with rfl | hx
    · exact Relation.TransGen.single hxv
    · exact Relation.TransGen.tail hx hxv

/-- **When the enabled nodes and their paths are left.** -/
theorem filterDisabledNodes_sound_iff (hg : g.Closed) (hkeys : DistinctKeys g) :
    (∃ h, filterDisabledNodes g = .ok h ∧ EnabledGraph g h) ↔ ¬ DisabledCycle g := by
  obtain ⟨h, hcall, hr⟩ := exists_rewritten hg hkeys
  have hnodes : ∀ name node, h.nodes.get? name = some node ↔
      g.nodes.get? name = some node ∧ node.disabled ≠ some true := by
    intro name node
    rw [hr.removed.nodes]
    refine and_congr_right fun hget => not_congr ⟨?_, fun hdis => ⟨node, hget, hdis⟩⟩
    rintro ⟨n, hn, hdis⟩
    rw [hget, Option.some.injEq] at hn
    exact hn ▸ hdis
  have henabled : ∀ name, name ∈ h.nodes.keys ↔ name ∈ g.nodes.keys ∧ ¬ g.Disabled name := by
    intro name
    simp only [Dict.mem_keys_iff, hr.removed.nodes, exists_and_right]
  constructor
  · rintro ⟨h', hcall', hsound⟩ ⟨d, i, j, hd, hvia⟩
    rw [hcall, Except.ok.injEq] at hcall'
    subst hcall'
    rcases hr.dangling with ⟨-, hnone⟩ | ⟨d, i, j, hd, hmain, -⟩
    · exact hnone d i j hd hvia
    · exact ((henabled d).mp (hsound.fromName _ hmain)).2 hd
  · intro hnocycle
    obtain ⟨hcontained, -⟩ := hr.dangling.resolve_right fun ⟨d, i, j, hd, _, hvia⟩ =>
      hnocycle ⟨d, i, j, hd, hvia⟩
    refine ⟨h, hcall, hnodes, fun c hc => ?_, fun c hc => ?_, fun u hu v hv => ?_⟩
    · exact (henabled _).mpr ⟨hr.removed.fromName c hc, (hcontained c hc).1⟩
    · exact (henabled _).mpr ⟨hr.removed.toName c hc, (hcontained c hc).2⟩
    · exact mainPath_iff hr hcontained ((henabled u).mp hu).2 ((henabled v).mp hv).2

theorem Via.ends (hg : g.Closed) {u v : String} {i j : ℕ} (h : Via g R u i v j) :
    u ∈ g.nodes.keys ∧ v ∈ g.nodes.keys := by
  induction h with
  | direct hc => exact ⟨hg.fromName _ hc, hg.toName _ hc⟩
  | through _ _ hc ih => exact ⟨ih.1, hg.toName _ hc⟩

theorem distinctKeys_of_unambiguous (hg : g.Closed) (hu : g.Unambiguous) : DistinctKeys g := by
  have hends : ∀ c, Formed g c → c.fromName ∈ g.nodes.keys ∧ c.toName ∈ g.nodes.keys := by
    rintro c (hc | ⟨-, hvia⟩)
    · exact ⟨hg.fromName c hc, hg.toName c hc⟩
    · exact hvia.ends hg
  intro a b ha hb hkey
  exact hu a b (hends a ha).1 (hends a ha).2 (hends b hb).1 (hends b hb).2 hkey

end

theorem closed_disabledMerge (incoming : List GraphConnection)
    (h : ∀ c ∈ (disabledMerge incoming).getConnections,
      c.fromName ∈ (disabledMerge incoming).nodes.keys ∧
        c.toName ∈ (disabledMerge incoming).nodes.keys) : (disabledMerge incoming).Closed :=
  ⟨(DirectedGraph.valid_empty.addNodes _).putConnections _, fun c hc => (h c hc).1,
    fun c hc => (h c hc).2⟩

theorem filterDisabledNodes_sound_disabledMerge :
    ∃ h, filterDisabledNodes (disabledMerge
        [⟨"A", "Merge", .main, 0, 0⟩, ⟨"B", "Merge", .main, 0, 1⟩]) = .ok h ∧
      EnabledGraph (disabledMerge [⟨"A", "Merge", .main, 0, 0⟩, ⟨"B", "Merge", .main, 0, 1⟩]) h := by
  set g := disabledMerge [⟨"A", "Merge", .main, 0, 0⟩, ⟨"B", "Merge", .main, 0, 1⟩] with hdef
  have hg : g.Closed := closed_disabledMerge _ (by decide)
  refine (filterDisabledNodes_sound_iff hg
    (distinctKeys_of_unambiguous hg (unambiguous_of_no_dash (by decide)))).mpr ?_
  rintro ⟨d, i, j, hd, hvia⟩
  have hmerge : ∀ c ∈ g.getConnections, g.Disabled c.fromName →
      c.fromName = "Merge" ∧ c.toName = "C" := by decide
  have hend : ∀ v j, Via g g.Disabled d i v j → d = "Merge" ∧ v = "C" := by
    intro v j hvia
    induction hvia with
    | direct hc => exact hmerge _ hc hd
    | through _ hd' hc ih =>
      rw [ih.2] at hd'
      exact absurd hd' (by decide)
  obtain ⟨h1, h2⟩ := hend d j hvia
  exact absurd (h1.symm.trans h2) (by decide)

/-- A connection of the disabled node with itself outlives it. -/
theorem not_enabledGraph_loop : (disabledMerge [⟨"Merge", "Merge", .main, 0, 0⟩]).Closed ∧
    ¬ ∃ h, filterDisabledNodes (disabledMerge [⟨"Merge", "Merge", .main, 0, 0⟩]) = .ok h ∧
      EnabledGraph (disabledMerge [⟨"Merge", "Merge", .main, 0, 0⟩]) h := by
  refine ⟨closed_disabledMerge _ (by decide), ?_⟩
  rintro ⟨h, hcall, hsound⟩
  cases hcall
  exact absurd (hsound.fromName ⟨"Merge", "C", .main, 0, 0⟩ (by decide)) (by decide)

end N8n
