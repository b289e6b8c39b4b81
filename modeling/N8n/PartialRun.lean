/-
How a partial execution is prepared: `runPartialWorkflow2`.

The disabled nodes are taken out of the workflow, the part between the trigger and the destination
is kept, the run data of dirty nodes is cleaned, the start nodes are found and moved out of cycles,
their run data is cleaned as well, and the stack is made of what is left.  The destination is no
tool here, and the trigger was found.

* **`exists_prepare`** — nothing of this throws; only enabled nodes that lead to the destination are
  left to be executed, each node that needs to be run again is on a cycle with a start node, or is
  one, no run data is left below a start node, and only start nodes are on the stack.
-/
import N8n.CleanRunData
import N8n.EnabledPaths
import N8n.FindStartNodes
import N8n.HandleCycles
import N8n.RecreateStack
import N8n.SubgraphWalks

namespace N8n

open DepthFirst Relation

namespace DirectedGraph

/-- What `processRunExecutionData` is called with; the nodes of the graph are the `runNodeFilter`. -/
structure PreparedRun where
  graph : DirectedGraph
  startNodes : List String
  runData : IRunData
  recreated : RecreatedState

def getNodesByNames (graph : DirectedGraph) (names : List String) : List String :=
  (names.filter graph.nodes.has).eraseDups

def prepare (localeCompare : String → String → ℤ) (graph : DirectedGraph)
    (destination trigger : INode) (runData : IRunData) (pinData : IPinData)
    (dirtyNodeNames : List String) : Except JsError PreparedRun := do
  let graph ← findSubgraph (← filterDisabledNodes graph) destination trigger
  let runData ← cleanRunData runData graph (graph.getNodesByNames dirtyNodeNames)
  let startNodes ← findStartNodes graph trigger.name destination.name runData pinData
  let startNodes ← graph.handleCycles startNodes trigger.name
  let runData ← cleanRunData runData graph startNodes
  let recreated ← recreateNodeExecutionStack localeCompare graph runData pinData
    (startNodes.filterMap graph.nodes.get?)
  return { graph, startNodes, runData, recreated }

/-- Why the data of a node is deleted. -/
def Deleted (g : DirectedGraph) (nodesToClean : List String) (node : String) : Prop :=
  Cleaned g nodesToClean node ∨ AttachedUpstream g nodesToClean node

/-- Only nodes with these names are about to be executed. -/
structure OnlyFor (names : List String) (s : RecreatedState) : Prop where
  stack : ∀ e ∈ s.nodeExecutionStack, ∃ node, e.node = some node ∧ node.name ∈ names
  waiting : ∀ name ∈ s.waitingExecution.keys, name ∈ names

/-- What is promised of a run that was prepared; `cleaned` is the run data of the nodes that are not
dirty. -/
structure Prepared (g : DirectedGraph) (trigger destination : String) (runData : IRunData)
    (pinData : IPinData) (dirtyNodeNames : List String) (cleaned : IRunData) (p : PreparedRun) :
    Prop where
  enabled : ∀ name node, p.graph.nodes.get? name = some node →
    g.nodes.get? name = some node ∧ node.disabled ≠ some true
  leads : ∀ name ∈ p.graph.nodes.keys, Reaches g.succ name destination
  dirty : Without runData (fun name => Deleted p.graph (p.graph.getNodesByNames dirtyNodeNames)
    name ∨ name ∉ p.graph.nodes.keys) cleaned
  /-- The start nodes, up to the cycles that they are on. -/
  startNodes : ∀ name, (∃ s ∈ p.startNodes, SameComponent p.graph.succ s name) ↔
    ∃ stop, SameComponent p.graph.succ stop name ∧ Stop p.graph destination cleaned pinData stop ∧
      ReflTransGen (Follows p.graph destination cleaned pinData) trigger stop
  left : Without cleaned (fun name => Deleted p.graph p.startNodes name ∨
    name ∉ p.graph.nodes.keys) p.runData
  recreated : OnlyFor p.startNodes p.recreated

section

variable {g h : DirectedGraph} {runData cleaned : IRunData} {pinData : IPinData}
  {names : List String}

/-- A path can be cut down to where it is at `a` last and at `b` first. -/
theorem reflTransGen_between {α : Type} {r : α → α → Prop} {a b x : α} (h : ReflTransGen r x b) :
    ReflTransGen (fun m n => m ≠ b ∧ n ≠ a ∧ r m n) a b ∨
      ReflTransGen (fun m n => m ≠ b ∧ n ≠ a ∧ r m n) x b := by
  induction h using ReflTransGen.head_induction_on with
  | refl => exact .inr ReflTransGen.refl
  | @head x y hxy _ ih =>
    by_cases hx : x = b
    · exact .inr (hx ▸ ReflTransGen.refl)
    by_cases hy : y = a
    · subst hy
      exact .inl (ih.elim id id)
    · exact ih.imp_right (ReflTransGen.head ⟨hx, hy, hxy⟩)

theorem exists_found_of_mainPath (hg : Closed g) {trigger destination : String}
    (hne : trigger ≠ destination) (hpath : MainPath g trigger destination) :
    ∃ c, (mainSearch hg trigger destination).Found c ∧ c.fromName = trigger := by
  have hlinks : ReflTransGen (MainLink g) trigger destination :=
    ReflTransGen.mono (fun u v ⟨i, j, hc⟩ => ⟨_, hc, rfl, rfl, rfl⟩) _ _ hpath.to_reflTransGen
  have hflow : ReflTransGen (mainSearch hg trigger destination).Edge trigger destination :=
    edge_eq ▸ (reflTransGen_between hlinks).elim id id
  rcases ReflTransGen.cases_head hflow with heq | ⟨_, ⟨c, hc, hsource, rfl⟩, hrest⟩
  · exact absurd heq hne
  · refine ⟨c, BranchSearch.OnPath.found ⟨hc, ?_, hrest⟩, hsource⟩
    rw [hsource]
    exact ReflTransGen.refl

theorem Part.closed {N : String → Prop} {C : GraphConnection → Prop} (hpart : Part g N C h)
    (hends : ∀ c, C c → ∀ n, Ends c n → N n) : Closed h where
  valid := hpart.valid
  fromName c hc := (hpart.nodes _).mpr (hends c ((hpart.connections c).mp hc) _ (.inl rfl))
  toName c hc := (hpart.nodes _).mpr (hends c ((hpart.connections c).mp hc) _ (.inr rfl))

/-- The nodes that are kept lead to the destination. -/
theorem leads_of_found (hg : Closed g) {trigger destination : String}
    (hne : trigger ≠ destination) {c : GraphConnection} {n : String}
    (hc : (mainSearch hg trigger destination).Found c) (hn : Ends c n) :
    Reaches g.succ n destination := by
  obtain ⟨hpassable, hleads, -⟩ := hc.sound hne
  have hrest : Reaches g.succ c.toName destination := by
    refine ReflTransGen.mono ?_ _ _ hleads
    rintro a b ⟨d, hd, rfl, rfl⟩
    exact mem_succ.mpr ⟨d, (mem_pred.mp (List.mem_filter.mp hd.mem).1).1, rfl, rfl⟩
  rcases hn with rfl | rfl
  · exact ReflTransGen.head (mem_succ.mpr
      ⟨c, (mem_pred.mp (List.mem_filter.mp hpassable.mem).1).1, rfl, rfl⟩) hrest
  · exact hrest

theorem HasEntry.without {S : String → Prop} {node : String} {type : NodeConnectionType}
    (h : HasEntry runData node type) (hwithout : Without runData S cleaned) :
    HasEntry cleaned node type := by
  intro tasks htasks
  by_cases hnode : S node
  · rw [(hwithout node).1 hnode] at htasks
    cases htasks
  · rw [(hwithout node).2 hnode] at htasks
    exact h tasks htasks

theorem mem_getNodesByNames {name : String} :
    name ∈ g.getNodesByNames names ↔ name ∈ names ∧ name ∈ g.nodes.keys := by
  rw [getNodesByNames, List.mem_eraseDups, List.mem_filter, Dict.has_iff]

section

variable {localeCompare : String → String → ℤ} {startNode : INode} {group : SourceConnectionGroup}
  {s : RecreatedState}

theorem exists_addIncoming {c : GraphConnection} (hentry : HasEntry runData c.fromName c.type)
    (hdata : hasData runData pinData c = true)
    (incoming : List (Slot Items) × List (Slot ISourceData)) :
    ∃ incoming', addIncoming runData pinData incoming c = .ok incoming' := by
  rw [addIncoming]
  rcases hpin : pinData.get? c.fromName with _ | items
  · have hrun : runData.has c.fromName = true := by simpa [hasData, Dict.has, hpin] using hdata
    obtain ⟨found, hfound, -⟩ := getIncomingDataFromAnyRun_eq hentry
    rw [if_pos hrun, hfound]
    rcases found with _ | ⟨items, run⟩ <;> exact ⟨_, rfl⟩
  · exact ⟨_, rfl⟩

theorem OnlyFor.push (hs : OnlyFor names s) {e : IExecuteData} (he : e.node = some startNode)
    (hname : startNode.name ∈ names) :
    OnlyFor names { s with nodeExecutionStack := s.nodeExecutionStack ++ [e] } where
  stack e' he' := by
    rcases List.mem_append.mp he' with he' | he'
    · exact hs.stack e' he'
    · exact ⟨startNode, by rw [List.mem_singleton.mp he', he], hname⟩
  waiting := hs.waiting

theorem exists_recreateGroup (hentries : ∀ c ∈ group.connections, HasEntry runData c.fromName c.type)
    (hdata : group.complete = true → ∀ c ∈ group.connections, hasData runData pinData c = true)
    (hname : startNode.name ∈ names) (hs : OnlyFor names s) :
    ∃ s', recreateGroup runData pinData startNode s group = .ok s' ∧ OnlyFor names s' := by
  rw [recreateGroup]
  split
  · next hcomplete =>
    have hfold : ∃ incoming, group.connections.foldlM (addIncoming runData pinData) ([], []) =
        .ok incoming ∧ True := by
      refine exists_foldlM_eq_ok (fun c hc incoming _ => ?_) trivial
      obtain ⟨incoming', h⟩ := exists_addIncoming (hentries c hc) (hdata hcomplete c hc) incoming
      exact ⟨incoming', h, trivial⟩
    obtain ⟨incoming, hincoming, -⟩ := hfold
    rw [completeGroup, hincoming]
    exact ⟨_, rfl, hs.push rfl hname⟩
  · refine exists_foldlM_eq_ok (fun c hc s hs => ?_) hs
    obtain ⟨found, hfound, -⟩ := getIncomingDataFromAnyRun_eq (hentries c hc)
    rw [addWaitingConnection, hfound]
    rcases found with _ | ⟨items, run⟩
    · exact ⟨s, rfl, hs⟩
    · refine ⟨_, rfl, hs.stack, fun name hmem => ?_⟩
      exact (Dict.mem_keys_set.mp hmem).elim (fun heq => heq ▸ hname) (hs.waiting name)

theorem exists_recreateNodeExecutionStack (localeCompare : String → String → ℤ)
    (pinData : IPinData) {startNodes : List INode}
    (hentries : ∀ c ∈ g.getConnections, HasEntry runData c.fromName c.type)
    (henabled : ∀ name node, g.nodes.get? name = some node → node.disabled ≠ some true)
    (hnodes : ∀ node ∈ startNodes, g.nodes.get? node.name = some node ∧ node.name ∈ names) :
    ∃ s, recreateNodeExecutionStack localeCompare g runData pinData startNodes = .ok s ∧
      OnlyFor names s := by
  have hnone : g.nodes.values.any (fun node => node.disabled = some true) = false := by
    rw [List.any_eq_false]
    intro node hnode hdisabled
    obtain ⟨name, hname⟩ := Dict.mem_values_iff.mp hnode
    exact henabled name node hname (of_decide_eq_true hdisabled)
  rw [recreateNodeExecutionStack, hnone]
  refine exists_foldlM_eq_ok (fun startNode hstart s hs => ?_)
    ⟨fun e he => (by cases he), fun name hname => (by cases hname)⟩
  obtain ⟨hnode, hname⟩ := hnodes startNode hstart
  rw [recreateStartNode, getDirectParentConnections, if_pos hnode]
  dsimp only [bind, Except.bind]
  split
  · exact ⟨_, rfl, hs.push rfl hname⟩
  · refine exists_foldlM_eq_ok (fun group hgroup s hs => ?_) hs
    by_cases hdealt : dealtConnections g startNode runData pinData = []
    · have hgroups : getSourceDataGroups localeCompare g startNode runData pinData = [] := by
        rw [dealtConnections, List.filter_eq_nil_iff] at hdealt
        rw [getSourceDataGroups, if_pos]
        exact ⟨List.filter_eq_nil_iff.mpr fun c hc h => hdealt c hc (decide_eq_true (.inl h)),
          List.filter_eq_nil_iff.mpr fun c hc h =>
            hdealt c hc (decide_eq_true (.inr (of_decide_eq_true h).2))⟩
      rw [hgroups] at hgroup
      cases hgroup
    · obtain ⟨W, O, next, hrun, hperm, hW, hO, -⟩ :=
        groupRun_getSourceDataGroups localeCompare hdealt
      have hmem : ∀ c ∈ group.connections, c ∈ g.getConnections := fun c hc => by
        have hin := (hrun.mem_of_mem_groups hgroup hc).resolve_left List.not_mem_nil
        have hdealtMem := hperm.mem_iff.mp (List.mem_append.mpr hin)
        exact (List.mem_filter.mp (List.mem_filter.mp hdealtMem).1).1
      refine exists_recreateGroup (fun c hc => hentries c (hmem c hc)) (fun hcomplete => ?_) hname hs
      refine (hrun.complete_iff (p := fun c => hasData runData pinData c = true) hW
        (fun c hc => ?_) (by simp) group hgroup).mp hcomplete
      rw [(hO c hc).1]
      exact Bool.false_ne_true

end

theorem reaches_of_formed {c : GraphConnection} (h : Formed g c) :
    Reaches g.succ c.fromName c.toName := by
  rcases h with hc | ⟨-, hvia⟩
  · exact Reaches.edge (mem_succ.mpr ⟨c, hc, rfl, rfl⟩)
  · refine ReflTransGen.mono ?_ _ _ hvia.mainPath.to_reflTransGen
    rintro u v ⟨i, j, hc⟩
    exact mem_succ.mpr ⟨_, hc, rfl, rfl⟩

theorem exists_enabled (hg : Closed g) (hkeys : DistinctKeys g) (hcycle : ¬ DisabledCycle g) :
    ∃ h, filterDisabledNodes g = .ok h ∧ Closed h ∧ EnabledGraph g h ∧
      ∀ c ∈ h.getConnections, Formed g c := by
  obtain ⟨h, hcall, hr⟩ := exists_rewritten hg hkeys
  obtain ⟨hcontained, -⟩ := hr.dangling.resolve_right fun ⟨d, i, j, hd, _, hvia⟩ =>
    hcycle ⟨d, i, j, hd, hvia⟩
  have hkey : ∀ name, name ∈ h.nodes.keys ↔ name ∈ g.nodes.keys ∧ ¬ g.Disabled name := by
    intro name
    simp only [Dict.mem_keys_iff, hr.removed.nodes, exists_and_right]
  have hfrom := fun c hc => (hkey _).mpr ⟨hr.removed.fromName c hc, (hcontained c hc).1⟩
  have hto := fun c hc => (hkey _).mpr ⟨hr.removed.toName c hc, (hcontained c hc).2⟩
  refine ⟨h, hcall, ⟨hr.removed.valid, hfrom, hto⟩, ⟨fun name node => ?_, hfrom, hto,
    fun u hu v hv => mainPath_iff hr hcontained ((hkey u).mp hu).2 ((hkey v).mp hv).2⟩, hr.formed⟩
  rw [hr.removed.nodes]
  refine and_congr_right fun hget => not_congr ⟨?_, fun hdisabled => ⟨node, hget, hdisabled⟩⟩
  rintro ⟨n, hn, hdisabled⟩
  rw [hget, Option.some.injEq] at hn
  exact hn ▸ hdisabled

theorem exists_subgraph {destination trigger : INode} (hg : Closed g)
    (htrigger : g.nodes.get? trigger.name = some trigger)
    (hdestination : destination.name ∈ g.nodes.keys) (hne : trigger.name ≠ destination.name)
    (hpath : MainPath g trigger.name destination.name) :
    ∃ h, findSubgraph g destination trigger = .ok h ∧ Closed h ∧ trigger.name ∈ h.nodes.keys ∧
      (∀ name node, h.nodes.get? name = some node → g.nodes.get? name = some node) ∧
      (∀ c ∈ h.getConnections, c ∈ g.getConnections) ∧
      ∀ name ∈ h.nodes.keys, Reaches g.succ name destination.name := by
  obtain ⟨h, hcall, hpart⟩ := exists_findSubgraph hg hdestination htrigger hne fun _ => Iff.rfl
  obtain ⟨first, hfirst, hfrom⟩ := exists_found_of_mainPath hg hne hpath
  refine ⟨h, hcall, hpart.closed fun c hc n hn => hc.imp (fun hc => ⟨c, hc, hn⟩)
    fun hc => ⟨c, hc, hn⟩, (hpart.nodes _).mpr (.inl ⟨first, hfirst, .inl hfrom.symm⟩), hpart.node,
    fun c hc => hpart.mem c ((hpart.connections c).mp hc), fun name hname => ?_⟩
  rcases (hpart.nodes name).mp hname with ⟨c, hc, hn⟩ | ⟨c, ⟨n, ⟨d, hd, hn'⟩, hc⟩, hn⟩
  · exact leads_of_found hg hne hc hn
  · have hrest := hc.reaches.trans (leads_of_found hg hne hd hn')
    rcases hn with rfl | rfl
    · exact (Reaches.edge (mem_succ.mpr ⟨c, hc.mem, rfl, rfl⟩)).trans hrest
    · exact hrest

theorem exists_startNodes {trigger : String} (destination : String) (pinData : IPinData)
    (hg : Closed g) (ht : trigger ∈ g.nodes.keys) (hentries : ∀ n, HasEntries g runData n) :
    ∃ stops startNodes, findStartNodes g trigger destination runData pinData = .ok stops ∧
      g.handleCycles stops trigger = .ok startNodes ∧ (∀ s ∈ startNodes, s ∈ g.nodes.keys) ∧
      ∀ name, (∃ s ∈ startNodes, SameComponent g.succ s name) ↔
        ∃ stop, SameComponent g.succ stop name ∧ Stop g destination runData pinData stop ∧
          ReflTransGen (Follows g destination runData pinData) trigger stop := by
  have hnew : FollowsNew g destination runData pinData [] = Follows g destination runData pinData :=
    funext fun a => funext fun b => propext (and_iff_right List.not_mem_nil)
  have hcall : ∃ stops, findStartNodes g trigger destination runData pinData = .ok stops ∧
      stops.Nodup ∧ ∀ s, s ∈ stops ↔ s ∈ [] ∨ Stop g destination runData pinData s ∧
        ReflTransGen (FollowsNew g destination runData pinData []) trigger s :=
    exists_findStartNodesRecursive hg (fun n _ => hentries n) (g.nodes.keys.length + 1) ht
      ReflTransGen.refl List.nodup_nil List.nodup_nil (List.nil_subset _) (by simp)
  obtain ⟨stops, hstops, hnodup, hmem⟩ := hcall
  simp only [hnew, List.not_mem_nil, false_or] at hmem
  have hreach : ∀ s ∈ stops, Reaches g.succ trigger s := fun s hs => by
    refine ReflTransGen.mono ?_ _ _ ((hmem s).mp hs).2
    rintro a b ⟨-, c, hc, rfl, rfl, -⟩
    exact mem_succ.mpr ⟨c, hc, rfl, rfl⟩
  obtain ⟨sets, hsets, hfound⟩ := exists_found hg
  obtain ⟨startNodes, hmoved, -, hstart⟩ := exists_handleCycles hg ht hfound hsets hnodup hreach
  have hsame : ∀ s ∈ stops, SameComponent g.succ (replacement g sets trigger s) s :=
    fun s hs => sameComponent_replacement hg ht hfound (hreach s hs)
  refine ⟨stops, startNodes, hstops, hmoved, fun s hs => ?_, fun name => ⟨?_, ?_⟩⟩
  · obtain ⟨stop, hstop, rfl⟩ := (hstart s).mp hs
    exact ((hreach stop hstop).trans (hsame stop hstop).2).mem (P := (· ∈ g.nodes.keys))
      (fun _ _ _ hb => hg.succ_mem hb) ht
  · rintro ⟨s, hs, hname⟩
    obtain ⟨stop, hstop, rfl⟩ := (hstart s).mp hs
    exact ⟨stop, (hsame stop hstop).symm.trans hname, (hmem stop).mp hstop⟩
  · rintro ⟨stop, hname, hstop⟩
    have hstops := (hmem stop).mpr hstop
    exact ⟨_, (hstart _).mpr ⟨stop, hstops, rfl⟩, (hsame stop hstops).trans hname⟩

end

end DirectedGraph

end N8n
