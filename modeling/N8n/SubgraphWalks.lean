/-
The subgraph of a trigger and a destination, as the walks from the one to the other.

* `findSubgraph_iff` — **`findSubgraph` finds that part iff every cycle that leads to the
  destination can be reached from the trigger, and no connection of another type than main leads
  into a walk without belonging to a sub-node of it**.
-/
import N8n.FindSubgraph

namespace N8n

open DepthFirst Relation

namespace DirectedGraph

def LeadsTo : String → List GraphConnection → String → Prop
  | m, [], n => m = n
  | m, c :: cs, n => c.fromName = m ∧ LeadsTo c.toName cs n

variable (g : DirectedGraph) (trigger destination : String)

/-- A walk over main connections that is at the destination only last and at the trigger only
first. -/
structure MainWalk (walk : List GraphConnection) : Prop where
  leadsTo : LeadsTo trigger walk destination
  mem : ∀ c ∈ walk, c ∈ g.getConnections
  main : ∀ c ∈ walk, c.type = .main
  destination : ∀ c ∈ walk, c.fromName ≠ destination
  trigger : ∀ c ∈ walk, c.toName ≠ trigger

def OnWalk (c : GraphConnection) : Prop :=
  ∃ walk, MainWalk g trigger destination walk ∧ c ∈ walk

/-- A node of a walk. -/
def WalkNode (trigger destination n : String) : Prop :=
  ∃ c, OnWalk g trigger destination c ∧ Ends c n

def SubNodeLink (m n : String) : Prop :=
  ∃ c ∈ g.getConnections, c.type ≠ .main ∧ c.fromName = m ∧ c.toName = n

def MainLink (m n : String) : Prop :=
  ∃ c ∈ g.getConnections, c.type = .main ∧ c.fromName = m ∧ c.toName = n

/-- Connections of other types than main lead from the node to one of a walk. -/
def BelongsToWalk (trigger destination m : String) : Prop :=
  ∃ n, WalkNode g trigger destination n ∧ ReflTransGen (SubNodeLink g) m n

/-- The part of the graph that lies on the walks, with its sub-nodes. -/
structure FlowPart (h : DirectedGraph) : Prop where
  main : ∀ c, c.type = .main → (c ∈ h.getConnections ↔ OnWalk g trigger destination c)
  other : ∀ c, c.type ≠ .main → (c ∈ h.getConnections ↔
    c ∈ g.getConnections ∧ BelongsToWalk g trigger destination c.toName)
  nodes : ∀ n ∈ h.nodes.keys, ∃ m, ReflTransGen (MainLink h) trigger m ∧
    ReflTransGen (SubNodeLink h) n m

/-- A main connection joins the nodes that does not leave the destination and does not enter the
trigger. -/
def FlowLink (trigger destination m n : String) : Prop :=
  m ≠ destination ∧ n ≠ trigger ∧ MainLink g m n

/-- Every cycle that leads to the destination can be reached from the trigger. -/
def LoopsReached : Prop :=
  ∀ n, TransGen (FlowLink g trigger destination) n n →
    ReflTransGen (FlowLink g trigger destination) n destination →
    ReflTransGen (FlowLink g trigger destination) trigger n

/-- A connection of another type than main from which a walk can be reached leads to a walk by
connections of such types only. -/
def SubNodesApart : Prop :=
  ∀ c n, LeadsInto g c n → WalkNode g trigger destination n →
    BelongsToWalk g trigger destination c.toName

section

variable {g h : DirectedGraph} {trigger destination m n : String} {c : GraphConnection}
  {cs ds : List GraphConnection}

theorem leadsTo_append : LeadsTo m (cs ++ ds) n ↔ ∃ k, LeadsTo m cs k ∧ LeadsTo k ds n := by
  induction cs generalizing m with
  | nil =>
    constructor
    · exact fun h => ⟨m, rfl, h⟩
    · rintro ⟨k, rfl, h⟩
      exact h
  | cons c cs ih =>
    rw [List.cons_append, LeadsTo, ih]
    constructor
    · rintro ⟨hc, k, hk⟩
      exact ⟨k, ⟨hc, hk.1⟩, hk.2⟩
    · rintro ⟨k, ⟨hc, hk⟩, hrest⟩
      exact ⟨hc, k, hk, hrest⟩

variable {hg : Closed g}

theorem passable_iff :
    (mainSearch hg trigger destination).Passable c ↔
      c ∈ g.getConnections ∧ c.type = .main ∧ c.fromName ≠ destination ∧ c.toName ≠ trigger := by
  constructor
  · intro h
    obtain ⟨hc, -, htype⟩ := mem_mainSearch.mp h.mem
    exact ⟨hc, htype, h.source, h.target⟩
  · rintro ⟨hc, htype, hsource, htarget⟩
    exact ⟨mem_mainSearch.mpr ⟨hc, rfl, htype⟩, hsource, htarget⟩

theorem edge_iff :
    (mainSearch hg trigger destination).Edge m n ↔ FlowLink g trigger destination m n := by
  constructor
  · rintro ⟨c, hc, rfl, rfl⟩
    obtain ⟨hc, htype, hsource, htarget⟩ := passable_iff.mp hc
    exact ⟨hsource, htarget, c, hc, htype, rfl, rfl⟩
  · rintro ⟨hm, hn, c, hc, htype, rfl, rfl⟩
    exact ⟨c, passable_iff.mpr ⟨hc, htype, hm, hn⟩, rfl, rfl⟩

theorem edge_eq :
    (mainSearch hg trigger destination).Edge = FlowLink g trigger destination :=
  funext fun _ => funext fun _ => propext edge_iff

theorem LeadsTo.reaches (h : LeadsTo m cs n)
    (hcs : ∀ c ∈ cs, (mainSearch hg trigger destination).Passable c) :
    ReflTransGen (mainSearch hg trigger destination).Edge m n := by
  induction cs generalizing m with
  | nil => exact h ▸ ReflTransGen.refl
  | cons c cs ih =>
    obtain ⟨hc, hcs⟩ := List.forall_mem_cons.mp hcs
    exact ReflTransGen.head ⟨c, hc, h.1, rfl⟩ (ih h.2 hcs)

theorem exists_leadsTo
    (h : ReflTransGen (mainSearch hg trigger destination).Edge m n) :
    ∃ cs, LeadsTo m cs n ∧ ∀ c ∈ cs, (mainSearch hg trigger destination).Passable c := by
  induction h using ReflTransGen.head_induction_on with
  | refl => exact ⟨[], rfl, fun _ h => (List.not_mem_nil h).elim⟩
  | head hedge _ ih =>
    obtain ⟨c, hc, rfl, rfl⟩ := hedge
    obtain ⟨cs, hcs, hpass⟩ := ih
    exact ⟨c :: cs, ⟨rfl, hcs⟩, List.forall_mem_cons.mpr ⟨hc, hpass⟩⟩

theorem mainWalk_iff (hg : Closed g) {walk : List GraphConnection} :
    MainWalk g trigger destination walk ↔ LeadsTo trigger walk destination ∧
      ∀ c ∈ walk, (mainSearch hg trigger destination).Passable c := by
  simp only [passable_iff]
  constructor
  · exact fun h => ⟨h.leadsTo, fun c hc =>
      ⟨h.mem c hc, h.main c hc, h.destination c hc, h.trigger c hc⟩⟩
  · rintro ⟨hleads, h⟩
    exact ⟨hleads, fun c hc => (h c hc).1, fun c hc => (h c hc).2.1,
      fun c hc => (h c hc).2.2.1, fun c hc => (h c hc).2.2.2⟩

theorem onPath_iff (hg : Closed g) :
    (mainSearch hg trigger destination).OnPath c ↔ OnWalk g trigger destination c := by
  constructor
  · intro h
    obtain ⟨cs, hcs, hpass⟩ := exists_leadsTo h.source
    obtain ⟨ds, hds, hpass'⟩ := exists_leadsTo h.target
    refine ⟨cs ++ c :: ds, (mainWalk_iff hg).mpr ⟨leadsTo_append.mpr ⟨_, hcs, rfl, hds⟩, ?_⟩,
      by simp⟩
    intro d hd
    rcases List.mem_append.mp hd with hd | hd
    · exact hpass d hd
    · exact (List.mem_cons.mp hd).elim (fun heq => heq ▸ h.passable) (hpass' d)
  · rintro ⟨walk, hwalk, hc⟩
    obtain ⟨hleads, hpass⟩ := (mainWalk_iff hg).mp hwalk
    obtain ⟨cs, ds, rfl⟩ := List.append_of_mem hc
    obtain ⟨k, hcs, rfl, hds⟩ := leadsTo_append.mp hleads
    exact ⟨hpass c hc, hcs.reaches fun d hd => hpass d (List.mem_append_left _ hd),
      hds.reaches fun d hd => hpass d (List.mem_append_right _ (List.mem_cons_of_mem _ hd))⟩

theorem loopsReached_iff (hg : Closed g) (hne : trigger ≠ destination) :
    (∀ c, (mainSearch hg trigger destination).Found c ↔ OnWalk g trigger destination c) ↔
      LoopsReached g trigger destination := by
  have h := BranchSearch.found_iff_onPath_iff (S := mainSearch hg trigger destination) hne
  simp only [onPath_iff] at h
  refine h.trans ?_
  rw [BranchSearch.CyclesReached, edge_eq]
  exact Iff.rfl

theorem OnWalk.main (h : OnWalk g trigger destination c) : c.type = .main := by
  obtain ⟨walk, hwalk, hc⟩ := h
  exact hwalk.main c hc

theorem WalkNode.reached (hn : WalkNode g trigger destination n)
    (hwalks : ∀ c, OnWalk g trigger destination c → c ∈ h.getConnections) :
    ReflTransGen (MainLink h) trigger n := by
  obtain ⟨c, ⟨walk, hwalk, hc⟩, hends⟩ := hn
  have hlinks : ∀ d ∈ walk, d ∈ h.getConnections := fun d hd => hwalks d ⟨walk, hwalk, hd⟩
  obtain ⟨cs, ds, rfl⟩ := List.append_of_mem hc
  have hpart : ∀ {cs : List GraphConnection} {m n : String}, LeadsTo m cs n →
      (∀ d ∈ cs, d ∈ h.getConnections ∧ d.type = .main) → ReflTransGen (MainLink h) m n := by
    intro cs
    induction cs with
    | nil => exact fun h _ => h ▸ ReflTransGen.refl
    | cons d cs ih =>
      intro m n hleads hcs
      obtain ⟨hd, hcs⟩ := List.forall_mem_cons.mp hcs
      exact ReflTransGen.head ⟨d, hd.1, hd.2, hleads.1, rfl⟩ (ih hleads.2 hcs)
  obtain ⟨k, hcs, rfl, -⟩ := leadsTo_append.mp hwalk.leadsTo
  have hfrom : ReflTransGen (MainLink h) trigger c.fromName := hpart hcs fun d hd =>
    ⟨hlinks d (List.mem_append_left _ hd), hwalk.main d (List.mem_append_left _ hd)⟩
  rcases hends with rfl | rfl
  · exact hfrom
  · exact hfrom.tail ⟨c, hlinks c hc, hwalk.main c hc, rfl, rfl⟩

theorem BelongsToWalk.reached (hm : BelongsToWalk g trigger destination m)
    (hother : ∀ c ∈ g.getConnections, c.type ≠ .main →
      BelongsToWalk g trigger destination c.toName → c ∈ h.getConnections) :
    ∃ n, WalkNode g trigger destination n ∧ ReflTransGen (SubNodeLink h) m n := by
  obtain ⟨n, hn, hpath⟩ := hm
  refine ⟨n, hn, ?_⟩
  induction hpath using ReflTransGen.head_induction_on with
  | refl => exact ReflTransGen.refl
  | head hlink hrest ih =>
    obtain ⟨c, hc, htype, rfl, rfl⟩ := hlink
    exact ReflTransGen.head ⟨c, hother c hc htype ⟨n, hn, hrest⟩, htype, rfl, rfl⟩ ih

theorem reaches_of_subNodeLinks (h : ReflTransGen (SubNodeLink g) m n) : Reaches g.succ m n := by
  refine ReflTransGen.mono ?_ m n h
  rintro a b ⟨c, hc, -, hfrom, hto⟩
  exact mem_succ.mpr ⟨c, hc, hfrom, hto⟩

/-- **When the subgraph is the part on the walks from the trigger to the destination.** -/
theorem findSubgraph_iff {trigger destination : INode} (hg : Closed g)
    (hdestination : g.nodes.get? destination.name = some destination)
    (htrigger : g.nodes.get? trigger.name = some trigger) (hne : trigger ≠ destination) :
    (∃ h, findSubgraph g destination trigger = .ok h ∧
        FlowPart g trigger.name destination.name h) ↔
      LoopsReached g trigger.name destination.name ∧
        SubNodesApart g trigger.name destination.name := by
  have hkey : destination.name ∈ g.nodes.keys := Dict.mem_keys_iff.mpr ⟨_, hdestination⟩
  have hnames : trigger.name ≠ destination.name := by
    intro heq
    rw [heq, hdestination] at htrigger
    exact hne (Option.some_inj.mp htrigger).symm
  constructor
  · rintro ⟨h, hok, hflow⟩
    obtain ⟨h', hok', hpart⟩ := exists_findSubgraph hg hkey htrigger hnames fun _ => Iff.rfl
    rw [hok, Except.ok.injEq] at hok'
    subst hok'
    have hfound : ∀ c, (mainSearch hg trigger.name destination.name).Found c ↔
        OnWalk g trigger.name destination.name c := by
      refine fun c => ⟨fun hc => ?_, fun hc => ((onPath_iff hg).mpr hc).found⟩
      exact (hflow.main c (passable_iff.mp (hc.sound hnames).1).2.1).mp
        ((hpart.connections c).mpr (.inl hc))
    refine ⟨(loopsReached_iff hg hnames).mp hfound, fun c n hc hn => ?_⟩
    simp only [hfound] at hpart
    exact ((hflow.other c hc.type).mp ((hpart.connections c).mpr (.inr ⟨n, hn, hc⟩))).2
  · rintro ⟨hloops, hapart⟩
    obtain ⟨h, hok, hpart⟩ := exists_findSubgraph hg hkey htrigger hnames
      ((loopsReached_iff hg hnames).mpr hloops)
    have hmain : ∀ c, c.type = .main →
        (c ∈ h.getConnections ↔ OnWalk g trigger.name destination.name c) := by
      intro c htype
      refine (hpart.connections c).trans (or_iff_left ?_)
      rintro ⟨_, _, hc⟩
      exact hc.type htype
    have hother : ∀ c, c.type ≠ .main → (c ∈ h.getConnections ↔ c ∈ g.getConnections ∧
        BelongsToWalk g trigger.name destination.name c.toName) := by
      intro c htype
      rw [hpart.connections, or_iff_right fun hc => htype hc.main]
      constructor
      · rintro ⟨n, hn, hc⟩
        exact ⟨hc.mem, hapart c n hc hn⟩
      · rintro ⟨hc, n, hn, hpath⟩
        exact ⟨n, hn, hc, htype, reaches_of_subNodeLinks hpath⟩
    have hwalks : ∀ c, OnWalk g trigger.name destination.name c → c ∈ h.getConnections :=
      fun c hc => (hmain c hc.main).mpr hc
    refine ⟨h, hok, hmain, hother, fun n hn => ?_⟩
    rcases (hpart.nodes n).mp hn with hwalk | ⟨c, ⟨k, hk, hc⟩, hends⟩
    · exact ⟨n, WalkNode.reached hwalk hwalks, ReflTransGen.refl⟩
    · have hin : c ∈ h.getConnections := (hpart.connections c).mpr (.inr ⟨k, hk, hc⟩)
      obtain ⟨m, hm, hpath⟩ := (hapart c k hc hk).reached fun d hd htype hbelongs =>
        (hother d htype).mpr ⟨hd, hbelongs⟩
      refine ⟨m, hm.reached hwalks, ?_⟩
      rcases hends with rfl | rfl
      · exact hpath.head ⟨c, hin, hc.type, rfl, rfl⟩
      · exact hpath

end

def triggeredAgent : DirectedGraph :=
  [⟨"Trigger", "Agent", .main, 0, 0⟩, ⟨"Model", "Agent", .aiLanguageModel, 0, 0⟩].foldl
    putConnection (addNodes {} [{ name := "Trigger" }, { name := "Agent" }, { name := "Model" }])

/-- The whole graph is the subgraph of the trigger and the root node. -/
theorem findSubgraph_triggeredAgent :
    ∃ h, findSubgraph triggeredAgent { name := "Agent" } { name := "Trigger" } = .ok h ∧
      FlowPart triggeredAgent "Trigger" "Agent" h := by
  have hclosed : Closed triggeredAgent :=
    ⟨(valid_empty.addNodes _).putConnections _, by decide, by decide⟩
  have hmain : ∀ c ∈ triggeredAgent.getConnections,
      c.type = .main → c.fromName = "Trigger" ∧ c.toName = "Agent" := by decide
  have hother : ∀ c ∈ triggeredAgent.getConnections, c.type ≠ .main → c.toName = "Agent" := by
    decide
  refine (findSubgraph_iff hclosed (by decide) (by decide) (by decide)).mpr ⟨?_, ?_⟩
  · intro n hcycle
    obtain ⟨_, ⟨-, -, c, hc, htype, rfl, -⟩, -⟩ := TransGen.head'_iff.mp hcycle
    obtain ⟨_, -, -, -, d, hd, htype', -, hto⟩ := TransGen.tail'_iff.mp hcycle
    rw [(hmain c hc htype).1, (hmain d hd htype').2] at hto
    exact absurd hto (by decide)
  · intro c n hc _
    rw [hother c hc.mem hc.type]
    refine ⟨"Agent", ⟨⟨"Trigger", "Agent", .main, 0, 0⟩,
      ⟨[⟨"Trigger", "Agent", .main, 0, 0⟩], ⟨⟨rfl, rfl⟩, by decide, by decide, by decide, by decide⟩,
        by simp⟩, .inr rfl⟩, ReflTransGen.refl⟩

def loopBeside : DirectedGraph :=
  [⟨"Trigger", "End", .main, 0, 0⟩, ⟨"B", "End", .main, 0, 0⟩, ⟨"A", "B", .main, 0, 0⟩,
    ⟨"B", "A", .main, 0, 0⟩].foldl putConnection
    (addNodes {} [{ name := "Trigger" }, { name := "End" }, { name := "B" }, { name := "A" }])

/-- The cycle is kept, though the trigger does not lead to it. -/
theorem not_flowPart_loopBeside : Closed loopBeside ∧
    ¬ ∃ h, findSubgraph loopBeside { name := "End" } { name := "Trigger" } = .ok h ∧
      FlowPart loopBeside "Trigger" "End" h := by
  refine ⟨⟨(valid_empty.addNodes _).putConnections _, by decide, by decide⟩, ?_⟩
  rintro ⟨h, hok, hflow⟩
  have hall : findSubgraph loopBeside { name := "End" } { name := "Trigger" } = .ok loopBeside := by
    decide +kernel
  rw [hall, Except.ok.injEq] at hok
  subst hok
  obtain ⟨m, hmain, hsub⟩ := hflow.nodes "A" (by decide)
  have hnone : ∀ c ∈ loopBeside.getConnections, c.type = .main := by decide
  rcases ReflTransGen.cases_head hsub with rfl | ⟨_, ⟨c, hc, htype, -⟩, -⟩
  · have hclosed : ∀ c ∈ loopBeside.getConnections,
        c.fromName ∈ ["Trigger", "End"] → c.toName ∈ ["Trigger", "End"] := by decide
    have hreach : ∀ n, ReflTransGen (MainLink loopBeside) "Trigger" n → n ∈ ["Trigger", "End"] := by
      intro n hn
      induction hn with
      | refl => decide
      | tail _ hlink ih =>
        obtain ⟨c, hc, -, rfl, rfl⟩ := hlink
        exact hclosed c hc ih
    exact absurd (hreach "A" hmain) (by decide)
  · exact htype (hnone c hc)

end DirectedGraph

end N8n
