/-
The nodes a partial execution starts from.

`findStartNodes` follows the connections that carry data from the trigger on, branch by branch,
and stops a branch at a node that is dirty, is the destination, or is an unfinished loop node.  A
branch also ends where it returns to a node it has come from; the set of these nodes is kept for
each branch apart.

* `exists_findStartNodes` — **the search ends, with the nodes to stop at that the trigger reaches
  along connections that carry data and do not lead from such a node**.
-/
import N8n.GraphWalks
import N8n.SourceDataGroups

namespace N8n

open DepthFirst

theorem reflTransGen_iff_avoiding {α : Type} {r : α → α → Prop} {a s : α} (hne : a ≠ s) :
    Relation.ReflTransGen r a s ↔
      ∃ b, r a b ∧ Relation.ReflTransGen (fun x y => x ≠ a ∧ r x y) b s := by
  constructor
  · intro h
    have hleave : ∀ x, Relation.ReflTransGen r x s →
        Relation.ReflTransGen (fun x y => x ≠ a ∧ r x y) x s ∨
          ∃ b, r a b ∧ Relation.ReflTransGen (fun x y => x ≠ a ∧ r x y) b s := by
      intro x hx
      induction hx using Relation.ReflTransGen.head_induction_on with
      | refl => exact .inl Relation.ReflTransGen.refl
      | @head x y hxy _ ih =>
        rcases ih with ih | ih
        · by_cases hxa : x = a
          · exact .inr ⟨y, hxa ▸ hxy, ih⟩
          · exact .inl (Relation.ReflTransGen.head ⟨hxa, hxy⟩ ih)
        · exact .inr ih
    refine (hleave a h).resolve_left fun hstay => ?_
    rcases Relation.ReflTransGen.cases_head hstay with heq | ⟨_, ⟨haa, -⟩, -⟩
    · exact hne heq
    · exact haa rfl
  · rintro ⟨b, hab, h⟩
    exact Relation.ReflTransGen.head hab (Relation.ReflTransGen.mono (fun _ _ hxy => hxy.2) b s h)

namespace DirectedGraph

def isDirty (node : String) (runData : IRunData) (pinData : IPinData) : Bool :=
  !pinData.has node && !runData.has node

def isALoop (graph : DirectedGraph) (node : String) : Except JsError Bool := do
  let children ← graph.getChildren node
  return decide (node ∈ children)

/-- The index of the last run, which the source passes as -1. -/
def lastRun (runData : IRunData) (node : String) : ℕ := ((runData.get? node).getD []).length - 1

/-- Whether the branch is stopped at the node: it is dirty, the destination, or a loop node
whose `done` output has no data on the last run. -/
def foundStartNode (graph : DirectedGraph) (current destination : String) (runData : IRunData)
    (pinData : IPinData) : Except JsError Bool :=
  if isDirty current runData pinData then .ok true
  else if current = destination then .ok true
  else match graph.nodes.get? current with
    | none => .error .assertionError
    | some node =>
      if node.type = "n8n-nodes-base.splitInBatches" then do
        let loop ← isALoop graph current
        let nodeRunData ← getIncomingData runData current (lastRun runData current) .main
          (if loop then 0 else 1)
        return (nodeRunData.getD []).isEmpty
      else .ok false

/-- A connection is followed if it has run data or its source has pinned data. -/
def followConnection (runData : IRunData) (pinData : IPinData)
    (search : String → List String → Except JsError (List String)) (startNodes : List String)
    (c : GraphConnection) : Except JsError (List String) := do
  let nodeRunData ← getIncomingDataFromAnyRun runData c.fromName c.type c.outputIndex
  let hasNoRunData := match nodeRunData with
    | none => true
    | some (data, _) => data.isEmpty
  if hasNoRunData && !pinData.has c.fromName then return startNodes
  search c.toName startNodes

def findStartNodesRecursive (graph : DirectedGraph) (destination : String) (runData : IRunData)
    (pinData : IPinData) : ℕ → String → List String → List String → Except JsError (List String)
  | 0, _, _, _ => .error stackOverflow
  | depth + 1, current, startNodes, seen => do
    if ← foundStartNode graph current destination runData pinData then
      return setAdd startNodes current
    if current ∈ seen then return startNodes
    let outGoingConnections ← graph.directChildConnections current
    outGoingConnections.foldlM (followConnection runData pinData fun node startNodes =>
      findStartNodesRecursive graph destination runData pinData depth node startNodes
        (current :: seen)) startNodes

def findStartNodes (graph : DirectedGraph) (trigger destination : String) (runData : IRunData)
    (pinData : IPinData) : Except JsError (List String) :=
  findStartNodesRecursive graph destination runData pinData (graph.nodes.keys.length + 1) trigger
    [] []

/-- The items of one run on one output; there are none where there is no such run or output. -/
def itemsOf (runData : IRunData) (node : String) (runIndex : ℕ) (type : NodeConnectionType)
    (outputIndex : ℕ) : Items :=
  ((((runData.get? node).bind (·[runIndex]?)).bind (·.data)).bind (·.get? type)).elim []
    fun outputs => (Slot.read outputs outputIndex).toOption.getD []

/-- The data of the node's tasks has an entry for the type. -/
def HasEntry (runData : IRunData) (node : String) (type : NodeConnectionType) : Prop :=
  ∀ tasks ∈ runData.get? node, ∀ task ∈ tasks, ∀ data ∈ task.data, ∃ outputs,
    data.get? type = some outputs

section

variable {runData : IRunData} {node : String} {type : NodeConnectionType} {outputIndex : ℕ}

variable (outputIndex) in
theorem getIncomingData_eq (h : HasEntry runData node type) (runIndex : ℕ) :
    ∃ items, getIncomingData runData node runIndex type outputIndex = .ok items ∧
      items.getD [] = itemsOf runData node runIndex type outputIndex := by
  rw [getIncomingData, itemsOf]
  rcases hdata : ((runData.get? node).bind (·[runIndex]?)).bind (·.data) with _ | data
  · exact ⟨none, rfl, rfl⟩
  · obtain ⟨task, htask, htaskData⟩ := Option.bind_eq_some_iff.mp hdata
    obtain ⟨tasks, htasks, hget⟩ := Option.bind_eq_some_iff.mp htask
    obtain ⟨outputs, houtputs⟩ := h tasks htasks task (List.mem_of_getElem? hget) data htaskData
    refine ⟨(Slot.read outputs outputIndex).toOption, ?_, ?_⟩
    · simp only [houtputs]
    · rw [Option.bind_some, houtputs]
      rfl

variable (outputIndex) in
theorem firstRunWithItems_eq (h : HasEntry runData node type) : ∀ runIndexes : List ℕ,
    ∃ found, firstRunWithItems runData node type outputIndex runIndexes = .ok found ∧
      (∀ items run, found = some (items, run) → items ≠ []) ∧
      (found ≠ none ↔ ∃ i ∈ runIndexes, itemsOf runData node i type outputIndex ≠ []) := by
  intro runIndexes
  induction runIndexes with
  | nil => exact ⟨none, rfl, fun _ _ h => (by cases h), by simp⟩
  | cons i runIndexes ih =>
    obtain ⟨items, hitems, hread⟩ := getIncomingData_eq outputIndex h i
    obtain ⟨found, hfound, hnonempty, hiff⟩ := ih
    rw [firstRunWithItems, hitems]
    rcases items with _ | _ | ⟨item, items⟩
    · refine ⟨found, hfound, hnonempty, hiff.trans ?_⟩
      simp [← hread]
    · refine ⟨found, hfound, hnonempty, hiff.trans ?_⟩
      simp [← hread]
    · refine ⟨_, rfl, ?_, ?_⟩
      · rintro _ _ heq
        cases heq
        exact List.cons_ne_nil _ _
      · simp [← hread]

end

def OnCycle (g : DirectedGraph) (node : String) : Prop :=
  ∃ m, Reaches g.succ node m ∧ node ∈ g.succ m

/-- A branch stops at the node: it has no data, is the destination, or is a loop node whose last
run has no items on the `done` output, or on the loop output where there is no loop. -/
def Stop (g : DirectedGraph) (destination : String) (runData : IRunData) (pinData : IPinData)
    (node : String) : Prop :=
  (pinData.has node = false ∧ runData.has node = false) ∨ node = destination ∨
    ∃ n, g.nodes.get? node = some n ∧ n.type = "n8n-nodes-base.splitInBatches" ∧
      ((OnCycle g node ∧ itemsOf runData node (lastRun runData node) .main 0 = []) ∨
        (¬ OnCycle g node ∧ itemsOf runData node (lastRun runData node) .main 1 = []))

/-- The source of the connection is pinned, or had items on the output in some run. -/
def Carries (runData : IRunData) (pinData : IPinData) (c : GraphConnection) : Prop :=
  pinData.has c.fromName = true ∨
    ∃ runIndex, itemsOf runData c.fromName runIndex c.type c.outputIndex ≠ []

/-- A branch goes on from a node to the next one. -/
def Follows (g : DirectedGraph) (destination : String) (runData : IRunData) (pinData : IPinData)
    (a b : String) : Prop :=
  ¬ Stop g destination runData pinData a ∧
    ∃ c ∈ g.getConnections, c.fromName = a ∧ c.toName = b ∧ Carries runData pinData c

/-- The task data of a node has an entry for each connection type it is asked for. -/
def HasEntries (g : DirectedGraph) (runData : IRunData) (node : String) : Prop :=
  (∀ n, g.nodes.get? node = some n → n.type = "n8n-nodes-base.splitInBatches" →
    HasEntry runData node .main) ∧
  ∀ c ∈ g.getConnections, c.fromName = node → HasEntry runData node c.type

section

variable {g : DirectedGraph} {destination : String} {runData : IRunData} {pinData : IPinData}
  {current : String}

theorem isALoop_eq (hg : Closed g) (h : current ∈ g.nodes.keys) :
    ∃ loop, isALoop g current = .ok loop ∧ (loop = true ↔ OnCycle g current) := by
  obtain ⟨children, hchildren, hmem⟩ := exists_getChildren hg h
  refine ⟨decide (current ∈ children), ?_, ?_⟩
  · rw [isALoop, hchildren]
    rfl
  · rw [decide_eq_true_iff, hmem]
    rfl

variable (destination pinData) in
theorem foundStartNode_eq (hg : Closed g) (h : current ∈ g.nodes.keys)
    (hentries : HasEntries g runData current) :
    ∃ found, foundStartNode g current destination runData pinData = .ok found ∧
      (found = true ↔ Stop g destination runData pinData current) := by
  obtain ⟨node, hnode⟩ := Dict.mem_keys_iff.mp h
  rw [foundStartNode]
  split
  · rename_i hdirty
    refine ⟨true, rfl, iff_of_true rfl (.inl ?_)⟩
    simpa [isDirty] using hdirty
  rename_i hdirty
  have hclean : ¬ (pinData.has current = false ∧ runData.has current = false) := by
    simpa [isDirty] using hdirty
  split
  · rename_i hdest
    exact ⟨true, rfl, iff_of_true rfl (.inr (.inl hdest))⟩
  rename_i hdest
  simp only [hnode]
  split
  · rename_i htype
    obtain ⟨loop, hloop, hcycle⟩ := isALoop_eq hg h
    obtain ⟨items, hitems, hread⟩ := getIncomingData_eq
      (if loop then 0 else 1) (hentries.1 node hnode htype) (lastRun runData current)
    refine ⟨(items.getD []).isEmpty, ?_, ?_⟩
    · rw [hloop]
      show (getIncomingData runData current (lastRun runData current) .main
        (if loop then 0 else 1) >>= _) = _
      rw [hitems]
      rfl
    rw [hread, List.isEmpty_iff]
    constructor
    · intro hempty
      refine .inr (.inr ⟨node, hnode, htype, ?_⟩)
      cases loop with
      | true => exact .inl ⟨hcycle.mp rfl, hempty⟩
      | false => exact .inr ⟨fun hc => (by cases hcycle.mpr hc), hempty⟩
    · rintro (hstop | hstop | ⟨n, -, -, ⟨hc, hempty⟩ | ⟨hc, hempty⟩⟩)
      · exact absurd hstop hclean
      · exact absurd hstop hdest
      · rwa [hcycle.mpr hc]
      · cases loop with
        | true => exact absurd (hcycle.mp rfl) hc
        | false => exact hempty
  · rename_i htype
    refine ⟨false, rfl, iff_of_false Bool.false_ne_true ?_⟩
    rintro (hstop | hstop | ⟨n, hn, hntype, -⟩)
    · exact hclean hstop
    · exact hdest hstop
    · rw [hnode, Option.some.injEq] at hn
      exact htype (hn ▸ hntype)

theorem getIncomingDataFromAnyRun_eq {c : GraphConnection}
    (h : HasEntry runData c.fromName c.type) :
    ∃ found, getIncomingDataFromAnyRun runData c.fromName c.type c.outputIndex = .ok found ∧
      (∀ items run, found = some (items, run) → items ≠ []) ∧
      (found ≠ none ↔
        ∃ runIndex, itemsOf runData c.fromName runIndex c.type c.outputIndex ≠ []) := by
  obtain ⟨found, hfound, hnonempty, hiff⟩ := firstRunWithItems_eq c.outputIndex h
    (List.range ((runData.get? c.fromName).getD []).length)
  refine ⟨found, hfound, hnonempty, hiff.trans ⟨fun ⟨i, _, hi⟩ => ⟨i, hi⟩, fun ⟨i, hi⟩ => ?_⟩⟩
  -- a run with items is one of the node's runs
  refine ⟨i, ?_, hi⟩
  by_contra hrange
  rw [List.mem_range, not_lt] at hrange
  refine hi ?_
  rw [itemsOf]
  rcases htasks : runData.get? c.fromName with _ | tasks
  · rfl
  · rw [htasks, Option.getD_some] at hrange
    rw [Option.bind_some, List.getElem?_eq_none hrange]
    rfl

variable (pinData) in
theorem followConnection_eq {c : GraphConnection} (h : HasEntry runData c.fromName c.type)
    (search : String → List String → Except JsError (List String)) (startNodes : List String) :
    (Carries runData pinData c ∧
        followConnection runData pinData search startNodes c = search c.toName startNodes) ∨
      (¬ Carries runData pinData c ∧
        followConnection runData pinData search startNodes c = .ok startNodes) := by
  obtain ⟨found, hfound, hnonempty, hiff⟩ := getIncomingDataFromAnyRun_eq h
  rw [followConnection, hfound, Carries, ← hiff]
  rcases found with _ | ⟨items, run⟩
  · cases hpin : pinData.has c.fromName with
    | true => exact .inl ⟨.inl rfl, rfl⟩
    | false => exact .inr ⟨by simp, rfl⟩
  · refine .inl ⟨.inr (by simp), ?_⟩
    cases items with
    | nil => exact absurd rfl (hnonempty [] run rfl)
    | cons item items => rfl

/-- A branch that has come from the nodes in `seen` goes on. -/
def FollowsNew (g : DirectedGraph) (destination : String) (runData : IRunData) (pinData : IPinData)
    (seen : List String) (a b : String) : Prop :=
  a ∉ seen ∧ Follows g destination runData pinData a b

/-- **Step lemma of the search.**  A call adds the nodes to stop at that the branch can reach
without going on from a node it has come from. -/
theorem exists_findStartNodesRecursive (hg : Closed g) {trigger : String}
    (hentries : ∀ n, Relation.ReflTransGen (Follows g destination runData pinData) trigger n →
      HasEntries g runData n) (depth : ℕ) :
    ∀ {current : String} {startNodes seen : List String}, current ∈ g.nodes.keys →
      Relation.ReflTransGen (Follows g destination runData pinData) trigger current →
      startNodes.Nodup → seen.Nodup → seen ⊆ g.nodes.keys →
      g.nodes.keys.length < depth + seen.length →
      ∃ result, findStartNodesRecursive g destination runData pinData depth current startNodes seen
          = .ok result ∧ result.Nodup ∧
        ∀ s, s ∈ result ↔ s ∈ startNodes ∨ Stop g destination runData pinData s ∧
          Relation.ReflTransGen (FollowsNew g destination runData pinData seen) current s := by
  induction depth with
  | zero =>
    intro current startNodes seen _ _ _ hseen hsub hdepth
    have hle := (List.subperm_of_subset hseen hsub).length_le
    omega
  | succ depth ih =>
    intro current startNodes seen hcurrent hreach hnodup hseen hsub hdepth
    obtain ⟨found, hfound, hstop⟩ := foundStartNode_eq destination pinData hg hcurrent
      (hentries current hreach)
    rw [findStartNodesRecursive, hfound]
    by_cases hstopped : Stop g destination runData pinData current
    · -- the branch stops here, and nothing follows
      refine ⟨setAdd startNodes current, ?_, nodup_setAdd hnodup current, fun s => ?_⟩
      · rw [hstop.mpr hstopped]
        rfl
      rw [mem_setAdd]
      refine or_congr_right ⟨?_, fun ⟨_, hpath⟩ => ?_⟩
      · rintro rfl
        exact ⟨hstopped, Relation.ReflTransGen.refl⟩
      · rcases Relation.ReflTransGen.cases_head hpath with heq | ⟨_, ⟨-, hgo, -⟩, -⟩
        · exact heq.symm
        · exact absurd hstopped hgo
    have hfalse : found = false := by
      rw [← Bool.not_eq_true]
      exact mt hstop.mp hstopped
    rw [hfalse]
    by_cases hmem : current ∈ seen
    · -- the branch has come back
      refine ⟨startNodes, ?_, hnodup, fun s => ?_⟩
      · show (if current ∈ seen then _ else _) = _
        rw [if_pos hmem]
        rfl
      refine (or_iff_left ?_).symm
      rintro ⟨hs, hpath⟩
      rcases Relation.ReflTransGen.cases_head hpath with rfl | ⟨_, ⟨hnew, -⟩, -⟩
      · exact hstopped hs
      · exact hnew hmem
    · show ∃ result, (if current ∈ seen then _ else _) = _ ∧ _
      rw [if_neg hmem, hg.directChildConnections hcurrent]
      have hgo : ∀ c ∈ g.outgoing current, Carries runData pinData c →
          Follows g destination runData pinData current c.toName := fun c hc hcarries =>
        ⟨hstopped, c, (mem_outgoing.mp hc).1, (mem_outgoing.mp hc).2, rfl, hcarries⟩
      have hloop : ∀ (cs : List GraphConnection) (startNodes : List String),
          cs ⊆ g.outgoing current → startNodes.Nodup →
          ∃ result, cs.foldlM (followConnection runData pinData fun node startNodes =>
              findStartNodesRecursive g destination runData pinData depth node startNodes
                (current :: seen)) startNodes = .ok result ∧ result.Nodup ∧
            ∀ s, s ∈ result ↔ s ∈ startNodes ∨ Stop g destination runData pinData s ∧
              ∃ c ∈ cs, Carries runData pinData c ∧ Relation.ReflTransGen
                (FollowsNew g destination runData pinData (current :: seen)) c.toName s := by
        intro cs
        induction cs with
        | nil => exact fun startNodes _ hnodup => ⟨startNodes, rfl, hnodup, fun s => by simp⟩
        | cons c cs ihcs =>
          intro startNodes hcs hnodup
          obtain ⟨hc, hcs⟩ := List.cons_subset.mp hcs
          obtain ⟨hcg, hfrom⟩ := mem_outgoing.mp hc
          have hentry : HasEntry runData c.fromName c.type := by
            rw [hfrom]
            exact (hentries current hreach).2 c hcg hfrom
          rw [List.foldlM_cons]
          rcases followConnection_eq pinData hentry
            (fun node startNodes => findStartNodesRecursive g destination runData pinData depth node
              startNodes (current :: seen)) startNodes with ⟨hcarries, hround⟩ | ⟨hnot, hround⟩
          · obtain ⟨mid, hmid, hmidNodup, hmidMem⟩ := ih (hg.toName c hcg)
              (hreach.tail (hgo c hc hcarries)) hnodup (List.nodup_cons.mpr ⟨hmem, hseen⟩)
              (List.cons_subset.mpr ⟨hcurrent, hsub⟩) (by rw [List.length_cons]; omega)
            obtain ⟨result, hresult, hresultNodup, hresultMem⟩ := ihcs mid hcs hmidNodup
            refine ⟨result, ?_, hresultNodup, fun s => ?_⟩
            · rw [hround, hmid]
              exact hresult
            · rw [hresultMem, hmidMem, List.exists_mem_cons_iff, and_iff_right hcarries,
                and_or_left, or_assoc]
          · obtain ⟨result, hresult, hresultNodup, hresultMem⟩ := ihcs startNodes hcs hnodup
            refine ⟨result, ?_, hresultNodup, fun s => ?_⟩
            · rw [hround]
              exact hresult
            · rw [hresultMem, List.exists_mem_cons_iff]
              exact or_congr_right (and_congr_right fun _ =>
                (or_iff_right fun hfirst => hnot hfirst.1).symm)
      obtain ⟨result, hresult, hresultNodup, hresultMem⟩ :=
        hloop (g.outgoing current) startNodes (fun _ h => h) hnodup
      refine ⟨result, hresult, hresultNodup, fun s => (hresultMem s).trans ?_⟩
      refine or_congr_right (and_congr_right fun hs => ?_)
      have hne : current ≠ s := fun heq => hstopped (heq ▸ hs)
      have hnew : (fun x y => x ≠ current ∧ FollowsNew g destination runData pinData seen x y)
          = FollowsNew g destination runData pinData (current :: seen) := by
        funext x y
        simp only [FollowsNew, List.mem_cons, not_or, and_assoc]
      rw [reflTransGen_iff_avoiding hne, hnew]
      constructor
      · rintro ⟨c, hc, hcarries, hpath⟩
        exact ⟨c.toName, ⟨hmem, hgo c hc hcarries⟩, hpath⟩
      · rintro ⟨b, ⟨-, -, c, hc, hfrom, rfl, hcarries⟩, hpath⟩
        exact ⟨c, mem_outgoing.mpr ⟨hc, hfrom⟩, hcarries, hpath⟩

end

/-- One run of node `a`, with an item. -/
def runOfA : IRunData := Dict.empty.set "a" [{ data := some (mainOnly [.data [{}]]) }]

example : findStartNodes ring "a" "c" runOfA Dict.empty = .ok ["b"] := by decide

end DirectedGraph

end N8n
