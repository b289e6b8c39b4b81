/-
Items that the execution loop puts back.

An item that lacks input data goes to the end of the stack.  The loop stops with an error when
the next item it comes to has the node and run index of the one put back last, and has no
other means against going round.

* `deferralsEnd_iff` — **they come to an end iff the items do not circulate, and no item of a
  node that the workflow does not have is met**.
-/
import N8n.InputDataCheck
import N8n.RoundRobin

namespace N8n

def endlessLoop : JsError :=
  .raised "Stopped execution because it seems to be in an endless loop"

/-- The rounds from a state come to an executed node, an empty stack or the error. -/
inductive DeferralsEnd (env : ExecutionEnvironment) : LoopState → Prop
  | emptied {s} : s.ed.nodeExecutionStack = [] → DeferralsEnd env s
  | executed {s item rest executionData node runIndex} :
      s.ed.nodeExecutionStack = item :: rest →
      intake env (s.taken rest) item = .execute executionData node runIndex → DeferralsEnd env s
  | stopped {s item rest} : s.ed.nodeExecutionStack = item :: rest →
      intake env (s.taken rest) item = .throw endlessLoop → DeferralsEnd env s
  | deferred {s item rest t} : s.ed.nodeExecutionStack = item :: rest →
      intake env (s.taken rest) item = .skip t → DeferralsEnd env t → DeferralsEnd env s

/-- `currentExecutionTry` of an item. -/
def executionTry (ed : IRunExecutionData) (item : IExecuteData) : Option String :=
  item.node.map fun node => currentExecutionTry node.name (currentRunIndex ed item node.name)

/-- An item outside of the filter of the run is dropped; of the others, those that lack input
data are put back. -/
def itemKind (env : ExecutionEnvironment) (ed : IRunExecutionData) (item : IExecuteData) :
    RoundRobin.Kind :=
  match item.node with
  | none => .fail
  | some node =>
    if ed.runNodeFilter.any (node.name ∉ ·) then .drop
    else match ensureInputData env.workflow node.name item.data with
      | .error _ => .fail
      | .ok true => .run
      | .ok false => .defer

theorem ensureInputData_updatePairedItems {w : Workflow} {nodeName : String} {item : IExecuteData} :
    ensureInputData w nodeName (updatePairedItems item) = ensureInputData w nodeName item.data := by
  rw [ensureInputData, ensureInputData]
  induction List.range (w.numberOfInputs nodeName) with
  | nil => rfl
  | cons connectionIndex rest ih =>
    rw [ensureInputs, ensureInputs, ih, updatePairedItems, Dict.get?_mapValues]
    rcases item.data.get? .main with _ | main
    · rfl
    · rw [Option.map_some]
      dsimp only
      rw [List.length_map, List.length_zipIdx, List.getElem?_map, List.getElem?_zipIdx]
      rcases main[connectionIndex]? with _ | _ | _ | items
      · rfl
      · rfl
      · rfl
      · simp

/-- The stack as a round robin, with the runs and the filter of the execution. -/
def deferrals (env : ExecutionEnvironment) (ed : IRunExecutionData) :
    RoundRobin IExecuteData String where
  key := executionTry ed
  kind := itemKind env ed
  again item := { item with data := updatePairedItems item }
  key_again _ := rfl
  kind_again item := by
    rw [itemKind, itemKind]
    rcases item.node with _ | node
    · rfl
    · dsimp only
      rw [ensureInputData_updatePairedItems]
  key_of_defer item h := by
    rw [itemKind] at h
    rcases hnode : item.node with _ | node
    · rw [hnode] at h
      cases h
    · exact ⟨_, by rw [executionTry, hnode]; rfl⟩

section

variable {env : ExecutionEnvironment} {s t : LoopState} {item : IExecuteData}
  {rest : List IExecuteData}

theorem eq_typeError_of_ensureInputData {w : Workflow} {nodeName : String}
    {data : ITaskDataConnections} {e : JsError} (h : ensureInputData w nodeName data = .error e) :
    e = .typeError := by
  have hnone := ensureInputs_eq_error h
  rw [ensureInputData] at h
  cases hrange : List.range (w.numberOfInputs nodeName) with
  | nil =>
    rw [hrange] at h
    cases h
  | cons i rest =>
    rw [hrange, ensureInputs, Workflow.getHighestNode, Workflow.highestNodes, hnone] at h
    exact (Except.error.inj h).symm

theorem turn_deferrals (item : IExecuteData) (rest : List IExecuteData) (s : LoopState) :
    (deferrals env s.ed).turn (item :: rest) s.lastExecutionTry =
      match intake env (s.taken rest) item with
      | .execute _ _ _ => .ended
      | .throw e => if e = endlessLoop then .ended else .failed
      | .skip t => .goesOn t.ed.nodeExecutionStack t.lastExecutionTry := by
  have hkey : (deferrals env s.ed).key item = executionTry s.ed item := rfl
  have hkind : (deferrals env s.ed).kind item = itemKind env s.ed item := rfl
  rw [RoundRobin.turn, intake, hkey, hkind, itemKind]
  rcases hnode : item.node with _ | node
  · rw [executionTry, hnode]
    rfl
  · dsimp only
    have hkeyNode : executionTry s.ed item
        = some (currentExecutionTry node.name (currentRunIndex s.ed item node.name)) := by
      rw [executionTry, hnode]
      rfl
    have hguard : executionTry s.ed item = some s.lastExecutionTry ↔ currentExecutionTry node.name
        (currentRunIndex (s.taken rest).ed item node.name) = (s.taken rest).lastExecutionTry := by
      rw [hkeyNode, Option.some_inj]
      rfl
    have hfilter : s.ed.runNodeFilter = (s.taken rest).ed.runNodeFilter := rfl
    by_cases htry : executionTry s.ed item = some s.lastExecutionTry
    · rw [if_pos htry, if_pos (hguard.mp htry)]
      rfl
    · rw [if_neg htry, if_neg fun h => htry (hguard.mpr h), hfilter]
      by_cases hskip : (s.taken rest).ed.runNodeFilter.any (node.name ∉ ·) = true
      · rw [if_pos hskip, if_pos hskip]
        rfl
      · rw [if_neg hskip, if_neg hskip, ensureInputData_updatePairedItems]
        rcases hcheck : ensureInputData env.workflow node.name item.data with e | _ | _
        · rw [eq_typeError_of_ensureInputData hcheck]
          rfl
        · dsimp only
          rw [hkeyNode, ← hnode]
          rfl
        · rfl

theorem deferrals_of_skip (h : intake env (s.taken rest) item = .skip t) :
    deferrals env t.ed = deferrals env s.ed := by
  rw [intake] at h
  split at h
  · cases h
  · dsimp only at h
    split at h
    · cases h
    · split at h
      · cases h
        rfl
      · split at h <;> cases h
        rfl

/-- **The deferrals of the loop are the turns of a round robin.** -/
theorem deferralsEnd_iff_ends :
    DeferralsEnd env s ↔ (deferrals env s.ed).Ends s.ed.nodeExecutionStack s.lastExecutionTry := by
  constructor
  · intro h
    induction h with
    | emptied hstack =>
      rw [hstack]
      exact .ended rfl
    | executed hstack hintake =>
      rw [hstack]
      exact .ended (by rw [turn_deferrals, hintake])
    | stopped hstack hintake =>
      rw [hstack]
      exact .ended (by rw [turn_deferrals, hintake]; exact if_pos rfl)
    | deferred hstack hintake _ ih =>
      rw [hstack]
      rw [deferrals_of_skip hintake] at ih
      exact .goesOn (by rw [turn_deferrals, hintake]) ih
  · generalize hr : deferrals env s.ed = r
    generalize hitems : s.ed.nodeExecutionStack = items
    generalize hlast : s.lastExecutionTry = last
    intro h
    induction h generalizing s with
    | @ended items last hturn =>
      subst hr hitems hlast
      rcases hstack : s.ed.nodeExecutionStack with _ | ⟨item, rest⟩
      · exact .emptied hstack
      · rw [hstack, turn_deferrals] at hturn
        rcases hintake : intake env (s.taken rest) item with ⟨executionData, node, runIndex⟩ | t | e
        · exact .executed hstack hintake
        · rw [hintake] at hturn
          cases hturn
        · rw [hintake] at hturn
          dsimp only at hturn
          split at hturn
          · next heq => exact .stopped hstack (heq ▸ hintake)
          · cases hturn
    | @goesOn items last items' last' hturn _ ih =>
      subst hr hitems hlast
      rcases hstack : s.ed.nodeExecutionStack with _ | ⟨item, rest⟩
      · rw [hstack] at hturn
        cases hturn
      · rw [hstack, turn_deferrals] at hturn
        rcases hintake : intake env (s.taken rest) item with ⟨executionData, node, runIndex⟩ | t | e
        · rw [hintake] at hturn
          cases hturn
        · rw [hintake] at hturn
          obtain ⟨hitems, hlast⟩ := RoundRobin.Turn.goesOn.inj hturn
          exact .deferred hstack hintake (ih (deferrals_of_skip hintake) hitems hlast)
        · rw [hintake] at hturn
          dsimp only at hturn
          split at hturn <;> cases hturn

/-- **When the deferrals come to an end**: the items do not go round and round, and no item is met
whose node is not one of the workflow. -/
theorem deferralsEnd_iff (env : ExecutionEnvironment) (s : LoopState) :
    DeferralsEnd env s ↔
      ¬ (deferrals env s.ed).Circulates s.ed.nodeExecutionStack s.lastExecutionTry ∧
      ¬ (deferrals env s.ed).MeetsFailure s.lastExecutionTry s.ed.nodeExecutionStack := by
  rw [deferralsEnd_iff_ends, RoundRobin.ends_iff]

end

/-- `A` and `B` each feed one input of both `Left` and `Right`. -/
def twoMerges : Workflow :=
  let feeds (input : ℕ) : INodeConnections :=
    Dict.empty.set .main [some [⟨"Left", .main, input⟩, ⟨"Right", .main, input⟩]]
  let connections := (Dict.empty.set "A" (feeds 0)).set "B" (feeds 1)
  { nodes := (((Dict.empty.set "A" { name := "A" }).set "B" { name := "B" }).set "Left"
      { name := "Left" }).set "Right" { name := "Right" }
    connectionsBySourceNode := connections
    connectionsByDestinationNode := mapConnectionsByDestination connections
    settings := ⟨none⟩ }

def halfItem (name : String) : IExecuteData :=
  { node := some { name := name }, data := mainOnly [.data [{}], .null], source := none }

def twoMergesEnvironment : ExecutionEnvironment where
  workflow := twoMerges
  runNode _ := ⟨.returned none, false⟩

/-- `Left` and `Right` lack the data of `B` and are put back in turn. -/
theorem not_deferralsEnd_twoMerges :
    ¬ DeferralsEnd twoMergesEnvironment
      { ed := { nodeExecutionStack := [halfItem "Left", halfItem "Right"] } } := by
  rw [deferralsEnd_iff_ends, RoundRobin.ends_iff]
  exact fun h => h.1 (by decide)

end N8n
