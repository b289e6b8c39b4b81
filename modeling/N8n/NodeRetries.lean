/-
What the tries of a node are allowed to do.

The loop over the tries and the loop inside it share one counter, but a call of the inner loop
that throws is not counted, and the calls of the inner loop leave out the results of the
sub-nodes; a result that cannot be handled is taken for a failure of the node.

* `orderly_runTries_iff` — **the tries of an item are in order iff the first call that does not
  throw returns no error while tries are left, its result can be handled, and a try after a
  throw finds no results of sub-nodes to add**.
-/
import N8n.RoundChanges

namespace N8n

/-- The run data with other values of what a call of `runNode` and the `catch` block set. -/
def IRunExecutionData.noting (ed : IRunExecutionData) (waitTill : Bool)
    (lastNodeExecuted : Option String) : IRunExecutionData :=
  { ed with waitTill := waitTill, lastNodeExecuted := lastNodeExecuted }

namespace Outcome

variable {ε σ τ : Type*}

def mapState (f : σ → τ) : Outcome ε σ → Outcome ε τ
  | returned s => returned (f s)
  | threw e s => threw e (f s)

variable {f : σ → τ}

theorem mapState_andThen {x : Outcome ε σ} {k : σ → Outcome ε σ}
    {k' : τ → Outcome ε τ} (h : ∀ s, k' (f s) = (k s).mapState f) :
    (x.mapState f).andThen k' = (x.andThen k).mapState f := by
  cases x with
  | returned s => exact h s
  | threw e s => rfl

theorem mapState_forEach {α : Type*} {body : σ → α → Except ε σ}
    {body' : τ → α → Except ε τ} (h : ∀ s a, body' (f s) a = (body s a).map f) (as : List α)
    (s : σ) : forEach body' (f s) as = (forEach body s as).mapState f := by
  induction as generalizing s with
  | nil => rfl
  | cons a as ih =>
    rw [forEach, forEach, h]
    cases body s a with
    | error e => rfl
    | ok s' => exact ih s'

theorem mapState_each {α : Type*} {body : σ → α → Outcome ε σ}
    {body' : τ → α → Outcome ε τ} (h : ∀ s a, body' (f s) a = (body s a).mapState f)
    (as : List α) (s : σ) : each body' (f s) as = (each body s as).mapState f := by
  induction as generalizing s with
  | nil => rfl
  | cons a as ih =>
    rw [each, each, h]
    exact mapState_andThen ih

end Outcome

section

variable (w : Workflow) (b : Bool) (last : Option String) (ed : IRunExecutionData) (d : Delivery)

theorem openNode_noting (node : String) :
    openNode (ed.noting b last) node = (openNode ed node).noting b last := by
  rw [openNode, openNode, apply_ite (IRunExecutionData.noting · b last)]
  rfl

theorem openEntry_noting (node : String) (input : ℕ) :
    openEntry w (ed.noting b last) node input = (openEntry w ed node input).noting b last := by
  rw [openEntry, openEntry, apply_ite (IRunExecutionData.noting · b last)]
  rfl

theorem writeDelivery_noting (index : ℕ) :
    writeDelivery (ed.noting b last) d index
      = (writeDelivery ed d index).mapState (IRunExecutionData.noting · b last) := by
  rcases hget : (waitingSources ed d.connectionData.node).get? index with _ | sources
  all_goals
    have hwritten : ∀ entries, (waitingSources { ed with waitingExecution := entries }
        d.connectionData.node).get? index = _ := fun _ => hget
    have hnoting : ∀ entries, (waitingSources { ed.noting b last with waitingExecution := entries }
        d.connectionData.node).get? index = _ := fun _ => hget
    simp only [writeDelivery, hwritten, hnoting]
    rfl

theorem fileDelivery_noting :
    fileDelivery w (ed.noting b last) d
      = (fileDelivery w ed d).mapState (IRunExecutionData.noting · b last) := by
  simp only [fileDelivery]
  rw [openNode_noting, openEntry_noting, writeDelivery_noting]
  rfl

theorem deleteWaiting_noting (node : String) (index : ℕ) :
    deleteWaiting (ed.noting b last) node index
      = (deleteWaiting ed node index).noting b last := by
  simp only [deleteWaiting]
  rw [apply_ite (IRunExecutionData.noting · b last)]
  rfl

theorem forceNode_noting (nodeToAdd : String) :
    forceNode w (ed.noting b last) d nodeToAdd
      = (forceNode w ed d nodeToAdd).map (IRunExecutionData.noting · b last) := by
  have hempty : addEmptyItem w (ed.noting b last) d nodeToAdd = addEmptyItem w ed d nodeToAdd := rfl
  rw [forceNode, forceNode, hempty]
  rcases addEmptyItem w ed d nodeToAdd with e | add
  · rfl
  · cases add <;> rfl

theorem forceInput_noting (outputNodes : List String) (inputData : IConnection) :
    forceInput w d outputNodes (ed.noting b last) inputData
      = (forceInput w d outputNodes ed inputData).map (IRunExecutionData.noting · b last) := by
  have hstack : executionStackNodes (ed.noting b last).nodeExecutionStack
      = executionStackNodes ed.nodeExecutionStack := rfl
  have hnext : comesNext w (ed.noting b last) d outputNodes inputData.node
      = comesNext w ed d outputNodes inputData.node := rfl
  have hruns : (ed.noting b last).runData = ed.runData := rfl
  have hfound : ∀ stackNodes, findNodeToAdd w (ed.noting b last) d outputNodes stackNodes
      inputData.node = findNodeToAdd w ed d outputNodes stackNodes inputData.node := fun _ => rfl
  rw [forceInput, forceInput, hstack, hnext, hruns]
  simp only [hfound]
  split
  · rfl
  · rcases executionStackNodes ed.nodeExecutionStack with e | stackNodes
    · rfl
    · rcases comesNext w ed d outputNodes inputData.node with e | next
      · rfl
      · dsimp only [bind, Except.bind]
        split
        · rfl
        · rcases findNodeToAdd w ed d outputNodes stackNodes inputData.node with e | found
          · rfl
          · cases found with
            | none => rfl
            | some nodeToAdd => exact forceNode_noting w b last ed d nodeToAdd

theorem forceInputs_noting :
    forceInputs w (ed.noting b last) d
      = (forceInputs w ed d).mapState (IRunExecutionData.noting · b last) := by
  rw [forceInputs, forceInputs]
  split
  · rfl
  · exact Outcome.mapState_forEach (fun ed => forceInput_noting w b last ed d _) _ ed

theorem addToWaiting_noting :
    addToWaiting w (ed.noting b last) d
      = (addToWaiting w ed d).mapState (IRunExecutionData.noting · b last) := by
  have hentries : ∀ ed : IRunExecutionData,
      waitingEntries (ed.noting b last) = waitingEntries ed := fun _ => rfl
  have hwas : (ed.noting b last).waitingExecution = ed.waitingExecution := rfl
  simp only [addToWaiting]
  rw [fileDelivery_noting]
  refine Outcome.mapState_andThen fun ed' => ?_
  rw [hentries, hentries, hwas, apply_ite (Outcome.mapState (IRunExecutionData.noting · b last))]
  refine if_congr Iff.rfl ?_ ?_
  · exact congrArg Outcome.returned
      (deleteWaiting_noting b last (enqueue w ed' _) d.connectionData.node _)
  · rw [forceInputs_noting]
    have hforced : (if ed.waitingExecution.has d.connectionData.node = true
          then Outcome.returned (ed'.noting b last)
          else (forceInputs w ed' d).mapState (IRunExecutionData.noting · b last))
        = (if ed.waitingExecution.has d.connectionData.node = true then Outcome.returned ed'
          else forceInputs w ed' d).mapState (IRunExecutionData.noting · b last) := by
      split <;> rfl
    rw [hforced]
    exact Outcome.mapState_andThen fun _ => rfl

theorem addNodeToBeExecuted_noting :
    addNodeToBeExecuted w (ed.noting b last) d
      = (addNodeToBeExecuted w ed d).mapState (IRunExecutionData.noting · b last) := by
  simp only [addNodeToBeExecuted]
  split
  · exact addToWaiting_noting w b last ed d
  · split <;> rfl

theorem addNodes_noting (nodes : List NodeToBeExecuted) :
    addNodes w (ed.noting b last) nodes
      = (addNodes w ed nodes).mapState (IRunExecutionData.noting · b last) := by
  rw [addNodes, addNodes]
  refine Outcome.mapState_each (f := (IRunExecutionData.noting · b last)) (fun ed n => ?_) nodes ed
  cases n.parentOutputData with
  | none => rfl
  | some _ => exact addNodeToBeExecuted_noting w b last ed n.delivery

theorem handleEngineRequest_noting (currentNode : INode) (runIndex : ℕ)
    (executionData : IExecuteData) (request : EngineRequest)
    (rewireOutputLogTo : Dict String NodeConnectionType) :
    handleEngineRequest w currentNode runIndex executionData request (ed.noting b last)
        rewireOutputLogTo
      = (handleEngineRequest w currentNode runIndex executionData request ed
          rewireOutputLogTo).mapState fun out => (out.1.noting b last, out.2) := by
  have hruns : (ed.noting b last).runData = ed.runData := rfl
  rw [handleEngineRequest, handleEngineRequest, hruns]
  rcases prepareRequestedNodes w currentNode runIndex executionData request ed.runData
    rewireOutputLogTo with prepared | ⟨e, prepared⟩
  · have hnodes := addNodes_noting w b last { ed with runData := prepared.runData }
      (handledNodes currentNode runIndex executionData request prepared)
    have heq : { ed.noting b last with runData := prepared.runData }
        = IRunExecutionData.noting { ed with runData := prepared.runData } b last := rfl
    dsimp only
    rw [heq, hnodes]
    rcases addNodes w { ed with runData := prepared.runData }
      (handledNodes currentNode runIndex executionData request prepared) with ed' | ⟨e, ed'⟩ <;> rfl
  · rfl

end

section

variable (env : ExecutionEnvironment) (executionData : IExecuteData) (node : INode)
  (runIndex : ℕ)

/-- What follows a call of `runNode` that returned the result throws. -/
def ResultFails (result : NodeResult) (loop : LoopState) : Prop :=
  ∃ e, (handleResult env executionData node runIndex result { loop := loop }).2 = .failed e

/-- `b` is `a`, as far as requests are concerned. -/
structure Noted (a b : LoopState) : Prop where
  ed : b.ed = a.ed.noting b.ed.waitTill b.ed.lastNodeExecuted
  rewire : b.rewireOutputLogTo = a.rewireOutputLogTo

variable {env executionData node runIndex}

theorem failed_finishTry_iff {t t' : TryState} (h : t.nodeSuccessData = t'.nodeSuccessData)
    (e : ExecutionError) : (finishTry executionData node t).2 = .failed e ↔
      (finishTry executionData node t').2 = .failed e := by
  rw [finishTry, finishTry, h]
  rcases assignPairedItems t'.nodeSuccessData executionData with data | ⟨e', data⟩
  · dsimp only
    rcases alwaysOutputData node executionData data with e' | data
    · exact Iff.rfl
    · have hne : ∀ (p : Prop) [Decidable p],
          (if p then TryEnd.nullData else .done) ≠ .failed e := by
        intro p _
        split <;> exact TryEnd.noConfusion
      exact ⟨fun h => absurd h (hne _), fun h => absurd h (hne _)⟩
  · exact Iff.rfl

theorem failed_routeErrors_iff {t t' : TryState} (h : t.nodeSuccessData = t'.nodeSuccessData)
    (e : ExecutionError) : (routeErrors env executionData node t).2 = .failed e ↔
      (routeErrors env executionData node t').2 = .failed e := by
  rw [routeErrors, routeErrors, h]
  split
  · exact failed_finishTry_iff h e
  · split
    · split
      · exact Iff.rfl
      · exact failed_finishTry_iff (by rfl) e
    · exact failed_finishTry_iff h e

theorem fails_iff {result : NodeResult} {loop : LoopState} {t : TryState} (h : Noted loop t.loop) :
    (∃ e, (handleResult env executionData node runIndex result t).2 = .failed e) ↔
      ResultFails env executionData node runIndex result loop := by
  refine exists_congr fun e => ?_
  cases result with
  | threw e' => exact Iff.rfl
  | request request =>
    rw [handleResult, handleResult, h.ed, h.rewire, handleEngineRequest_noting]
    rcases handleEngineRequest env.workflow node runIndex executionData request loop.ed
      loop.rewireOutputLogTo with out | ⟨e', out⟩ <;> exact Iff.rfl
  | returned data => exact failed_routeErrors_iff (by rfl) e

end

theorem pinData_addNodes (w : Workflow) (ed : IRunExecutionData) (nodes : List NodeToBeExecuted) :
    (addNodes w ed nodes).state.pinData = ed.pinData := by
  rw [addNodes]
  refine Outcome.each_invariant (I := fun s : IRunExecutionData => s.pinData = ed.pinData)
    (fun n _ s hs => ?_) rfl
  split
  · exact hs
  · rw [(grown_addNodeToBeExecuted w s n.delivery).eq]
    exact hs

theorem pinData_handleResult (env : ExecutionEnvironment) (executionData : IExecuteData)
    (node : INode) (runIndex : ℕ) (result : NodeResult) (t : TryState) :
    (handleResult env executionData node runIndex result t).1.loop.ed.pinData
      = t.loop.ed.pinData := by
  cases result with
  | threw e => rfl
  | request request =>
    rw [handleResult, handleEngineRequest]
    rcases prepareRequestedNodes env.workflow node runIndex executionData request t.loop.ed.runData
      t.loop.rewireOutputLogTo with prepared | ⟨e, prepared⟩
    · have hnodes := pinData_addNodes env.workflow { t.loop.ed with runData := prepared.runData }
        (handledNodes node runIndex executionData request prepared)
      dsimp only
      rcases hadded : addNodes env.workflow { t.loop.ed with runData := prepared.runData }
        (handledNodes node runIndex executionData request prepared) with ed | ⟨e, ed⟩
      · rw [hadded] at hnodes
        exact hnodes
      · rw [hadded] at hnodes
        exact hnodes
    · rfl
  | returned data =>
    rw [handleResult, (onlyCalls_routeErrors env executionData node _).eq]

section

variable (env : ExecutionEnvironment) (executionData : IExecuteData) (node : INode)
  (runIndex : ℕ)

def firstCall (t : TryState) : RunNodeCall :=
  ⟨executionData, runIndex, some (addResponses executionData t).subNodeExecutionResults⟩

def called (t : TryState) : TryState :=
  (callRunNode env executionData runIndex
    (some (addResponses executionData t).subNodeExecutionResults) (addResponses executionData t)).2

variable {env executionData node runIndex}

theorem loop_called (t : TryState) : (called env executionData runIndex t).loop = { t.loop with
    calls := t.loop.calls ++ [firstCall executionData runIndex t]
    ed := { t.loop.ed with
      waitTill := t.loop.ed.waitTill || (env.runNode t.loop.calls.length).waitTill } } := by
  simp only [called, callRunNode, loop_addResponses]
  rfl

variable (env executionData runIndex) in
theorem noted_called (t : TryState) : Noted t.loop (called env executionData runIndex t).loop := by
  rw [loop_called]
  exact ⟨rfl, rfl⟩

theorem retryFailed_of_settled {triesLeft : ℕ} {result : NodeResult} (t : TryState)
    (h : nodeFailed result = true → triesLeft = 0) :
    retryFailed env executionData runIndex triesLeft result t = (triesLeft, result, t) := by
  cases triesLeft with
  | zero => rfl
  | succ triesLeft =>
    rw [retryFailed, if_neg]
    exact fun hfailed => absurd (h hfailed) (Nat.succ_ne_zero triesLeft)

variable {t : TryState}

variable (executionData runIndex) in
theorem tryOnce_of_settled {triesLeft : ℕ}
    (hpinned : pinnedItems t.loop.ed node = none)
    (h : nodeFailed (env.runNode t.loop.calls.length).result = true → triesLeft = 0) :
    tryOnce env executionData node runIndex triesLeft t = (triesLeft,
      handleResult env executionData node runIndex (env.runNode t.loop.calls.length).result
        (called env executionData runIndex t)) := by
  have hresult : (callRunNode env executionData runIndex
      (some (addResponses executionData t).subNodeExecutionResults)
      (addResponses executionData t)).1 = (env.runNode t.loop.calls.length).result := by
    simp only [callRunNode, loop_addResponses]
  rw [tryOnce, hpinned]
  dsimp only
  rw [hresult, retryFailed_of_settled _ h]
  rfl

theorem tryOnce_of_threw {triesLeft : ℕ} {e : ExecutionError}
    (hpinned : pinnedItems t.loop.ed node = none)
    (h : (env.runNode t.loop.calls.length).result = .threw e) :
    tryOnce env executionData node runIndex triesLeft t
      = (triesLeft, called env executionData runIndex t, .failed e) := by
  rw [tryOnce_of_settled _ _ hpinned (by rw [h]; exact fun hfailed => (by cases hfailed)), h]
  rfl

theorem tryOnce_of_retried {triesLeft : ℕ}
    (hpinned : pinnedItems t.loop.ed node = none)
    (h : nodeFailed (env.runNode t.loop.calls.length).result = true) :
    t.loop.calls ++ [firstCall executionData runIndex t, ⟨executionData, runIndex, none⟩] <+:
      (tryOnce env executionData node runIndex (triesLeft + 1) t).2.1.loop.calls := by
  have hresult : (callRunNode env executionData runIndex
      (some (addResponses executionData t).subNodeExecutionResults)
      (addResponses executionData t)).1 = (env.runNode t.loop.calls.length).result := by
    simp only [callRunNode, loop_addResponses]
  rw [tryOnce, hpinned]
  dsimp only
  rw [calls_handleResult, hresult, retryFailed, if_pos h]
  have hcalls : (callRunNode env executionData runIndex none
      (called env executionData runIndex t)).2.loop.calls = t.loop.calls ++
        [firstCall executionData runIndex t, ⟨executionData, runIndex, none⟩] := by
    rw [callRunNode]
    simp only [loop_called, List.append_assoc]
    rfl
  have hagain : callRunNode env executionData runIndex none (callRunNode env executionData runIndex
      (some (addResponses executionData t).subNodeExecutionResults)
      (addResponses executionData t)).2
      = callRunNode env executionData runIndex none (called env executionData runIndex t) := rfl
  rw [hagain]
  rcases hcall : callRunNode env executionData runIndex none (called env executionData runIndex t)
    with ⟨result, t'⟩
  rw [hcall] at hcalls
  cases result with
  | threw e => exact hcalls ▸ List.prefix_refl _
  | request request => exact hcalls ▸ (onlyCalls_retryFailed _ _ _ _ _ _).calls
  | returned data => exact hcalls ▸ (onlyCalls_retryFailed _ _ _ _ _ _).calls

end

variable (env : ExecutionEnvironment)

def Threw (call : ℕ) : Prop :=
  ∃ e, (env.runNode call).result = .threw e

def Succeeded (call : ℕ) : Prop :=
  ¬ Threw env call ∧ nodeFailed (env.runNode call).result = false

/-- The calls made between the two states are at most so many, all with the same arguments, and
none after one that succeeded; and there is an error at the end only if the last one threw. -/
structure Orderly (maxTries : ℕ) (loop after : LoopState) : Prop where
  count : after.calls.length ≤ loop.calls.length + maxTries
  same : ∀ a ∈ after.calls.drop loop.calls.length, ∀ b ∈ after.calls.drop loop.calls.length, a = b
  stops : ∀ call, loop.calls.length ≤ call → call + 1 < after.calls.length → ¬ Succeeded env call
  error : after.executionError ≠ none →
    loop.calls.length < after.calls.length ∧ Threw env (after.calls.length - 1)

/-- There are no results of the actions that the node waits for. -/
def NoResponses (executionData : IExecuteData) (loop : LoopState) : Prop :=
  ∀ sub, executionData.metadata.bind (·.subNodeExecutionData) = some sub →
    collectResponses loop.ed.runData sub.actions = []

/-- The first call that does not throw settles the matter: its result can be handled, and is an
error only if no tries are left.  Where a call follows one that threw, no results of sub-nodes
are added again. -/
structure Settled (executionData : IExecuteData) (node : INode)
    (runIndex maxTries : ℕ) (loop : LoopState) : Prop where
  settled : ∀ k < maxTries, (∀ j < k, Threw env (loop.calls.length + j)) →
    ¬ Threw env (loop.calls.length + k) →
    ¬ ResultFails env executionData node runIndex (env.runNode (loop.calls.length + k)).result loop ∧
      (nodeFailed (env.runNode (loop.calls.length + k)).result = true → k + 1 = maxTries)
  responses : 1 < maxTries → Threw env loop.calls.length → NoResponses executionData loop

section

variable {env : ExecutionEnvironment} {executionData : IExecuteData} {node : INode}
  {runIndex : ℕ}

/-- The state in which the next try starts after a call that threw. -/
def afterThrow (env : ExecutionEnvironment) (executionData : IExecuteData) (node : INode)
    (runIndex : ℕ) (t : TryState) (e : ExecutionError) : TryState :=
  (called env executionData runIndex t.reset).caught e node.name

theorem calls_afterThrow (t : TryState) (e : ExecutionError) :
    (afterThrow env executionData node runIndex t e).loop.calls
      = t.loop.calls ++ [firstCall executionData runIndex t] := by
  have hfirst : firstCall executionData runIndex t.reset = firstCall executionData runIndex t := by
    rw [firstCall, firstCall, addResponses, addResponses]
    split <;> rfl
  change (called env executionData runIndex t.reset).loop.calls = _
  rw [loop_called, ← hfirst]
  rfl

variable (env executionData node runIndex) in
theorem noted_afterThrow (t : TryState) (e : ExecutionError) :
    Noted t.loop (afterThrow env executionData node runIndex t e).loop := by
  have h := noted_called env executionData runIndex t.reset
  refine ⟨?_, h.rewire⟩
  change { (called env executionData runIndex t.reset).loop.ed with
    lastNodeExecuted := some node.name } = _
  rw [h.ed]
  rfl

theorem firstCall_afterThrow (t : TryState) (e : ExecutionError) :
    firstCall executionData runIndex (afterThrow env executionData node runIndex t e)
      = firstCall executionData runIndex t ↔ NoResponses executionData t.loop := by
  have hresults : (afterThrow env executionData node runIndex t e).subNodeExecutionResults
      = (addResponses executionData t).subNodeExecutionResults := by
    change (addResponses executionData t.reset).subNodeExecutionResults = _
    rw [addResponses, addResponses]
    split <;> rfl
  have hruns : (afterThrow env executionData node runIndex t e).loop.ed.runData
      = t.loop.ed.runData := by
    rw [(noted_afterThrow _ _ _ _ t e).ed]
    rfl
  simp only [firstCall, RunNodeCall.mk.injEq, true_and, Option.some.injEq, NoResponses]
  rcases hsub : executionData.metadata.bind (·.subNodeExecutionData) with _ | sub
  · refine iff_of_true ?_ (fun sub h => (by cases h))
    rw [addResponses, hsub, hresults]
  · have hadd : ∀ u : TryState, (addResponses executionData u).subNodeExecutionResults =
        ⟨u.subNodeExecutionResults.actionResponses
          ++ collectResponses u.loop.ed.runData sub.actions, sub.metadata⟩ := by
      intro u
      rw [addResponses, hsub]
    rw [hadd, hresults, hadd, hruns, EngineResponse.mk.injEq]
    constructor
    · rintro ⟨h, -⟩ sub' hsub'
      cases hsub'
      exact List.append_right_eq_self.mp h
    · intro h
      rw [h sub rfl, List.append_nil]
      exact ⟨rfl, rfl⟩

variable {t : TryState}

theorem tries_of_threw {rounds triesLeft : ℕ} {e : ExecutionError}
    (hpinned : pinnedItems t.loop.ed node = none)
    (h : (env.runNode t.loop.calls.length).result = .threw e) :
    tries env executionData node runIndex (rounds + 1) (triesLeft + 1) t
      = tries env executionData node runIndex rounds triesLeft
        (afterThrow env executionData node runIndex t e) := by
  have hfirst : tryOnce env executionData node runIndex triesLeft t.reset
      = (triesLeft, called env executionData runIndex t.reset, .failed e) :=
    tryOnce_of_threw hpinned h
  rw [tries, hfirst]
  rfl

theorem calls_tryOnce_tries {rounds triesLeft : ℕ} :
    (tryOnce env executionData node runIndex triesLeft t.reset).2.1.loop.calls <+:
      (tries env executionData node runIndex (rounds + 1) (triesLeft + 1) t).1.loop.calls := by
  rcases hrun : tries env executionData node runIndex (rounds + 1) (triesLeft + 1) t with
    ⟨t', triesEnd⟩
  rcases tries_succ hrun with ⟨hend, -⟩ | ⟨e, -, hrest⟩
  · exact hend ▸ List.prefix_refl _
  · exact calls_tries (t := TryState.caught _ e node.name) hrest

theorem firstCall_reset (t : TryState) :
    firstCall executionData runIndex t.reset = firstCall executionData runIndex t := by
  rw [firstCall, firstCall, addResponses, addResponses]
  split <;> rfl

variable (env executionData runIndex) in
theorem firstCall_tries (rounds triesLeft : ℕ) (hpinned : pinnedItems t.loop.ed node = none) :
    t.loop.calls ++ [firstCall executionData runIndex t] <+:
      (tries env executionData node runIndex (rounds + 1) (triesLeft + 1) t).1.loop.calls := by
  refine List.IsPrefix.trans ?_ calls_tryOnce_tries
  by_cases h : nodeFailed (env.runNode t.loop.calls.length).result = true → triesLeft = 0
  · have hfirst := tryOnce_of_settled executionData runIndex
      (t := t.reset) hpinned h
    rw [hfirst, calls_handleResult, loop_called, firstCall_reset]
    exact List.prefix_refl _
  · obtain ⟨hfailed, hleft⟩ := Classical.not_imp.mp h
    obtain ⟨left, rfl⟩ := Nat.exists_eq_succ_of_ne_zero hleft
    refine List.IsPrefix.trans ?_ (tryOnce_of_retried (t := t.reset) hpinned hfailed)
    rw [firstCall_reset]
    exact ⟨[⟨executionData, runIndex, none⟩], by simp; rfl⟩

theorem orderly_of_one_call {loop after : LoopState} {call : RunNodeCall} {maxTries : ℕ}
    (hpos : 0 < maxTries) (hcalls : after.calls = loop.calls ++ [call])
    (herror : after.executionError ≠ none → Threw env loop.calls.length) :
    Orderly env maxTries loop after where
  count := by
    rw [hcalls, List.length_append, List.length_singleton]
    omega
  same := by
    rw [hcalls, List.drop_left]
    intro a ha b hb
    rw [List.mem_singleton.mp ha, List.mem_singleton.mp hb]
  stops := by
    intro n hn hlt
    rw [hcalls, List.length_append, List.length_singleton] at hlt
    omega
  error := by
    intro h
    rw [hcalls, List.length_append, List.length_singleton]
    exact ⟨by omega, herror h⟩

theorem orderly_cons_iff {loop loop' after : LoopState} {call call' : RunNodeCall} {maxTries : ℕ}
    (hthrew : Threw env loop.calls.length) (hloop' : loop'.calls = loop.calls ++ [call])
    (hnext : loop'.calls ++ [call'] <+: after.calls) :
    Orderly env (maxTries + 1) loop after ↔
      call' = call ∧ Orderly env maxTries loop' after := by
  obtain ⟨rest, hrest⟩ := hnext
  have hdrop : after.calls.drop loop.calls.length = call :: call' :: rest := by
    rw [← hrest, hloop', List.append_assoc, List.append_assoc, List.drop_left]
    rfl
  have hdrop' : after.calls.drop loop'.calls.length = call' :: rest := by
    rw [← hrest, List.append_assoc, List.drop_left]
    rfl
  have hlength : loop'.calls.length = loop.calls.length + 1 := by
    rw [hloop', List.length_append, List.length_singleton]
  have hafter : loop'.calls.length < after.calls.length := by
    rw [← hrest]
    simp
  constructor
  · intro h
    refine ⟨h.same _ (by rw [hdrop]; simp) _ (by rw [hdrop]; simp), ⟨?_, ?_, ?_, ?_⟩⟩
    · have hcount := h.count
      omega
    · intro a ha b hb
      rw [hdrop'] at ha hb
      exact h.same a (hdrop ▸ List.mem_cons_of_mem _ ha) b (hdrop ▸ List.mem_cons_of_mem _ hb)
    · exact fun n hn => h.stops n (by omega)
    · exact fun herror => ⟨hafter, (h.error herror).2⟩
  · rintro ⟨rfl, h⟩
    refine ⟨?_, ?_, ?_, ?_⟩
    · have hcount := h.count
      omega
    · intro a ha b hb
      have hin : ∀ x ∈ after.calls.drop loop.calls.length, x ∈ after.calls.drop loop'.calls.length := by
        intro x hx
        rw [hdrop] at hx
        rw [hdrop']
        exact (List.mem_cons.mp hx).elim (fun heq => heq ▸ List.mem_cons_self) id
      exact h.same a (hin a ha) b (hin b hb)
    · intro n hn hlt
      by_cases heq : n = loop.calls.length
      · exact fun hsucc => hsucc.1 (heq ▸ hthrew)
      · exact h.stops n (by omega) hlt
    · exact fun herror => ⟨by omega, (h.error herror).2⟩

theorem settled_cons_iff {loop loop' : LoopState} {maxTries : ℕ} (hpos : 0 < maxTries)
    (hthrew : Threw env loop.calls.length) (hnoted : Noted loop loop')
    (hloop' : loop'.calls.length = loop.calls.length + 1) :
    Settled env executionData node runIndex (maxTries + 1) loop ↔
      NoResponses executionData loop ∧
        Settled env executionData node runIndex maxTries loop' := by
  have hresponses : NoResponses executionData loop' ↔ NoResponses executionData loop := by
    rw [NoResponses, NoResponses, hnoted.ed]
    rfl
  have hfails : ∀ result, ResultFails env executionData node runIndex result loop' ↔
      ResultFails env executionData node runIndex result loop := fun _ => fails_iff hnoted
  have hindex : ∀ k, loop'.calls.length + k = loop.calls.length + (k + 1) := fun k => by omega
  constructor
  · refine fun h => ⟨h.responses (by omega) hthrew, fun k hk hbefore hnot => ?_,
      fun _ _ => hresponses.mpr (h.responses (by omega) hthrew)⟩
    have hbefore' : ∀ j < k + 1, Threw env (loop.calls.length + j) := by
      intro j hj
      cases j with
      | zero => exact hthrew
      | succ j => exact hindex j ▸ hbefore j (by omega)
    rw [hindex] at hnot ⊢
    obtain ⟨hhandled, hlast⟩ := h.settled (k + 1) (by omega) hbefore' hnot
    exact ⟨fun hfail => hhandled ((hfails _).mp hfail), fun hfailed =>
      Nat.succ.inj (hlast hfailed)⟩
  · rintro ⟨hnone, h⟩
    refine ⟨fun k hk hbefore hnot => ?_, fun _ _ => hnone⟩
    cases k with
    | zero => exact absurd hthrew hnot
    | succ k =>
      rw [← hindex] at hnot ⊢
      obtain ⟨hhandled, hlast⟩ := h.settled k (by omega)
        (fun j hj => hindex j ▸ hbefore (j + 1) (by omega)) hnot
      exact ⟨fun hfail => hhandled ((hfails _).mpr hfail), fun hfailed =>
        congrArg (· + 1) (hlast hfailed)⟩

theorem settled_of_not_threw {loop : LoopState} {m : ℕ} (hthrew : ¬ Threw env loop.calls.length) :
    Settled env executionData node runIndex (m + 1) loop ↔
      ¬ ResultFails env executionData node runIndex (env.runNode loop.calls.length).result loop ∧
        (nodeFailed (env.runNode loop.calls.length).result = true → m = 0) := by
  constructor
  · intro h
    obtain ⟨hhandled, hlast⟩ := h.settled 0 (by omega) (fun j hj => absurd hj (Nat.not_lt_zero j))
      hthrew
    exact ⟨hhandled, fun hfailed => by
      have := hlast hfailed
      omega⟩
  · rintro ⟨hhandled, hlast⟩
    refine ⟨fun k hk hbefore hnot => ?_, fun _ h => absurd h hthrew⟩
    cases k with
    | zero => exact ⟨hhandled, fun hfailed => by
        have := hlast hfailed
        omega⟩
    | succ k => exact absurd (hbefore 0 (by omega)) hthrew

section

variable {m : ℕ} (hpinned : pinnedItems t.loop.ed node = none)
include hpinned

theorem tries_of_handled
    (hlast : nodeFailed (env.runNode t.loop.calls.length).result = true → m = 0)
    (hhandled : ¬ ResultFails env executionData node runIndex (env.runNode t.loop.calls.length).result
      t.loop) :
    let after := (tries env executionData node runIndex (m + 1) (m + 1) t).1.loop
    after.calls = t.loop.calls ++ [firstCall executionData runIndex t] ∧
      after.executionError = none := by
  intro after
  have hfirst := tryOnce_of_settled executionData runIndex
    (t := t.reset) hpinned hlast
  have hcalls : (tryOnce env executionData node runIndex m t.reset).2.1.loop.calls
      = t.loop.calls ++ [firstCall executionData runIndex t] := by
    rw [hfirst, calls_handleResult, loop_called, firstCall_reset]
    rfl
  have herror := executionError_tryOnce env executionData node runIndex m t.reset
  rcases hrun : tries env executionData node runIndex (m + 1) (m + 1) t with ⟨t', triesEnd⟩
  have hafter : after = t'.loop := by
    change (tries env executionData node runIndex (m + 1) (m + 1) t).1.loop = _
    rw [hrun]
  rw [hafter]
  rcases tries_succ hrun with ⟨hend, -⟩ | ⟨e, hfailed, -⟩
  · rw [hend] at hcalls herror
    exact ⟨hcalls, herror⟩
  · have hnoted : Noted t.loop (called env executionData runIndex t.reset).loop :=
      ⟨(noted_called _ _ _ t.reset).ed, (noted_called _ _ _ t.reset).rewire⟩
    rw [hfirst] at hfailed
    exact absurd ((fails_iff hnoted).mp ⟨e, hfailed⟩) hhandled

theorem not_orderly_of_fails
    (hthrew : ¬ Threw env t.loop.calls.length)
    (hlast : nodeFailed (env.runNode t.loop.calls.length).result = true → m = 0)
    (hfails : ResultFails env executionData node runIndex (env.runNode t.loop.calls.length).result
      t.loop) :
    ¬ Orderly env (m + 1) t.loop (tries env executionData node runIndex (m + 1) (m + 1) t).1.loop := by
  have hnoted : Noted t.loop (called env executionData runIndex t.reset).loop :=
    ⟨(noted_called _ _ _ t.reset).ed, (noted_called _ _ _ t.reset).rewire⟩
  obtain ⟨e, he⟩ := (fails_iff hnoted).mpr hfails
  have hfirst := tryOnce_of_settled executionData runIndex
    (t := t.reset) hpinned hlast
  set u := (handleResult env executionData node runIndex (env.runNode t.loop.calls.length).result
    (called env executionData runIndex t.reset)).1 with hu
  have hrun : tries env executionData node runIndex (m + 1) (m + 1) t
      = tries env executionData node runIndex m m (u.caught e node.name) := by
    have hpair : handleResult env executionData node runIndex
        (env.runNode t.reset.loop.calls.length).result
        (called env executionData runIndex t.reset) = (u, .failed e) := Prod.ext rfl he
    rw [tries, hfirst, hpair]
  have hcalls : u.loop.calls = t.loop.calls ++ [firstCall executionData runIndex t] := by
    rw [hu, calls_handleResult, loop_called, firstCall_reset]
    rfl
  have hlength : u.loop.calls.length = t.loop.calls.length + 1 := by
    rw [hcalls, List.length_append, List.length_singleton]
  rw [hrun]
  intro h
  cases m with
  | zero =>
    -- no try is left, and the error is that of a call that returned
    obtain ⟨-, hthrew'⟩ := h.error (by rw [tries]; exact fun heq => (by cases heq))
    have hindex : (tries env executionData node runIndex 0 0 (u.caught e node.name)).1.loop.calls.length
        - 1 = t.loop.calls.length := by
      change u.loop.calls.length - 1 = _
      omega
    exact hthrew (hindex ▸ hthrew')
  | succ m =>
    -- there is another call, after one that succeeded
    have hpin : (u.caught e node.name).loop.ed.pinData = t.loop.ed.pinData := by
      change u.loop.ed.pinData = _
      rw [hu, pinData_handleResult, loop_called]
      rfl
    have hpinned' : pinnedItems (u.caught e node.name).loop.ed node = none := by
      rw [pinnedItems, hpin]
      exact hpinned
    have hmore := (firstCall_tries env executionData runIndex m m hpinned').length_le
    rw [List.length_append, List.length_singleton] at hmore
    have hle : (u.caught e node.name).loop.calls.length = t.loop.calls.length + 1 := hlength
    refine h.stops t.loop.calls.length (le_refl _) (by omega) ⟨hthrew, ?_⟩
    rcases hfailed : nodeFailed (env.runNode t.loop.calls.length).result with _ | _
    · rfl
    · exact absurd (hlast hfailed) (Nat.succ_ne_zero m)

theorem not_orderly_of_retried
    (hfailed : nodeFailed (env.runNode t.loop.calls.length).result = true) :
    ¬ Orderly env (m + 2) t.loop
      (tries env executionData node runIndex (m + 2) (m + 2) t).1.loop := by
  intro h
  have hcalls : t.loop.calls ++ [firstCall executionData runIndex t, ⟨executionData, runIndex, none⟩]
      <+: (tries env executionData node runIndex (m + 2) (m + 2) t).1.loop.calls := by
    rw [← firstCall_reset]
    exact (tryOnce_of_retried (t := t.reset) hpinned hfailed).trans calls_tryOnce_tries
  obtain ⟨rest, hrest⟩ := hcalls
  have hsame := h.same
  rw [← hrest, List.append_assoc, List.drop_left] at hsame
  have heq := hsame (firstCall executionData runIndex t) (by simp)
    ⟨executionData, runIndex, none⟩ (by simp)
  rw [firstCall, RunNodeCall.mk.injEq] at heq
  cases heq.2.2

theorem orderly_of_not_threw
    (hthrew : ¬ Threw env t.loop.calls.length) :
    Orderly env (m + 1) t.loop (tries env executionData node runIndex (m + 1) (m + 1) t).1.loop ↔
      Settled env executionData node runIndex (m + 1) t.loop := by
  rw [settled_of_not_threw hthrew]
  by_cases hlast : nodeFailed (env.runNode t.loop.calls.length).result = true → m = 0
  · by_cases hfails : ResultFails env executionData node runIndex
        (env.runNode t.loop.calls.length).result t.loop
    · exact iff_of_false (not_orderly_of_fails hpinned hthrew hlast hfails) fun h => h.1 hfails
    · obtain ⟨hcalls, herror⟩ := tries_of_handled hpinned hlast hfails
      exact iff_of_true (orderly_of_one_call (Nat.succ_pos m) hcalls fun h => absurd herror h)
        ⟨hfails, hlast⟩
  · obtain ⟨hfailed, hm⟩ := Classical.not_imp.mp hlast
    obtain ⟨k, rfl⟩ := Nat.exists_eq_succ_of_ne_zero hm
    exact iff_of_false (not_orderly_of_retried hpinned hfailed) fun h => hlast h.2

end

/-- **When the calls of all tries are in order.**  By induction on the tries: a call that throws
is followed by the tries that are left. -/
theorem orderly_tries_iff (m : ℕ) : ∀ {t : TryState}, pinnedItems t.loop.ed node = none →
    (Orderly env (m + 1) t.loop (tries env executionData node runIndex (m + 1) (m + 1) t).1.loop ↔
      Settled env executionData node runIndex (m + 1) t.loop) := by
  induction m with
  | zero =>
    intro t hpinned
    by_cases hthrew : Threw env t.loop.calls.length
    · obtain ⟨e, he⟩ := hthrew
      rw [tries_of_threw hpinned he]
      refine iff_of_true (orderly_of_one_call Nat.one_pos (calls_afterThrow t e) fun _ => ⟨e, he⟩) ?_
      refine ⟨fun k hk _ hnot => ?_, fun h => absurd h (lt_irrefl 1)⟩
      obtain rfl : k = 0 := Nat.lt_one_iff.mp hk
      exact absurd ⟨e, he⟩ hnot
    · exact orderly_of_not_threw hpinned hthrew
  | succ m ih =>
    intro t hpinned
    by_cases hthrew : Threw env t.loop.calls.length
    · obtain ⟨e, he⟩ := hthrew
      have hnoted := noted_afterThrow env executionData node runIndex t e
      have hpinned' : pinnedItems (afterThrow env executionData node runIndex t e).loop.ed node
          = none := by
        rw [hnoted.ed]
        exact hpinned
      rw [tries_of_threw hpinned he,
        orderly_cons_iff ⟨e, he⟩ (calls_afterThrow t e) (firstCall_tries _ _ _ _ _ hpinned'),
        firstCall_afterThrow, ih hpinned',
        ← settled_cons_iff (Nat.succ_pos m) ⟨e, he⟩ hnoted (by
          rw [calls_afterThrow, List.length_append, List.length_singleton])]
    · exact orderly_of_not_threw hpinned hthrew

def finishPinned (executionData : IExecuteData) (node : INode) (items : Items) (t : TryState) :
    TryState × TryEnd :=
  finishTry executionData node { t with nodeSuccessData := some [.data items] }

variable {items : Items}

variable (env executionData runIndex) in
theorem tries_of_pinned (rounds triesLeft : ℕ)
    (hpinned : pinnedItems t.loop.ed node = some items) :
    (tries env executionData node runIndex (rounds + 1) (triesLeft + 1) t).1
        = (finishPinned executionData node items t.reset).1 ∧
      (∀ e, (finishPinned executionData node items t.reset).2 ≠ .failed e) ∨
    ∃ e, (finishPinned executionData node items t.reset).2 = .failed e ∧
      tries env executionData node runIndex (rounds + 1) (triesLeft + 1) t
        = tries env executionData node runIndex rounds triesLeft
          ((finishPinned executionData node items t.reset).1.caught e node.name) := by
  have hfirst : tryOnce env executionData node runIndex triesLeft t.reset
      = (triesLeft, finishPinned executionData node items t.reset) := by
    have hreset : pinnedItems t.reset.loop.ed node = some items := hpinned
    rw [tryOnce, hreset]
    rfl
  rw [tries, hfirst]
  rcases finishPinned executionData node items t.reset with ⟨u, tryEnd⟩
  cases tryEnd with
  | done => exact .inl ⟨rfl, fun _ => TryEnd.noConfusion⟩
  | nullData => exact .inl ⟨rfl, fun _ => TryEnd.noConfusion⟩
  | requested => exact .inl ⟨rfl, fun _ => TryEnd.noConfusion⟩
  | failed e => exact .inr ⟨e, rfl, rfl⟩

variable (executionData) in
theorem loop_finishPinned (e : ExecutionError)
    (hpinned : pinnedItems t.loop.ed node = some items) :
    let u := (finishPinned executionData node items t.reset).1
    u.loop.calls = t.loop.calls ∧ u.loop.executionError = none ∧
      pinnedItems (u.caught e node.name).loop.ed node = some items := by
  intro u
  have honly : OnlyCalls t.reset.loop u.loop := onlyCalls_finishTry executionData node
    { t.reset with nodeSuccessData := some [.data items] }
  have hpin : u.loop.ed.pinData = t.loop.ed.pinData := by
    rw [honly.eq]
    rfl
  refine ⟨calls_finishTry _, by rw [honly.eq]; rfl, ?_⟩
  have hitems : pinnedItems (u.caught e node.name).loop.ed node
      = if node.disabled = some true then none else u.loop.ed.pinData.get? node.name := rfl
  rw [hitems, hpin]
  exact hpinned

theorem calls_tries_of_pinned (rounds : ℕ) : ∀ {triesLeft : ℕ} {t : TryState},
    pinnedItems t.loop.ed node = some items →
    (tries env executionData node runIndex rounds triesLeft t).1.loop.calls = t.loop.calls := by
  induction rounds with
  | zero => exact fun _ => rfl
  | succ rounds ih =>
    intro triesLeft t hpinned
    cases triesLeft with
    | zero => rfl
    | succ triesLeft =>
      rcases tries_of_pinned env executionData runIndex rounds triesLeft hpinned with
        ⟨hend, -⟩ | ⟨e, -, hrest⟩
      · rw [hend]
        exact (loop_finishPinned _ {} hpinned).1
      · obtain ⟨hcalls, -, hpinned'⟩ := loop_finishPinned executionData e hpinned
        rw [hrest, ih hpinned']
        exact hcalls

theorem error_tries_of_pinned (rounds : ℕ) : ∀ {t : TryState},
    pinnedItems t.loop.ed node = some items →
    ((tries env executionData node runIndex (rounds + 1) (rounds + 1) t).1.loop.executionError = none ↔
      ∀ e, (finishPinned executionData node items t).2 ≠ .failed e) := by
  have hsame : ∀ t u : TryState, (∀ e, (finishPinned executionData node items t).2 ≠ .failed e) ↔
      ∀ e, (finishPinned executionData node items u).2 ≠ .failed e := fun t u =>
    forall_congr' fun e => not_congr (failed_finishTry_iff (by rfl) e)
  induction rounds with
  | zero =>
    intro t hpinned
    rcases tries_of_pinned env executionData runIndex 0 0 hpinned with
      ⟨hend, hnone⟩ | ⟨e, hfailed, hrest⟩
    · rw [hend]
      exact iff_of_true (loop_finishPinned _ {} hpinned).2.1 ((hsame _ _).mp hnone)
    · rw [hrest]
      refine iff_of_false (fun h => ?_) fun h => (hsame _ t.reset).mp h e hfailed
      cases h
  | succ rounds ih =>
    intro t hpinned
    rcases tries_of_pinned env executionData runIndex (rounds + 1) (rounds + 1) hpinned with
      ⟨hend, hnone⟩ | ⟨e, hfailed, hrest⟩
    · rw [hend]
      exact iff_of_true (loop_finishPinned _ {} hpinned).2.1 ((hsame _ _).mp hnone)
    · rw [hrest, ih (loop_finishPinned _ _ hpinned).2.2]
      exact hsame _ _

theorem orderly_iff_of_no_calls {loop after : LoopState} {maxTries : ℕ}
    (h : after.calls = loop.calls) : Orderly env maxTries loop after ↔ after.executionError = none := by
  constructor
  · intro horder
    by_contra herror
    have hlt := (horder.error herror).1
    rw [h] at hlt
    exact lt_irrefl _ hlt
  · intro herror
    refine ⟨by rw [h]; omega, ?_, fun n hn hlt => ?_, fun hne => absurd herror hne⟩
    · rw [h, List.drop_length]
      exact fun _ ha => (List.not_mem_nil ha).elim
    · rw [h] at hlt
      omega

/-- **When the tries of an item are in order.** -/
theorem orderly_runTries_iff (env : ExecutionEnvironment) (executionData : IExecuteData)
    (node : INode) (runIndex : ℕ) (loop : LoopState) :
    Orderly env (maxTries node) loop (runTries env executionData node runIndex loop).1.loop ↔
      match pinnedItems loop.ed node with
      | some items => ∀ e, (finishPinned executionData node items { loop := loop }).2 ≠ .failed e
      | none => Settled env executionData node runIndex (maxTries node) loop := by
  obtain ⟨m, hm⟩ := Nat.exists_eq_succ_of_ne_zero (maxTries_pos node).ne'
  rw [runTries, hm]
  rcases hpinned : pinnedItems loop.ed node with _ | items
  · exact orderly_tries_iff m (t := { loop := loop }) hpinned
  · rw [orderly_iff_of_no_calls (calls_tries_of_pinned (m + 1) (t := { loop := loop }) hpinned)]
    exact error_tries_of_pinned m (t := { loop := loop }) hpinned

end

def retriedNode : INode := { name := "Agent", retryOnFail := some true, maxTries := some 2 }

def retriedItem : IExecuteData :=
  { node := some retriedNode, data := mainOnly [.data [{}]], source := none }

/-- The node returns an error, then throws, and then returns nothing. -/
def failsTwice : ExecutionEnvironment where
  workflow := { nodes := Dict.empty.set "Agent" retriedNode }
  runNode
    | 0 => { result := .returned (some [.data [{ json := .object [("error", .string "soft")] }]]) }
    | 1 => { result := .threw { message := some "Bad request" } }
    | _ => { result := .returned (some [.data []]) }

/-- The node is called three times. -/
theorem not_orderly_failsTwice : ¬ Orderly failsTwice (maxTries retriedNode) { ed := {} }
    (runTries failsTwice retriedItem retriedNode 0 { ed := {} }).1.loop :=
  fun h => absurd h.count (by decide)

end N8n
