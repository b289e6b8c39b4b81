/-
What one round of the execution loop changes in the runs and on the stack.

A round that goes on takes one item.  If it executes the node, it writes over
the entry at its own slot at most, adds entries behind the runs of the nodes it
requests, and, in the v1 order, only pushes items on top of what is left of the
stack.

* `requested_runTries` — **the request that tries end in, with the state it was
  handed on in**;
* `progress_round` — **what a round that executes a node changes**.
-/
import N8n.ExecutionLoop
import N8n.RequestSlots

namespace N8n

section Tries

variable {env : ExecutionEnvironment} {executionData : IExecuteData} {node : INode} {runIndex : ℕ}
  {s : LoopState}

theorem OnlyCalls.progress {a b : LoopState} (h : OnlyCalls a b) (written : String → ℕ → Prop) :
    Progress written a.ed b.ed := by
  rw [h.eq]
  exact ⟨.refl _ _, [], List.forall_mem_nil _, rfl⟩

variable {loop : LoopState} {request : EngineRequest}
  {out : Outcome JsError (IRunExecutionData × Dict String NodeConnectionType)}

theorem Requests.progress
    (h : Requests env executionData node runIndex loop request out)
    (hv1 : env.workflow.isLegacyExecutionOrder = false) (hnamed : env.workflow.Named) :
    Progress (OwnSlot node runIndex) loop.ed out.state.1 := by
  rw [← h.handled]
  exact progress_handleEngineRequest hv1 hnamed

theorem Requests.runsKept
    (h : Requests env executionData node runIndex loop request out) :
    RunsKept NothingWritten loop.ed.runData out.state.1.runData := by
  rw [← h.handled]
  exact runsKept_handleEngineRequest

section

variable (hv1 : env.workflow.isLegacyExecutionOrder = false) (hnamed : env.workflow.Named)
  {t : TryState}
include hv1 hnamed

variable {triesEnd : TriesEnd}

/-- **What the tries change**, by an invariant that holds before the request
that they end in, if they do. -/
theorem progress_tries
    (h : runTries env executionData node runIndex s = (t, triesEnd)) :
    (triesEnd ≠ .requested ∧ Progress (OwnSlot node runIndex) s.ed t.loop.ed) ∨
    (triesEnd = .requested ∧ ∃ loop request ed rewire,
      Progress (OwnSlot node runIndex) s.ed loop.ed ∧
      Requests env executionData node runIndex loop request (.returned (ed, rewire)) ∧
      t.loop = { loop with ed := ed, rewireOutputLogTo := rewire }) := by
  have hinv := tries_invariant (I := fun a => Progress (OwnSlot node runIndex) s.ed a.ed)
    (fun a b ha hab => ha.trans (hab.progress _))
    (fun a e last ha => ha.trans ⟨.refl _ _, [], List.forall_mem_nil _, rfl⟩)
    (fun loop request e ed rewire ha _ _ hrequest => ha.trans (hrequest.progress hv1 hnamed))
    (.refl _ _) h
  refine hinv.imp_right fun ⟨hend, loop, request, ed, rewire, hloop, _, hrequest, ht⟩ => ?_
  exact ⟨hend, loop, request, ed, rewire, hloop, hrequest, ht⟩

theorem progress_runTries
    (h : runTries env executionData node runIndex s = (t, triesEnd)) :
    Progress (OwnSlot node runIndex) s.ed t.loop.ed := by
  rcases progress_tries hv1 hnamed h with
    ⟨-, ht⟩ | ⟨-, loop, request, ed, rewire, hloop, hrequest, ht⟩
  · exact ht
  · rw [ht]
    exact hloop.trans (hrequest.progress hv1 hnamed)

theorem exists_resumed_runTries {n : INode}
    (hsingle : env.workflow.numberOfInputs node.name ≤ 1)
    (hnode : env.workflow.getNode node.name = some n) (hparent : (resumeParent executionData).isSome)
    (h : runTries env executionData node runIndex s = (t, .requested)) :
    ∃ items item, item ∈ items ∧ item.node = some n ∧ item.runIndex = some runIndex ∧
      (item.data.get? .main).isSome ∧
      t.loop.ed.nodeExecutionStack = items ++ s.ed.nodeExecutionStack := by
  rcases progress_tries hv1 hnamed h with ⟨hne, -⟩ | ⟨-, loop, request, ed, rewire, hloop, hrequest, ht⟩
  · exact absurd rfl hne
  · obtain ⟨below, -, hbelow⟩ := hloop.pushed
    obtain ⟨above, item, hitem, hindex, hmain, hstack⟩ :=
      exists_resumed_handleEngineRequest hv1 hsingle hnode hparent hrequest.handled
    refine ⟨above ++ item :: below, item, by simp, hitem, hindex, hmain, ?_⟩
    rw [ht]
    show ed.nodeExecutionStack = _
    rw [hstack, hbelow, List.append_assoc]
    rfl

end

/-- All requests made by the calls of the tries ask for nodes with one main
input. -/
def SingleRequests (env : ExecutionEnvironment) (node : INode) (s t : LoopState) : Prop :=
  ∀ i request, s.calls.length ≤ i → i < t.calls.length →
    (env.runNode i).result = .request request → SingleInputs env.workflow node request

/-- **The request that tries end in.**  Before it was handed on, the stack was
as the round found it, and no entry was changed. -/
theorem requested_runTries (hnamed : env.workflow.Named) {t : TryState}
    (hsingle : SingleRequests env node s t.loop)
    (h : runTries env executionData node runIndex s = (t, .requested)) :
    ∃ loop request ed rewire, RunsKept NothingWritten s.ed.runData loop.ed.runData ∧
      loop.ed.nodeExecutionStack = s.ed.nodeExecutionStack ∧
      s.calls.length < loop.calls.length ∧
      Requests env executionData node runIndex loop request (.returned (ed, rewire)) ∧
      t.loop = { loop with ed := ed, rewireOutputLogTo := rewire } := by
  have hinv := tries_invariant (I := fun a => RunsKept NothingWritten s.ed.runData a.ed.runData ∧
      a.ed.nodeExecutionStack = s.ed.nodeExecutionStack)
    (fun a b ha hab => by rw [hab.eq]; exact ha) (fun a e last ha => ha)
    (fun loop request e ed rewire ha hlt hle hrequest => ?_) ⟨.refl _ _, rfl⟩ h
  · rcases hinv with ⟨hne, -⟩ | ⟨-, loop, request, ed, rewire, hloop, hlt, hrequest, ht⟩
    · exact absurd rfl hne
    · exact ⟨loop, request, ed, rewire, hloop.1, hloop.2, hlt, hrequest, ht⟩
  · -- the call was made in this round, so the request has nodes with one input
    have hlt' : s.calls.length < loop.calls.length := hlt
    have hone := hsingle (loop.calls.length - 1) request (by omega) (by omega) hrequest.result
    exact ⟨ha.1.trans hrequest.runsKept, (stack_of_threw hnamed hone hrequest.handled).trans ha.2⟩

end Tries

section Recording

variable {env : ExecutionEnvironment} {executionData : IExecuteData} {node : INode} {runIndex : ℕ}
  {s : LoopState}

theorem taskAt_openRuns (s : LoopState) (name nodeName : String) (i : ℕ) :
    taskAt (openRuns s name).ed.runData nodeName i = taskAt s.ed.runData nodeName i := by
  rw [openRuns]
  split
  · rfl
  · next hnot =>
    rw [taskAt_set]
    split
    · next heq =>
      subst heq
      rw [Dict.has_iff] at hnot
      rw [taskAt, Dict.get?_eq_none_iff.mpr hnot]
      rfl
    · rfl

theorem runsKept_recordTask (runData : IRunData) (node : INode) (runIndex : ℕ) (task : ITaskData) :
    RunsKept (OwnSlot node runIndex) runData (recordTask runData node.name runIndex task) := by
  rw [recordTask]
  split
  · next hlt =>
    refine ⟨fun {nodeName i t} hnot h => ?_, fun {nodeName i} h => ?_⟩
    · rw [taskAt_set]
      split
      · next heq =>
        subst heq
        have hne : runIndex ≠ i := fun heq => hnot ⟨rfl, heq.symm⟩
        rw [List.getElem?_modify_ne _ _ hne]
        exact h
      · exact h
    · rw [taskAt_set]
      split
      · next heq =>
        subst heq
        rw [taskAt] at h
        rw [List.getElem?_modify, Option.map_eq_map, Option.isSome_map]
        exact h
      · exact h
  · exact (runsKept_append runData node.name [task]).mono fun _ _ h => h.elim

variable {data : Option (List (Slot Items))} {outputs : List (Slot Items)}

theorem recordOutput_eq {task : ITaskData} {t : LoopState}
    (h : recordOutput node runIndex s task data = .output t outputs) :
    RunsKept (OwnSlot node runIndex) s.ed.runData t.ed.runData ∧
      t.ed.nodeExecutionStack = s.ed.nodeExecutionStack ∧ t.calls = s.calls := by
  rw [recordOutput] at h
  split at h
  · cases h
  · cases h
    exact ⟨runsKept_recordTask _ _ _ _, rfl, rfl⟩

theorem recordResult_eq {t : LoopState}
    (h : recordResult executionData node runIndex s data = .output t outputs) :
    RunsKept (OwnSlot node runIndex) s.ed.runData t.ed.runData ∧
      t.ed.nodeExecutionStack = s.ed.nodeExecutionStack ∧ t.calls = s.calls := by
  have hopen : RunsKept (OwnSlot node runIndex) s.ed.runData (openRuns s node.name).ed.runData :=
    ⟨fun _ h => by rw [taskAt_openRuns]; exact h, fun h => by rw [taskAt_openRuns]; exact h⟩
  have hstack : (openRuns s node.name).ed.nodeExecutionStack = s.ed.nodeExecutionStack ∧
      (openRuns s node.name).calls = s.calls := by
    rw [openRuns]
    split <;> exact ⟨rfl, rfl⟩
  have hrecord : ∀ {task : ITaskData} {data : Option (List (Slot Items))},
      recordOutput node runIndex (openRuns s node.name) task data = .output t outputs →
      RunsKept (OwnSlot node runIndex) s.ed.runData t.ed.runData ∧
        t.ed.nodeExecutionStack = s.ed.nodeExecutionStack ∧ t.calls = s.calls := by
    intro task data h
    obtain ⟨hkept, hstack', hcalls⟩ := recordOutput_eq h
    exact ⟨hopen.trans hkept, hstack'.trans hstack.1, hcalls.trans hstack.2⟩
  rw [recordResult] at h
  dsimp only at h
  split at h
  · exact hrecord h
  · split at h
    · exact hrecord h
    · cases h

end Recording

section Delivering

variable {env : ExecutionEnvironment} {executionData : IExecuteData} {node : INode} {runIndex : ℕ}
  {s : LoopState} {outputs : List (Slot Items)}

theorem progress_addOutputs (written : String → ℕ → Prop) {ed : IRunExecutionData}
    (hv1 : env.workflow.isLegacyExecutionOrder = false) :
    Progress written ed (addOutputs env.workflow ed node.name outputs runIndex).state := by
  rw [addOutputs, hv1, if_neg Bool.false_ne_true, addOutputsV1]
  split
  · have hgrown : Grown env.workflow (fun item => item.runIndex = none ∧ item.metadata = none) ed
        (addAll env.workflow ed (((outputConnections env.workflow node.name).filter
          (receives env.workflow outputs)).insertionSort
            (fun a b => ¬ comesAfter env.workflow a b) |>.map
              (outputDelivery node.name outputs runIndex))).state := by
      refine Outcome.each_invariant (I := Grown env.workflow _ ed) (fun d hd ed' hed' => ?_)
        (.of_waiting rfl)
      obtain ⟨o, -, rfl⟩ := List.mem_map.mp hd
      refine hed'.trans ((grown_addNodeToBeExecuted _ _ _).mono ?_)
      rintro item (hnone | ⟨n, -, rfl⟩)
      · exact hnone
      · exact ⟨rfl, rfl⟩
    exact hgrown.progress hv1 fun item hnone => newcomer_of_none hnone.1 hnone.2
  · exact .refl _ _

theorem progress_deliverOutput (written : String → ℕ → Prop)
    (hv1 : env.workflow.isLegacyExecutionOrder = false) (hstack : s.ed.nodeExecutionStack ≠ []) :
    Progress written s.ed (deliverOutput env node runIndex s outputs).state := by
  have hadd : Progress written s.ed (addOutputs env.workflow s.ed node.name outputs runIndex).state :=
    progress_addOutputs written hv1
  rw [deliverOutput]
  rcases hout : addOutputs env.workflow s.ed node.name outputs runIndex with ed | ⟨e, ed⟩
  · rw [hout] at hadd
    have hne : ed.nodeExecutionStack ≠ [] := by
      obtain ⟨items, -, heq⟩ := hadd.pushed
      rw [Outcome.state_returned] at heq
      rw [heq]
      exact List.append_ne_nil_of_right_ne_nil _ hstack
    rw [Outcome.returned_andThen, if_neg fun h => hne h.1]
    exact hadd
  · rw [hout] at hadd
    exact hadd

end Delivering

section Round

variable {env : ExecutionEnvironment} {item executionData : IExecuteData}
  {rest : List IExecuteData} {node : INode} {runIndex : ℕ} {s t : LoopState}

theorem intake_execute (h : intake env s item = .execute executionData node runIndex) :
    item.node = some node ∧ executionData = { item with data := updatePairedItems item } ∧
      runIndex = currentRunIndex s.ed item node.name := by
  rw [intake] at h
  split at h
  · cases h
  · next n hnode =>
    dsimp only at h
    split at h
    · cases h
    · split at h
      · cases h
      · split at h
        · cases h
        · cases h
          exact ⟨hnode, rfl, rfl⟩
        · cases h

theorem intake_skip (h : intake env s item = .skip t) :
    t.ed.runData = s.ed.runData ∧ ∃ items,
      t.ed.nodeExecutionStack = s.ed.nodeExecutionStack ++ items := by
  rw [intake] at h
  split at h
  · cases h
  · dsimp only at h
    split at h
    · cases h
    · split at h
      · cases h
        exact ⟨rfl, [], (List.append_nil _).symm⟩
      · split at h <;> cases h
        exact ⟨rfl, _, rfl⟩

theorem ensureInputData_ne_false (hv1 : env.workflow.isLegacyExecutionOrder = false)
    {data : ITaskDataConnections} (hmain : (data.get? .main).isSome) (nodeName : String) :
    ensureInputData env.workflow nodeName data ≠ .ok false := by
  have key : ∀ inputs : List ℕ, ensureInputs env.workflow nodeName data inputs ≠ .ok false := by
    intro inputs
    induction inputs with
    | nil =>
      intro h
      cases h
    | cons i inputs ih =>
      obtain ⟨main, hmain⟩ := Option.isSome_iff_exists.mp hmain
      rw [ensureInputs]
      split
      · exact fun h => by cases h
      · exact fun h => by cases h
      · rw [hmain]
        dsimp only
        rw [hv1, if_neg fun h => Bool.false_ne_true h.1]
        exact ih
  exact key _

theorem intake_ne_skip (hv1 : env.workflow.isLegacyExecutionOrder = false)
    (hmain : (item.data.get? .main).isSome)
    (hfilter : ∀ n, item.node = some n → s.ed.runNodeFilter.any (n.name ∉ ·) = false) :
    intake env s item ≠ .skip t := by
  intro h
  rw [intake] at h
  split at h
  · cases h
  · next n hnode =>
    dsimp only at h
    split at h
    · cases h
    · rw [hfilter n hnode, if_neg Bool.false_ne_true] at h
      split at h
      · cases h
      · cases h
      · next hfalse =>
        refine ensureInputData_ne_false hv1 ?_ n.name hfalse
        rw [updatePairedItems, Dict.get?_mapValues, Option.isSome_map]
        exact hmain

/-- **What a round that executes a node changes**, as long as the stack is not
empty below the item. -/
theorem progress_round (hv1 : env.workflow.isLegacyExecutionOrder = false)
    (hnamed : env.workflow.Named) (hrest : rest ≠ [])
    (hintake : intake env (s.taken rest) item = .execute executionData node runIndex)
    (hround : round env s item rest = .continued t) :
    Progress (OwnSlot node runIndex) (s.taken rest).ed t.ed := by
  simp only [round, hintake, executeItem] at hround
  rcases htries : runTries env executionData node runIndex (s.taken rest) with ⟨u, triesEnd⟩
  have htried := progress_runTries hv1 hnamed htries
  simp only [htries] at hround
  cases triesEnd with
  | nullData =>
    cases hround
    exact htried
  | requested =>
    cases hround
    exact htried
  | done =>
    dsimp only at hround
    split at hround
    · next v outputs hrecord =>
      obtain ⟨hkept, hstack, -⟩ := recordResult_eq hrecord
      have hrecorded : Progress (OwnSlot node runIndex) u.loop.ed v.ed :=
        ⟨hkept, [], List.forall_mem_nil _, hstack⟩
      refine htried.trans (hrecorded.trans ?_)
      rw [afterRecord] at hround
      split at hround
      · cases hround
      · split at hround
        · cases hround
          exact .refl _ _
        · -- what was below the item is still on the stack
          have hne : v.ed.nodeExecutionStack ≠ [] := by
            obtain ⟨items, -, heq⟩ := htried.pushed
            rw [hstack, heq]
            exact List.append_ne_nil_of_right_ne_nil _ hrest
          have hdeliver : Progress (OwnSlot node runIndex) v.ed
              (deliverOutput env node runIndex v outputs).state := progress_deliverOutput _ hv1 hne
          rcases hout : deliverOutput env node runIndex v outputs with ed | ⟨e, ed⟩
          · rw [hout] at hround hdeliver
            cases hround
            exact hdeliver
          · rw [hout] at hround
            cases hround
    · cases hround
    · cases hround

end Round

section Calls

variable {env : ExecutionEnvironment} {item executionData : IExecuteData}
  {rest : List IExecuteData} {node : INode} {runIndex : ℕ} {s : LoopState}

def Recorded.state : Recorded → LoopState
  | output s _ => s
  | stopped s => s
  | threw _ s => s

theorem calls_openRuns (s : LoopState) (name : String) : (openRuns s name).calls = s.calls := by
  rw [openRuns]
  split <;> rfl

theorem calls_recordResult {data : Option (List (Slot Items))} :
    (recordResult executionData node runIndex s data).state.calls = s.calls := by
  have hrecord : ∀ (task : ITaskData) (data : Option (List (Slot Items))),
      (recordOutput node runIndex (openRuns s node.name) task data).state.calls = s.calls := by
    intro task data
    rw [recordOutput]
    split
    · exact calls_openRuns s node.name
    · exact calls_openRuns s node.name
  rw [recordResult]
  dsimp only
  split
  · exact hrecord _ _
  · split
    · exact hrecord _ _
    · exact calls_openRuns s node.name

theorem calls_afterRecord {outputs : List (Slot Items)} :
    (afterRecord env executionData node runIndex s outputs).state.calls = s.calls := by
  rw [afterRecord]
  split
  · rfl
  · split
    · rfl
    · rcases deliverOutput env node runIndex s outputs with ed | ⟨e, ed⟩
      · rfl
      · rfl

/-- **The calls of `runNode` of a round** are those of its tries. -/
theorem calls_round (hintake : intake env (s.taken rest) item = .execute executionData node runIndex) :
    (round env s item rest).state.calls
      = (runTries env executionData node runIndex (s.taken rest)).1.loop.calls := by
  simp only [round, hintake, executeItem]
  rcases runTries env executionData node runIndex (s.taken rest) with ⟨u, triesEnd⟩
  cases triesEnd with
  | nullData => rfl
  | requested => rfl
  | done =>
    have hcalls : (recordResult executionData node runIndex u.loop u.nodeSuccessData).state.calls
        = u.loop.calls := calls_recordResult
    dsimp only
    rcases hrecord : recordResult executionData node runIndex u.loop u.nodeSuccessData
      with ⟨v, outputs⟩ | v | ⟨e, v⟩
    · rw [hrecord] at hcalls
      exact calls_afterRecord.trans hcalls
    · rw [hrecord] at hcalls
      exact hcalls
    · rw [hrecord] at hcalls
      exact hcalls

theorem calls_round_of_not_execute
    (h : ∀ executionData node runIndex,
      intake env (s.taken rest) item ≠ .execute executionData node runIndex) :
    (round env s item rest).state.calls = s.calls := by
  rw [round]
  rcases hintake : intake env (s.taken rest) item with ⟨executionData, node, runIndex⟩ | t | e
  · exact absurd hintake (h executionData node runIndex)
  · show t.calls = s.calls
    rw [intake] at hintake
    split at hintake
    · cases hintake
    · dsimp only at hintake
      split at hintake
      · cases hintake
      · split at hintake
        · cases hintake
          rfl
        · split at hintake <;> cases hintake
          rfl
  · rfl

theorem calls_finishTry (t : TryState) :
    (finishTry executionData node t).1.loop.calls = t.loop.calls := by
  rw [finishTry]
  split
  · rfl
  · next data _ =>
    dsimp only
    by_cases hsome : data.isSome
    · rw [if_pos hsome]
      split <;> rfl
    · rw [if_neg hsome]
      split <;> rfl

theorem calls_handleResult (result : NodeResult) (t : TryState) :
    (handleResult env executionData node runIndex result t).1.loop.calls = t.loop.calls := by
  cases result with
  | threw e => rfl
  | request request =>
    simp only [handleResult]
    split
    · rfl
    · rfl
  | returned data =>
    rw [handleResult, routeErrors]
    split
    · exact calls_finishTry _
    · split
      · split
        · rfl
        · exact calls_finishTry _
      · exact calls_finishTry _

/-- The node is not run again in the round: it has one try only, or the first
one neither fails nor returns an error. -/
def NotRetried (env : ExecutionEnvironment) (executionData : IExecuteData) (node : INode)
    (runIndex : ℕ) (s : LoopState) : Prop :=
  maxTries node = 1 ∨ (nodeFailed (env.runNode s.calls.length).result = false ∧
    ∀ e, (tryOnce env executionData node runIndex (maxTries node - 1)
      ({ loop := s } : TryState).reset).2.2 ≠ .failed e)

theorem maxTries_pos (node : INode) : 0 < maxTries node := by
  rw [maxTries]
  split
  · split
    · omega
    · omega
  · omega

theorem calls_tryOnce_once (executionData : IExecuteData) (node : INode) (runIndex : ℕ)
    {triesLeft : ℕ} (t : TryState)
    (h : triesLeft = 0 ∨ nodeFailed (env.runNode t.loop.calls.length).result = false) :
    ∃ calls, (tryOnce env executionData node runIndex triesLeft t).2.1.loop.calls
        = t.loop.calls ++ calls ∧
      ∀ call ∈ calls, call.subNodeExecutionResults
        = some (addResponses executionData t).subNodeExecutionResults := by
  rw [tryOnce]
  split
  · exact ⟨[], by rw [calls_finishTry, List.append_nil], List.forall_mem_nil _⟩
  · have hcalls : (addResponses executionData t).loop.calls = t.loop.calls := by
      rw [loop_addResponses]
    -- the inner loop is left at once
    have hretried : ∀ u : TryState, retryFailed env executionData runIndex triesLeft
        (env.runNode t.loop.calls.length).result u
        = (triesLeft, (env.runNode t.loop.calls.length).result, u) := by
      intro u
      rcases triesLeft with _ | triesLeft
      · rfl
      · rcases h with h | h
        · cases h
        · rw [retryFailed, h, if_neg Bool.false_ne_true]
    refine ⟨[⟨executionData, runIndex,
      some (addResponses executionData t).subNodeExecutionResults⟩], ?_, ?_⟩
    · simp only [callRunNode, hcalls, hretried, calls_handleResult]
    · intro call hcall
      rw [List.mem_singleton.mp hcall]

/-- **The only call of a round without a retry** gets the responses collected
for it. -/
theorem calls_runTries_once (h : NotRetried env executionData node runIndex s) :
    ∃ calls, (runTries env executionData node runIndex s).1.loop.calls = s.calls ++ calls ∧
      ∀ call ∈ calls, call.subNodeExecutionResults
        = some (addResponses executionData { loop := s }).subNodeExecutionResults := by
  obtain ⟨k, hk⟩ : ∃ k, maxTries node = k + 1 :=
    ⟨maxTries node - 1, by have := maxTries_pos node; omega⟩
  have hone : k = 0 ∨ nodeFailed (env.runNode s.calls.length).result = false := by
    rcases h with h | ⟨h, -⟩
    · exact Or.inl (by omega)
    · exact Or.inr h
  have hends : k = 0 ∨ ∀ e, (tryOnce env executionData node runIndex k
      ({ loop := s } : TryState).reset).2.2 ≠ .failed e := by
    rcases h with h | ⟨-, h⟩
    · exact Or.inl (by omega)
    · rw [hk, Nat.add_sub_cancel] at h
      exact Or.inr h
  obtain ⟨calls, hcalls, hresults⟩ := calls_tryOnce_once executionData node runIndex
    ({ loop := s } : TryState).reset hone
  have hreset : (addResponses executionData ({ loop := s } : TryState).reset).subNodeExecutionResults
      = (addResponses executionData { loop := s }).subNodeExecutionResults := by
    rw [addResponses, addResponses]
    split <;> rfl
  refine ⟨calls, ?_, fun call hcall => (hresults call hcall).trans (by rw [hreset])⟩
  rw [runTries, hk, tries]
  split
  · next heq =>
    rw [heq] at hcalls
    exact hcalls
  · next heq =>
    rw [heq] at hcalls
    exact hcalls
  · next heq =>
    rw [heq] at hcalls
    exact hcalls
  · next left t e heq =>
    -- it failed, so there is no other try
    rcases hends with rfl | hends
    · rw [heq] at hcalls
      rw [tries]
      exact hcalls
    · exact absurd (by rw [heq]) (hends e)

end Calls

end N8n
