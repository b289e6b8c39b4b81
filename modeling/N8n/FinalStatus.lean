/-
The status a run ends with, and the failures of nodes that may continue.

`executionError` is reset when an item is taken from the stack and read after
the loop, so it also holds the error of a node that was allowed to continue, if
that node was the last one.  And a node that may continue passes its first main
input on in place of an output; when there is none, the loop over the outputs
throws.

* `statusRight_iff` — **a run reports an error exactly for the node it stopped
  at, iff every failure passes on and none is the last**.
-/
import N8n.ExecutionLoop

namespace N8n

def includes (text part : String) : Bool := text.toList.tails.any part.toList.isPrefixOf

def isCancelError (e : ExecutionError) : Bool :=
  e.message.any (includes · "canceled") || e.name.any (includes · "Cancelled")

/-- `processSuccessExecution`: the status by the error left over. -/
def processSuccessExecution (s : LoopState) : ExecutionStatus :=
  match s.executionError with
  | some e => if isCancelError e then .canceled else .error
  | none => if s.ed.waitTill then .waiting else .success

/-- The status of the run.  An error thrown by the body is caught without a
change of the status. -/
def finalStatus : RoundEnd → ExecutionStatus
  | .continued s => processSuccessExecution s
  | .stopped s => processSuccessExecution s
  | .threw _ _ => .running

section

variable (env : ExecutionEnvironment)

/-- The round executes the node of the item, and the last try threw. -/
structure Fails (s : LoopState) (item : IExecuteData) (rest : List IExecuteData)
    (executionData : IExecuteData) (node : INode) (runIndex : ℕ) (t : TryState)
    (e : ExecutionError) : Prop where
  stack : s.ed.nodeExecutionStack = item :: rest
  intake : intake env (s.taken rest) item = .execute executionData node runIndex
  tries : runTries env executionData node runIndex (s.taken rest) = (t, .done)
  error : t.loop.executionError = some e

/-- The loop stopped at a node whose last try threw and that may not continue. -/
def StoppedAtFailure (s₀ : LoopState) (roundEnd : RoundEnd) : Prop :=
  ∃ s item rest executionData node runIndex t e, Rounds env s₀ s ∧
    Fails env s item rest executionData node runIndex t e ∧ continuesOnFail node = false ∧
    round env s item rest = roundEnd ∧ ∃ s', roundEnd = .stopped s'

/-- The claim about the status: unless the run was cancelled or waits, it is
`error` iff the loop stopped at a failure; and in no round a failure that may
continue makes the body throw. -/
structure StatusRight (s₀ : LoopState) (roundEnd : RoundEnd) : Prop where
  status : (∀ s, roundEnd = .stopped s → s.ed.waitTill = false) →
    finalStatus roundEnd ≠ .canceled →
    (finalStatus roundEnd = .error ↔ StoppedAtFailure env s₀ roundEnd)
  passesOn : ∀ s item rest executionData node runIndex t e, Rounds env s₀ s →
    Fails env s item rest executionData node runIndex t e → continuesOnFail node = true →
    ∀ jsError s', recordResult executionData node runIndex t.loop t.nodeSuccessData
      ≠ .threw jsError s'

/-- There is an output, all of it arrays of items, and no item reports `null`
as its error. -/
def IsOutput (nodeSuccessData : Option (List (Slot Items))) : Prop :=
  ∃ outputs, nodeSuccessData = some outputs ∧ ∀ execution ∈ outputs,
    ∃ items, execution = .data items ∧ ∀ item ∈ items,
      ¬ (item.json.get "$error" = .null ∧ item.json.get "$json" ≠ .undefined)

/-- Every failure that may continue has something to pass on, and none that is
not read as a cancellation happens in the round that leaves the stack empty. -/
structure FailuresPassOn (s₀ : LoopState) (roundEnd : RoundEnd) : Prop where
  output : ∀ s item rest executionData node runIndex t e, Rounds env s₀ s →
    Fails env s item rest executionData node runIndex t e → continuesOnFail node = true →
    IsOutput (passThrough executionData t.nodeSuccessData)
  notLast : ∀ s item rest executionData node runIndex t e s', Rounds env s₀ s →
    Fails env s item rest executionData node runIndex t e → continuesOnFail node = true →
    round env s item rest = .continued s' → roundEnd = .continued s' → isCancelError e = true

end

theorem mergeItemError_isOk_iff {item : INodeExecutionData} :
    (∃ merged, mergeItemError item = .ok merged) ↔
      ¬ (item.json.get "$error" = .null ∧ item.json.get "$json" ≠ .undefined) := by
  simp only [mergeItemError]
  split
  · next h =>
    split
    · next hnull => exact iff_of_false (fun ⟨_, h⟩ => by cases h) fun hnot => hnot ⟨hnull, h.2⟩
    · next hnull => exact iff_of_true ⟨_, rfl⟩ fun hboth => hnull hboth.1
  · next h =>
    refine iff_of_true ?_ fun hboth => h ⟨by rw [hboth.1]; exact JsValue.noConfusion, hboth.2⟩
    split <;> exact ⟨_, rfl⟩

theorem mergeExecution_isOk_iff {execution : Slot Items} :
    (∃ merged, mergeExecution execution = .ok merged) ↔
      ∃ items, execution = .data items ∧ ∀ item ∈ items,
        ¬ (item.json.get "$error" = .null ∧ item.json.get "$json" ≠ .undefined) := by
  rcases execution with _ | _ | items
  · exact iff_of_false (fun ⟨_, h⟩ => by cases h) fun ⟨_, h, _⟩ => by cases h
  · exact iff_of_false (fun ⟨_, h⟩ => by cases h) fun ⟨_, h, _⟩ => by cases h
  · have hitems : (∃ merged, items.mapM mergeItemError = .ok merged) ↔ ∀ item ∈ items,
        ¬ (item.json.get "$error" = .null ∧ item.json.get "$json" ≠ .undefined) := by
      rw [mapM_isOk_iff]
      exact forall₂_congr fun item _ => mergeItemError_isOk_iff
    constructor
    · rintro ⟨merged, h⟩
      refine ⟨items, rfl, hitems.mp ?_⟩
      rw [mergeExecution] at h
      rcases hmap : items.mapM mergeItemError with e | merged
      · rw [hmap] at h
        cases h
      · exact ⟨merged, rfl⟩
    · rintro ⟨items', heq, h⟩
      rw [← Slot.data.inj heq] at h
      obtain ⟨merged, hmerged⟩ := hitems.mpr h
      exact ⟨.data merged, by rw [mergeExecution, hmerged]; rfl⟩

theorem mergeErrors_isOk_iff {nodeSuccessData : Option (List (Slot Items))} :
    (∃ outputs, mergeErrors nodeSuccessData = .ok outputs) ↔ IsOutput nodeSuccessData := by
  rcases nodeSuccessData with _ | outputs
  · exact iff_of_false (fun ⟨_, h⟩ => by cases h) fun ⟨_, h, _⟩ => by cases h
  · rw [mergeErrors, mapM_isOk_iff, forall₂_congr fun execution _ => mergeExecution_isOk_iff]
    constructor
    · exact fun h => ⟨outputs, rfl, h⟩
    · rintro ⟨outputs', heq, hall⟩
      rw [Option.some_inj.mp heq]
      exact hall

section Round

variable {env : ExecutionEnvironment} {s t : LoopState} {item : IExecuteData}
  {rest : List IExecuteData} {executionData : IExecuteData} {node : INode} {runIndex : ℕ}

@[simp] theorem executionError_openRuns (s : LoopState) (nodeName : String) :
    (openRuns s nodeName).executionError = s.executionError := by
  rw [openRuns]
  split <;> rfl

variable {nodeSuccessData : Option (List (Slot Items))}

theorem recordResult_threw_iff {e : ExecutionError}
    (herror : s.executionError = some e) (hcontinues : continuesOnFail node = true) :
    (∃ jsError s', recordResult executionData node runIndex s nodeSuccessData
        = .threw jsError s') ↔
      ¬ IsOutput (passThrough executionData nodeSuccessData) := by
  rw [← mergeErrors_isOk_iff, recordResult]
  simp only [executionError_openRuns, herror, hcontinues, if_true, recordOutput]
  rcases mergeErrors (passThrough executionData nodeSuccessData) with jsError | outputs
  · exact iff_of_true ⟨_, _, rfl⟩ fun ⟨_, h⟩ => by cases h
  · exact iff_of_false (fun ⟨_, _, h⟩ => by cases h) fun hnot => hnot ⟨_, rfl⟩

variable {s' : LoopState} {outputs : List (Slot Items)}

theorem recordResult_output
    (h : recordResult executionData node runIndex s nodeSuccessData = .output s' outputs) :
    s'.executionError = s.executionError ∧
      (s.executionError.isSome → continuesOnFail node = true) := by
  have hrecord : ∀ {task : ITaskData} {data : Option (List (Slot Items))},
      recordOutput node runIndex (openRuns s node.name) task data = .output s' outputs →
      s'.executionError = s.executionError := by
    intro task data h
    rw [recordOutput] at h
    split at h
    · cases h
    · cases h
      exact executionError_openRuns s node.name
  simp only [recordResult, executionError_openRuns] at h
  split at h
  · next hnone => exact ⟨hrecord h, fun hsome => by rw [hnone] at hsome; cases hsome⟩
  · next e hsome =>
    split at h
    · next hcontinues => exact ⟨hrecord h, fun _ => hcontinues⟩
    · cases h

theorem recordResult_stopped
    (h : recordResult executionData node runIndex s nodeSuccessData = .stopped s') :
    s'.executionError = s.executionError ∧ s.executionError.isSome ∧
      continuesOnFail node = false := by
  have hrecord : ∀ {task : ITaskData} {data : Option (List (Slot Items))},
      recordOutput node runIndex (openRuns s node.name) task data ≠ .stopped s' := by
    intro task data h
    rw [recordOutput] at h
    split at h <;> cases h
  simp only [recordResult, executionError_openRuns] at h
  split at h
  · exact absurd h hrecord
  · next e hsome =>
    split at h
    · exact absurd h hrecord
    · next hcontinues =>
      cases h
      exact ⟨executionError_openRuns s node.name, by rw [hsome]; rfl,
        Bool.eq_false_iff.mpr hcontinues⟩

theorem afterRecord_continued
    (h : afterRecord env executionData node runIndex s outputs = .continued s') :
    s'.executionError = s.executionError := by
  rw [afterRecord] at h
  split at h
  · cases h
  · split at h
    · cases h
      rfl
    · rcases hout : deliverOutput env node runIndex s outputs with ed | ⟨e, ed⟩
      · rw [hout] at h
        cases h
        rfl
      · rw [hout] at h
        cases h

theorem afterRecord_stopped
    (h : afterRecord env executionData node runIndex s outputs = .stopped s') :
    s'.ed.waitTill = true := by
  rw [afterRecord] at h
  split at h
  · next hwait =>
    cases h
    exact hwait
  · split at h
    · cases h
    · rcases hout : deliverOutput env node runIndex s outputs with ed | ⟨e, ed⟩ <;>
        (rw [hout] at h; cases h)

theorem round_continued (hstack : s.ed.nodeExecutionStack = item :: rest)
    (h : round env s item rest = .continued s') :
    s'.executionError = none ∨ ∃ executionData node runIndex t e,
      Fails env s item rest executionData node runIndex t e ∧ continuesOnFail node = true ∧
      s'.executionError = some e := by
  rw [round] at h
  split at h
  · cases h
  · next s₁ hintake =>
    cases h
    rw [intake] at hintake
    refine Or.inl ?_
    split at hintake
    · cases hintake
    · dsimp only at hintake
      split at hintake
      · cases hintake
      · split at hintake
        · cases hintake
          rfl
        · split at hintake <;> cases hintake
          rfl
  · next executionData node runIndex hintake =>
    rw [executeItem] at h
    split at h
    · next t htries =>
      cases h
      exact Or.inl (tries_error htries TriesEnd.noConfusion)
    · next t htries =>
      cases h
      exact Or.inl (tries_error htries TriesEnd.noConfusion)
    · next t htries =>
      split at h
      · next s₁ outputs hrecord =>
        obtain ⟨herror, hcontinues⟩ := recordResult_output hrecord
        rw [afterRecord_continued h, herror]
        rcases hte : t.loop.executionError with _ | e
        · exact Or.inl rfl
        · rw [hte] at hcontinues
          exact Or.inr ⟨executionData, node, runIndex, t, e, ⟨hstack, hintake, htries, hte⟩,
            hcontinues rfl, rfl⟩
      · cases h
      · cases h

theorem round_stopped (hstack : s.ed.nodeExecutionStack = item :: rest)
    (h : round env s item rest = .stopped s') :
    s'.ed.waitTill = true ∨ ∃ executionData node runIndex t e,
      Fails env s item rest executionData node runIndex t e ∧ continuesOnFail node = false ∧
      s'.executionError = some e := by
  rw [round] at h
  split at h
  · cases h
  · cases h
  · next executionData node runIndex hintake =>
    rw [executeItem] at h
    split at h
    · cases h
    · cases h
    · next t htries =>
      split at h
      · exact Or.inl (afterRecord_stopped h)
      · next s₁ hrecord =>
        cases h
        obtain ⟨herror, hsome, hcontinues⟩ := recordResult_stopped hrecord
        obtain ⟨e, he⟩ := Option.isSome_iff_exists.mp hsome
        exact Or.inr ⟨executionData, node, runIndex, t, e, ⟨hstack, hintake, htries, he⟩,
          hcontinues, herror.trans he⟩
      · cases h

end Round

section Runs

variable {env : ExecutionEnvironment} {ed : IRunExecutionData} {roundEnd : RoundEnd}

theorem executionError_of_rounds {s : LoopState} (h : Rounds env { ed := ed } s) :
    s.executionError = none ∨ ∃ s' item rest executionData node runIndex t e,
      Rounds env { ed := ed } s' ∧ Fails env s' item rest executionData node runIndex t e ∧
      continuesOnFail node = true ∧ round env s' item rest = .continued s ∧
      s.executionError = some e := by
  rcases Relation.ReflTransGen.cases_tail h with rfl | ⟨s', hrounds, item, rest, hstack, hround⟩
  · exact Or.inl rfl
  · rcases round_continued hstack hround with hnone |
      ⟨executionData, node, runIndex, t, e, hfails, hcontinues, herror⟩
    · exact Or.inl hnone
    · exact Or.inr ⟨s', item, rest, executionData, node, runIndex, t, e, hrounds, hfails,
        hcontinues, hround, herror⟩

theorem processSuccessExecution_of_error {s : LoopState} {e : ExecutionError}
    (h : s.executionError = some e) :
    processSuccessExecution s = if isCancelError e then .canceled else .error := by
  rw [processSuccessExecution, h]

/-- **The status of a run is `error` exactly for the failure it stopped at, and
no failure that may continue makes the body throw, iff** every failure that may
continue has an output to pass on, and none of them is the last of the run. -/
theorem statusRight_iff (hends : Ends env { ed := ed } roundEnd) :
    StatusRight env { ed := ed } roundEnd ↔ FailuresPassOn env { ed := ed } roundEnd := by
  constructor
  · intro h
    refine ⟨?_, ?_⟩
    · intro s item rest executionData node runIndex t e hrounds hfails hcontinues
      by_contra hnot
      obtain ⟨jsError, s', hthrew⟩ := (recordResult_threw_iff hfails.error hcontinues).mpr hnot
      exact h.passesOn s item rest executionData node runIndex t e hrounds hfails hcontinues
        jsError s' hthrew
    · intro s item rest executionData node runIndex t e s' hrounds hfails hcontinues hround hlast
      subst hlast
      by_contra hcancel
      have herror : s'.executionError = some e := by
        rw [round, hfails.intake] at hround
        dsimp only at hround
        rw [executeItem, hfails.tries] at hround
        dsimp only at hround
        split at hround
        · next s₁ outputs hrecord =>
          rw [afterRecord_continued hround, (recordResult_output hrecord).1, hfails.error]
        · cases hround
        · cases hround
      have hstatus : finalStatus (.continued s') = .error := by
        show processSuccessExecution s' = .error
        rw [processSuccessExecution_of_error herror, if_neg hcancel]
      have hright := h.status (fun _ hstop => by cases hstop)
        (by rw [hstatus]; exact ExecutionStatus.noConfusion)
      obtain ⟨_, _, _, _, _, _, _, _, -, -, -, -, s'', hstop⟩ := hright.mp hstatus
      cases hstop
  · intro h
    refine ⟨fun hwait hcanceled => ?_, ?_⟩
    · cases hends with
      | @emptied s hrounds hstack =>
        refine iff_of_false (fun hstatus => ?_) ?_
        · have hprocess : processSuccessExecution s = .error := hstatus
          rcases executionError_of_rounds hrounds with hnone |
            ⟨s', item, rest, executionData, node, runIndex, t, e, hrounds', hfails, hcontinues,
              hround, herror⟩
          · rw [processSuccessExecution, hnone] at hprocess
            dsimp only at hprocess
            split at hprocess <;> cases hprocess
          · have hcancel := h.notLast s' item rest executionData node runIndex t e s hrounds' hfails
              hcontinues hround rfl
            rw [processSuccessExecution_of_error herror, if_pos hcancel] at hprocess
            cases hprocess
        · rintro ⟨_, _, _, _, _, _, _, _, -, -, -, -, s', hstop⟩
          cases hstop
      | @stopped s item rest t hrounds hstack hround =>
        rcases round_stopped hstack hround with hwaits |
          ⟨executionData, node, runIndex, t', e, hfails, hcontinues, herror⟩
        · rw [hwait t rfl] at hwaits
          cases hwaits
        · refine iff_of_true ?_ ⟨s, item, rest, executionData, node, runIndex, t', e, hrounds,
            hfails, hcontinues, hround, t, rfl⟩
          have hprocess : finalStatus (.stopped t)
              = if isCancelError e then .canceled else .error :=
            processSuccessExecution_of_error herror
          rw [hprocess] at hcanceled ⊢
          split at hcanceled
          · exact absurd rfl hcanceled
          · next hnot => rw [if_neg hnot]
      | threw _ _ _ =>
        refine iff_of_false ExecutionStatus.noConfusion ?_
        rintro ⟨_, _, _, _, _, _, _, _, -, -, -, -, s', hstop⟩
        cases hstop
    · intro s item rest executionData node runIndex t e hrounds hfails hcontinues jsError s' hthrew
      exact (recordResult_threw_iff hfails.error hcontinues).mp ⟨jsError, s', hthrew⟩
        (h.output s item rest executionData node runIndex t e hrounds hfails hcontinues)

end Runs

def failingNode : INode := { name := "Set", onError := some .continueRegularOutput }

def lastNode : INode := { name := "Last" }

def chainWorkflow : Workflow :=
  let connections : IConnections :=
    Dict.empty.set "Set" (Dict.empty.set .main [some [⟨"Last", .main, 0⟩]])
  { nodes := (Dict.empty.set "Set" failingNode).set "Last" lastNode
    connectionsBySourceNode := connections
    connectionsByDestinationNode := mapConnectionsByDestination connections
    settings := ⟨some .v1⟩ }

def failsFirst (w : Workflow) : ExecutionEnvironment where
  workflow := w
  runNode i := if i = 0 then ⟨.threw { message := some "Bad request" }, false⟩
    else ⟨.returned (some [.data []]), false⟩

def setItem : IExecuteData :=
  { node := some failingNode, data := mainOnly [.data [{}]], source := none }

def setOnStack : IRunExecutionData where
  nodeExecutionStack := [setItem]

/-- What `Set` passes on to `Last`. -/
def lastItem : IExecuteData where
  node := some lastNode
  data := mainOnly [.data [{ pairedItem := some (.origin { item := 0 }) }]]
  source := some (mainOnly [.data ⟨"Set", some 0, some 0⟩])

def chainEnvironment : ExecutionEnvironment := failsFirst chainWorkflow

/-- The states after `Set` and after `Last`. -/
def chainMiddle : LoopState :=
  (round chainEnvironment { ed := setOnStack } setItem []).state

def chainEnd : LoopState := (round chainEnvironment chainMiddle lastItem []).state

theorem round_setItem :
    round chainEnvironment { ed := setOnStack } setItem [] = .continued chainMiddle :=
  RoundEnd.eq_continued (by decide)

theorem round_lastItem :
    round chainEnvironment chainMiddle lastItem [] = .continued chainEnd :=
  RoundEnd.eq_continued (by decide)

theorem stack_chainMiddle : chainMiddle.ed.nodeExecutionStack = [lastItem] := by decide

theorem stack_chainEnd : chainEnd.ed.nodeExecutionStack = [] := by decide

theorem rounds_chain {s : LoopState} :
    Rounds chainEnvironment { ed := setOnStack } s ↔
      s = { ed := setOnStack } ∨ s = chainMiddle ∨ s = chainEnd := by
  rw [rounds_iff rfl round_setItem, rounds_iff stack_chainMiddle round_lastItem,
    rounds_of_nil stack_chainEnd]

theorem fails_chain {s : LoopState} {item : IExecuteData} {rest : List IExecuteData}
    {executionData : IExecuteData} {node : INode} {runIndex : ℕ} {t : TryState}
    {e : ExecutionError} (hrounds : Rounds chainEnvironment { ed := setOnStack } s)
    (hfails : Fails chainEnvironment s item rest executionData node runIndex t e)
    (hcontinues : continuesOnFail node = true) :
    s = { ed := setOnStack } ∧ item = setItem ∧ rest = [] ∧
      executionData = { setItem with data := updatePairedItems setItem } := by
  obtain ⟨hstack, hintake, -, -⟩ := hfails
  rcases rounds_chain.mp hrounds with rfl | rfl | rfl
  · cases hstack
    refine ⟨rfl, rfl, rfl, ?_⟩
    have hset : intake chainEnvironment (LoopState.taken { ed := setOnStack } []) setItem
      = .execute { setItem with data := updatePairedItems setItem } failingNode 0 := rfl
    rw [hset] at hintake
    exact (Intake.execute.inj hintake).1.symm
  · rw [stack_chainMiddle] at hstack
    cases hstack
    have hlast : (intake chainEnvironment (chainMiddle.taken []) lastItem).node?
      = some lastNode := by decide
    rw [hintake] at hlast
    rw [Option.some_inj.mp hlast] at hcontinues
    cases hcontinues
  · rw [stack_chainEnd] at hstack
    cases hstack

theorem statusRight_chain :
    StatusRight chainEnvironment { ed := setOnStack } (.continued chainEnd) := by
  have hends : Ends chainEnvironment { ed := setOnStack } (.continued chainEnd) :=
    .emptied (rounds_chain.mpr (Or.inr (Or.inr rfl))) stack_chainEnd
  refine (statusRight_iff hends).mpr ⟨?_, ?_⟩
  · intro s item rest executionData node runIndex t e hrounds hfails hcontinues
    obtain ⟨-, -, -, rfl⟩ := fails_chain hrounds hfails hcontinues
    exact mergeErrors_isOk_iff.mp ⟨_, rfl⟩
  · intro s item rest executionData node runIndex t e s' hrounds hfails hcontinues hround hlast
    obtain ⟨rfl, rfl, rfl, -⟩ := fails_chain hrounds hfails hcontinues
    -- the round of `Set` leaves `Last` on the stack
    have hmiddle : chainEnd = chainMiddle := by
      rw [← RoundEnd.continued.inj (round_setItem.symm.trans hround)] at hlast
      exact RoundEnd.continued.inj hlast
    have hstack := stack_chainMiddle
    rw [← hmiddle, stack_chainEnd] at hstack
    cases hstack

def loneEnd : LoopState := (round (failsFirst {}) { ed := setOnStack } setItem []).state

/-- Without a successor the run of `Set` ends with status `error`, though the
node may continue and the loop did not stop at it. -/
theorem not_statusRight_lone :
    Ends (failsFirst {}) { ed := setOnStack } (.continued loneEnd) ∧
      ¬ StatusRight (failsFirst {}) { ed := setOnStack } (.continued loneEnd) := by
  have hround : round (failsFirst {}) { ed := setOnStack } setItem [] = .continued loneEnd :=
    RoundEnd.eq_continued (by decide)
  have hstatus : finalStatus (.continued loneEnd) = .error := by decide
  refine ⟨.emptied ((rounds_iff rfl hround).mpr (Or.inr .refl)) (by decide), fun h => ?_⟩
  have hright := h.status (fun _ hstop => by cases hstop)
    (by rw [hstatus]; exact ExecutionStatus.noConfusion)
  obtain ⟨_, _, _, _, _, _, _, _, -, -, -, -, s', hstop⟩ := hright.mp hstatus
  cases hstop

end N8n
