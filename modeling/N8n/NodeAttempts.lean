/-
The attempts to execute one node: the `for` loop over the tries.

What a node does when it is run is not under the control of the engine.  It is
the outcome of a call (`NodeOutcome`), and the environment of an execution
gives the outcomes of all calls of `runNode` as a sequence.  The calls made so
far are recorded in the state of the loop, with what was passed to them.

`tryOnce` is the body of the `try` block, `tries` the loop around it.  It ends
in one of three ways (`TriesEnd`), and leaves the error of the last try, if it
threw, in `executionError`.

* `tries_error` — whether the loop left an error, by the way it ended;
* `calls_tryOnce` — what one try passes to `runNode`.
-/
import N8n.EngineRequest

namespace N8n

/-- `requiredInputs` of a node type: a number of inputs, or specific ones. -/
inductive RequiredInputs where
  | amount (n : ℕ)
  | inputs (indexes : List ℕ)
  deriving DecidableEq

/-- The parts of a node type description that the loop reads, for one node and
with the expressions in it evaluated. -/
structure NodeTypeDescription where
  inputs : ℕ := 1
  requiredInputs : Option RequiredInputs := none
  mainOutputs : ℕ := 1

/-- What a node did: it threw, asked for other nodes, or returned its data. -/
inductive NodeResult where
  | threw (e : ExecutionError)
  | request (r : EngineRequest)
  | returned (data : Option (List (Slot Items)))
  deriving DecidableEq

structure NodeOutcome where
  result : NodeResult
  /-- The node has put the execution to wait. -/
  waitTill : Bool := false
  deriving DecidableEq

structure ExecutionEnvironment where
  workflow : Workflow
  nodeType : INode → NodeTypeDescription := fun _ => {}
  /-- What the calls of `runNode` do, one after the other. -/
  runNode : ℕ → NodeOutcome
  /-- `$getPairedItem` of the data proxy. -/
  getPairedItem : IExecuteData → ISourceData → IPairedItemData →
    Except ExecutionError (Option INodeExecutionData) := fun _ _ _ => .ok none

structure RunNodeCall where
  executionData : IExecuteData
  runIndex : ℕ
  subNodeExecutionResults : Option EngineResponse
  deriving DecidableEq

/-- The run data and the variables that live across the rounds of the loop. -/
structure LoopState where
  ed : IRunExecutionData
  rewireOutputLogTo : Dict String NodeConnectionType := Dict.empty
  executionError : Option ExecutionError := none
  lastExecutionTry : String := ""
  calls : List RunNodeCall := []
  deriving DecidableEq

def JsError.toExecutionError : JsError → ExecutionError
  | typeError => { message := some "Cannot read properties of undefined" }
  | assertionError => { message := some "Assertion failed" }
  | raised message => { message := some message }

/-- The error an output item carries, if the item is one. -/
def itemIsError (item : INodeExecutionData) : Bool :=
  let error := item.json.get "error"
  item.error.isSome
    || (error.truthy && item.json.fields.length = 1)
    || (error.truthy && (item.json.get "message").truthy && item.json.fields.length = 2)

/-- The first origin in the `pairedItem` of an item. -/
def pairedItemData (item : INodeExecutionData) : Option IPairedItemData :=
  match item.pairedItem with
  | some (.origin data) => some data
  | some (.origins data) => data.head?
  | _ => none

def errorItem (env : ExecutionEnvironment) (executionData : IExecuteData)
    (item : INodeExecutionData) : Except ExecutionError INodeExecutionData :=
  match executionData.source, pairedItemData item with
  | none, _ => .ok item
  | _, none => .ok item
  | some source, some paired =>
    match Slot.read ((source.get? .main).getD []) (paired.input.getD 0) with
    | .data sourceData => match env.getPairedItem executionData sourceData paired with
      | .error e => .error e
      | .ok none => .ok item
      | .ok (some origin) =>
        .ok { item with json := .object (JsValue.spread origin.json.fields item.json.fields) }
    | _ => .error JsError.typeError.toExecutionError

/-- The `while` loop over the items of one output: the items without and with
an error, or what is left of the items when the data proxy throws. -/
def splitErrors (env : ExecutionEnvironment) (executionData : IExecuteData) :
    Items → Items → Items → Except (ExecutionError × Items) (Items × Items)
  | [], successItems, errorItems => .ok (successItems, errorItems)
  | item :: items, successItems, errorItems =>
    if itemIsError item then
      match errorItem env executionData item with
      | .error e => .error (e, items)
      | .ok item => splitErrors env executionData items successItems (errorItems ++ [item])
    else splitErrors env executionData items (successItems ++ [item]) errorItems

def splitOutputs (env : ExecutionEnvironment) (executionData : IExecuteData) :
    List ℕ → List (Slot Items) → Items → Outcome ExecutionError (List (Slot Items) × Items)
  | [], outputs, errorItems => .returned (outputs, errorItems)
  | i :: is, outputs, errorItems =>
    match splitErrors env executionData ((Slot.read outputs i).toOption.getD []) [] errorItems with
    | .error (e, items) => .threw e (Slot.assign outputs i (.data items), errorItems)
    | .ok (successItems, errorItems) =>
      splitOutputs env executionData is (Slot.assign outputs i (.data successItems)) errorItems

/-- The items with an error are moved to the last main output. -/
def handleNodeErrorOutput (env : ExecutionEnvironment) (executionData : IExecuteData)
    (node : INode) (nodeSuccessData : List (Slot Items)) :
    Outcome ExecutionError (List (Slot Items)) :=
  let mainOutputs := (env.nodeType node).mainOutputs
  match splitOutputs env executionData (List.range (mainOutputs - 1)) nodeSuccessData [] with
  | .threw e (outputs, _) => .threw e outputs
  | .returned (outputs, errorItems) => .returned (match mainOutputs with
    | 0 => outputs
    | last + 1 => Slot.assign outputs last (.data errorItems))

/-- The loop over the items of one output, `none` if it has to break. -/
def pairItems (fix : ℕ → Option ℕ) : ℕ → Items → Items × Bool
  | _, [] => ([], true)
  | index, item :: items =>
    match item.pairedItem, fix index with
    | none, none => (item :: items, false)
    | none, some origin =>
      let (items, goOn) := pairItems fix (index + 1) items
      ({ item with pairedItem := some (.origin { item := origin }) } :: items, goOn)
    | some _, _ =>
      let (items, goOn) := pairItems fix (index + 1) items
      (item :: items, goOn)

def pairOutputs (fix : ℕ → Option ℕ) : List (Slot Items) → Outcome JsError (List (Slot Items))
  | [] => .returned []
  | .undefined :: outputs => .threw .typeError (.undefined :: outputs)
  | .null :: outputs => match pairOutputs fix outputs with
    | .returned outputs => .returned (.null :: outputs)
    | .threw e outputs => .threw e (.null :: outputs)
  | .data items :: outputs => match pairItems fix 0 items with
    | (items, false) => .returned (.data items :: outputs)
    | (items, true) => match pairOutputs fix outputs with
      | .returned outputs => .returned (.data items :: outputs)
      | .threw e outputs => .threw e (.data items :: outputs)

def assignPairedItems (nodeSuccessData : Option (List (Slot Items))) (executionData : IExecuteData) :
    Outcome JsError (Option (List (Slot Items))) :=
  match nodeSuccessData with
  | none => .returned none
  | some [] => .returned (some [])
  | some (first :: outputs) => match executionData.data.get? .main with
    | none => .threw .typeError (some (first :: outputs))
    | some main =>
      let inputLength := (Slot.read main 0).toOption.map (·.length)
      let isSingleInputAndOutput := main.length = 1 ∧ inputLength = some 1
      if outputs = [] ∧ main.length = 1 ∧ first.isFalsy then
        .threw .typeError (some (first :: outputs))
      else
        let isSameNumberOfItems := outputs = [] ∧ main.length = 1 ∧
          inputLength = first.toOption.map (·.length)
        let fix (index : ℕ) : Option ℕ :=
          if isSingleInputAndOutput then some 0
          else if isSameNumberOfItems then some index else none
        match pairOutputs fix (first :: outputs) with
        | .returned outputs => .returned (some outputs)
        | .threw e outputs => .threw e (some outputs)

def firstItem (nodeSuccessData : Option (List (Slot Items))) : Option INodeExecutionData :=
  (nodeSuccessData.bind fun outputs => (Slot.read outputs 0).toOption).bind (·.head?)

def allOrigins (main : List (Slot Items)) : List IPairedItemData :=
  main.zipIdx.flatMap fun input =>
    (input.1.toOption.getD []).zipIdx.map fun item => { item := item.2, input := some input.2 }

/-- An empty item for a node without output that always has to output data. -/
def alwaysOutputData (node : INode) (executionData : IExecuteData)
    (nodeSuccessData : Option (List (Slot Items))) :
    Except JsError (Option (List (Slot Items))) :=
  if (firstItem nodeSuccessData).isNone ∧ node.alwaysOutputData = some true then
    match executionData.data.get? .main with
    | none => .error .typeError
    | some main => .ok (some (Slot.assign (nodeSuccessData.getD []) 0
        (.data [{ pairedItem := some (.origins (allOrigins main)) }])))
  else .ok nodeSuccessData

structure TryState where
  loop : LoopState
  nodeSuccessData : Option (List (Slot Items)) := none
  subNodeExecutionResults : EngineResponse := {}

/-- How a try ended: the loop is left with the output, with a `continue` of
the outer loop because there is no output or because of a request, or the try
threw. -/
inductive TryEnd where
  | done
  | nullData
  | requested
  | failed (e : ExecutionError)
  deriving DecidableEq

/-- `Math.min(5, Math.max(2, maxTries || 3))`, or 1 without retries. -/
def maxTries (node : INode) : ℕ :=
  if node.retryOnFail = some true then
    (min 5 (max 2 (match node.maxTries with
      | none => 3
      | some n => if n = 0 then 3 else n))).toNat
  else 1

/-- The node returned an item with an error in its first place. -/
def nodeFailed : NodeResult → Bool
  | .returned data => (firstItem data).any fun item => item.json.get "error" ≠ .undefined
  | _ => false

/-- The results of the actions that the node waits for, as far as there are
runs at their indexes. -/
def collectResponses (runData : IRunData) (actions : List SubNodeExecutionDataAction) :
    List ExecuteNodeResult :=
  actions.filterMap fun a =>
    (((runData.get? a.nodeName).getD [])[a.runIndex]?).map fun data => ⟨a.action, data⟩

def addResponses (executionData : IExecuteData) (t : TryState) : TryState :=
  match executionData.metadata.bind (·.subNodeExecutionData) with
  | none => t
  | some sub => { t with subNodeExecutionResults := {
      metadata := sub.metadata
      actionResponses := t.subNodeExecutionResults.actionResponses
        ++ collectResponses t.loop.ed.runData sub.actions } }

section

variable (env : ExecutionEnvironment) (executionData : IExecuteData) (node : INode) (runIndex : ℕ)

def callRunNode (results : Option EngineResponse) (t : TryState) : NodeResult × TryState :=
  let outcome := env.runNode t.loop.calls.length
  (outcome.result, { t with loop := { t.loop with
    calls := t.loop.calls ++ [⟨executionData, runIndex, results⟩]
    ed := { t.loop.ed with waitTill := t.loop.ed.waitTill || outcome.waitTill } } })

/-- The inner `while` loop: the node is run again while its output is an error
and tries are left.  These calls pass no results of sub-nodes. -/
def retryFailed : ℕ → NodeResult → TryState → ℕ × NodeResult × TryState
  | 0, result, t => (0, result, t)
  | triesLeft + 1, result, t =>
    if nodeFailed result then
      match callRunNode env executionData runIndex none t with
      | (.threw e, t) => (triesLeft + 1, .threw e, t)
      | (result, t) => retryFailed triesLeft result t
    else (triesLeft + 1, result, t)

def finishTry (t : TryState) : TryState × TryEnd :=
  match assignPairedItems t.nodeSuccessData executionData with
  | .threw e data => ({ t with nodeSuccessData := data }, .failed e.toExecutionError)
  | .returned data =>
    let t := { t with nodeSuccessData := data }
    let t := if data.isSome then { t with loop := { t.loop with
      ed := { t.loop.ed with lastNodeExecuted := some node.name } } } else t
    match alwaysOutputData node executionData data with
    | .error e => (t, .failed e.toExecutionError)
    | .ok data =>
      ({ t with nodeSuccessData := data },
        if data = none ∧ ¬ t.loop.ed.waitTill then .nullData else .done)

/-- The error output is split off, if the node has one. -/
def routeErrors (t : TryState) : TryState × TryEnd :=
  match t.nodeSuccessData with
  | none => finishTry executionData node t
  | some outputs =>
    if node.onError = some .continueErrorOutput then
      match handleNodeErrorOutput env executionData node outputs with
      | .threw e outputs => ({ t with nodeSuccessData := some outputs }, .failed e)
      | .returned outputs => finishTry executionData node { t with nodeSuccessData := some outputs }
    else finishTry executionData node t

/-- What follows the calls of `runNode` in the `try` block. -/
def handleResult (result : NodeResult) (t : TryState) : TryState × TryEnd :=
  match result with
  | .threw e => (t, .failed e)
  | .request request =>
    match handleEngineRequest env.workflow node runIndex executionData request t.loop.ed
        t.loop.rewireOutputLogTo with
    | .threw e (ed, rewire) =>
      ({ t with loop := { t.loop with ed := ed, rewireOutputLogTo := rewire } },
        .failed e.toExecutionError)
    | .returned (ed, rewire) =>
      ({ t with loop := { t.loop with ed := ed, rewireOutputLogTo := rewire } }, .requested)
  | .returned data => routeErrors env executionData node { t with nodeSuccessData := data }

def pinnedItems (ed : IRunExecutionData) (node : INode) : Option Items :=
  if node.disabled = some true then none else ed.pinData.get? node.name

/-- The `try` block, with the number of tries left after it. -/
def tryOnce (triesLeft : ℕ) (t : TryState) : ℕ × TryState × TryEnd :=
  match pinnedItems t.loop.ed node with
  | some items => (triesLeft, finishTry executionData node { t with nodeSuccessData := some [.data items] })
  | none =>
    let t := addResponses executionData t
    let call := callRunNode env executionData runIndex (some t.subNodeExecutionResults) t
    let retried := retryFailed env executionData runIndex triesLeft call.1 call.2
    (retried.1, handleResult env executionData node runIndex retried.2.1 retried.2.2)

/-- How the loop over the tries ended. -/
inductive TriesEnd where
  | done
  | nullData
  | requested
  deriving DecidableEq

def TryState.reset (t : TryState) : TryState :=
  { t with loop := { t.loop with executionError := none } }

def TryState.caught (t : TryState) (e : ExecutionError) (nodeName : String) : TryState :=
  { t with loop := { t.loop with
    executionError := some e
    ed := { t.loop.ed with lastNodeExecuted := some nodeName } } }

/-- The loop over the tries, bounded by a number of rounds; each round uses up
at least one of the tries left. -/
def tries : ℕ → ℕ → TryState → TryState × TriesEnd
  | 0, _, t => (t, .done)
  | _ + 1, 0, t => (t, .done)
  | rounds + 1, triesLeft + 1, t =>
    match tryOnce env executionData node runIndex triesLeft t.reset with
    | (_, t, .done) => (t, .done)
    | (_, t, .nullData) => (t, .nullData)
    | (_, t, .requested) => (t, .requested)
    | (triesLeft, t, .failed e) => tries rounds triesLeft (t.caught e node.name)

def runTries (loop : LoopState) : TryState × TriesEnd :=
  tries env executionData node runIndex (maxTries node) (maxTries node) { loop := loop }

end

/-- `b` is `a` after calls of `runNode` that made no request: only the calls,
`waitTill` and the last node executed can differ. -/
structure OnlyCalls (a b : LoopState) : Prop where
  eq : b = { a with
    calls := b.calls
    ed := { a.ed with waitTill := b.ed.waitTill, lastNodeExecuted := b.ed.lastNodeExecuted } }
  calls : a.calls <+: b.calls

theorem OnlyCalls.refl (a : LoopState) : OnlyCalls a a := ⟨rfl, List.prefix_refl _⟩

theorem OnlyCalls.trans {a b c : LoopState} (hab : OnlyCalls a b) (hbc : OnlyCalls b c) :
    OnlyCalls a c := by
  refine ⟨?_, hab.calls.trans hbc.calls⟩
  have hc := hbc.eq
  rw [hab.eq] at hc
  exact hc

theorem OnlyCalls.of_ed {a : LoopState} (last : Option String) :
    OnlyCalls a { a with ed := { a.ed with lastNodeExecuted := last } } :=
  ⟨rfl, List.prefix_refl _⟩

section Spec

variable (env : ExecutionEnvironment) (executionData : IExecuteData) (node : INode)
  (runIndex : ℕ)

theorem onlyCalls_callRunNode (results : Option EngineResponse) (t : TryState) :
    OnlyCalls t.loop (callRunNode env executionData runIndex results t).2.loop :=
  ⟨rfl, List.prefix_append _ _⟩

theorem loop_addResponses (t : TryState) :
    (addResponses executionData t).loop = t.loop := by
  rw [addResponses]
  split <;> rfl

theorem onlyCalls_retryFailed (triesLeft : ℕ) (result : NodeResult) (t : TryState) :
    OnlyCalls t.loop (retryFailed env executionData runIndex triesLeft result t).2.2.loop := by
  induction triesLeft generalizing result t with
  | zero => exact .refl _
  | succ triesLeft ih =>
    rw [retryFailed]
    split
    · have hcall := onlyCalls_callRunNode env executionData runIndex none t
      split
      · next e t' heq =>
        rw [heq] at hcall
        exact hcall
      · next result' t' _ heq =>
        rw [heq] at hcall
        exact hcall.trans (ih result' t')
    · exact .refl _

theorem onlyCalls_finishTry (t : TryState) :
    OnlyCalls t.loop (finishTry executionData node t).1.loop := by
  rw [finishTry]
  split
  · exact .refl _
  · next data _ =>
    dsimp only
    have hlast : OnlyCalls t.loop (if data.isSome then { t with
        nodeSuccessData := data
        loop := { t.loop with ed := { t.loop.ed with lastNodeExecuted := some node.name } } }
        else { t with nodeSuccessData := data }).loop := by
      split
      · exact .of_ed _
      · exact .refl _
    split <;> exact hlast

theorem onlyCalls_routeErrors (t : TryState) :
    OnlyCalls t.loop (routeErrors env executionData node t).1.loop := by
  rw [routeErrors]
  split
  · exact onlyCalls_finishTry executionData node t
  · split
    · split
      · exact .refl _
      · next outputs' _ =>
        exact onlyCalls_finishTry executionData node { t with nodeSuccessData := some outputs' }
    · exact onlyCalls_finishTry executionData node t

theorem retryFailed_result {triesLeft : ℕ} {result : NodeResult} {t : TryState}
    (h : result = (env.runNode (t.loop.calls.length - 1)).result) :
    let retried := retryFailed env executionData runIndex triesLeft result t
    retried.2.1 = (env.runNode (retried.2.2.loop.calls.length - 1)).result := by
  induction triesLeft generalizing result t with
  | zero => exact h
  | succ triesLeft ih =>
    have hcall : (callRunNode env executionData runIndex none t).1
        = (env.runNode ((callRunNode env executionData runIndex none t).2.loop.calls.length
          - 1)).result := by
      simp [callRunNode]
    rw [retryFailed]
    split
    · split
      · next e t' heq =>
        rw [heq] at hcall
        exact hcall
      · next result' t' _ heq =>
        rw [heq] at hcall
        exact ih hcall
    · exact h

theorem finishTry_ne_requested (t : TryState) :
    (finishTry executionData node t).2 ≠ .requested := by
  rw [finishTry]
  split
  · exact TryEnd.noConfusion
  · dsimp only
    split
    all_goals
      split
      all_goals
        first
        | exact TryEnd.noConfusion
        | (dsimp only; split <;> exact TryEnd.noConfusion)

theorem routeErrors_ne_requested (t : TryState) :
    (routeErrors env executionData node t).2 ≠ .requested := by
  rw [routeErrors]
  split
  · exact finishTry_ne_requested executionData node t
  · split
    · split
      · exact TryEnd.noConfusion
      · exact finishTry_ne_requested executionData node _
    · exact finishTry_ne_requested executionData node t

/-- The request of the last call is handed on to the engine. -/
structure Requests (env : ExecutionEnvironment) (executionData : IExecuteData) (node : INode)
    (runIndex : ℕ) (loop : LoopState) (request : EngineRequest)
    (out : Outcome JsError (IRunExecutionData × Dict String NodeConnectionType)) : Prop where
  result : (env.runNode (loop.calls.length - 1)).result = .request request
  handled : handleEngineRequest env.workflow node runIndex executionData request loop.ed
    loop.rewireOutputLogTo = out

theorem tryOnce_cases (triesLeft : ℕ) (t : TryState) :
    let after := tryOnce env executionData node runIndex triesLeft t
    (OnlyCalls t.loop after.2.1.loop ∧ after.2.2 ≠ .requested) ∨
    ∃ loop request out, OnlyCalls t.loop loop ∧ t.loop.calls.length < loop.calls.length ∧
      Requests env executionData node runIndex loop request out ∧
      after.2.1.loop = { loop with ed := out.state.1, rewireOutputLogTo := out.state.2 } ∧
      after.2.2 = match out with
        | .returned _ => .requested
        | .threw e _ => .failed e.toExecutionError := by
  intro after
  have hafter : after = tryOnce env executionData node runIndex triesLeft t := rfl
  rw [tryOnce] at hafter
  split at hafter
  · next items hpinned =>
    rw [hafter]
    exact Or.inl ⟨onlyCalls_finishTry executionData node
      { t with nodeSuccessData := some [.data items] }, finishTry_ne_requested executionData node _⟩
  · dsimp only at hafter
    set t₁ := addResponses executionData t with ht₁
    set call := callRunNode env executionData runIndex (some t₁.subNodeExecutionResults) t₁
      with hcall
    set retried := retryFailed env executionData runIndex triesLeft call.1 call.2 with hretried
    have hloop : OnlyCalls t.loop retried.2.2.loop := by
      have h := (onlyCalls_callRunNode env executionData runIndex
        (some t₁.subNodeExecutionResults) t₁).trans
          (onlyCalls_retryFailed env executionData runIndex triesLeft call.1 call.2)
      rw [ht₁, loop_addResponses] at h
      exact h
    have hcalls : t.loop.calls.length < retried.2.2.loop.calls.length := by
      have h :=
        (onlyCalls_retryFailed env executionData runIndex triesLeft call.1 call.2).calls.length_le
      have hone : call.2.loop.calls.length = t.loop.calls.length + 1 := by
        rw [hcall, ← loop_addResponses executionData t]
        simp [callRunNode, ht₁]
      rw [← hretried] at h
      omega
    have hresult : retried.2.1 = (env.runNode (retried.2.2.loop.calls.length - 1)).result :=
      retryFailed_result env executionData runIndex (by rw [hcall]; simp [callRunNode])
    rcases hres : retried.2.1 with e | request | data
    · rw [hafter, hres]
      exact Or.inl ⟨hloop, TryEnd.noConfusion⟩
    · rw [hres] at hresult
      refine Or.inr ⟨retried.2.2.loop, request, _, hloop, hcalls, ⟨hresult.symm, rfl⟩, ?_⟩
      rw [hafter, hres, handleResult]
      rcases handleEngineRequest env.workflow node runIndex executionData request
        retried.2.2.loop.ed retried.2.2.loop.rewireOutputLogTo with ⟨ed, rewire⟩ | ⟨e, ed, rewire⟩
      · exact ⟨rfl, rfl⟩
      · exact ⟨rfl, rfl⟩
    · rw [hafter, hres]
      exact Or.inl ⟨hloop.trans (onlyCalls_routeErrors env executionData node
        { retried.2.2 with nodeSuccessData := data }),
        routeErrors_ne_requested env executionData node _⟩

theorem executionError_tryOnce (triesLeft : ℕ) (t : TryState) :
    (tryOnce env executionData node runIndex triesLeft t).2.1.loop.executionError
      = t.loop.executionError := by
  rcases tryOnce_cases env executionData node runIndex triesLeft t with
    ⟨hcalls, -⟩ | ⟨loop, request, out, hcalls, -, -, hloop, -⟩
  · rw [hcalls.eq]
  · rw [hloop, hcalls.eq]

theorem calls_tryOnce (triesLeft : ℕ) (t : TryState) :
    t.loop.calls <+: (tryOnce env executionData node runIndex triesLeft t).2.1.loop.calls := by
  rcases tryOnce_cases env executionData node runIndex triesLeft t with
    ⟨hcalls, -⟩ | ⟨loop, request, out, hcalls, -, -, hloop, -⟩
  · exact hcalls.calls
  · rw [hloop]
    exact hcalls.calls

variable {env executionData node runIndex}

section

variable {rounds triesLeft : ℕ} {t t' : TryState} {triesEnd : TriesEnd}

theorem tries_succ
    (h : tries env executionData node runIndex (rounds + 1) (triesLeft + 1) t = (t', triesEnd)) :
    let first := tryOnce env executionData node runIndex triesLeft t.reset
    (first.2.1 = t' ∧ ((first.2.2 = .done ∧ triesEnd = .done) ∨
      (first.2.2 = .nullData ∧ triesEnd = .nullData) ∨
      (first.2.2 = .requested ∧ triesEnd = .requested))) ∨
    ∃ e, first.2.2 = .failed e ∧ tries env executionData node runIndex rounds first.1
      (first.2.1.caught e node.name) = (t', triesEnd) := by
  intro first
  rw [tries] at h
  have hfirst : tryOnce env executionData node runIndex triesLeft t.reset = first := rfl
  rw [hfirst] at h
  rcases first with ⟨left, t₁, tryEnd⟩
  cases tryEnd with
  | done =>
    cases h
    exact Or.inl ⟨rfl, Or.inl ⟨rfl, rfl⟩⟩
  | nullData =>
    cases h
    exact Or.inl ⟨rfl, Or.inr (Or.inl ⟨rfl, rfl⟩)⟩
  | requested =>
    cases h
    exact Or.inl ⟨rfl, Or.inr (Or.inr ⟨rfl, rfl⟩)⟩
  | failed e => exact Or.inr ⟨e, rfl, h⟩

theorem tries_error
    (h : tries env executionData node runIndex rounds triesLeft t = (t', triesEnd))
    (hend : triesEnd ≠ .done) : t'.loop.executionError = none := by
  induction rounds generalizing triesLeft t with
  | zero =>
    cases h
    exact absurd rfl hend
  | succ rounds ih =>
    rcases triesLeft with _ | triesLeft
    · cases h
      exact absurd rfl hend
    · rcases tries_succ h with ⟨rfl, -⟩ | ⟨e, -, h⟩
      · exact executionError_tryOnce env executionData node runIndex triesLeft _
      · exact ih h

theorem calls_tries
    (h : tries env executionData node runIndex rounds triesLeft t = (t', triesEnd)) :
    t.loop.calls <+: t'.loop.calls := by
  induction rounds generalizing triesLeft t with
  | zero =>
    cases h
    exact List.prefix_refl _
  | succ rounds ih =>
    rcases triesLeft with _ | triesLeft
    · cases h
      exact List.prefix_refl _
    · have hfirst := calls_tryOnce env executionData node runIndex triesLeft t.reset
      rcases tries_succ h with ⟨rfl, -⟩ | ⟨e, -, h⟩
      · exact hfirst
      · have hrest : (TryState.caught _ e node.name).loop.calls <+: t'.loop.calls := ih h
        exact hfirst.trans hrest

end

/-- **What all tries keep.**  An invariant of the calls of `runNode`, of a
failed try and of a request that throws holds when the loop ends, and if it
ends in a request, it holds when the request is handed on. -/
theorem tries_invariant {I : LoopState → Prop} {rounds triesLeft : ℕ} {t t' : TryState}
    {triesEnd : TriesEnd} (hcalls : ∀ a b, I a → OnlyCalls a b → I b)
    (hfailed : ∀ a e last, I a →
      I { a with executionError := e, ed := { a.ed with lastNodeExecuted := last } })
    (hthrew : ∀ loop request e ed rewire, I loop → t.loop.calls.length < loop.calls.length →
      loop.calls.length ≤ t'.loop.calls.length →
      Requests env executionData node runIndex loop request (.threw e (ed, rewire)) →
      I { loop with ed := ed, rewireOutputLogTo := rewire })
    (ht : I t.loop)
    (h : tries env executionData node runIndex rounds triesLeft t = (t', triesEnd)) :
    (triesEnd ≠ .requested ∧ I t'.loop) ∨
    (triesEnd = .requested ∧ ∃ loop request ed rewire, I loop ∧
      t.loop.calls.length < loop.calls.length ∧
      Requests env executionData node runIndex loop request (.returned (ed, rewire)) ∧
      t'.loop = { loop with ed := ed, rewireOutputLogTo := rewire }) := by
  induction rounds generalizing triesLeft t with
  | zero =>
    cases h
    exact Or.inl ⟨TriesEnd.noConfusion, ht⟩
  | succ rounds ih =>
    rcases triesLeft with _ | triesLeft
    · cases h
      exact Or.inl ⟨TriesEnd.noConfusion, ht⟩
    · have hreset : I t.reset.loop := hfailed t.loop none t.loop.ed.lastNodeExecuted ht
      have hmono := calls_tryOnce env executionData node runIndex triesLeft t.reset
      have hfirst := tryOnce_cases env executionData node runIndex triesLeft t.reset
      have hsucc := tries_succ h
      set first := tryOnce env executionData node runIndex triesLeft t.reset
      have hlength : t.loop.calls.length ≤ first.2.1.loop.calls.length := hmono.length_le
      rcases hsucc with ⟨hend, hkind⟩ | ⟨e, hfail, h⟩
      · rcases hfirst with ⟨honly, hne⟩ | ⟨loop, request, out, honly, hlt, hrequest, hloop, hout⟩
        · have hI : I t'.loop := hend ▸ hcalls _ _ hreset honly
          rcases hkind with ⟨-, rfl⟩ | ⟨-, rfl⟩ | ⟨hreq, -⟩
          · exact Or.inl ⟨TriesEnd.noConfusion, hI⟩
          · exact Or.inl ⟨TriesEnd.noConfusion, hI⟩
          · exact absurd hreq hne
        · rcases out with ⟨ed, rewire⟩ | ⟨e, ed, rewire⟩
          · refine Or.inr ⟨?_, loop, request, ed, rewire, hcalls _ _ hreset honly, hlt, hrequest,
              by rw [← hend, hloop]; rfl⟩
            rw [hout] at hkind
            rcases hkind with ⟨hkind, -⟩ | ⟨hkind, -⟩ | ⟨-, hkind⟩
            · cases hkind
            · cases hkind
            · exact hkind
          · rw [hout] at hkind
            rcases hkind with ⟨hkind, -⟩ | ⟨hkind, -⟩ | ⟨hkind, -⟩ <;> cases hkind
      · have hafter : first.2.1.loop.calls.length ≤ t'.loop.calls.length :=
          (calls_tries h).length_le
        -- the request of a failed try threw
        have hI : I first.2.1.loop := by
          rcases hfirst with ⟨honly, -⟩ | ⟨loop, request, out, honly, hlt, hrequest, hloop, hout⟩
          · exact hcalls _ _ hreset honly
          · rcases out with ⟨ed, rewire⟩ | ⟨e', ed, rewire⟩
            · rw [hout] at hfail
              cases hfail
            · rw [hloop]
              refine hthrew loop request e' ed rewire (hcalls _ _ hreset honly) hlt ?_ hrequest
              rw [hloop] at hafter
              exact hafter
        have hmore : ∀ loop : LoopState, first.2.1.loop.calls.length < loop.calls.length →
            t.loop.calls.length < loop.calls.length := fun loop hlt => by omega
        have hcaught : I (first.2.1.caught e node.name).loop :=
          hfailed _ (some e) (some node.name) hI
        have hrest := ih (t := first.2.1.caught e node.name) (fun loop request e ed rewire hI hlt hle hrequest =>
          hthrew loop request e ed rewire hI (hmore loop hlt) hle hrequest) hcaught h
        refine hrest.imp_right fun ⟨hend, loop, request, ed, rewire, hI, hlt, hreq, heq⟩ => ?_
        exact ⟨hend, loop, request, ed, rewire, hI, hmore loop hlt, hreq, heq⟩

end Spec

end N8n
