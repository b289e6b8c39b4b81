/-
The execution loop of `processRunExecutionData`.

One round takes an item from the stack (`round`), skips it or tries to execute
its node (`executeItem`), records the result (`recordResult`), delivers it to
the next nodes, and ends with the end-of-stack pass (`deliverOutput`).  A round
goes on, stops the loop, or throws (`RoundEnd`); the loop runs while there are
items on the stack (`Ends`).

Cancellation and time are left out, and the hooks do not throw.
-/
import N8n.EndOfStack

namespace N8n

namespace Workflow

/-- `getHighestNode`, with the names checked so far.  Each level of calls
checks one more node with main inputs, which bounds their depth. -/
def highestNodes (w : Workflow) : ℕ → String → Option ℕ → List String →
    Except JsError (List String × List String)
  | 0, _, _, checkedNodes => .ok ([], checkedNodes)
  | depth + 1, nodeName, nodeConnectionIndex, checkedNodes =>
    match w.getNode nodeName with
    | none => .error .typeError
    | some node =>
      let currentHighest := if node.disabled = some false then [nodeName] else []
      match w.mainInputs nodeName with
      | none => .ok (currentHighest, checkedNodes)
      | some slots =>
        if nodeName ∈ checkedNodes then .ok (currentHighest, checkedNodes)
        else
          let connections := (slots.zipIdx.filter fun slot =>
            nodeConnectionIndex.all (· = slot.2)).flatMap fun slot => slot.1.getD []
          connections.foldlM (fun (returnNodes, checkedNodes) connection =>
            if connection.node ∈ checkedNodes then .ok (returnNodes, checkedNodes)
            else match w.getNode connection.node with
              | none => .ok (returnNodes, checkedNodes)
              | some parent => do
                let (addNodes, checkedNodes) ←
                  highestNodes w depth connection.node none checkedNodes
                let addNodes := if addNodes = [] ∧ parent.disabled ≠ some true then
                  [connection.node] else addNodes
                return (returnNodes ++ addNodes.filter (· ∉ returnNodes), checkedNodes))
            ([], nodeName :: checkedNodes)

def getHighestNode (w : Workflow) (nodeName : String) (nodeConnectionIndex : Option ℕ) :
    Except JsError (List String) :=
  (w.highestNodes (w.connectionsByDestinationNode.keys.length + 2) nodeName nodeConnectionIndex
    []).map Prod.fst

end Workflow

def resolveSourceOverwrite (item : INodeExecutionData) (executionData : IExecuteData) :
    Option ISourceData :=
  match executionData.metadata with
  | none => none
  | some metadata =>
    if metadata.preserveSourceOverwrite then
      match metadata.preservedSourceOverwrite, item.pairedItem with
      | some preserved, _ => some preserved
      | none, some (.origin data) => data.sourceOverwrite
      | none, _ => none
    else none

/-- The input data with the `pairedItem` of each item set anew. -/
def updatePairedItems (executionData : IExecuteData) : ITaskDataConnections :=
  executionData.data.mapValues fun inputs => inputs.zipIdx.map fun input =>
    match input.1 with
    | .data items => .data (items.zipIdx.map fun item => { item.1 with
        pairedItem := some (.origin {
          item := item.2
          input := if input.2 = 0 then none else some input.2
          sourceOverwrite := resolveSourceOverwrite item.1 executionData }) })
    | slot => slot

def currentRunIndex (ed : IRunExecutionData) (executionData : IExecuteData) (nodeName : String) :
    ℕ :=
  executionData.runIndex.getD (((ed.runData.get? nodeName).map (·.length)).getD 0)

def ensureInputs (w : Workflow) (nodeName : String) (data : ITaskDataConnections) :
    List ℕ → Except JsError Bool
  | [] => .ok true
  | connectionIndex :: rest =>
    match w.getHighestNode nodeName (some connectionIndex) with
    | .error e => .error e
    -- all nodes in front are disabled
    | .ok [] => .ok true
    | .ok (_ :: _) => match data.get? .main with
      | none => .ok false
      | some main =>
        if w.isLegacyExecutionOrder ∧
            (main.length < connectionIndex ∨ main[connectionIndex]? = some .null) then .ok false
        else ensureInputs w nodeName data rest

/-- `ensureInputData` without the item being put back on the stack. -/
def ensureInputData (w : Workflow) (nodeName : String) (data : ITaskDataConnections) :
    Except JsError Bool :=
  ensureInputs w nodeName data (List.range (w.numberOfInputs nodeName))

def continuesOnFail (node : INode) : Bool :=
  node.continueOnFail = some true || node.onError = some .continueRegularOutput
    || node.onError = some .continueErrorOutput

def passThrough (executionData : IExecuteData) (nodeSuccessData : Option (List (Slot Items))) :
    Option (List (Slot Items)) :=
  match executionData.data.get? .main with
  | some (.null :: _) => nodeSuccessData
  | some (input :: _) => some [input]
  | _ => nodeSuccessData

def asString : JsValue → Option String
  | .string s => some s
  | _ => none

def mergeItemError (lineResult : INodeExecutionData) : Except JsError INodeExecutionData :=
  let error := lineResult.json.get "$error"
  if error ≠ .undefined ∧ lineResult.json.get "$json" ≠ .undefined then
    if error = .null then .error .typeError
    else .ok { lineResult with
      error := some ⟨asString (error.get "name"), asString (error.get "message")⟩
      json := .object [("error", error.get "message")] }
  else match lineResult.error with
    | none => .ok lineResult
    | some e => .ok { lineResult with
        json := .object [("error", (e.message.map JsValue.string).getD .undefined)] }

/-- The loop over the items of an output; it throws if there is no array. -/
def mergeExecution : Slot Items → Except JsError (Slot Items)
  | .data items => (items.mapM mergeItemError).map .data
  | _ => .error .typeError

def mergeErrors (nodeSuccessData : Option (List (Slot Items))) :
    Except JsError (List (Slot Items)) :=
  match nodeSuccessData with
  | none => .error .typeError
  | some outputs => outputs.mapM mergeExecution

def assignTask (current task : ITaskData) : ITaskData where
  source := task.source
  data := task.data.orElse fun _ => current.data
  inputOverride := task.inputOverride.orElse fun _ => current.inputOverride
  error := task.error.orElse fun _ => current.error
  metadata := task.metadata
  executionStatus := task.executionStatus

/-- The task is merged into the entry at its run index, or pushed. -/
def recordTask (runData : IRunData) (nodeName : String) (runIndex : ℕ) (task : ITaskData) :
    IRunData :=
  let runs := (runData.get? nodeName).getD []
  runData.set nodeName (if runIndex < runs.length then
    runs.modify runIndex (fun current => assignTask current task) else runs ++ [task])

/-- The output under the connection type the node's log is rewired to. -/
def rewireTask (s : LoopState) (nodeName : String) (runIndex : ℕ) (outputs : List (Slot Items))
    (task : ITaskData) : ITaskData :=
  match s.rewireOutputLogTo.get? nodeName with
  | none => task
  | some type => { task with
      inputOverride := some
        (((((s.ed.runData.get? nodeName).getD [])[runIndex]?).bind (·.inputOverride)).getD
          Dict.empty)
      data := some (Dict.empty.set type outputs) }

/-- The connections of all main outputs, with the output they belong to. -/
def outputConnections (w : Workflow) (nodeName : String) : List (ℕ × IConnection) :=
  ((((w.connectionsBySourceNode.get? nodeName).bind (·.get? .main)).getD []).zipIdx).flatMap
    fun slot => (slot.1.getD []).map (slot.2, ·)

/-- The output has items, or is empty and feeds a further input in the legacy
order. -/
def receives (w : Workflow) (nodeSuccessData : List (Slot Items)) (o : ℕ × IConnection) : Bool :=
  match Slot.read nodeSuccessData o.1 with
  | .data items => items ≠ [] ∨ (0 < o.2.index ∧ w.isLegacyExecutionOrder)
  | _ => false

/-- The comparison of two connections by the place of their nodes: the node
that is further down, or further right in the same row, comes first. -/
def comesAfter (w : Workflow) (a b : ℕ × IConnection) : Bool :=
  let position (o : ℕ × IConnection) := ((w.getNode o.2.node).map (·.position)).getD (0, 0)
  (position a).2 < (position b).2
    ∨ ((position a).2 = (position b).2 ∧ (position a).1 < (position b).1)

def outputDelivery (nodeName : String) (nodeSuccessData : List (Slot Items)) (runIndex : ℕ)
    (o : ℕ × IConnection) : Delivery where
  connectionData := o.2
  outputIndex := o.1
  parentNodeName := nodeName
  nodeSuccessData := some nodeSuccessData
  runIndex := runIndex

def addAll (w : Workflow) (ed : IRunExecutionData) (ds : List Delivery) :
    Outcome JsError IRunExecutionData := Outcome.each (addNodeToBeExecuted w) ed ds

/-- The v1 order: all connections are looked at first, then the deliveries are
made in the order of the places. -/
def addOutputsV1 (w : Workflow) (ed : IRunExecutionData) (deliveryOf : ℕ × IConnection → Delivery)
    (nodeSuccessData : List (Slot Items)) (outputs : List (ℕ × IConnection)) :
    Outcome JsError IRunExecutionData :=
  if outputs.all fun o => w.nodes.has o.2.node then
    addAll w ed (((outputs.filter (receives w nodeSuccessData)).insertionSort
      (fun a b => ¬ comesAfter w a b)).map deliveryOf)
  else .threw (.raised "Destination node not found") ed

/-- The legacy order: each connection is looked at when its turn comes. -/
def addOutputsLegacy (w : Workflow) (deliveryOf : ℕ × IConnection → Delivery)
    (nodeSuccessData : List (Slot Items)) :
    IRunExecutionData → List (ℕ × IConnection) → Outcome JsError IRunExecutionData
  | ed, [] => .returned ed
  | ed, o :: outputs =>
    if w.nodes.has o.2.node then
      (if receives w nodeSuccessData o then addNodeToBeExecuted w ed (deliveryOf o)
        else .returned ed).andThen fun ed =>
          addOutputsLegacy w deliveryOf nodeSuccessData ed outputs
    else .threw (.raised "Destination node not found") ed

def addOutputs (w : Workflow) (ed : IRunExecutionData) (nodeName : String)
    (nodeSuccessData : List (Slot Items)) (runIndex : ℕ) : Outcome JsError IRunExecutionData :=
  let deliveryOf := outputDelivery nodeName nodeSuccessData runIndex
  if w.isLegacyExecutionOrder then
    addOutputsLegacy w deliveryOf nodeSuccessData ed (outputConnections w nodeName)
  else addOutputsV1 w ed deliveryOf nodeSuccessData (outputConnections w nodeName)

/-- How a round ends: the loop goes on, it was left by a `break`, or its body
threw. -/
inductive RoundEnd where
  | continued (s : LoopState)
  | stopped (s : LoopState)
  | threw (e : JsError) (s : LoopState)
  deriving DecidableEq

def RoundEnd.state : RoundEnd → LoopState
  | continued s => s
  | stopped s => s
  | threw _ s => s

def RoundEnd.goesOn : RoundEnd → Bool
  | continued _ => true
  | _ => false

theorem RoundEnd.eq_continued {r : RoundEnd} (h : r.goesOn = true) : r = .continued r.state := by
  cases r <;> first | rfl | cases h

/-- The end of the loop body, from an outcome of its last steps. -/
def RoundEnd.ofOutcome (s : LoopState) : Outcome JsError IRunExecutionData → RoundEnd
  | .returned ed => continued { s with ed := ed }
  | .threw e ed => threw e { s with ed := ed }

section

variable (env : ExecutionEnvironment) (executionData : IExecuteData) (node : INode) (runIndex : ℕ)

variable (s : LoopState)

def baseTask : ITaskData where
  source := (executionData.source.bind (·.get? .main)).getD []
  metadata := executionData.metadata
  executionStatus := some (if s.ed.waitTill then .waiting else .success)

/-- Where the recording of a result leads: an output to deliver, or the end of
the round. -/
inductive Recorded where
  | output (s : LoopState) (nodeSuccessData : List (Slot Items))
  | stopped (s : LoopState)
  | threw (e : JsError) (s : LoopState)

/-- The errors are merged into the output, and the task is recorded with it. -/
def recordOutput (task : ITaskData) (nodeSuccessData : Option (List (Slot Items))) : Recorded :=
  match mergeErrors nodeSuccessData with
  | .error e => .threw e s
  | .ok outputs =>
    let task := rewireTask s node.name runIndex outputs
      { task with data := some (mainOnly outputs) }
    .output { s with ed := { s.ed with
      runData := recordTask s.ed.runData node.name runIndex task } } outputs

/-- The node failed and may not continue: the loop stops, with the item back on
the stack. -/
def stopWithError (task : ITaskData) (e : ExecutionError) : Recorded :=
  let message : JsValue := (e.message.map JsValue.string).getD .undefined
  let task := rewireTask s node.name runIndex
    [.data [{ json := .object [("error", message)] }]] task
  .stopped { s with ed := { s.ed with
    runData := recordTask s.ed.runData node.name runIndex task
    nodeExecutionStack := executionData :: s.ed.nodeExecutionStack } }

/-- `runData[node]` is there from now on. -/
def openRuns (nodeName : String) : LoopState :=
  if s.ed.runData.has nodeName then s
  else { s with ed := { s.ed with runData := s.ed.runData.set nodeName [] } }

def recordResult (nodeSuccessData : Option (List (Slot Items))) : Recorded :=
  let s := openRuns s node.name
  let task := baseTask executionData s
  match s.executionError with
  | none => recordOutput node runIndex s task nodeSuccessData
  | some e =>
    let task := { task with error := some e, executionStatus := some .error }
    if continuesOnFail node then
      recordOutput node runIndex s task (passThrough executionData nodeSuccessData)
    else stopWithError executionData node runIndex s task e

/-- The deliveries and the pass at the end of the body. -/
def deliverOutput (nodeSuccessData : List (Slot Items)) : Outcome JsError IRunExecutionData :=
  (addOutputs env.workflow s.ed node.name nodeSuccessData runIndex).andThen fun ed =>
    if ed.nodeExecutionStack = [] ∧ ed.waitingExecution.keys ≠ [] then endOfStackPass env ed
    else .returned ed

/-- The body after the task was recorded. -/
def afterRecord (nodeSuccessData : List (Slot Items)) : RoundEnd :=
  if s.ed.waitTill then
    .stopped { s with ed := { s.ed with
      nodeExecutionStack := executionData :: s.ed.nodeExecutionStack } }
  else if s.ed.destinationNode = some node.name then .continued s
  else .ofOutcome s (deliverOutput env node runIndex s nodeSuccessData)

def executeItem : RoundEnd :=
  match runTries env executionData node runIndex s with
  | (t, .nullData) => .continued t.loop
  | (t, .requested) => .continued t.loop
  | (t, .done) => match recordResult executionData node runIndex t.loop t.nodeSuccessData with
    | .output s outputs => afterRecord env executionData node runIndex s outputs
    | .stopped s => .stopped s
    | .threw e s => .threw e s

/-- What a round does with the item it took. -/
inductive Intake where
  | execute (executionData : IExecuteData) (node : INode) (runIndex : ℕ)
  | skip (s : LoopState)
  | throw (e : JsError)

def Intake.node? : Intake → Option INode
  | execute _ node _ => some node
  | _ => none

def currentExecutionTry (nodeName : String) (runIndex : ℕ) : String :=
  nodeName ++ ":" ++ toString runIndex

/-- The checks made before the node of an item is executed. -/
def intake (item : IExecuteData) : Intake :=
  match item.node with
  | none => .throw .typeError
  | some node =>
    let executionData := { item with data := updatePairedItems item }
    let runIndex := currentRunIndex s.ed item node.name
    if currentExecutionTry node.name runIndex = s.lastExecutionTry then
      .throw (.raised "Stopped execution because it seems to be in an endless loop")
    else if s.ed.runNodeFilter.any (node.name ∉ ·) then .skip s
    else match ensureInputData env.workflow node.name executionData.data with
      | .error e => .throw e
      | .ok true => .execute executionData node runIndex
      | .ok false => .skip { s with
          lastExecutionTry := currentExecutionTry node.name runIndex
          ed := { s.ed with nodeExecutionStack := s.ed.nodeExecutionStack ++ [executionData] } }

def LoopState.taken (rest : List IExecuteData) : LoopState :=
  { s with executionError := none, ed := { s.ed with nodeExecutionStack := rest } }

def round (item : IExecuteData) (rest : List IExecuteData) : RoundEnd :=
  match intake env (s.taken rest) item with
  | .throw e => .threw e (s.taken rest)
  | .skip s => .continued s
  | .execute executionData node runIndex =>
    executeItem env executionData node runIndex (s.taken rest)

end

/-- A round that goes on. -/
def Round (env : ExecutionEnvironment) (s t : LoopState) : Prop :=
  ∃ item rest, s.ed.nodeExecutionStack = item :: rest ∧ round env s item rest = .continued t

abbrev Rounds (env : ExecutionEnvironment) : LoopState → LoopState → Prop :=
  Relation.ReflTransGen (Round env)

/-- How the loop ends: the stack is empty, a `break`, or an error. -/
inductive Ends (env : ExecutionEnvironment) (s₀ : LoopState) : RoundEnd → Prop
  | emptied {s} : Rounds env s₀ s → s.ed.nodeExecutionStack = [] → Ends env s₀ (.continued s)
  | stopped {s item rest t} : Rounds env s₀ s → s.ed.nodeExecutionStack = item :: rest →
      round env s item rest = .stopped t → Ends env s₀ (.stopped t)
  | threw {s item rest e t} : Rounds env s₀ s → s.ed.nodeExecutionStack = item :: rest →
      round env s item rest = .threw e t → Ends env s₀ (.threw e t)

variable {env : ExecutionEnvironment}

theorem rounds_iff {s s' t : LoopState} {item : IExecuteData}
    {rest : List IExecuteData} (hstack : s.ed.nodeExecutionStack = item :: rest)
    (hround : round env s item rest = .continued s') :
    Rounds env s t ↔ t = s ∨ Rounds env s' t := by
  rw [Rounds, Relation.ReflTransGen.cases_head_iff, eq_comm]
  refine or_congr_right ⟨?_, ?_⟩
  · rintro ⟨s'', ⟨item', rest', hstack', hround'⟩, hrounds⟩
    rw [hstack] at hstack'
    cases hstack'
    rw [hround] at hround'
    exact RoundEnd.continued.inj hround' ▸ hrounds
  · exact fun hrounds => ⟨s', ⟨item, rest, hstack, hround⟩, hrounds⟩

theorem rounds_of_nil {s t : LoopState}
    (hstack : s.ed.nodeExecutionStack = []) : Rounds env s t ↔ t = s := by
  rw [Rounds, Relation.ReflTransGen.cases_head_iff, eq_comm, or_iff_left_iff_imp]
  rintro ⟨_, ⟨item, rest, hcons, -⟩, -⟩
  rw [hstack] at hcons
  cases hcons

/-- The loop for a number of rounds, `none` if it goes on after them. -/
def runLoop (env : ExecutionEnvironment) : ℕ → LoopState → Option RoundEnd
  | 0, _ => none
  | rounds + 1, s => match s.ed.nodeExecutionStack with
    | [] => some (.continued s)
    | item :: rest => match round env s item rest with
      | .continued t => runLoop env rounds t
      | roundEnd => some roundEnd

end N8n
