/-
Engine requests: a node asks the engine to execute other nodes for it.

`handleRequest` reserves a slot of `runData` for each requested action
(`prepareAction`) and lists the nodes to put on the stack: the requesting node,
which is to be resumed with the results, and the requested nodes after it.
`handleEngineRequest` enqueues the list in this order.

* `prepareAction_eq_ok` — what is reserved and collected for one action.
-/
import N8n.AddNodeToBeExecuted

namespace N8n

structure NodeToBeExecuted where
  inputConnectionData : IConnection
  parentOutputIndex : ℕ
  parentNode : String
  -- `data.main` of the requesting node, which may be missing
  parentOutputData : Option (List (Slot Items))
  runIndex : ℕ
  nodeRunIndex : ℕ
  metadata : Option ITaskMetadata := none
  deriving DecidableEq

/-- The argument list of the call of `addNodeToBeExecuted`. -/
def NodeToBeExecuted.delivery (n : NodeToBeExecuted) : Delivery where
  connectionData := n.inputConnectionData
  outputIndex := n.parentOutputIndex
  parentNodeName := n.parentNode
  nodeSuccessData := n.parentOutputData
  runIndex := n.runIndex
  newRunIndex := some n.nodeRunIndex
  metadata := n.metadata

def buildParentOutputData (json : List (String × JsValue)) (parentRunIndex parentOutputIndex : ℕ)
    (parentSourceNode : String) : List (Slot Items) :=
  [.data [{
    json := .object json
    pairedItem := some (.origin {
      item := parentRunIndex
      input := some parentOutputIndex
      sourceOverwrite := some ⟨parentSourceNode, some parentOutputIndex, some parentRunIndex⟩ }) }]]

/-- What the loop over the actions has changed and collected so far.
`rewireOutputLogTo` holds that field of the nodes of the workflow. -/
structure Prepared where
  runData : IRunData
  rewireOutputLogTo : Dict String NodeConnectionType
  nodesToBeExecuted : List NodeToBeExecuted := []
  actions : List SubNodeExecutionDataAction := []

/-- `metadata.parentNodeName`, if it is given and not empty. -/
def ActionMetadata.customParent (m : ActionMetadata) : Option String :=
  m.parentNodeName.filter (· ≠ "")

section

variable (w : Workflow) (currentNode : INode) (runIndex : ℕ) (executionData : IExecuteData)

def parentSourceData : Option ISourceData :=
  (Slot.read ((executionData.source.bind (·.get? .main)).getD []) runIndex).toOption

def defaultParentOutputIndex : ℕ :=
  ((parentSourceData runIndex executionData).bind (·.previousNodeOutput)).getD 0

def defaultParentSourceNode : String :=
  ((parentSourceData runIndex executionData).map (·.previousNode)).getD currentNode.name

def parentRunIndex (runData : IRunData) (action : ExecuteNodeAction) : ℕ :=
  match action.metadata.customParent with
  | some parent => ((runData.get? parent).map (·.length)).getD 1 - 1
  | none => ((parentSourceData runIndex executionData).bind (·.previousNodeRun)).getD 0

/-- `{ ...agentInputData.json, ...action.input, toolCallId: action.id }`. -/
def mergedJson (action : ExecuteNodeAction) : List (String × JsValue) :=
  let items := (Slot.read ((executionData.data.get? .main).getD []) 0).toOption.getD []
  let agentInputData := items[action.metadata.itemIndex.getD 0]?
  JsValue.setField
    (JsValue.spread ((agentInputData.map (·.json.fields)).getD []) action.input)
    "toolCallId" (.string action.id)

/-- The entry that `initializeNodeRunData` pushes for an action. -/
def placeholder (runData : IRunData) (action : ExecuteNodeAction)
    (parentOutputData : List (Slot Items)) : ITaskData where
  inputOverride := some (Dict.empty.set .aiTool parentOutputData)
  source := [.data {
    previousNode := action.metadata.parentNodeName.getD currentNode.name
    previousNodeOutput := some (defaultParentOutputIndex runIndex executionData)
    previousNodeRun := some (if action.metadata.customParent.isSome then
      parentRunIndex runIndex executionData runData action else runIndex) }]

/-- `initializeNodeRunData`, and the index of the entry. -/
def initializeNodeRunData (runData : IRunData) (nodeName : String) (task : ITaskData) :
    IRunData × ℕ :=
  let nodeRunData := (runData.get? nodeName).getD []
  (runData.set nodeName (nodeRunData ++ [task]), nodeRunData.length)

def prepareAction (s : Prepared) (action : ExecuteNodeAction) : Except JsError Prepared :=
  match w.getNode action.nodeName with
  | none => .error (.raised
      ("Workflow does not contain a node with the name of \"" ++ action.nodeName ++ "\"."))
  | some node =>
    let runIndexOfParent := parentRunIndex runIndex executionData s.runData action
    let parentOutputData := buildParentOutputData (mergedJson executionData action)
      runIndexOfParent (defaultParentOutputIndex runIndex executionData)
      (defaultParentSourceNode currentNode runIndex executionData)
    let task := placeholder currentNode runIndex executionData s.runData action parentOutputData
    let (runData, nodeRunIndex) := initializeNodeRunData s.runData node.name task
    .ok {
      runData := runData
      rewireOutputLogTo := s.rewireOutputLogTo.set node.name action.type
      nodesToBeExecuted := s.nodesToBeExecuted ++ [{
        inputConnectionData := ⟨action.nodeName, action.type, 0⟩
        parentOutputIndex := 0
        parentNode := action.metadata.parentNodeName.getD currentNode.name
        parentOutputData := some parentOutputData
        runIndex := if action.metadata.customParent.isSome then runIndexOfParent else runIndex
        nodeRunIndex := nodeRunIndex
        metadata := some {
          preserveSourceOverwrite := true
          preservedSourceOverwrite :=
            match executionData.metadata.bind (·.preservedSourceOverwrite) with
            | some preserved => some preserved
            | none => some {
              previousNode := defaultParentSourceNode currentNode runIndex executionData
              previousNodeOutput := some (defaultParentOutputIndex runIndex executionData)
              previousNodeRun := some runIndexOfParent } } }]
      actions := s.actions ++ [{
        action := action
        nodeName := action.nodeName
        runIndex := nodeRunIndex }] }

variable (request : EngineRequest)

def prepareRequestedNodes (runData : IRunData)
    (rewireOutputLogTo : Dict String NodeConnectionType) : Outcome JsError Prepared :=
  Outcome.forEach (prepareAction w currentNode runIndex executionData)
    { runData := runData, rewireOutputLogTo := rewireOutputLogTo } request.actions

/-- `executionData.source?.main?.[0]?.previousNode`, if it is not empty. -/
def resumeParent : Option String :=
  ((Slot.read ((executionData.source.bind (·.get? .main)).getD []) 0).toOption.map
    (·.previousNode)).filter (· ≠ "")

def resumeMetadata (subNodeExecutionData : SubNodeExecutionData) : ITaskMetadata where
  nodeWasResumed := true
  subNodeExecutionData := some subNodeExecutionData
  preserveSourceOverwrite :=
    match executionData.metadata with
    | some m => m.preservedSourceOverwrite.isSome && m.preserveSourceOverwrite
    | none => false
  preservedSourceOverwrite :=
    match executionData.metadata with
    | some m => if m.preserveSourceOverwrite then m.preservedSourceOverwrite else none
    | none => none

/-- The requesting node, as it is put back on the stack. -/
def resumingNode (actions : List SubNodeExecutionDataAction)
    (nodeName parentNode : String) : NodeToBeExecuted where
  inputConnectionData := ⟨nodeName, .aiTool, 0⟩
  parentOutputIndex := 0
  parentNode := parentNode
  parentOutputData := executionData.data.get? .main
  runIndex := runIndex
  nodeRunIndex := runIndex
  metadata := some (resumeMetadata executionData ⟨actions, request.metadata⟩)

/-- The nodes `handleRequest` returns: none if the request is ignored because
the parent of the requesting node is unknown. -/
def handledNodes (prepared : Prepared) : List NodeToBeExecuted :=
  match resumeParent executionData with
  | none => []
  | some parentNode =>
    resumingNode runIndex executionData request prepared.actions currentNode.name parentNode
      :: prepared.nodesToBeExecuted

def addNodes (ed : IRunExecutionData) (nodes : List NodeToBeExecuted) :
    Outcome JsError IRunExecutionData :=
  Outcome.each (fun ed n => match n.parentOutputData with
    | none => .threw .typeError ed
    | some _ => addNodeToBeExecuted w ed n.delivery) ed nodes

def handleEngineRequest (ed : IRunExecutionData)
    (rewireOutputLogTo : Dict String NodeConnectionType) :
    Outcome JsError (IRunExecutionData × Dict String NodeConnectionType) :=
  match prepareRequestedNodes w currentNode runIndex executionData request ed.runData
      rewireOutputLogTo with
  | .threw e prepared =>
    .threw e ({ ed with runData := prepared.runData }, prepared.rewireOutputLogTo)
  | .returned prepared =>
    match addNodes w { ed with runData := prepared.runData }
        (handledNodes currentNode runIndex executionData request prepared) with
    | .threw e ed => .threw e (ed, prepared.rewireOutputLogTo)
    | .returned ed => .returned (ed, prepared.rewireOutputLogTo)

end

section Spec

variable {w : Workflow} {currentNode : INode} {runIndex : ℕ} {executionData : IExecuteData}
  {request : EngineRequest} {ed : IRunExecutionData}
  {rewireOutputLogTo : Dict String NodeConnectionType}

theorem prepareAction_eq_ok {s s' : Prepared} {action : ExecuteNodeAction}
    (h : prepareAction w currentNode runIndex executionData s action = .ok s') :
    ∃ node task n, w.getNode action.nodeName = some node ∧
      s'.runData = s.runData.set node.name (((s.runData.get? node.name).getD []) ++ [task]) ∧
      s'.nodesToBeExecuted = s.nodesToBeExecuted ++ [n] ∧
      n.inputConnectionData.node = action.nodeName ∧ n.parentOutputData.isSome ∧
      n.nodeRunIndex = ((s.runData.get? node.name).getD []).length ∧
      s'.actions = s.actions ++ [⟨action.nodeName, n.nodeRunIndex, action⟩] ∧
      n.metadata.bind (·.subNodeExecutionData) = none := by
  rw [prepareAction] at h
  split at h
  · cases h
  · next node hnode =>
    cases h
    exact ⟨node, _, _, hnode, rfl, rfl, rfl, rfl, rfl, rfl, rfl⟩

/-- The requesting node and the requested ones have at most one main input. -/
structure SingleInputs (w : Workflow) (currentNode : INode) (request : EngineRequest) : Prop where
  requesting : w.numberOfInputs currentNode.name ≤ 1
  requested : ∀ action ∈ request.actions, w.numberOfInputs action.nodeName ≤ 1

end Spec

end N8n
