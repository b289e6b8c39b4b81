/-
The data model shared by the workflow package and the execution engine.

Names and fields follow the interfaces of the source; optional fields are
`Option`s with default `none`.  Only fields that a modelled function reads or
writes are kept.  A plain object keyed by node names is a `Dict String`, an
object keyed by connection types a `Dict NodeConnectionType`, an array whose
entries may be `null` or missing a `List (Slot _)`.
-/
import N8n.Dict
import N8n.Slots
import N8n.JsValue

namespace N8n

inductive NodeConnectionType where
  | aiAgent
  | aiChain
  | aiDocument
  | aiEmbedding
  | aiLanguageModel
  | aiMemory
  | aiOutputParser
  | aiRetriever
  | aiReranker
  | aiTextSplitter
  | aiTool
  | aiVectorStore
  | main
  deriving DecidableEq, Repr

def NodeConnectionType.toString : NodeConnectionType → String
  | aiAgent => "ai_agent"
  | aiChain => "ai_chain"
  | aiDocument => "ai_document"
  | aiEmbedding => "ai_embedding"
  | aiLanguageModel => "ai_languageModel"
  | aiMemory => "ai_memory"
  | aiOutputParser => "ai_outputParser"
  | aiRetriever => "ai_retriever"
  | aiReranker => "ai_reranker"
  | aiTextSplitter => "ai_textSplitter"
  | aiTool => "ai_tool"
  | aiVectorStore => "ai_vectorStore"
  | main => "main"

structure IConnection where
  node : String
  type : NodeConnectionType
  index : ℕ
  deriving DecidableEq, Repr

/-- First index: the output (or input); an entry can be `null` or missing. -/
abbrev NodeInputConnections := List (Option (List IConnection))

abbrev INodeConnections := Dict NodeConnectionType NodeInputConnections

abbrev IConnections := Dict String INodeConnections

inductive OnError where
  | continueErrorOutput
  | continueRegularOutput
  | stopWorkflow
  deriving DecidableEq, Repr

structure INode where
  name : String
  type : String := ""
  typeVersion : ℚ := 1
  position : ℤ × ℤ := (0, 0)
  disabled : Option Bool := none
  retryOnFail : Option Bool := none
  maxTries : Option ℤ := none
  alwaysOutputData : Option Bool := none
  onError : Option OnError := none
  continueOnFail : Option Bool := none
  parameters : JsValue := .object []
  deriving DecidableEq

structure ISourceData where
  previousNode : String
  previousNodeOutput : Option ℕ := none
  previousNodeRun : Option ℕ := none
  deriving DecidableEq, Repr

structure IPairedItemData where
  item : ℕ
  input : Option ℕ := none
  sourceOverwrite : Option ISourceData := none
  deriving DecidableEq, Repr

/-- `pairedItem` of an item: an item index, one origin, or several. -/
inductive PairedItem where
  | index (item : ℕ)
  | origin (data : IPairedItemData)
  | origins (data : List IPairedItemData)
  deriving DecidableEq, Repr

structure ExecutionError where
  name : Option String := none
  message : Option String := none
  deriving DecidableEq, Repr

structure INodeExecutionData where
  json : JsValue := .object []
  error : Option ExecutionError := none
  pairedItem : Option PairedItem := none
  deriving DecidableEq

abbrev Items := List INodeExecutionData

/-- Key for each connection type, then one entry for each input of the type. -/
abbrev ITaskDataConnections := Dict NodeConnectionType (List (Slot Items))

abbrev ITaskDataConnectionsSource := Dict NodeConnectionType (List (Slot ISourceData))

/-- Node name, then run index.  Every writer stores `{ main: [..] }` and no
other connection type, so an entry is its `main` array. -/
abbrev IWaitingForExecution := Dict String (Dict ℕ (List (Slot Items)))

abbrev IWaitingForExecutionSource := Dict String (Dict ℕ (List (Slot ISourceData)))

abbrev IPinData := Dict String Items

/-- `data.main` of a task, with no other connection type. -/
def mainOnly {α : Type*} (main : List α) : Dict NodeConnectionType (List α) :=
  Dict.empty.set .main main

@[simp] theorem mainOnly_get?_main {α : Type*} (main : List α) :
    (mainOnly main).get? .main = some main := Dict.get?_set_self _ _ _

structure ActionMetadata where
  parentNodeName : Option String := none
  itemIndex : Option ℕ := none
  deriving DecidableEq, Repr

/-- One node execution that a node asks the engine for. -/
structure ExecuteNodeAction where
  nodeName : String
  type : NodeConnectionType
  id : String
  input : List (String × JsValue) := []
  metadata : ActionMetadata := {}
  deriving DecidableEq

structure EngineRequest where
  actions : List ExecuteNodeAction
  metadata : JsValue := .object []
  deriving DecidableEq

/-- Where the task data of an action will be found. -/
structure SubNodeExecutionDataAction where
  nodeName : String
  runIndex : ℕ
  action : ExecuteNodeAction
  deriving DecidableEq

structure SubNodeExecutionData where
  actions : List SubNodeExecutionDataAction
  metadata : JsValue
  deriving DecidableEq

structure ITaskMetadata where
  subNodeExecutionData : Option SubNodeExecutionData := none
  preserveSourceOverwrite : Bool := false
  preservedSourceOverwrite : Option ISourceData := none
  nodeWasResumed : Bool := false
  deriving DecidableEq

/-- One node on the stack.  `node` is missing where the source pushes the
result of a lookup that found no node. -/
structure IExecuteData where
  data : ITaskDataConnections
  metadata : Option ITaskMetadata := none
  node : Option INode
  source : Option ITaskDataConnectionsSource
  runIndex : Option ℕ := none
  deriving DecidableEq

inductive ExecutionStatus where
  | canceled
  | crashed
  | error
  | new
  | running
  | success
  | unknown
  | waiting
  deriving DecidableEq, Repr

inductive RecurrenceInterval where
  | hours
  | days
  | weeks
  | months
  deriving DecidableEq, Repr

/-- `{ activated: false }`, or an activated rule with its data. -/
inductive IRecurrenceRule where
  | notActivated
  | activated (index intervalSize : ℕ) (typeInterval : RecurrenceInterval)
  deriving DecidableEq, Repr

structure CronContext where
  nodeId : String
  workflowId : String
  timezone : String
  expression : String
  recurrence : Option IRecurrenceRule := none
  deriving DecidableEq, Repr

inductive WorkflowExecuteMode where
  | cli
  | error
  | integrated
  | internal
  | manual
  | retry
  | trigger
  | webhook
  | evaluation
  | chat
  deriving DecidableEq, Repr

structure ITaskData where
  source : List (Slot ISourceData) := []
  data : Option ITaskDataConnections := none
  inputOverride : Option ITaskDataConnections := none
  error : Option ExecutionError := none
  metadata : Option ITaskMetadata := none
  executionStatus : Option ExecutionStatus := none
  deriving DecidableEq

/-- The result of one action, as it is handed to the requesting node. -/
structure ExecuteNodeResult where
  action : ExecuteNodeAction
  data : ITaskData
  deriving DecidableEq

structure EngineResponse where
  actionResponses : List ExecuteNodeResult := []
  metadata : JsValue := .object []
  deriving DecidableEq

/-- Node name, then run index. -/
abbrev IRunData := Dict String (List ITaskData)

/-- What a function throws: the `TypeError` of a read or call on `undefined` or
`null`, a failed assertion, or an error raised on purpose. -/
inductive JsError where
  | typeError
  | assertionError
  | raised (message : String)
  deriving DecidableEq, Repr

end N8n
