/-
Finding the item that an item was made of: `getPairedItem`.

An item names the item of the node's input it was made of.  The search follows such names from
node to node through the run data until it comes to the node asked for.  Where an item names
several origins, all of them are followed, and those that lead to the node have to lead to one
item.  The arrays of the run data live on a heap, as other places may hold them.
-/
import N8n.Interfaces
import N8n.SharedArrays

namespace N8n.PairedItems

open SharedArrays

structure Item where
  id : ℕ
  json : Dict String JsValue := Dict.empty
  error : Option ExecutionError := none
  pairedItem : Option PairedItem := none
  deriving DecidableEq

abbrev ItemArray := List (Option Item)

/-- One run of a node: the arrays of its main outputs and where its inputs came from. -/
structure TaskData where
  main : List (Option ℕ)
  source : List (Slot ISourceData)

/-- What the search reads. -/
structure RunExecutionData where
  runData : Dict String (List TaskData)
  /-- The array of a node that is pinned, in a manual execution. -/
  pinData : Dict String ℕ
  /-- The depth of recursion at which the engine gives up. -/
  maxStack : ℕ

/-- What the search throws, by the function that makes the error. -/
inductive PairedItemError where
  | stackOverflow
  | typeError
  | missingOutput (node : String)
  | missingPairedItem (node : String)
  | pairedItemNotFound (destinationNode : String)
  | branchNotFound (node : String)
  | multipleItemsFound (destinationNode : String)
  deriving DecidableEq

section

variable (run : RunExecutionData) (heap : Heap (Option Item))

def pinDataToTask (pinData : Option ℕ) : Option TaskData :=
  pinData.map fun array => { main := [some array], source := [] }

def getTaskData (source : ISourceData) : Option TaskData :=
  ((run.runData.get? source.previousNode).bind
      fun runs => runs[source.previousNodeRun.getD 0]?).or
    (pinDataToTask (run.pinData.get? source.previousNode))

def getNodeOutput (taskData : Option TaskData) (source : ISourceData) :
    Except PairedItemError ItemArray :=
  match taskData.bind fun task => (task.main[source.previousNodeOutput.getD 0]?).join with
  | some array => .ok (heap array)
  | none => .error (.missingOutput source.previousNode)

def normalizePairedItem : Option PairedItem → List IPairedItemData
  | none => []
  | some (.index item) => [{ item := item }]
  | some (.origin data) => [data]
  | some (.origins data) => data

def uniqueItem (destinationNodeName node : String)
    (results : List (Except PairedItemError (Option Item))) :
    Except PairedItemError (Option Item) :=
  if results.all fun result => result.toOption.isNone then
    match results with
    | .error e :: _ => .error e
    | _ => .error .typeError
  else match results.filterMap Except.toOption with
    | [] => .error (.branchNotFound node)
    | first :: rest =>
      if rest.any fun r => r.map Item.id ≠ first.map Item.id then
        .error (.multipleItemsFound destinationNodeName)
      else .ok first

/-- The search, down to a depth of the stack. -/
def getPairedItem (destinationNodeName : String) :
    ℕ → Option ISourceData → IPairedItemData → Except PairedItemError (Option Item)
  | 0, _, _ => .error .stackOverflow
  | stack + 1, incomingSourceData, pairedItem =>
    match pairedItem.sourceOverwrite.or incomingSourceData with
    | none => .error (.pairedItemNotFound destinationNodeName)
    | some sourceData => do
      let taskData := getTaskData run sourceData
      let outputData ← getNodeOutput heap taskData sourceData
      let sourceArray := (taskData.map TaskData.source).getD []
      if sourceData.previousNode = destinationNodeName then
        if outputData.length ≤ pairedItem.item then
          .error (.missingPairedItem sourceData.previousNode)
        else .ok (outputData[pairedItem.item]?).join
      else match (outputData[pairedItem.item]?).join with
        | none => .error .typeError
        | some item =>
          match normalizePairedItem item.pairedItem with
          | [] => .error (.missingPairedItem sourceData.previousNode)
          | nextPairedItems =>
            uniqueItem destinationNodeName sourceData.previousNode
              (nextPairedItems.flatMap fun nextPairedItem =>
                let inputIndex := nextPairedItem.input.getD 0
                if sourceArray.length ≤ inputIndex then []
                else [getPairedItem destinationNodeName stack
                  (nextPairedItem.sourceOverwrite.or (Slot.read sourceArray inputIndex).toOption)
                  { nextPairedItem with input := some inputIndex }])

end

end N8n.PairedItems
