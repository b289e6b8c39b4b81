/-
How the engine schedules a node: `addNodeToBeExecuted`.

A node with one main input is put on the stack with the data just delivered.
A node with several waits: `fileDelivery` writes the data into the first entry
of `waitingExecution[node]` that misses the input, or into a new one, and the
entry goes to the stack when no slot is `null` any more.  When the node was not
waiting before, the legacy order may force parents of its other inputs onto the
stack (`forceInput`).
-/
import N8n.ConnectedNodes
import N8n.Workflow
import N8n.Runs

namespace N8n

/-- The parts of the run data that scheduling and executing nodes work on. -/
structure IRunExecutionData where
  nodeExecutionStack : List IExecuteData := []
  waitingExecution : IWaitingForExecution := Dict.empty
  waitingExecutionSource : IWaitingForExecutionSource := Dict.empty
  runData : IRunData := Dict.empty
  pinData : IPinData := Dict.empty
  lastNodeExecuted : Option String := none
  waitTill : Bool := false
  runNodeFilter : Option (List String) := none
  destinationNode : Option String := none
  deriving DecidableEq

namespace Workflow

def isLegacyExecutionOrder (w : Workflow) : Bool := w.settings.executionOrder ≠ some .v1

def mainInputs (w : Workflow) (node : String) : Option NodeInputConnections :=
  (w.connectionsByDestinationNode.get? node).bind (·.get? .main)

def numberOfInputs (w : Workflow) (node : String) : ℕ := ((w.mainInputs node).getD []).length

def getParentNodes (w : Workflow) (nodeName : String) : List String :=
  getConnectedNodes w.connectionsByDestinationNode nodeName .main

end Workflow

/-- The arguments of one call of `addNodeToBeExecuted`; `connectionData` is
the destination and its input, and `nodeSuccessData` can be `null`. -/
structure Delivery where
  connectionData : IConnection
  outputIndex : ℕ
  parentNodeName : String
  nodeSuccessData : Option (List (Slot Items))
  runIndex : ℕ
  newRunIndex : Option ℕ := none
  metadata : Option ITaskMetadata := none

namespace Delivery

/-- What is written to the input: `nodeSuccessData[outputIndex]`, or `null`. -/
def slot (d : Delivery) : Slot Items :=
  match d.nodeSuccessData with
  | none => .null
  | some outputs => Slot.read outputs d.outputIndex

def source (d : Delivery) : ISourceData :=
  ⟨d.parentNodeName, some d.outputIndex, some d.runIndex⟩

def item (d : Delivery) (node : INode) : IExecuteData where
  node := some node
  data := mainOnly (Slot.assign (List.replicate (d.connectionData.index + 1) .null)
    d.connectionData.index d.slot)
  source := some (mainOnly [.data d.source])
  runIndex := d.newRunIndex
  metadata := d.metadata

end Delivery

/-- `waitingExecution[node]`, no entries if the node is not waiting. -/
def waitingEntries (ed : IRunExecutionData) (node : String) : Dict ℕ (List (Slot Items)) :=
  (ed.waitingExecution.get? node).getD Dict.empty

def waitingSources (ed : IRunExecutionData) (node : String) : Dict ℕ (List (Slot ISourceData)) :=
  (ed.waitingExecutionSource.get? node).getD Dict.empty

/-- `waitingExecution[node][index] = main`, and the same for the sources. -/
def setWaiting (ed : IRunExecutionData) (node : String) (index : ℕ) (main : List (Slot Items))
    (source : List (Slot ISourceData)) : IRunExecutionData :=
  { ed with
    waitingExecution := ed.waitingExecution.set node ((waitingEntries ed node).set index main)
    waitingExecutionSource :=
      ed.waitingExecutionSource.set node ((waitingSources ed node).set index source) }

def prepareWaitingToExecution (ed : IRunExecutionData) (nodeName : String)
    (numberOfConnections runIndex : ℕ) : IRunExecutionData :=
  setWaiting ed nodeName runIndex (List.replicate numberOfConnections .null)
    (List.replicate numberOfConnections .null)

/-- The first waiting entry, by ascending index, that misses data for the input. -/
def findWaitingNodeIndex (entries : Dict ℕ (List (Slot Items))) (input : ℕ) : Option ℕ :=
  entries.indexKeys.find? fun i => (Slot.read ((entries.get? i).getD []) input).isFalsy

/-- The waiting entry the data of an input goes to: one that misses it, else the
entry whose index is the number of entries. -/
def chooseWaitingNodeIndex (entries : Dict ℕ (List (Slot Items))) (input : ℕ) : ℕ :=
  (findWaitingNodeIndex entries input).getD entries.keys.length

def openNode (ed : IRunExecutionData) (node : String) : IRunExecutionData :=
  if ed.waitingExecution.has node then ed else
    { ed with
      waitingExecution := ed.waitingExecution.set node Dict.empty
      waitingExecutionSource := ed.waitingExecutionSource.set node Dict.empty }

variable (w : Workflow)

/-- A new entry, if no entry misses the input. -/
def openEntry (ed : IRunExecutionData) (node : String) (input : ℕ) : IRunExecutionData :=
  if (findWaitingNodeIndex (waitingEntries ed node) input).isSome then ed
  else prepareWaitingToExecution ed node (w.numberOfInputs node)
    (chooseWaitingNodeIndex (waitingEntries ed node) input)

/-- The data and then its source written into an entry.  The two are kept
apart: where the entry has no sources, the second write throws. -/
def writeDelivery (ed : IRunExecutionData) (d : Delivery) (index : ℕ) :
    Outcome JsError IRunExecutionData :=
  let node := d.connectionData.node
  let input := d.connectionData.index
  let main := Slot.assign (((waitingEntries ed node).get? index).getD []) input d.slot
  let ed := { ed with
    waitingExecution := ed.waitingExecution.set node ((waitingEntries ed node).set index main) }
  match (waitingSources ed node).get? index with
  | none => .threw .typeError ed
  | some sources =>
    let source := if d.nodeSuccessData.isSome then .data d.source else .null
    .returned { ed with
      waitingExecutionSource := ed.waitingExecutionSource.set node
        ((waitingSources ed node).set index (Slot.assign sources input source)) }

/-- The waiting state with an entry for the delivery and its data in it. -/
def fileDelivery (ed : IRunExecutionData) (d : Delivery) : Outcome JsError IRunExecutionData :=
  let node := d.connectionData.node
  let ed := openNode ed node
  writeDelivery (openEntry w ed node d.connectionData.index) d
    (chooseWaitingNodeIndex (waitingEntries ed node) d.connectionData.index)

def enqueue (ed : IRunExecutionData) (item : IExecuteData) : IRunExecutionData :=
  { ed with nodeExecutionStack :=
      if w.isLegacyExecutionOrder then ed.nodeExecutionStack ++ [item]
      else item :: ed.nodeExecutionStack }

/-- `delete waitingExecution[node][index]`, and the node with its last entry. -/
def deleteWaiting (ed : IRunExecutionData) (node : String) (index : ℕ) : IRunExecutionData :=
  let entries := (waitingEntries ed node).erase index
  let sources := (waitingSources ed node).erase index
  if entries.keys = [] then { ed with
    waitingExecution := ed.waitingExecution.erase node
    waitingExecutionSource := ed.waitingExecutionSource.erase node }
  else { ed with
    waitingExecution := ed.waitingExecution.set node entries
    waitingExecutionSource := ed.waitingExecutionSource.set node sources }

/-- Whether no connection brings items; `null` data has no `length`. -/
def incomingConnectionIsEmpty (runData : IRunData) (runIndex : ℕ) :
    List IConnection → Except JsError Bool
  | [] => .ok true
  | c :: cs =>
    let main := (((runData.get? c.node).bind (·[runIndex]?)).bind (·.data)).bind (·.get? .main)
    match Slot.read (main.getD []) c.index with
    | .undefined => incomingConnectionIsEmpty runData runIndex cs
    | .null => .error .typeError
    | .data [] => incomingConnectionIsEmpty runData runIndex cs
    | .data (_ :: _) => .ok false

/-- `incomingConnectionIsEmpty` for the first main input of a node that is in
the map by destination. -/
def firstInputIsEmpty (ed : IRunExecutionData) (runIndex : ℕ) (node : String) :
    Except JsError Bool :=
  match w.mainInputs node with
  | none => .error .typeError
  | some slots => incomingConnectionIsEmpty ed.runData runIndex ((slots[0]?.join).getD [])

/-- The destinations of the main outputs of the delivering node. -/
def checkOutputNodes (parentNodeName : String) : Except JsError (List String) :=
  match w.connectionsBySourceNode.get? parentNodeName with
  | none => .error .typeError
  | some byType => .ok (((byType.get? .main).getD []).flatMap fun slot =>
      (slot.getD []).map (·.node))

def executionStackNodes (stack : List IExecuteData) : Except JsError (List String) :=
  stack.mapM fun item => match item.node with
    | none => .error .typeError
    | some node => .ok node.name

/-- The loop over `parentNodes`: the farthest parent that is not processed yet,
`undefined` as soon as one of them will be executed anyway. -/
def climb (inputNode : String) (outputNodes stackNodes processed : List String) :
    List String → String → Option String
  | [], nodeToAdd => some nodeToAdd
  | parentNode :: parentNodes, nodeToAdd =>
    if inputNode ≠ parentNode ∧ parentNode ∈ outputNodes then none
    else if parentNode ∈ stackNodes then none
    else if parentNode ∈ processed then some nodeToAdd
    else climb inputNode outputNodes stackNodes processed parentNodes parentNode

def deliveredIsEmpty (d : Delivery) : Except JsError Bool :=
  match d.slot with
  | .data items => .ok items.isEmpty
  | _ => .error .typeError

/-- The parent of `inputNode` that has to be added to the stack, if any. -/
def findNodeToAdd (ed : IRunExecutionData) (d : Delivery)
    (outputNodes stackNodes : List String) (inputNode : String) :
    Except JsError (Option String) :=
  let parentNodes := (w.getParentNodes inputNode ++ [inputNode]).reverse
  let nodeToAdd := climb inputNode outputNodes stackNodes ed.runData.keys parentNodes inputNode
  -- `getParentNodes(undefined)` looks the name "undefined" up
  if d.parentNodeName ∈ w.getParentNodes (nodeToAdd.getD "undefined") then do
    let empty ← deliveredIsEmpty d
    return if empty then none else nodeToAdd
  else .ok nodeToAdd

/-- Whether a forced node gets an empty item: no data will reach it otherwise. -/
def addEmptyItem (ed : IRunExecutionData) (d : Delivery) (nodeToAdd : String) :
    Except JsError Bool :=
  if w.connectionsByDestinationNode.has nodeToAdd then firstInputIsEmpty w ed d.runIndex nodeToAdd
  else .ok true

def forceNode (ed : IRunExecutionData) (d : Delivery) (nodeToAdd : String) :
    Except JsError IRunExecutionData := do
  let add ← addEmptyItem w ed d nodeToAdd
  if add then
    return enqueue w ed {
      node := w.getNode nodeToAdd
      data := mainOnly [.data [{}]]
      source := some (mainOnly [.data d.source]) }
  else return ed

/-- Whether the delivering node feeds the input node, which will then have data. -/
def comesNext (ed : IRunExecutionData) (d : Delivery) (outputNodes : List String)
    (inputNode : String) : Except JsError Bool :=
  if inputNode ∈ outputNodes then (firstInputIsEmpty w ed d.runIndex inputNode).map (!·)
  else .ok false

/-- One round of the loop over the inputs of a node that was not waiting. -/
def forceInput (d : Delivery) (outputNodes : List String)
    (ed : IRunExecutionData) (inputData : IConnection) : Except JsError IRunExecutionData :=
  if inputData.node = d.parentNodeName then .ok ed
  else do
    let stackNodes ← executionStackNodes ed.nodeExecutionStack
    let next ← comesNext w ed d outputNodes inputData.node
    if next ∨ inputData.node ∈ stackNodes ∨ ed.runData.has inputData.node
        ∨ ¬ w.isLegacyExecutionOrder then return ed
    else
      let found ← findNodeToAdd w ed d outputNodes stackNodes inputData.node
      match found with
      | none => return ed
      | some nodeToAdd => forceNode w ed d nodeToAdd

def forceInputs (ed : IRunExecutionData) (d : Delivery) : Outcome JsError IRunExecutionData :=
  match checkOutputNodes w d.parentNodeName with
  | .error e => .threw e ed
  | .ok outputNodes => Outcome.forEach (forceInput w d outputNodes) ed
      (connectionsOf w.connectionsByDestinationNode .main d.connectionData.node)

def addToWaiting (ed : IRunExecutionData) (d : Delivery) : Outcome JsError IRunExecutionData :=
  let node := d.connectionData.node
  let input := d.connectionData.index
  let nodeWasWaiting := ed.waitingExecution.has node
  let index := chooseWaitingNodeIndex (waitingEntries ed node) input
  (fileDelivery w ed d).andThen fun ed =>
    let main := ((waitingEntries ed node).get? index).getD []
    let sources := ((waitingSources ed node).get? index).getD []
    if .null ∉ main then
      -- all data exists for the node to be executed
      .returned (deleteWaiting (enqueue w ed {
        node := w.getNode node
        data := mainOnly main
        source := some (mainOnly sources) }) node index)
    else
      (if nodeWasWaiting then .returned ed else forceInputs w ed d).andThen fun ed =>
        -- the entry is written once more, with the data it has
        let ed := prepareWaitingToExecution ed node (w.numberOfInputs node) index
        .returned (setWaiting ed node index (Slot.assign main input d.slot) sources)

def addNodeToBeExecuted (ed : IRunExecutionData) (d : Delivery) :
    Outcome JsError IRunExecutionData :=
  let node := d.connectionData.node
  if 1 < w.numberOfInputs node then addToWaiting w ed d
  else match w.getNode node with
    | none => .returned ed
    | some n => .returned (enqueue w ed (d.item n))

section Grown

variable {w : Workflow} {ed : IRunExecutionData} {d : Delivery}

theorem forceInput_cases {ed' : IRunExecutionData} {outputNodes : List String}
    {inputData : IConnection} (h : forceInput w d outputNodes ed inputData = .ok ed') :
    ed' = ed ∨ ∃ nodeToAdd, ed' = enqueue w ed {
      node := w.getNode nodeToAdd
      data := mainOnly [.data [{}]]
      source := some (mainOnly [.data d.source]) } := by
  rw [forceInput] at h
  split at h
  · cases h
    exact Or.inl rfl
  · obtain ⟨stackNodes, -, h⟩ := exists_of_bind_eq_ok h
    obtain ⟨comesNext, -, h⟩ := exists_of_bind_eq_ok h
    split at h
    · cases h
      exact Or.inl rfl
    · obtain ⟨found, -, h⟩ := exists_of_bind_eq_ok h
      rcases found with _ | nodeToAdd
      · cases h
        exact Or.inl rfl
      · obtain ⟨addEmptyItem, -, h⟩ := exists_of_bind_eq_ok h
        split at h
        · cases h
          exact Or.inr ⟨nodeToAdd, rfl⟩
        · cases h
          exact Or.inl rfl

/-- `b` is `a` with another waiting state and with more items on the stack, at
the end that the execution order says. -/
structure Grown (w : Workflow) (P : IExecuteData → Prop) (a b : IRunExecutionData) : Prop where
  eq : b = { a with
    nodeExecutionStack := b.nodeExecutionStack
    waitingExecution := b.waitingExecution
    waitingExecutionSource := b.waitingExecutionSource }
  stack : ∃ items, (∀ item ∈ items, P item) ∧ b.nodeExecutionStack =
    if w.isLegacyExecutionOrder then a.nodeExecutionStack ++ items else items ++ a.nodeExecutionStack

variable {P : IExecuteData → Prop}

theorem Grown.of_waiting {a b : IRunExecutionData} (h : b = { a with
      waitingExecution := b.waitingExecution
      waitingExecutionSource := b.waitingExecutionSource }) : Grown w P a b := by
  rw [h]
  exact ⟨rfl, [], List.forall_mem_nil _, by simp⟩

theorem Grown.trans {a b c : IRunExecutionData} (hab : Grown w P a b)
    (hbc : Grown w P b c) : Grown w P a c := by
  obtain ⟨items, hitems, hb⟩ := hab.stack
  obtain ⟨items', hitems', hc⟩ := hbc.stack
  refine ⟨?_, if w.isLegacyExecutionOrder then items ++ items' else items' ++ items, ?_, ?_⟩
  · have h := hbc.eq
    rw [hab.eq] at h
    exact h
  · intro x hx
    split at hx
    all_goals
      rcases List.mem_append.mp hx with hx | hx
      · first | exact hitems x hx | exact hitems' x hx
      · first | exact hitems x hx | exact hitems' x hx
  · rw [hc, hb]
    split
    · rw [List.append_assoc]
    · rw [List.append_assoc]

theorem Grown.enqueue {a b : IRunExecutionData} (hab : Grown w P a b)
    {item : IExecuteData} (hitem : P item) : Grown w P a (enqueue w b item) := by
  refine hab.trans ⟨rfl, [item], fun x hx => ?_, rfl⟩
  rw [List.mem_singleton.mp hx]
  exact hitem

theorem grown_deleteWaiting (node : String) (index : ℕ) :
    Grown w P ed (deleteWaiting ed node index) := by
  refine .of_waiting ?_
  rw [deleteWaiting]
  split <;> rfl

theorem grown_fileDelivery : Grown w P ed (fileDelivery w ed d).state := by
  have hopen : Grown w P ed (openEntry w (openNode ed d.connectionData.node) d.connectionData.node
      d.connectionData.index) := by
    refine .of_waiting ?_
    rw [openEntry, openNode]
    split <;> split <;> rfl
  refine hopen.trans (.of_waiting ?_)
  rw [fileDelivery, writeDelivery]
  split <;> rfl

theorem grown_forceInputs (hP : ∀ item, item.runIndex = none → item.metadata = none → P item) :
    Grown w P ed (forceInputs w ed d).state := by
  rw [forceInputs]
  split
  · exact .of_waiting rfl
  · refine Outcome.forEach_invariant (I := Grown w P ed) (fun s inputData s' hs hbody => ?_)
      (.of_waiting rfl)
    rcases forceInput_cases hbody with rfl | ⟨nodeToAdd, rfl⟩
    · exact hs
    · exact hs.enqueue (hP _ rfl rfl)

theorem Grown.andThen {x : Outcome JsError IRunExecutionData}
    {f : IRunExecutionData → Outcome JsError IRunExecutionData} (hx : Grown w P ed x.state)
    (hf : ∀ s, Grown w P ed s → Grown w P ed (f s).state) : Grown w P ed (x.andThen f).state := by
  rcases x with s | ⟨e, s⟩
  · exact hf s hx
  · exact hx

theorem grown_addToWaiting (hP : ∀ item, item.runIndex = none → item.metadata = none → P item) :
    Grown w P ed (addToWaiting w ed d).state := by
  rw [addToWaiting]
  refine Grown.andThen grown_fileDelivery fun s hs => ?_
  dsimp only
  by_cases hnull : .null ∉ ((waitingEntries s d.connectionData.node).get? (chooseWaitingNodeIndex
      (waitingEntries ed d.connectionData.node) d.connectionData.index)).getD []
  · rw [if_pos hnull]
    exact (hs.enqueue (hP _ rfl rfl)).trans (grown_deleteWaiting _ _)
  · rw [if_neg hnull]
    refine Grown.andThen ?_ fun s' hs' => hs'.trans (.of_waiting ?_)
    · split
      · exact hs
      · exact hs.trans (grown_forceInputs hP)
    · rfl

variable (w ed d) in
/-- **What one call changes**: the waiting state, and items that come to the
stack without run index and metadata, or the item of the call. -/
theorem grown_addNodeToBeExecuted : Grown w
    (fun item => (item.runIndex = none ∧ item.metadata = none) ∨
      ∃ node, w.getNode d.connectionData.node = some node ∧ item = d.item node) ed
    (addNodeToBeExecuted w ed d).state := by
  rw [addNodeToBeExecuted]
  split
  · exact grown_addToWaiting fun item hindex hmetadata => Or.inl ⟨hindex, hmetadata⟩
  · split
    · exact .of_waiting rfl
    · next node hnode =>
      exact (Grown.of_waiting rfl).enqueue (Or.inr ⟨node, hnode, rfl⟩)

end Grown

section SingleInput

variable {w : Workflow} {ed : IRunExecutionData} {d : Delivery}

theorem addNodeToBeExecuted_single (h : w.numberOfInputs d.connectionData.node ≤ 1) {node : INode}
    (hnode : w.getNode d.connectionData.node = some node) :
    addNodeToBeExecuted w ed d = .returned (enqueue w ed (d.item node)) := by
  rw [addNodeToBeExecuted]
  simp only [if_neg (show ¬ 1 < w.numberOfInputs d.connectionData.node by omega), hnode]

end SingleInput

end N8n
