/-
The `Workflow` class: its nodes, its two connection maps, and `renameNode`.

`setConnections` derives the map by destination anew; `renameNode` renames a
node in the node table, in the parameters of every node and in the map by
source.  The text of an expression is rewritten by `applyAccessPatterns`, here
a parameter of the section.
-/
import N8n.Connections

namespace N8n

inductive ExecutionOrder where
  | v0
  | v1
  deriving DecidableEq, Repr

structure IWorkflowSettings where
  executionOrder : Option ExecutionOrder := none
  deriving DecidableEq

structure Workflow where
  nodes : Dict String INode := Dict.empty
  connectionsBySourceNode : IConnections := Dict.empty
  connectionsByDestinationNode : IConnections := Dict.empty
  settings : IWorkflowSettings := {}
  deriving DecidableEq

namespace Workflow

/-- `this.nodes[node.name] = node`; the name `__proto__` sets the prototype of
the object and makes no entry. -/
def putNode (nodes : Dict String INode) (node : INode) : Dict String INode :=
  if node.name = "__proto__" then nodes else nodes.set node.name node

def setNodes (w : Workflow) (nodes : List INode) : Workflow :=
  { w with nodes := nodes.foldl putNode Dict.empty }

/-- `mapConnectionsByDestination` calls `hasOwnProperty` as a method of the map
it reads and of the map it builds.  A node of that name among the sources, or
among the destinations met before the last connection, hides the method. -/
def hidesHasOwnProperty (connections : IConnections) : Bool :=
  connections.has "hasOwnProperty"
    || (links connections).dropLast.any (fun l => l.connection.node = "hasOwnProperty")

def setConnections (w : Workflow) (connections : IConnections) : Except JsError Workflow :=
  if hidesHasOwnProperty connections then .error .typeError
  else .ok { w with
    connectionsBySourceNode := connections
    connectionsByDestinationNode := mapConnectionsByDestination connections }

/-- The constructor, for nodes whose parameters have their defaults filled in. -/
def construct (nodes : List INode) (connections : IConnections) (settings : IWorkflowSettings) :
    Except JsError Workflow :=
  { (({} : Workflow).setNodes nodes) with settings := settings }.setConnections connections

def getNode (w : Workflow) (nodeName : String) : Option INode := w.nodes.get? nodeName

/-- Each node stands under its own name, as the constructor puts it there. -/
def Named (w : Workflow) : Prop := ∀ name node, w.getNode name = some node → node.name = name

theorem named_construct {nodes : List INode} {connections : IConnections}
    {settings : IWorkflowSettings} {w : Workflow}
    (h : construct nodes connections settings = .ok w) : w.Named := by
  have key : ∀ (nodes : List INode) (d : Dict String INode),
      (∀ name node, d.get? name = some node → node.name = name) →
      ∀ name node, (nodes.foldl putNode d).get? name = some node → node.name = name := by
    intro nodes
    induction nodes with
    | nil => exact fun d hd => hd
    | cons n nodes ih =>
      intro d hd
      refine ih (putNode d n) fun name node hnode => ?_
      rw [putNode] at hnode
      split at hnode
      · exact hd name node hnode
      · rw [Dict.get?_set] at hnode
        split at hnode
        · next heq =>
          cases hnode
          exact heq.symm
        · exact hd name node hnode
  rw [construct, setConnections] at h
  split at h
  · cases h
  · cases h
    refine key nodes Dict.empty fun name node hnode => ?_
    rw [Dict.get?_empty] at hnode
    cases hnode

def restrictedKeys : List String :=
  ["hasOwnProperty", "isPrototypeOf", "propertyIsEnumerable", "toLocaleString", "toString",
    "valueOf", "constructor", "prototype", "__proto__", "__defineGetter__", "__defineSetter__",
    "__lookupGetter__", "__lookupSetter__"]

/-- `toLowerCase` as far as the result is compared with ASCII text: besides the
ASCII letters only the Kelvin sign is lowered to an ASCII letter. -/
def toLowerCase (s : String) : String :=
  String.ofList (s.toList.map (fun c => if c = '\u212a' then 'k' else c.toLower))

def isRestrictedName (name : String) : Bool :=
  (restrictedKeys.map toLowerCase).contains (toLowerCase name)

def nodesWithRenamableContent : List String :=
  ["n8n-nodes-base.code", "n8n-nodes-base.function", "n8n-nodes-base.functionItem",
    "n8n-nodes-base.aiTransform"]

def nodesWithRenameableToplevelHtmlContent : List String :=
  ["n8n-nodes-base.mailgun", "n8n-nodes-base.html"]

def nodesWithRenamableFormHtmlContent : List String := ["n8n-nodes-base.form"]

/-- The connections of one node with every destination `currentName` replaced. -/
def renameDestinations (currentName newName : String) (byType : INodeConnections) :
    INodeConnections :=
  byType.mapValues fun slots => slots.map fun slot => slot.map fun cs => cs.map fun c =>
    if c.node = currentName then { c with node := newName } else c

section Parameters

variable (applyAccessPatterns : String → String → String → String)

mutual
/-- `renameNodeInParameterValue`: an expression, or any string where the
whole content is code, has its references rewritten.  Arrays do not hand
`hasRenamableContent` on. -/
def renameNodeInParameterValue (currentName newName : String) (hasRenamableContent : Bool) :
    JsValue → JsValue
  | .string s =>
    if s.toList.head? = some '=' ∨ hasRenamableContent then
      .string (applyAccessPatterns s currentName newName)
    else .string s
  | .array items => .array (renameNodeInItems currentName newName items)
  | .object fields => .object (renameNodeInFields currentName newName hasRenamableContent fields)
  | .null => .object []
  | v => v

def renameNodeInItems (currentName newName : String) : List JsValue → List JsValue
  | [] => []
  | v :: vs => renameNodeInParameterValue currentName newName false v
      :: renameNodeInItems currentName newName vs

def renameNodeInFields (currentName newName : String) (hasRenamableContent : Bool) :
    List (String × JsValue) → List (String × JsValue)
  | [] => []
  | (k, v) :: fs => (k, renameNodeInParameterValue currentName newName hasRenamableContent v)
      :: renameNodeInFields currentName newName hasRenamableContent fs
end

/-- The fields of an object with one of them computed from its old value. -/
def updateField (key : String) (f : JsValue → JsValue) : JsValue → JsValue
  | .object fields =>
    if fields.any (fun e => e.1 = key) then
      .object (fields.map fun e => if e.1 = key then (e.1, f e.2) else e)
    else .object (fields ++ [(key, f .undefined)])
  | v => v

/-- `renameFormFields`: the `html` of every form field whose type is `html`. -/
def renameFormFields (renameField : JsValue → JsValue) (parameters : JsValue) : JsValue :=
  match (parameters.get "formFields").get "values" with
  | .array values =>
    updateField "formFields" (updateField "values" fun _ => .array (values.map fun v =>
      match v with
      | .object fields =>
        if v.get "fieldType" = .string "html" ∧ fields.any (fun e => e.1 = "html") then
          updateField "html" renameField v
        else v
      | v => v)) parameters
  | _ => parameters

/-- The parameters of a node after the loop over the nodes in `renameNode`. -/
def renameInParameters (currentName newName : String) (node : INode) : JsValue :=
  let renameContent := renameNodeInParameterValue applyAccessPatterns currentName newName true
  let p := renameNodeInParameterValue applyAccessPatterns currentName newName false node.parameters
  let p := if nodesWithRenamableContent.contains node.type then
    updateField "jsCode" renameContent p else p
  let p := if nodesWithRenameableToplevelHtmlContent.contains node.type then
    updateField "html" renameContent p else p
  if nodesWithRenamableFormHtmlContent.contains node.type then
    renameFormFields renameContent p else p

/-- `d[newName] = d[currentName]; delete d[currentName]` where the key exists. -/
def moveKey {α : Type*} (d : Dict String α) (currentName newName : String) (f : α → α) :
    Dict String α :=
  match d.get? currentName with
  | none => d
  | some v => (d.set newName (f v)).erase currentName

def renameNode (w : Workflow) (currentName newName : String) : Except JsError Workflow :=
  if isRestrictedName newName then
    .error (.raised s!"Node name \"{newName}\" is a restricted name.")
  else if w.connectionsBySourceNode.has "hasOwnProperty" then .error .typeError
  else .ok { w with
    nodes := (moveKey w.nodes currentName newName (fun node => { node with name := newName })).mapValues
      fun node => { node with
        parameters := renameInParameters applyAccessPatterns currentName newName node }
    connectionsBySourceNode := (moveKey w.connectionsBySourceNode currentName newName id).mapValues
      (renameDestinations currentName newName) }

end Parameters

end Workflow

end N8n
