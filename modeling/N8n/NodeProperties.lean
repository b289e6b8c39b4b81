/-
The properties of a node, and which of them are displayed.

A property has a type and a default; its display options have rules that show it and rules that hide
it, by the values that other properties have, at its own level or at the root of the node.

* `INodeProperties` — simple properties, collections and fixed collections, nested to any depth;
* `getPropertyValues` — the values a rule looks at;

What the language and the libraries make of values is the structure `Host`, and may be any functions
here.
-/
import Mathlib.Data.List.Infix
import N8n.WorkflowDiff

namespace N8n.NodeHelpers

open WorkflowDiff (Json isEqual)

abbrev Values := List (String × JsValue)

/-- What the values a rule looks at are compared to. -/
inductive Comparison where
  | eq (target : JsValue)
  | not (target : JsValue)
  | gte (target : JsValue)
  | lte (target : JsValue)
  | gt (target : JsValue)
  | lt (target : JsValue)
  | between (low high : JsValue)
  | startsWith (target : String)
  | endsWith (target : String)
  | includes (target : String)
  | regex (target : String)
  | exists
  deriving DecidableEq

/-- A value that one of the values has to be, or a comparison that all of them have to meet. -/
inductive DisplayCondition where
  | value (v : JsValue)
  | cnd (comparison : Comparison)
  deriving DecidableEq

/-- For the names of properties, the conditions on their values. -/
abbrev DisplayRules := List (String × List DisplayCondition)

structure IDisplayOptions where
  «show» : Option DisplayRules := none
  hide : Option DisplayRules := none
  deriving DecidableEq

structure PropertyHead where
  name : String
  default : Json
  displayOptions : Option IDisplayOptions := none
  deriving DecidableEq

/-- The types of the properties that have no properties in them, by how their default is treated. -/
inductive SimpleType where
  | boolean | number | options
  | resourceLocator
  /-- Any other type. -/
  | other
  deriving DecidableEq

/-- A property; `multipleValues` is the type option, if it is given. -/
inductive INodeProperties where
  | simple (head : PropertyHead) (type : SimpleType)
  | collection (head : PropertyHead) (multipleValues : Option Bool)
      (options : List INodeProperties)
  | fixedCollection (head : PropertyHead) (multipleValues : Option Bool)
      (options : List (String × List INodeProperties))

namespace INodeProperties

def head : INodeProperties → PropertyHead
  | simple head _ => head
  | collection head _ _ => head
  | fixedCollection head _ _ => head

def name (property : INodeProperties) : String := property.head.name

def isSimple : INodeProperties → Bool
  | simple _ _ => true
  | _ => false

end INodeProperties

structure INodeTypeDescription where
  name : String
  /-- For each feature, the conditions on the version. -/
  features : Option DisplayRules := none

/-- An error of the helpers, or one of the language. -/
inductive Exception where
  | couldNotResolveParameterDependencies
  | couldNotFindPropertyOption (propertyOption property : String)
  | typeError
  | syntaxError
  deriving DecidableEq

abbrev Result := Except (Stopped Exception)

def throwing {α : Type} (e : Exception) : Result α := .error (.threw e)

/-- What the language and the libraries make of values. -/
structure Host where
  /-- `get(values, path)`. -/
  get : Values → String → JsValue
  /-- `<` and `<=`. -/
  lessThan : JsValue → JsValue → Bool
  lessEqual : JsValue → JsValue → Bool
  /-- `new RegExp(pattern)`, as its `test`, or `none` if the pattern is not valid. -/
  regExp : String → Option (JsValue → Bool)

/-- What a call is given beside properties and values. -/
structure Context where
  host : Host
  /-- The version of the node, if there is one. -/
  typeVersion : Option ℚ := none
  nodeTypeDescription : Option INodeTypeDescription := none

def isObject : JsValue → Bool
  | .null => true
  | .array _ => true
  | .object _ => true
  | _ => false

def ofString (value : JsValue) (method : String → Bool) : Result Bool :=
  match value with
  | .string s => pure (method s)
  | _ => throwing .typeError

/-- `values.includes(target)`: objects are compared by their identity. -/
def includesValue (values : List JsValue) (target : JsValue) : Bool :=
  values.any fun v => v = target ∧ (isObject v = false ∨ v = .null)

def compareValue (host : Host) (value : JsValue) : Comparison → Result Bool
  | .eq target => pure (isEqual value target)
  | .not target => pure !isEqual value target
  | .gte target => pure (host.lessEqual target value)
  | .lte target => pure (host.lessEqual value target)
  | .gt target => pure (host.lessThan target value)
  | .lt target => pure (host.lessThan value target)
  | .between low high => pure (host.lessEqual low value && host.lessEqual value high)
  | .includes target => match value with
    | .array items => pure (includesValue items (.string target))
    | _ => ofString value fun s => target.toList <:+: s.toList
  | .startsWith target => ofString value fun s => target.toList <+: s.toList
  | .endsWith target => ofString value fun s => target.toList <:+ s.toList
  | .regex target => match host.regExp target with
    | some test => pure (test value)
    | none => throwing .syntaxError
  | .exists => pure (value ≠ .null ∧ value ≠ .undefined ∧ value ≠ .string "" : Bool)

def everyValue (test : JsValue → Result Bool) : List JsValue → Result Bool
  | [] => pure true
  | v :: vs => do if ← test v then everyValue test vs else pure false

/-- Where there is no value, only `not` is met. -/
def checkCondition (host : Host) (actualValues : List JsValue) : DisplayCondition → Result Bool
  | .value v => pure (includesValue actualValues v)
  | .cnd comparison => match actualValues, comparison with
    | [], .not _ => pure true
    | [], _ => pure false
    | values, comparison => everyValue (fun v => compareValue host v comparison) values

def checkConditions (host : Host) (actualValues : List JsValue) :
    List DisplayCondition → Result Bool
  | [] => pure false
  | condition :: conditions => do
    if ← checkCondition host actualValues condition then pure true
    else checkConditions host actualValues conditions

variable (ctx : Context)

def enabledFeatures (version : ℚ) : DisplayRules → Result (List JsValue)
  | [] => pure []
  | (name, conditions) :: features => do
    let enabled ← checkConditions ctx.host [.number version] conditions
    let names ← enabledFeatures version features
    pure (if enabled then .string name :: names else names)

/-- A locator stands for its value; a value that is no array stands for an array of one. -/
def valuesOf (value : JsValue) : List JsValue :=
  match if (value.get "__rl").truthy then value.get "value" else value with
  | .array items => items
  | v => [v]

def getPropertyValues (nodeValues : Values) (propertyName : String) (nodeValuesRoot : Values) :
    Result (List JsValue) :=
  if propertyName.toList.head? = some '/' then
    pure (valuesOf (ctx.host.get nodeValuesRoot (String.ofList propertyName.toList.tail)))
  else if propertyName = "@version" then pure [.number (ctx.typeVersion.getD 0)]
  else if propertyName = "@tool" then
    pure [.boolean ((ctx.nodeTypeDescription.map fun description =>
      decide ("Tool".toList <:+ description.name.toList)).getD false)]
  else if propertyName = "@feature" then
    match ctx.nodeTypeDescription.bind (·.features), ctx.typeVersion with
    | some features, some version => if version = 0 then pure []
      else enabledFeatures ctx version features
    | _, _ => pure []
  else pure (valuesOf (ctx.host.get nodeValues propertyName))

def isExpression : JsValue → Bool
  | .string s => s.toList.head? = some '='
  | _ => false

/-- The rules that show a property: the verdict, unless all of them are met. -/
def checkShow (nodeValues nodeValuesRoot : Values) : DisplayRules → Result (Option Bool)
  | [] => pure none
  | (propertyName, conditions) :: rules => do
    let values ← getPropertyValues ctx nodeValues propertyName nodeValuesRoot
    if values.any isExpression then pure (some true)
    else if ← checkConditions ctx.host values conditions then
      checkShow nodeValues nodeValuesRoot rules
    else pure (some false)

/-- The rules that hide a property: it is displayed if none of them is met. -/
def checkHide (nodeValues nodeValuesRoot : Values) : DisplayRules → Result Bool
  | [] => pure true
  | (propertyName, conditions) :: rules => do
    let values ← getPropertyValues ctx nodeValues propertyName nodeValuesRoot
    if values.isEmpty then checkHide nodeValues nodeValuesRoot rules
    else if ← checkConditions ctx.host values conditions then pure false
    else checkHide nodeValues nodeValuesRoot rules

def displayParameter (nodeValues : Values) (parameter : PropertyHead) (nodeValuesRoot : Values) :
    Result Bool :=
  match parameter.displayOptions with
  | none => pure true
  | some displayOptions => do
    match ← checkShow ctx nodeValues nodeValuesRoot (displayOptions.show.getD []) with
    | some verdict => pure verdict
    | none => checkHide ctx nodeValues nodeValuesRoot (displayOptions.hide.getD [])

end N8n.NodeHelpers
