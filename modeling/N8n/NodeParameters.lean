/-
The parameters of a node: `getNodeParameters`.

From the values that are given the function makes the parameters without the defaults, or with all
of them.  A first pass resolves the simple parameters, hidden or not; the second one goes through
the parameters and looks at the outcome of the first to see which of them are displayed.  Each
parameter takes its turn: it is skipped, or set to a value, or it ends the loop, and then the values
are returned as they are.

* `simpleTurn`, `collectionTurn`, `fixedCollectionTurn` — the turn of each kind of parameter, by
  what the levels below it do;
* `level` — the two passes of one level;

Where the function expects an object, a value that is none has no properties.  The second record
of the parameters holds what the first one does where it is read, so there is one.
-/
import N8n.ParameterResolveOrder

namespace N8n.NodeHelpers

open WorkflowDiff (Json isEqual)

inductive ParentType where
  | collection | fixedCollection
  deriving DecidableEq

structure CallOptions where
  returnDefaults : Bool
  returnNoneDisplayed : Bool := false
  onlySimpleTypes : Bool := false
  dataIsResolved : Bool := false
  nodeValuesRoot : Option Values := none
  parentType : Option ParentType := none

def CallOptions.resolving (o : CallOptions) : CallOptions :=
  { o with
    returnDefaults := true
    returnNoneDisplayed := true
    onlySimpleTypes := true
    dataIsResolved := true }

/-- The call on the values of a parameter. -/
def CallOptions.below (o : CallOptions) (root : Values) (parentType : ParentType) : CallOptions where
  returnDefaults := o.returnDefaults
  returnNoneDisplayed := o.returnNoneDisplayed
  nodeValuesRoot := some root
  parentType := some parentType

/-- What a parameter does at its turn. -/
inductive Turned where
  | skip
  | set (value : JsValue)
  | returnValues
  deriving DecidableEq

/-- What is made of the values of one level. -/
abbrev Level := CallOptions → JsValue → Result Values

abbrev Turn := CallOptions → Values → JsValue → Result Turned

def orElse (value other : JsValue) : JsValue :=
  if value = .null ∨ value = .undefined then other else value

/-- `{ __rl: true, ...value }`. -/
def asLocator (value : JsValue) : JsValue :=
  .object (value.fields.foldl (fun fields f => Fields.set fields f.1 f.2)
    [("__rl", .boolean true)])

variable (head : PropertyHead)

/-- The value that is set where defaults are returned. -/
def withDefault (type : SimpleType) (value : JsValue) : JsValue :=
  let default := head.default.1
  match type with
  | .boolean | .number | .options => if value ≠ .undefined then value else default
  | .resourceLocator =>
    if isObject default then if value ≠ .undefined then value else asLocator default
    else orElse value default
  | .other => orElse value default

def differsFromDefault (value : JsValue) : Bool :=
  if isObject value then !isEqual value head.default.1 else value ≠ head.default.1

def simpleTurn (type : SimpleType) (o : CallOptions) (value : JsValue) : Turned :=
  if o.returnDefaults then .set (withDefault head type value)
  else if differsFromDefault head value ∨
      (value ≠ .undefined ∧ o.parentType = some .collection) then .set value
  else .skip

def collectionTurn (multipleValues : Option Bool) (options : Level) : Turn :=
  fun o root value =>
    if o.onlySimpleTypes then pure .skip
    else if multipleValues = some true then
      if value ≠ .undefined then pure (.set value)
      else if o.returnDefaults then match head.default.1 with
        | .array items => pure (.set (.array items))
        | _ => pure (.set (.array []))
      else pure .skip
    else if value ≠ .undefined then do
      pure (.set (.object (← options (o.below root .collection) value)))
    else if o.returnDefaults then pure (.set head.default.1)
    else pure .skip

/-- A property of the item is there that is not the default. -/
def hasNonDefaultValues (properties : List INodeProperties) (item : JsValue) : Bool :=
  item.truthy && item.fields.any fun f =>
    match properties.find? fun field => field.name = f.1 with
    | some field => !isEqual f.2 field.head.default.1
    | none => false

def multipleItems (property itemName : String) (values : Option Level) (o : CallOptions) :
    JsValue → Result JsValue
  | .array items => do
    let itemValues ← items.mapM fun item => match values with
      | some values => do pure (.object (← values o item))
      | none => throwing (.couldNotFindPropertyOption itemName property)
    pure (.array itemValues)
  | _ => throwing .typeError

/-- The only item of one name: the value that is set, if any, and if visible fields were found. -/
def singleItem (given : Bool) (option : Option (List INodeProperties × Level)) (o : CallOptions)
    (item : JsValue) : Result (Option JsValue × Bool) :=
  match option with
  | none => pure (none, false)
  | some (properties, values) =>
    if given then do
      let tempNodeParameters ← values o item
      let hadVisibleFields := tempNodeParameters ≠ [] || !hasNonDefaultValues properties item
      if tempNodeParameters ≠ [] ∨
          (o.returnDefaults = false ∧ hadVisibleFields ∧ item ≠ .undefined) then
        pure (some (.object tempNodeParameters), hadVisibleFields)
      else pure (none, hadVisibleFields)
    else throwing .typeError

/-- The values that are set, and if visible fields were found anywhere. -/
def collectItems (setItem : String → JsValue → Result (Option JsValue × Bool)) :
    Values → Result (Values × Bool)
  | [] => pure ([], false)
  | (itemName, item) :: items => do
    let (value, hadVisibleFields) ← setItem itemName item
    let (values, hadAnyVisibleFields) ← collectItems setItem items
    let set := match value with
      | some value => (itemName, value) :: values
      | none => values
    pure (set, hadVisibleFields || hadAnyVisibleFields)

def setItem (multipleValues : Option Bool)
    (options : List (String × List INodeProperties × Level)) (o : CallOptions) (given : Bool)
    (itemName : String) (item : JsValue) : Result (Option JsValue × Bool) :=
  let option := Fields.get options itemName
  if multipleValues = some true then do
    let values ← multipleItems head.name itemName (option.map Prod.snd) o item
    pure (some values, false)
  else singleItem given option o item

def fixedCollectionTurn (multipleValues : Option Bool)
    (options : List (String × List INodeProperties × Level)) : Turn := fun o root value =>
  if o.onlySimpleTypes then pure .skip
  else
    let propertyValues := if o.returnDefaults ∧ value = .undefined then head.default.1 else value
    if o.returnDefaults = false ∧ multipleValues = some false ∧ propertyValues.truthy ∧
        propertyValues.fields = [] then pure .returnValues
    else do
      let (collectionValues, hadAnyVisibleFields) ← collectItems
        (setItem head multipleValues options (o.below root .fixedCollection) (value ≠ .undefined))
        propertyValues.fields
      if collectionValues ≠ [] ∨ o.returnDefaults then
        pure (.set (.object collectionValues))
      else if hadAnyVisibleFields ∧ multipleValues = some false ∧ propertyValues.fields ≠ [] then
        pure (.set (.object (propertyValues.fields.map fun f => (f.1, .object []))))
      else pure .skip

variable (ctx : Context)

def visit (o : CallOptions) (duplicate : Bool) (nodeValues : JsValue) (nodeValuesDisplayCheck : Values)
    (property : INodeProperties) (turn : Turn) : Result Turned :=
  let value := nodeValues.get property.name
  let root := o.nodeValuesRoot.getD nodeValuesDisplayCheck
  let displayed := displayParameter ctx nodeValuesDisplayCheck property.head root
  if nodeValues.truthy = false ∨
      value = .undefined ∧ (o.returnDefaults = false ∨ o.parentType = some .collection) then
    pure .skip
  else do
    if !(o.returnNoneDisplayed || (← displayed)) then pure .skip
    else if property.isSimple && duplicate then do
      if ← displayed then turn o root value else pure .skip
    else turn o root value

/-- The loop over the parameters; where no check is given, it looks at what it has set itself. -/
def setParameters (o : CallOptions) (duplicate : String → Bool) (nodeValues : JsValue)
    (displayCheck : Option Values) : List (INodeProperties × Turn) → Values → Result Values
  | [], nodeParameters => pure nodeParameters
  | (property, turn) :: entries, nodeParameters => do
    let turned ← visit ctx o (duplicate property.name) nodeValues
      (displayCheck.getD nodeParameters) property turn
    match turned with
      | .skip => setParameters o duplicate nodeValues displayCheck entries nodeParameters
      | .set value =>
        setParameters o duplicate nodeValues displayCheck entries
          (Fields.set nodeParameters property.name value)
      | .returnValues => pure nodeValues.fields

/-- A name that is used multiple times. -/
def isDuplicate (properties : List INodeProperties) (name : String) : Bool :=
  1 < (properties.map INodeProperties.name).count name

variable (entries : List (INodeProperties × Turn))

def inOrder : Result (List (INodeProperties × Turn)) := do
  let properties := entries.map Prod.fst
  let order ← getParameterResolveOrder properties (getParameterDependencies properties)
  pure (order.filterMap fun index => entries[index]?)

def pass (o : CallOptions)
    (displayCheck : Option Values) (nodeValues : JsValue) : Result Values := do
  setParameters ctx o (isDuplicate (entries.map Prod.fst)) nodeValues displayCheck
    (← inOrder entries) []

/-- The values the display is checked by. -/
def displayCheckOf (o : CallOptions) (nodeValues : JsValue) : Result (Option Values) :=
  if o.dataIsResolved || o.returnNoneDisplayed then pure none
  else some <$> pass ctx entries o.resolving none nodeValues

def level : Level := fun o nodeValues => do
  pass ctx entries o (← displayCheckOf ctx entries o nodeValues) nodeValues

mutual
def turnOf : INodeProperties → Turn
  | .simple head type => fun o _ value => pure (simpleTurn head type o value)
  | .collection head multipleValues options =>
    collectionTurn head multipleValues (level ctx (entriesOf options))
  | .fixedCollection head multipleValues options =>
    fixedCollectionTurn head multipleValues (levelsOf options)

def entriesOf : List INodeProperties → List (INodeProperties × Turn)
  | [] => []
  | property :: properties => (property, turnOf property) :: entriesOf properties

def levelsOf : List (String × List INodeProperties) → List (String × List INodeProperties × Level)
  | [] => []
  | (name, values) :: options => (name, values, level ctx (entriesOf values)) :: levelsOf options
end

def getNodeParameters (properties : List INodeProperties) (nodeValues : JsValue)
    (o : CallOptions) : Result Values :=
  level ctx (entriesOf ctx properties) o nodeValues

theorem entriesOf_eq_map (properties : List INodeProperties) :
    entriesOf ctx properties = properties.map fun property => (property, turnOf ctx property) := by
  induction properties with
  | nil => rfl
  | cons property properties ih => rw [entriesOf, ih, List.map_cons]

theorem get_levelsOf (options : List (String × List INodeProperties)) (name : String) :
    Fields.get (levelsOf ctx options) name = (Fields.get options name).map fun values =>
      (values, fun o item => getNodeParameters ctx values item o) := by
  induction options with
  | nil => rfl
  | cons option options ih =>
    obtain ⟨key, values⟩ := option
    rw [levelsOf, Fields.get_cons, Fields.get_cons, ih]
    split
    · rfl
    · rfl

end N8n.NodeHelpers
