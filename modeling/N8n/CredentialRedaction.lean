/-
Redaction of credentials.

Before the data of a credential goes to the browser, the values of its sensitive
properties are replaced by sentinels.  The redaction walks over the data and looks
up each key among the properties of the credential type, with what the type
inherits; it goes on below only into the options of fixed collections.

An array and an object are read alike here, as they are by the code: the keys of an
array are its indexes.
-/
import N8n.Masking

namespace N8n

open JsValue

inductive NodePropertyType where
  | boolean | button | collection | color | dateTime | fixedCollection | hidden | icon | json
  | callout | notice | multiOptions | number | options | string | credentialsSelect
  | resourceLocator | curlImport | resourceMapper | filter | assignmentCollection | credentials
  | workflowSelector
  deriving DecidableEq

mutual
/-- `INodeProperties`, with `typeOptions.password` as `password`. -/
structure Property where
  name : String
  type : NodePropertyType
  password : Bool := false
  noDataExpression : Bool := false
  doNotInherit : Bool := false
  options : List PropertyOption := []

/-- An element of `options`: a choice, a property or a collection of properties. -/
inductive PropertyOption where
  | option
  | property (p : Property)
  | collection (name : String) (values : List Property)
end

/-- A credential type, with the types it extends in the place of their names. -/
structure CredentialType where
  extendedTypes : List CredentialType := []
  properties : List Property

/-- Merge the properties: a property of a known name takes the place of the first
one of that name. -/
def mergeNodeProperties (mainProperties addProperties : List Property) : List Property :=
  addProperties.foldl (fun props p =>
    if p.doNotInherit then props
    else if props.any (fun q => q.name = p.name) then
      props.set (props.findIdx fun q => q.name = p.name) p
    else props ++ [p]) mainProperties

mutual
def getExtendedProps : CredentialType → List Property
  | ⟨extendedTypes, properties⟩ => mergeNodeProperties (extendProps [] extendedTypes) properties

def extendProps : List Property → List CredentialType → List Property
  | props, [] => props
  | props, e :: es => extendProps (mergeNodeProperties props (getExtendedProps e)) es
end

def CREDENTIAL_BLANKING_VALUE : String := "__n8n_BLANK_VALUE_e5362baf-c777-4d57-a609-6eaf1f9e87f6"

def CREDENTIAL_EMPTY_VALUE : String := "__n8n_EMPTY_VALUE_7b1af746-3729-4c60-9b9b-e08eb29e58da"

mutual
/-- `toString().length > 0`, where it does not throw.  An own field `toString` of an
object hides the method. -/
def textOf (nullish : Option Bool) : JsValue → Option Bool
  | .undefined => nullish
  | .null => nullish
  | .boolean _ => some true
  | .number _ => some true
  | .string s => some (s ≠ "")
  | .array items => (anyText items).map (· || 1 < items.length)
  | .object fields => if fields.any (fun f => f.1 = "toString") then none else some true

/-- Whether an element of an array adds to the joined text; `null` does not. -/
def anyText : List JsValue → Option Bool
  | [] => some false
  | v :: vs => do
    let first ← textOf (some false) v
    let rest ← anyText vs
    return first || rest
end

/-- `v.toString().length > 0`; `none` where it throws. -/
def hasText (v : JsValue) : Option Bool := textOf none v

/-- The sentinel in the place of a value. -/
def blank (v : JsValue) : Option JsValue := do
  if ← hasText v then return .string CREDENTIAL_BLANKING_VALUE
  else return .string CREDENTIAL_EMPTY_VALUE

def isExpression (s : String) : Bool := "=\x7b\x7b".toList.isPrefixOf s.toList

def isTokenKey (dataKey : String) : Bool := dataKey = "oauthTokenData" || dataKey = "csrfSecret"

/-- The value of a password; `startsWith` is a method of strings only. -/
def redactPassword (noDataExpression : Bool) : JsValue → Option JsValue
  | .string s =>
    if ¬ isExpression s || noDataExpression then blank (.string s) else some (.string s)
  | _ => none

/-- The code units of a string, as `data[dataKey]` reads them.  Half of a surrogate
pair is no character; nothing depends on which one it is. -/
def codeUnits (s : String) : List String :=
  s.toList.flatMap fun c =>
    if c.toNat < 0x10000 then [String.singleton c]
    else [String.singleton '\uFFFD', String.singleton '\uFFFD']

variable (table : List (String × (JsValue → Option JsValue)))

/-- The body of the loop over the keys of the data, after `props.find`. -/
def redactEntry (dataKey : String) (v : JsValue) : Option JsValue :=
  if isTokenKey dataKey then blank v
  else match table.find? fun e => e.1 = dataKey with
    | none => some v
    | some e => e.2 v

/-- The loop over the keys of the data.  `Object.keys` throws at `null`, and so does an
assignment to a character of a string. -/
def redactEntries : JsValue → Option JsValue
  | .undefined => none
  | .null => none
  | .string s =>
    if (codeUnits s).zipIdx.all
        (fun u => redactEntry table (toString u.2) (.string u.1) = some (.string u.1))
    then some (.string s) else none
  | v => v.mapKids fun s x => redactEntry table s.key x

/-- What `redactCollectionOption` does to the values of an option. -/
def redactItems : JsValue → Option JsValue
  | .array items => (JsValue.array items).mapKids fun _ x => redactEntries table x
  | .object fields => redactEntries table (.object fields)
  | v => some v

mutual
/-- What is done to the value of each property, under the property's name. -/
def redactors : List Property → List (String × (JsValue → Option JsValue))
  | [] => []
  | p :: ps => (p.name, redactProperty p) :: redactors ps

/-- The rest of the loop's body, for the property that was found. -/
def redactProperty : Property → JsValue → Option JsValue
  | ⟨_, type, password, noDataExpression, _, options⟩, v => do
    let v ← if type = .fixedCollection then redactOptions options v else some v
    if password then redactPassword noDataExpression v else some v

def redactOptions : List PropertyOption → JsValue → Option JsValue
  | [], v => some v
  | o :: os, v => do redactOptions os (← redactCollectionOption o v)

def redactCollectionOption : PropertyOption → JsValue → Option JsValue
  | .option, v => some v
  | .property _, v => some v
  | .collection name values, v =>
    v.mapKids fun s x => if s.key = name then redactItems (redactors values) x else some x
end

def redactValues (data : JsValue) (props : List Property) : Option JsValue :=
  redactEntries (redactors props) data

/-- What goes to the browser; `none` if the redaction throws.  The data of a credential
whose type is not known is left as it is. -/
def redact (data : List (String × JsValue)) : Option CredentialType → Option JsValue
  | none => some (.object data)
  | some credType => redactValues (.object data) (getExtendedProps credType)

end N8n
