/-
Filter conditions.

A condition compares a left and a right value with an operator of a type.  Both values are converted
to the type first, the right one to a type of its own if the operator has one; a value that cannot
be converted is an error.  The comparison falls through from one type to the next where the type
does not have the operation.

* `Value` — the values; objects and arrays have an identity, except those that are just made;
* `Conversions` — what the language and the date library make of a value;

The message of a value that is not valid, which is not read here, is left out.
-/
import Mathlib.Data.List.Infix
import Mathlib.Data.Rat.Defs

namespace N8n.FilterParameter

/-- A number of the language; zero has one sign. -/
inductive JsNumber where
  | nan
  | negInfinity
  | finite (value : ℚ)
  | infinity
  deriving DecidableEq

def JsNumber.lt : JsNumber → JsNumber → Bool
  | finite a, finite b => a < b
  | negInfinity, finite _ => true
  | negInfinity, infinity => true
  | finite _, infinity => true
  | _, _ => false

/-- What an object is: a date has its time, a `DateTime` its milliseconds, which are `NaN` if it is
not valid. -/
inductive ObjectKind where
  | plain
  | date (time : JsNumber)
  | dateTime (millis : JsNumber)
  deriving DecidableEq

inductive Value where
  | null
  | undefined
  | bool (b : Bool)
  | number (n : JsNumber)
  | string (s : String)
  | array (ref : Option ℕ) (items : List Value)
  | object (ref : Option ℕ) (kind : ObjectKind) (keys : List String)
  /-- A function, a symbol or a big integer. -/
  | other (ref : ℕ) (typeOf : String)

namespace Value

def typeOf : Value → String
  | null => "object"
  | undefined => "undefined"
  | bool _ => "boolean"
  | number _ => "number"
  | string _ => "string"
  | array _ _ => "object"
  | object _ _ _ => "object"
  | other _ typeOf => typeOf

def truthy : Value → Bool
  | null => false
  | undefined => false
  | bool b => b
  | number n => n ≠ .nan ∧ n ≠ .finite 0
  | string s => s ≠ ""
  | _ => true

def isNaN : Value → Bool
  | number .nan => true
  | _ => false

def isNullish : Value → Bool
  | null => true
  | undefined => true
  | _ => false

def orElse (value other : Value) : Value := if value.isNullish then other else value

/-- `===`, except on numbers. -/
def sameReference : Value → Value → Bool
  | null, null => true
  | undefined, undefined => true
  | bool a, bool b => a = b
  | string a, string b => a = b
  | array a _, array b _ => a ≠ none ∧ a = b
  | object a _ _, object b _ _ => a ≠ none ∧ a = b
  | other a _, other b _ => a = b
  | _, _ => false

def strictEquals : Value → Value → Bool
  | number a, number b => a ≠ .nan ∧ a = b
  | a, b => sameReference a b

/-- The equality of `includes`. -/
def sameValueZero : Value → Value → Bool
  | number a, number b => a = b
  | a, b => sameReference a b

def keyCount : Value → ℕ
  | string s => s.length
  | array _ items => items.length
  | object _ _ keys => keys.length
  | _ => 0

def length : Value → Value
  | string s => number (.finite s.length)
  | array _ items => number (.finite items.length)
  | _ => undefined

end Value

inductive FilterOperatorType where
  | any | string | number | boolean | array | object | dateTime
  deriving DecidableEq

def FilterOperatorType.toString : FilterOperatorType → String
  | any => "any"
  | string => "string"
  | number => "number"
  | boolean => "boolean"
  | array => "array"
  | object => "object"
  | dateTime => "dateTime"

inductive FilterOperation where
  | exists | notExists | empty | notEmpty | equals | notEquals
  | contains | notContains | startsWith | notStartsWith | endsWith | notEndsWith | regex | notRegex
  | gt | lt | gte | lte | after | before | afterOrEquals | beforeOrEquals
  | true | false
  | lengthEquals | lengthNotEquals | lengthGt | lengthLt | lengthGte | lengthLte
  | other (name : String)
  deriving DecidableEq

structure FilterOperatorValue where
  type : FilterOperatorType
  operation : FilterOperation
  rightType : Option FilterOperatorType := none
  singleValue : Bool := false
  deriving DecidableEq

structure FilterConditionValue where
  leftValue : Value
  operator : FilterOperatorValue
  rightValue : Value

structure FilterOptionsValue where
  caseSensitive : Bool := true
  strict : Bool := false
  version : Option ℕ := none
  deriving DecidableEq

inductive ErrorFormat where
  | full | inline
  deriving DecidableEq

structure FilterConditionMetadata where
  index : Option ℕ := none
  unresolvedExpressions : Bool := false
  itemIndex : Option ℕ := none
  errorFormat : Option ErrorFormat := none
  deriving DecidableEq

structure FilterError where
  message : String
  description : String
  deriving DecidableEq

/-- An error of the language. -/
structure JsError where
  name : String
  deriving DecidableEq

inductive Thrown where
  | filterError (error : FilterError)
  | error (error : JsError)
  deriving DecidableEq

/-- What the language and the date library make of values and texts. -/
structure Conversions where
  /-- `Number(value)`. -/
  number : Value → Except JsError JsNumber
  /-- `String(value)`. -/
  string : Value → Except JsError String
  /-- `JSON.stringify(value)`, which may be `undefined`. -/
  stringify : Value → Except JsError (Option String)
  /-- The argument of `includes`, `startsWith` or `endsWith`. -/
  searchString : Value → Except JsError String
  /-- The first of the parsers of dates that reads the text. -/
  parseDate : String → Option JsNumber
  /-- `JSON.parse`. -/
  parseJson : String → Option Value
  /-- `jsonParse` with `acceptJSObject`. -/
  jsonParse : String → Option Value
  toLowerCase : String → String
  toLocaleLowerCase : String → String
  trim : String → String
  /-- `new RegExp(pattern, flags)`, as its `test`. -/
  regExp : String → String → Except JsError (String → Bool)
  /-- `<` and `<=`. -/
  lessThan : Value → Value → Except JsError Bool
  lessEqual : Value → Value → Except JsError Bool
  /-- The keys of a `DateTime`. -/
  dateTimeKeys : List String

variable (conv : Conversions)

variable (value : Value)

def tryToParseNumber : Option Value :=
  match conv.number value with
  | .ok .nan => none
  | .ok n => some (.number n)
  | .error _ => none

def tryToParseString : Option Value :=
  match value with
  | .undefined => some (.string "")
  | .string s => some (.string s)
  | _ =>
    if value.typeOf = "object" then
      match conv.stringify value with
      | .ok (some s) => some (.string s)
      | .ok none => some .undefined
      | .error _ => none
    else (conv.string value).toOption.map .string

/-- A text that is not blank is tried as a number. -/
def booleanOfNumber : Option Value :=
  match conv.number value with
  | .ok n => if n = .finite 0 then some (.bool false)
    else if n = .finite 1 then some (.bool true) else none
  | .error _ => none

def tryToParseBoolean : Option Value :=
  match value with
  | .bool b => some (.bool b)
  | .string s =>
    if conv.toLowerCase s = "true" then some (.bool true)
    else if conv.toLowerCase s = "false" then some (.bool false)
    else if conv.trim s = "" then none
    else booleanOfNumber conv value
  | _ => booleanOfNumber conv value

def dateTimeOf (millis : JsNumber) : Value := .object none (.dateTime millis) conv.dateTimeKeys

def parseDateText : Option Value :=
  match conv.string value with
  | .ok text => (conv.parseDate (conv.trim text)).map (dateTimeOf conv)
  | .error _ => none

def tryToParseDateTime : Option Value :=
  match value with
  | .object _ (.dateTime millis) _ => if millis ≠ .nan then some value else parseDateText conv value
  | .object _ (.date time) _ =>
    if time ≠ .nan then some (dateTimeOf conv time) else parseDateText conv value
  | _ => parseDateText conv value

def quote : Char := Char.ofNat 39

def doubleQuote : Char := Char.ofNat 34

/-- The text is also tried with double quotes. -/
def tryToParseArray : Option Value :=
  match value with
  | .array _ _ => some value
  | _ => do
    let text ← (conv.string value).toOption
    let doubleQuoted := String.ofList
      (text.toList.map fun c => if c = quote then doubleQuote else c)
    let parsed ← (conv.parseJson text).or (conv.parseJson doubleQuoted)
    match parsed with
    | .array _ _ => some parsed
    | _ => none

def tryToParseObject : Option Value :=
  match value with
  | .object _ _ _ => some value
  | _ => do
    let text ← (conv.string value).toOption
    let o ← conv.jsonParse text
    match o with
    | .object _ _ _ => some o
    | .null => some o
    | _ => none

def validateFieldType (type : FilterOperatorType) (strict parseStrings : Bool) : Option Value :=
  if value.isNullish then some .undefined else match type with
  | .any => some value
  | .string =>
    if ¬ parseStrings then some value
    else if strict ∧ value.typeOf ≠ "string" then none else tryToParseString conv value
  | .number => if strict ∧ value.typeOf ≠ "number" then none else tryToParseNumber conv value
  | .boolean => if strict ∧ value.typeOf ≠ "boolean" then none else tryToParseBoolean conv value
  | .dateTime => tryToParseDateTime conv value
  | .object =>
    if strict ∧ ¬(value.typeOf = "object" ∨ value.typeOf = "function") then none
    else tryToParseObject conv value
  | .array =>
    match strict, value with
    | true, .array _ _ => tryToParseArray conv value
    | true, _ => none
    | false, _ => tryToParseArray conv value

/-- A blank text and an empty array are no numbers. -/
def isEmptyNumber : Bool :=
  match value with
  | .string s => conv.trim s = ""
  | .array _ items => items.isEmpty
  | _ => false

def parseSingleFilterValue (type : FilterOperatorType) (strict : Bool)
    (version : ℕ) : Option Value :=
  if type = .any ∨ value.isNullish then some value
  else if type = .boolean ∧ ¬ strict then
    let parsed := if version ≥ 2 then validateFieldType conv value type false false else none
    some (parsed.getD (.bool value.truthy))
  else if type = .number ∧ value.isNaN then some value
  else if type = .number ∧ isEmptyNumber conv value ∧ version ≥ 3 then some .null
  else validateFieldType conv value type strict true

def withIndefiniteArticle (noun : String) : String :=
  let article := if noun.toList.head?.all (· ∈ "aeiou".toList) then "an" else "a"
  article ++ " " ++ noun

def typeDescription (strict : Bool) : String :=
  if strict then "Try changing the type of comparison. " ++
    "Alternatively you can enable 'Convert types where required'."
  else "Try changing the type of the comparison."

def composeInvalidTypeMessage (strict : Bool) (suffix type fromType value : String) : String :=
  if strict then "Wrong type: '" ++ value ++ "' is " ++ withIndefiniteArticle fromType ++
    " but was expecting " ++ withIndefiniteArticle type ++ " " ++ suffix
  else "Conversion error: the " ++ fromType ++ " '" ++ value ++ "' can't be converted to " ++
    withIndefiniteArticle type ++ " " ++ suffix

def conversionFunction : FilterOperatorType → Option String
  | .string => some ".toString()"
  | .number => some ".toNumber()"
  | .boolean => some ".toBoolean()"
  | _ => none

def composeInvalidTypeDescription (strict : Bool) (type : FilterOperatorType)
    (valuePosition : String) : String :=
  match strict, conversionFunction type with
  | true, some function =>
    "\n<p>Try either:</p>\n<ol>\n  <li>Enabling 'Convert types where required'</li>\n" ++
      "  <li>Converting the " ++ valuePosition ++ " field to " ++
      withIndefiniteArticle type.toString ++ " by adding <code>" ++ function ++
      "</code></li>\n</ol>\n\t\t\t"
  | _, _ => typeDescription strict

/-- An expression that is not resolved yet counts as valid. -/
def isUnresolved (metadata : FilterConditionMetadata) : Value → Bool
  | .string s => metadata.unresolvedExpressions ∧ s.toList.head? = some '='
  | _ => false

def messageSuffix (metadata : FilterConditionMetadata) : String :=
  let item := "item " ++ toString (metadata.itemIndex.getD 0) ++ "]"
  if metadata.errorFormat.getD .full = .full then
    "[condition " ++ toString (metadata.index.getD 0) ++ ", " ++ item
  else "[" ++ item

namespace FilterOperatorValue

def rightTypeOrType (operator : FilterOperatorValue) : FilterOperatorType :=
  operator.rightType.getD operator.type

end FilterOperatorValue

namespace FilterConditionValue
variable (condition : FilterConditionValue)

variable (options : FilterOptionsValue)

def parsedLeftValue : Option Value :=
  parseSingleFilterValue conv condition.leftValue condition.operator.type options.strict
    (options.version.getD 1)

def parsedRightValue : Option Value :=
  parseSingleFilterValue conv condition.rightValue condition.operator.rightTypeOrType
    options.strict (options.version.getD 1)

def leftValid (metadata : FilterConditionMetadata) : Bool :=
  (condition.parsedLeftValue conv options).isSome || isUnresolved metadata condition.leftValue

def rightValid (metadata : FilterConditionMetadata) : Bool :=
  (condition.parsedRightValue conv options).isSome || condition.operator.singleValue ||
    isUnresolved metadata condition.rightValue

end FilterConditionValue

/-- The values, or the error that is returned; the texts of the values are made in any case. -/
def parseFilterConditionValues (condition : FilterConditionValue) (options : FilterOptionsValue)
    (metadata : FilterConditionMetadata) : Except JsError (Except FilterError (Value × Value)) := do
  let operator := condition.operator
  let strict := options.strict
  let suffix := messageSuffix metadata
  let leftType := condition.leftValue.typeOf
  let rightType := condition.rightValue.typeOf
  let leftValueString ← conv.string condition.leftValue
  let rightValueString ← conv.string condition.rightValue
  let leftValid := condition.leftValid conv options metadata
  let rightValid := condition.rightValid conv options metadata
  if leftValid = false ∧ rightValid = false ∧ leftType = rightType then
    .ok (.error ⟨"Comparison type expects " ++ withIndefiniteArticle operator.type.toString ++
      " but both fields are " ++ withIndefiniteArticle leftType, typeDescription strict⟩)
  else if leftValid = false then
    .ok (.error ⟨composeInvalidTypeMessage strict suffix operator.type.toString leftType
      leftValueString, composeInvalidTypeDescription strict operator.type "first"⟩)
  else if rightValid = false then
    .ok (.error ⟨composeInvalidTypeMessage strict suffix operator.rightTypeOrType.toString rightType
      rightValueString, composeInvalidTypeDescription strict operator.rightTypeOrType "second"⟩)
  else .ok (.ok ((condition.parsedLeftValue conv options).getD .undefined,
    (condition.parsedRightValue conv options).getD .undefined))

/-- A pattern between slashes has its flags behind the last slash. -/
def parseRegexPattern (pattern : Value) : Except JsError (String → Bool) :=
  if pattern.truthy = false then conv.regExp "" ""
  else match pattern with
  | .string s =>
    let (flags, front) := s.toList.reverse.span (· ∈ "gimusy".toList)
    match front, s.toList with
    | '/' :: reversed, '/' :: _ :: _ =>
      let body := (reversed.reverse).drop 1
      if reversed ≠ [] ∧ body.all (· ∉ ['\n', '\r', '\u2028', '\u2029']) then
        conv.regExp (String.ofList body) (String.ofList flags.reverse)
      else conv.regExp s ""
    | _, _ => conv.regExp s ""
  | _ => .error ⟨"TypeError"⟩

def lowerCaseEquals (value : String) : Value → Bool
  | .string item => conv.toLocaleLowerCase item = conv.toLocaleLowerCase value
  | _ => false

def arrayContainsValue (array value : Value) (ignoreCase : Bool) : Except JsError Bool :=
  match array with
  | .array _ items =>
    match ignoreCase, value with
    | true, .string s => .ok (items.any (lowerCaseEquals conv s))
    | _, _ => .ok (items.any (·.sameValueZero value))
  | _ => .error ⟨"TypeError"⟩

def negated (result : Except JsError Bool) : Except JsError Bool := result.map (!·)

def toMillis : Value → Except JsError JsNumber
  | .object _ (.dateTime millis) _ => .ok millis
  | _ => .error ⟨"TypeError"⟩

def compareMillis (compare : JsNumber → JsNumber → Bool) (left right : Value) :
    Except JsError Bool := do
  let leftMillis ← toMillis left
  let rightMillis ← toMillis right
  .ok (compare leftMillis rightMillis)

def equalMillis (a b : JsNumber) : Bool := a ≠ .nan ∧ a = b

def text : Value → Except JsError String
  | .string s => .ok s
  | _ => .error ⟨"TypeError"⟩

/-- `left.includes(right)`, `left.startsWith(right)` or `left.endsWith(right)`. -/
def searchText (search : List Char → List Char → Bool) (left right : Value) :
    Except JsError Bool := do
  let leftText ← text left
  let rightText ← conv.searchString right
  .ok (search rightText.toList leftText.toList)

def testRegex (left right : Value) : Except JsError Bool := do
  let regex ← parseRegexPattern conv right
  let leftText ← text left
  .ok (regex leftText)

def lowerCase : Value → Value
  | .string s => .string (conv.toLocaleLowerCase s)
  | value => value

/-- Not null, not undefined and not `NaN`. -/
def isPresent (value : Value) : Bool := !value.isNullish && !value.isNaN

section Cases

variable (operation : FilterOperation) (leftValue rightValue : Value) (ignoreCase : Bool)

/-- What no case decides is unknown, and false. -/
def objectCase : Except JsError Value :=
  match operation with
  | .empty => .ok (.bool (!leftValue.truthy || leftValue.keyCount = 0))
  | .notEmpty => .ok (.bool (leftValue.truthy && leftValue.keyCount ≠ 0))
  | _ => .ok (.bool false)

def arrayCase : Except JsError Value :=
  let left := leftValue.orElse (.array none [])
  match operation with
  | .contains => (arrayContainsValue conv left rightValue ignoreCase).map .bool
  | .notContains => (negated (arrayContainsValue conv left rightValue ignoreCase)).map .bool
  | .lengthEquals => .ok (.bool (left.length.strictEquals rightValue))
  | .lengthNotEquals => .ok (.bool (!left.length.strictEquals rightValue))
  | .lengthGt => (conv.lessThan rightValue left.length).map .bool
  | .lengthLt => (conv.lessThan left.length rightValue).map .bool
  | .lengthGte => (conv.lessEqual rightValue left.length).map .bool
  | .lengthLte => (conv.lessEqual left.length rightValue).map .bool
  | .empty => .ok (.bool (left.length.strictEquals (.number (.finite 0))))
  | .notEmpty => .ok (.bool (!left.length.strictEquals (.number (.finite 0))))
  | _ => objectCase operation leftValue

def booleanCase : Except JsError Value :=
  match operation with
  | .empty => .ok (.bool (!isPresent leftValue))
  | .notEmpty => .ok (.bool (isPresent leftValue))
  | .true => .ok leftValue
  | .false => .ok (.bool (!leftValue.truthy))
  | .equals => .ok (.bool (leftValue.strictEquals rightValue))
  | .notEquals => .ok (.bool (!leftValue.strictEquals rightValue))
  | _ => arrayCase conv operation leftValue rightValue ignoreCase

/-- The comparison of two dates that are not missing. -/
def presentDateTimes : Except JsError Value :=
  match operation with
  | .equals => (compareMillis equalMillis leftValue rightValue).map .bool
  | .notEquals => (negated (compareMillis equalMillis leftValue rightValue)).map .bool
  | .after => (compareMillis (fun a b => b.lt a) leftValue rightValue).map .bool
  | .before => (compareMillis JsNumber.lt leftValue rightValue).map .bool
  | .afterOrEquals =>
    (compareMillis (fun a b => b.lt a || equalMillis a b) leftValue rightValue).map .bool
  | .beforeOrEquals =>
    (compareMillis (fun a b => a.lt b || equalMillis a b) leftValue rightValue).map .bool
  | _ => booleanCase conv operation leftValue rightValue ignoreCase

def dateTimeCase : Except JsError Value :=
  if operation = .empty then .ok (.bool (!isPresent leftValue))
  else if operation = .notEmpty then .ok (.bool (isPresent leftValue))
  else if leftValue.truthy = false ∨ rightValue.truthy = false then .ok (.bool false)
  else presentDateTimes conv operation leftValue rightValue ignoreCase

def numberCase : Except JsError Value :=
  match operation with
  | .empty => .ok (.bool (!isPresent leftValue))
  | .notEmpty => .ok (.bool (isPresent leftValue))
  | .equals => .ok (.bool (leftValue.strictEquals rightValue))
  | .notEquals => .ok (.bool (!leftValue.strictEquals rightValue))
  | .gt => (conv.lessThan rightValue leftValue).map .bool
  | .lt => (conv.lessThan leftValue rightValue).map .bool
  | .gte => (conv.lessEqual rightValue leftValue).map .bool
  | .lte => (conv.lessEqual leftValue rightValue).map .bool
  | _ => dateTimeCase conv operation leftValue rightValue ignoreCase

def stringCase : Except JsError Value :=
  let isRegex : Bool := operation = .regex ∨ operation = .notRegex
  let left := (if ignoreCase then lowerCase conv leftValue else leftValue).orElse (.string "")
  let right := (if ignoreCase && !isRegex then lowerCase conv rightValue else rightValue).orElse
    (.string "")
  match operation with
  | .empty => .ok (.bool (left.length.strictEquals (.number (.finite 0))))
  | .notEmpty => .ok (.bool (!left.length.strictEquals (.number (.finite 0))))
  | .equals => .ok (.bool (left.strictEquals right))
  | .notEquals => .ok (.bool (!left.strictEquals right))
  | .contains => (searchText conv (fun a b => a <:+: b) left right).map .bool
  | .notContains => (negated (searchText conv (fun a b => a <:+: b) left right)).map .bool
  | .startsWith => (searchText conv (fun a b => a <+: b) left right).map .bool
  | .notStartsWith => (negated (searchText conv (fun a b => a <+: b) left right)).map .bool
  | .endsWith => (searchText conv (fun a b => a <:+ b) left right).map .bool
  | .notEndsWith => (negated (searchText conv (fun a b => a <:+ b) left right)).map .bool
  | .regex => (testRegex conv left right).map .bool
  | .notRegex => (negated (testRegex conv left right)).map .bool
  | _ => .ok (.bool false)

def compareValues (type : FilterOperatorType) : Except JsError Value :=
  if operation = .exists then .ok (.bool (isPresent leftValue))
  else if operation = .notExists then .ok (.bool (!isPresent leftValue))
  else match type with
  | .any => .ok (.bool false)
  | .string => stringCase conv operation leftValue rightValue ignoreCase
  | .number => numberCase conv operation leftValue rightValue ignoreCase
  | .dateTime => dateTimeCase conv operation leftValue rightValue ignoreCase
  | .boolean => booleanCase conv operation leftValue rightValue ignoreCase
  | .array => arrayCase conv operation leftValue rightValue ignoreCase
  | .object => objectCase operation leftValue

end Cases

def executeFilterCondition (condition : FilterConditionValue) (filterOptions : FilterOptionsValue)
    (metadata : FilterConditionMetadata) : Except Thrown Value :=
  match parseFilterConditionValues conv condition filterOptions metadata with
  | .error e => .error (.error e)
  | .ok (.error e) => .error (.filterError e)
  | .ok (.ok (leftValue, rightValue)) =>
    (compareValues conv condition.operator.operation leftValue rightValue
      (!filterOptions.caseSensitive) condition.operator.type).mapError Thrown.error

end N8n.FilterParameter
