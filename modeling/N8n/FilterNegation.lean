/-
Negated filter operators.

An operation and its negation compare the same two values.  Where the type has the operation, or
where the comparison falls through to a type that has it, one of them is true and the other is not,
except for equal dates: if one of the dates is missing, both are false.

* **`complementary_iff`** — an operation and its negation are complementary exactly if there is no
  comparison, or the type decides it.
-/
import N8n.FilterParameter
import N8n.Runs

namespace N8n.FilterParameter

inductive OperatorPair where
  | exists | empty | equals | contains | startsWith | endsWith | regex | trueFalse | lengthEquals
  deriving DecidableEq

def OperatorPair.plain : OperatorPair → FilterOperation
  | .exists => .exists
  | empty => .empty
  | equals => .equals
  | contains => .contains
  | startsWith => .startsWith
  | endsWith => .endsWith
  | regex => .regex
  | trueFalse => .true
  | lengthEquals => .lengthEquals

def OperatorPair.negation : OperatorPair → FilterOperation
  | .exists => .notExists
  | empty => .notEmpty
  | equals => .notEquals
  | contains => .notContains
  | startsWith => .notStartsWith
  | endsWith => .notEndsWith
  | regex => .notRegex
  | trueFalse => .false
  | lengthEquals => .lengthNotEquals

/-- **The results are those of an operation and its negation**. -/
def Complementary {ε : Type} (plain negation : Except ε Value) : Prop :=
  match plain, negation with
  | .error _, .error _ => True
  | .ok a, .ok b => Xor (a = .bool true) (b = .bool true)
  | _, _ => False

/-- The type decides between an operation and its negation: it has them, or they fall through to a
type that does.  Dates must not be missing. -/
def Decides (type : FilterOperatorType) (pair : OperatorPair) (left right : Value) : Prop :=
  match type, pair with
  | _, .exists => True
  | .any, _ => False
  | .string, .trueFalse => False
  | .string, .lengthEquals => False
  | .string, _ => True
  | .number, .empty => True
  | .number, .equals => True
  | .number, .contains => left.truthy = true ∧ right.truthy = true
  | .number, .lengthEquals => left.truthy = true ∧ right.truthy = true
  | .number, _ => False
  | .dateTime, .empty => True
  | .dateTime, .equals => left.truthy = true ∧ right.truthy = true
  | .dateTime, .contains => left.truthy = true ∧ right.truthy = true
  | .dateTime, .lengthEquals => left.truthy = true ∧ right.truthy = true
  | .dateTime, _ => False
  | .boolean, .empty => True
  | .boolean, .equals => True
  | .boolean, .trueFalse => True
  | .boolean, .contains => True
  | .boolean, .lengthEquals => True
  | .boolean, _ => False
  | .array, .empty => True
  | .array, .contains => True
  | .array, .lengthEquals => True
  | .array, _ => False
  | .object, .empty => True
  | .object, _ => False

/-- The condition with another operation. -/
def FilterConditionValue.withOperation (condition : FilterConditionValue)
    (operation : FilterOperation) : FilterConditionValue :=
  { condition with operator := { condition.operator with operation } }

/-- What a value of the type is after it was converted. -/
def HasShape : FilterOperatorType → Value → Prop
  | .any, _ => True
  | .string, value => value.isNullish = true ∨ ∃ s, value = .string s
  | .number, value => value.isNullish = true ∨ ∃ n, value = .number n
  | .boolean, value => value.isNullish = true ∨ ∃ b, value = .bool b
  | .array, value => value.isNullish = true ∨ ∃ ref items, value = .array ref items
  | .object, value => value.isNullish = true ∨ ∃ ref kind keys, value = .object ref kind keys
  | .dateTime, value => value.isNullish = true ∨ ∃ ref millis keys,
      value = .object ref (.dateTime millis) keys

theorem hasShape_of_isNullish {value : Value} (h : value.isNullish = true) :
    ∀ type, HasShape type value
  | .any => trivial
  | .string => .inl h
  | .number => .inl h
  | .boolean => .inl h
  | .array => .inl h
  | .object => .inl h
  | .dateTime => .inl h

variable {conv : Conversions} {value parsed : Value}

theorem hasShape_of_tryToParseNumber (h : tryToParseNumber conv value = some parsed) :
    HasShape .number parsed := by
  rw [tryToParseNumber] at h
  split at h
  · cases h
  · cases h
    exact .inr ⟨_, rfl⟩
  · cases h

theorem hasShape_of_tryToParseString (h : tryToParseString conv value = some parsed) :
    HasShape .string parsed := by
  unfold tryToParseString at h
  split at h
  · cases h
    exact .inr ⟨_, rfl⟩
  · cases h
    exact .inr ⟨_, rfl⟩
  · split at h
    · split at h
      · cases h
        exact .inr ⟨_, rfl⟩
      · cases h
        exact .inl rfl
      · cases h
    · obtain ⟨s, _, rfl⟩ := Option.map_eq_some_iff.mp h
      exact .inr ⟨s, rfl⟩

theorem hasShape_of_booleanOfNumber (h : booleanOfNumber conv value = some parsed) :
    HasShape .boolean parsed := by
  rw [booleanOfNumber] at h
  split at h
  · split at h
    · cases h
      exact .inr ⟨_, rfl⟩
    · split at h <;> cases h
      exact .inr ⟨_, rfl⟩
  · cases h

theorem hasShape_of_tryToParseBoolean (h : tryToParseBoolean conv value = some parsed) :
    HasShape .boolean parsed := by
  unfold tryToParseBoolean at h
  split at h
  · cases h
    exact .inr ⟨_, rfl⟩
  · split at h
    · cases h
      exact .inr ⟨_, rfl⟩
    · split at h
      · cases h
        exact .inr ⟨_, rfl⟩
      · split at h
        · cases h
        · exact hasShape_of_booleanOfNumber h
  · exact hasShape_of_booleanOfNumber h

theorem hasShape_of_parseDateText (h : parseDateText conv value = some parsed) :
    HasShape .dateTime parsed := by
  rw [parseDateText] at h
  split at h
  · obtain ⟨millis, _, rfl⟩ := Option.map_eq_some_iff.mp h
    exact .inr ⟨_, _, _, rfl⟩
  · cases h

theorem hasShape_of_tryToParseDateTime (h : tryToParseDateTime conv value = some parsed) :
    HasShape .dateTime parsed := by
  unfold tryToParseDateTime at h
  split at h
  · split at h
    · cases h
      exact .inr ⟨_, _, _, rfl⟩
    · exact hasShape_of_parseDateText h
  · split at h
    · cases h
      exact .inr ⟨_, _, _, rfl⟩
    · exact hasShape_of_parseDateText h
  · exact hasShape_of_parseDateText h

theorem hasShape_of_tryToParseArray (h : tryToParseArray conv value = some parsed) :
    HasShape .array parsed := by
  unfold tryToParseArray at h
  split at h
  · cases h
    exact .inr ⟨_, _, rfl⟩
  · obtain ⟨text, _, h⟩ := Option.bind_eq_some_iff.mp h
    obtain ⟨value, _, h⟩ := Option.bind_eq_some_iff.mp h
    split at h
    · cases h
      exact .inr ⟨_, _, rfl⟩
    · cases h

theorem hasShape_of_tryToParseObject (h : tryToParseObject conv value = some parsed) :
    HasShape .object parsed := by
  unfold tryToParseObject at h
  split at h
  · cases h
    exact .inr ⟨_, _, _, rfl⟩
  · obtain ⟨text, _, h⟩ := Option.bind_eq_some_iff.mp h
    obtain ⟨value, _, h⟩ := Option.bind_eq_some_iff.mp h
    split at h
    · cases h
      exact .inr ⟨_, _, _, rfl⟩
    · cases h
      exact .inl rfl
    · cases h

variable {type : FilterOperatorType}

theorem hasShape_of_validateFieldType {strict parseStrings : Bool}
    (hstrings : type = .string → parseStrings = true)
    (h : validateFieldType conv value type strict parseStrings = some parsed) :
    HasShape type parsed := by
  unfold validateFieldType at h
  split at h
  · cases h
    exact hasShape_of_isNullish rfl type
  cases type with
  | any => trivial
  | string =>
    simp only [hstrings rfl, not_true_eq_false, if_false] at h
    split at h
    · cases h
    · exact hasShape_of_tryToParseString h
  | number =>
    dsimp only at h
    split at h
    · cases h
    · exact hasShape_of_tryToParseNumber h
  | boolean =>
    dsimp only at h
    split at h
    · cases h
    · exact hasShape_of_tryToParseBoolean h
  | dateTime => exact hasShape_of_tryToParseDateTime h
  | object =>
    dsimp only at h
    split at h
    · cases h
    · exact hasShape_of_tryToParseObject h
  | array =>
    dsimp only at h
    split at h
    · exact hasShape_of_tryToParseArray h
    · cases h
    · exact hasShape_of_tryToParseArray h

theorem hasShape_of_parse {strict : Bool} {version : ℕ}
    (h : parseSingleFilterValue conv value type strict version = some parsed) :
    HasShape type parsed := by
  unfold parseSingleFilterValue at h
  split at h
  · rename_i hany
    cases h
    rcases hany with rfl | hnullish
    · trivial
    · exact hasShape_of_isNullish hnullish type
  split at h
  · rename_i hboolean
    obtain ⟨rfl, _⟩ := hboolean
    dsimp only at h
    split at h
    · rcases hparsed : validateFieldType conv value .boolean false false with _ | b
      · rw [hparsed] at h
        cases h
        exact .inr ⟨_, rfl⟩
      · rw [hparsed] at h
        cases h
        exact hasShape_of_validateFieldType (fun h => by cases h) hparsed
    · cases h
      exact .inr ⟨_, rfl⟩
  split at h
  · rename_i hnan
    obtain ⟨rfl, hnan⟩ := hnan
    cases h
    cases value with
    | number n => exact .inr ⟨n, rfl⟩
    | _ => cases hnan
  split at h
  · cases h
    exact hasShape_of_isNullish rfl type
  · exact hasShape_of_validateFieldType (fun _ => rfl) h

theorem hasShape_of_parseFilterConditionValues {condition : FilterConditionValue}
    {options : FilterOptionsValue} {metadata : FilterConditionMetadata} {left right : Value}
    (h : parseFilterConditionValues conv condition options metadata = .ok (.ok (left, right))) :
    HasShape condition.operator.type left := by
  unfold parseFilterConditionValues at h
  obtain ⟨_, _, h⟩ := exists_of_bind_eq_ok h
  obtain ⟨_, _, h⟩ := exists_of_bind_eq_ok h
  dsimp only at h
  split at h
  · cases h
  split at h
  · cases h
  split at h
  · cases h
  · cases h
    rcases hparsed : condition.parsedLeftValue conv options with _ | parsed
    · exact hasShape_of_isNullish rfl _
    · exact hasShape_of_parse hparsed

theorem complementary_bool {ε : Type} {b : Bool} :
    Complementary (ε := ε) (.ok (.bool b)) (.ok (.bool (!b))) := by
  cases b <;> simp [Complementary, Xor]

theorem not_complementary_false {ε : Type} :
    ¬ Complementary (ε := ε) (.ok (.bool false)) (.ok (.bool false)) := by
  simp [Complementary, Xor]

theorem complementary_negated (result : Except JsError Bool) :
    Complementary (result.map .bool) ((negated result).map .bool) := by
  rcases result with e | b
  · trivial
  · exact complementary_bool

theorem complementary_mapError {ε ε' : Type} (f : ε → ε') (plain negation : Except ε Value) :
    Complementary (plain.mapError f) (negation.mapError f) ↔ Complementary plain negation := by
  cases plain <;> cases negation <;> rfl

section Cases

variable (conv) (left right : Value) (ignoreCase : Bool) (pair : OperatorPair)

theorem complementary_stringCase (hpair : pair ≠ .exists) :
    Complementary (stringCase conv pair.plain left right ignoreCase)
      (stringCase conv pair.negation left right ignoreCase) ↔ Decides .string pair left right := by
  cases pair with
  | «exists» => exact absurd rfl hpair
  | empty => exact iff_of_true complementary_bool trivial
  | equals => exact iff_of_true complementary_bool trivial
  | contains => exact iff_of_true (complementary_negated _) trivial
  | startsWith => exact iff_of_true (complementary_negated _) trivial
  | endsWith => exact iff_of_true (complementary_negated _) trivial
  | regex => exact iff_of_true (complementary_negated _) trivial
  | trueFalse => exact iff_of_false not_complementary_false id
  | lengthEquals => exact iff_of_false not_complementary_false id

theorem complementary_objectCase (hpair : pair ≠ .exists) :
    Complementary (objectCase pair.plain left) (objectCase pair.negation left) ↔
      Decides .object pair left right := by
  cases pair with
  | «exists» => exact absurd rfl hpair
  | empty =>
    refine iff_of_true ?_ trivial
    have hnot : (left.truthy && decide (left.keyCount ≠ 0))
        = !(!left.truthy || decide (left.keyCount = 0)) := by
      rw [Bool.not_or, Bool.not_not, decide_not]
    show Complementary _ (.ok (.bool (left.truthy && decide (left.keyCount ≠ 0))))
    rw [hnot]
    exact complementary_bool
  | _ => exact iff_of_false not_complementary_false id

theorem complementary_arrayCase (hpair : pair ≠ .exists) :
    Complementary (arrayCase conv pair.plain left right ignoreCase)
      (arrayCase conv pair.negation left right ignoreCase) ↔ Decides .array pair left right := by
  cases pair with
  | «exists» => exact absurd rfl hpair
  | empty => exact iff_of_true complementary_bool trivial
  | contains => exact iff_of_true (complementary_negated _) trivial
  | lengthEquals => exact iff_of_true complementary_bool trivial
  | _ => exact iff_of_false not_complementary_false id

theorem complementary_true (h : HasShape .boolean left) :
    Complementary (ε := JsError) (.ok left) (.ok (.bool (!left.truthy))) := by
  rcases h with hnullish | ⟨b, rfl⟩
  · cases left with
    | null => simp [Complementary, Xor, Value.truthy]
    | undefined => simp [Complementary, Xor, Value.truthy]
    | _ => cases hnullish
  · exact complementary_bool

theorem complementary_booleanCase (hpair : pair ≠ .exists) (hleft : HasShape .boolean left) :
    Complementary (booleanCase conv pair.plain left right ignoreCase)
      (booleanCase conv pair.negation left right ignoreCase) ↔ Decides .boolean pair left right := by
  cases pair with
  | «exists» => exact absurd rfl hpair
  | empty =>
    refine iff_of_true ?_ trivial
    show Complementary (ε := JsError) (.ok (.bool (!isPresent left))) (.ok (.bool (isPresent left)))
    cases isPresent left <;> simp [Complementary, Xor]
  | equals => exact iff_of_true complementary_bool trivial
  | trueFalse => exact iff_of_true (complementary_true left hleft) trivial
  | contains => exact iff_of_true (complementary_negated _) trivial
  | lengthEquals => exact iff_of_true complementary_bool trivial
  | startsWith => exact iff_of_false not_complementary_false id
  | endsWith => exact iff_of_false not_complementary_false id
  | regex => exact iff_of_false not_complementary_false id

theorem not_complementary_left (hbool : ∀ b, left ≠ .bool b) (htruthy : left.truthy = true) :
    ¬ Complementary (ε := JsError) (.ok left) (.ok (.bool (!left.truthy))) := by
  rw [htruthy]
  simp [Complementary, Xor, hbool]

variable {operation : FilterOperation}

theorem dateTimeCase_of_missing (hempty : operation ≠ .empty)
    (hnotEmpty : operation ≠ .notEmpty) (h : ¬(left.truthy = true ∧ right.truthy = true)) :
    dateTimeCase conv operation left right ignoreCase = .ok (.bool false) := by
  unfold dateTimeCase
  rw [if_neg hempty, if_neg hnotEmpty, if_pos]
  rw [not_and_or, Bool.not_eq_true, Bool.not_eq_true] at h
  exact h

theorem dateTimeCase_of_present (hempty : operation ≠ .empty)
    (hnotEmpty : operation ≠ .notEmpty) (h : left.truthy = true ∧ right.truthy = true) :
    dateTimeCase conv operation left right ignoreCase
      = presentDateTimes conv operation left right ignoreCase := by
  unfold dateTimeCase
  rw [if_neg hempty, if_neg hnotEmpty, if_neg]
  rw [h.1, h.2]
  simp

theorem complementary_dateTimeCase (hpair : pair ≠ .exists) (hleft : ∀ b, left ≠ .bool b) :
    Complementary (dateTimeCase conv pair.plain left right ignoreCase)
      (dateTimeCase conv pair.negation left right ignoreCase) ↔
        Decides .dateTime pair left right := by
  by_cases hempty : pair = .empty
  · subst hempty
    refine iff_of_true ?_ trivial
    show Complementary (ε := JsError) (.ok (.bool (!isPresent left))) (.ok (.bool (isPresent left)))
    cases isPresent left <;> simp [Complementary, Xor]
  have hplain : pair.plain ≠ .empty ∧ pair.plain ≠ .notEmpty := by
    cases pair <;> simp [OperatorPair.plain] at hempty ⊢
  have hnegation : pair.negation ≠ .empty ∧ pair.negation ≠ .notEmpty := by
    cases pair <;> simp [OperatorPair.negation] at hempty ⊢
  by_cases h : left.truthy = true ∧ right.truthy = true
  · rw [dateTimeCase_of_present conv left right ignoreCase hplain.1 hplain.2 h,
      dateTimeCase_of_present conv left right ignoreCase hnegation.1 hnegation.2 h]
    cases pair with
    | «exists» => exact absurd rfl hpair
    | empty => exact absurd rfl hempty
    | equals => exact iff_of_true (complementary_negated _) h
    | contains => exact iff_of_true (complementary_negated _) h
    | lengthEquals => exact iff_of_true complementary_bool h
    | trueFalse => exact iff_of_false (not_complementary_left left hleft h.1) id
    | startsWith => exact iff_of_false not_complementary_false id
    | endsWith => exact iff_of_false not_complementary_false id
    | regex => exact iff_of_false not_complementary_false id
  · rw [dateTimeCase_of_missing conv left right ignoreCase hplain.1 hplain.2 h,
      dateTimeCase_of_missing conv left right ignoreCase hnegation.1 hnegation.2 h]
    refine iff_of_false not_complementary_false ?_
    cases pair with
    | «exists» => exact absurd rfl hpair
    | empty => exact absurd rfl hempty
    | equals => exact h
    | contains => exact h
    | lengthEquals => exact h
    | trueFalse => exact id
    | startsWith => exact id
    | endsWith => exact id
    | regex => exact id

theorem complementary_numberCase (hpair : pair ≠ .exists) (hleft : ∀ b, left ≠ .bool b) :
    Complementary (numberCase conv pair.plain left right ignoreCase)
      (numberCase conv pair.negation left right ignoreCase) ↔ Decides .number pair left right := by
  have hdates := complementary_dateTimeCase conv left right ignoreCase pair hpair hleft
  cases pair with
  | «exists» => exact absurd rfl hpair
  | empty =>
    refine iff_of_true ?_ trivial
    show Complementary (ε := JsError) (.ok (.bool (!isPresent left))) (.ok (.bool (isPresent left)))
    cases isPresent left <;> simp [Complementary, Xor]
  | equals => exact iff_of_true complementary_bool trivial
  | contains => exact hdates
  | lengthEquals => exact hdates
  | trueFalse => exact hdates
  | startsWith => exact hdates
  | endsWith => exact hdates
  | regex => exact hdates

theorem ne_bool_of_hasShape (h : HasShape .number left ∨ HasShape .dateTime left) :
    ∀ b, left ≠ .bool b := by
  rintro b rfl
  rcases h with (h | ⟨_, h⟩) | (h | ⟨_, _, _, h⟩) <;> cases h

theorem complementary_compareValues (type : FilterOperatorType) (hleft : HasShape type left) :
    Complementary (compareValues conv pair.plain left right ignoreCase type)
      (compareValues conv pair.negation left right ignoreCase type) ↔
        Decides type pair left right := by
  by_cases hpair : pair = .exists
  · subst hpair
    refine iff_of_true complementary_bool ?_
    cases type <;> trivial
  have hcompare : ∀ operation ∈ [pair.plain, pair.negation],
      operation ≠ .exists ∧ operation ≠ .notExists := by
    cases pair <;> simp [OperatorPair.plain, OperatorPair.negation] at hpair ⊢
  obtain ⟨hplain, hnegation⟩ := List.forall_mem_cons.mp hcompare
  have hnegation := List.forall_mem_singleton.mp hnegation
  unfold compareValues
  rw [if_neg hplain.1, if_neg hplain.2, if_neg hnegation.1, if_neg hnegation.2]
  cases type with
  | any =>
    refine iff_of_false not_complementary_false ?_
    cases pair <;> first | exact id | exact absurd rfl hpair
  | string => exact complementary_stringCase conv left right ignoreCase pair hpair
  | number =>
    exact complementary_numberCase conv left right ignoreCase pair hpair
      (ne_bool_of_hasShape left (.inl hleft))
  | boolean => exact complementary_booleanCase conv left right ignoreCase pair hpair hleft
  | array => exact complementary_arrayCase conv left right ignoreCase pair hpair
  | object => exact complementary_objectCase left right pair hpair
  | dateTime =>
    exact complementary_dateTimeCase conv left right ignoreCase pair hpair
      (ne_bool_of_hasShape left (.inr hleft))

end Cases

variable (conv)

theorem parseFilterConditionValues_withOperation (condition : FilterConditionValue)
    (operation : FilterOperation) (options : FilterOptionsValue)
    (metadata : FilterConditionMetadata) :
    parseFilterConditionValues conv (condition.withOperation operation) options metadata
      = parseFilterConditionValues conv condition options metadata := rfl

/-- **An operation and its negation are complementary** exactly if the values are not compared, or
the type decides between the two. -/
theorem complementary_iff (condition : FilterConditionValue) (pair : OperatorPair)
    (options : FilterOptionsValue) (metadata : FilterConditionMetadata) :
    Complementary
        (executeFilterCondition conv (condition.withOperation pair.plain) options metadata)
        (executeFilterCondition conv (condition.withOperation pair.negation) options metadata) ↔
      ∀ left right,
        parseFilterConditionValues conv condition options metadata = .ok (.ok (left, right)) →
          Decides condition.operator.type pair left right := by
  rw [executeFilterCondition, executeFilterCondition, parseFilterConditionValues_withOperation,
    parseFilterConditionValues_withOperation]
  rcases hparsed : parseFilterConditionValues conv condition options metadata with e | e | values
  · exact iff_of_true trivial fun _ _ h => by cases h
  · exact iff_of_true trivial fun _ _ h => by cases h
  · obtain ⟨left, right⟩ := values
    have hiff := complementary_compareValues conv left right (!options.caseSensitive) pair
      condition.operator.type (hasShape_of_parseFilterConditionValues hparsed)
    rw [← complementary_mapError Thrown.error] at hiff
    refine hiff.trans ⟨fun h _ _ heq => ?_, fun h => h left right rfl⟩
    cases heq
    exact h

/-- The pairs of operators that can be chosen for a type. -/
def offeredPairs : FilterOperatorType → List OperatorPair
  | .any => [.exists]
  | .string => [.exists, .empty, .equals, .contains, .startsWith, .endsWith, .regex]
  | .number => [.exists, .empty, .equals]
  | .boolean => [.exists, .empty, .trueFalse, .equals]
  | .array => [.exists, .empty, .contains, .lengthEquals]
  | .object => [.exists, .empty]
  | .dateTime => [.exists, .empty, .equals]

/-- Conversions of the values below. -/
def sampleConversions : Conversions where
  number _ := .ok .nan
  string
    | .null => .ok "null"
    | .string s => .ok s
    | .object _ _ _ => .ok "1970-01-01T00:00:00.000Z"
    | _ => .ok "undefined"
  stringify _ := .ok (some "null")
  searchString _ := .ok ""
  parseDate _ := none
  parseJson _ := none
  jsonParse _ := none
  toLowerCase := id
  toLocaleLowerCase := id
  trim := id
  regExp _ _ := .error ⟨"SyntaxError"⟩
  lessThan _ _ := .ok false
  lessEqual _ _ := .ok false
  dateTimeKeys := []

/-- A missing date, compared with a date. -/
def missingDate : FilterConditionValue where
  leftValue := .null
  operator := { type := .dateTime, operation := .equals }
  rightValue := .object (some 0) (.dateTime (.finite 0)) []

/-- It is not equal to the date, and not unequal. -/
theorem not_complementary_missingDate : ¬ ∀ (conv : Conversions) (condition : FilterConditionValue)
    (pair : OperatorPair) (options : FilterOptionsValue) (metadata : FilterConditionMetadata),
    pair ∈ offeredPairs condition.operator.type →
      Complementary
        (executeFilterCondition conv (condition.withOperation pair.plain) options metadata)
        (executeFilterCondition conv (condition.withOperation pair.negation) options metadata) := by
  intro h
  have hboth : ∀ operation ∈ [FilterOperation.equals, FilterOperation.notEquals],
      executeFilterCondition sampleConversions (missingDate.withOperation operation) {} {}
        = .ok (.bool false) := by
    intro operation hmem
    simp only [List.mem_cons, List.not_mem_nil, or_false] at hmem
    rcases hmem with rfl | rfl <;> rfl
  have hfalse := h sampleConversions missingDate .equals {} {} (by decide)
  rw [OperatorPair.plain, OperatorPair.negation, hboth _ List.mem_cons_self,
    hboth _ (List.mem_cons_of_mem _ List.mem_cons_self)] at hfalse
  exact not_complementary_false hfalse

end N8n.FilterParameter
