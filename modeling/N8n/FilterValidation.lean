/-
The validation of a filter.

The validator parses the values of each condition and catches a filter error that is thrown.  A
filter error is returned, though, and only thrown by the evaluation, so no issue is ever reported.

* **`agrees_iff`** — the validator agrees with the evaluation exactly if all conditions are
  convertible.
-/
import N8n.Dict
import N8n.FilterNegation

namespace N8n.FilterParameter

structure FilterValue where
  options : FilterOptionsValue
  conditions : List FilterConditionValue

variable (conv : Conversions) (name : String) (value : FilterValue)

def issueKey (name : String) (index : ℕ) : String := name ++ "." ++ toString index

variable (issues : Dict String (List String))

/-- The catch: the list of the key must be there already. -/
def pushIssue (key message : String) : Except Thrown (Dict String (List String)) :=
  match issues.get? key with
  | none => .error (.error ⟨"TypeError"⟩)
  | some messages => .ok (issues.set key (messages ++ [message]))

def validateCondition
    (condition : FilterConditionValue × ℕ) : Except Thrown (Dict String (List String)) :=
  match (parseFilterConditionValues conv condition.1 value.options
    { index := some condition.2, unresolvedExpressions := true,
      errorFormat := some .inline }).mapError Thrown.error with
  | .ok _ => .ok issues
  | .error (.filterError error) => pushIssue issues (issueKey name condition.2) error.message
  | .error (.error _) => .ok issues

def validateFilterParameter : Except Thrown (Dict String (List String)) :=
  value.conditions.zipIdx.foldlM (validateCondition conv name value) .empty

/-- **The validator agrees with the evaluation**: it does not throw, and has an issue for a
condition if and only if its evaluation throws a filter error. -/
def Agrees : Prop :=
  ∃ issues, validateFilterParameter conv name value = .ok issues ∧
    ∀ i condition, value.conditions[i]? = some condition →
      (issueKey name i ∈ issues.keys ↔
        ∃ e, executeFilterCondition conv condition value.options {} = .error (.filterError e))

/-- Both values can be converted, where the right one is needed; or one of them has no text, so that
something else is thrown. -/
def Convertible (options : FilterOptionsValue) (condition : FilterConditionValue) : Prop :=
  condition.leftValid conv options {} = true ∧ condition.rightValid conv options {} = true ∨
    (conv.string condition.leftValue).toBool = false ∨
      (conv.string condition.rightValue).toBool = false

variable {conv name value}

theorem validateCondition_eq (condition : FilterConditionValue × ℕ) :
    validateCondition conv name value issues condition = .ok issues := by
  rw [validateCondition]
  rcases parseFilterConditionValues conv condition.1 value.options _ with e | result
  · rfl
  · rfl

theorem validateFilterParameter_eq : validateFilterParameter conv name value = .ok .empty := by
  have hloop : ∀ (conditions : List (FilterConditionValue × ℕ)) (issues : Dict String (List String)),
      conditions.foldlM (validateCondition conv name value) issues = .ok issues := by
    intro conditions
    induction conditions with
    | nil => exact fun _ => rfl
    | cons condition conditions ih =>
      intro issues
      rw [List.foldlM_cons, validateCondition_eq]
      exact ih issues
  exact hloop _ _

variable {condition : FilterConditionValue}

theorem parseFilterConditionValues_of_text
    (options : FilterOptionsValue) (metadata : FilterConditionMetadata)
    (h : (conv.string condition.leftValue).toBool = false ∨
      (conv.string condition.rightValue).toBool = false) :
    ∃ e, parseFilterConditionValues conv condition options metadata = .error e := by
  unfold parseFilterConditionValues
  rcases hleft : conv.string condition.leftValue with e | leftText
  · exact ⟨e, rfl⟩
  · rcases hright : conv.string condition.rightValue with e | rightText
    · exact ⟨e, rfl⟩
    · rw [hleft, hright] at h
      rcases h with h | h <;> cases h

theorem parseFilterConditionValues_isOk_iff
    (options : FilterOptionsValue) (metadata : FilterConditionMetadata)
    (hleft : (conv.string condition.leftValue).toBool = true)
    (hright : (conv.string condition.rightValue).toBool = true) :
    ∃ result, parseFilterConditionValues conv condition options metadata = .ok result ∧
      (result.toBool = true ↔ condition.leftValid conv options metadata = true ∧
        condition.rightValid conv options metadata = true) := by
  unfold parseFilterConditionValues
  rcases hleftText : conv.string condition.leftValue with e | leftText
  · rw [hleftText] at hleft
    cases hleft
  rcases hrightText : conv.string condition.rightValue with e | rightText
  · rw [hrightText] at hright
    cases hright
  rcases hleftValid : condition.leftValid conv options metadata with _ | _ <;>
    rcases hrightValid : condition.rightValid conv options metadata with _ | _
  · by_cases htypes : condition.leftValue.typeOf = condition.rightValue.typeOf
    · exact ⟨_, if_pos ⟨rfl, rfl, htypes⟩, by simp [Except.toBool]⟩
    · exact ⟨_, (if_neg fun h => htypes h.2.2).trans (if_pos rfl), by simp [Except.toBool]⟩
  · exact ⟨_, rfl, by simp [Except.toBool]⟩
  · exact ⟨_, rfl, by simp [Except.toBool]⟩
  · exact ⟨_, rfl, by simp [Except.toBool]⟩

theorem mapError_ne_filterError (result : Except JsError Value) (e : FilterError) :
    result.mapError Thrown.error ≠ .error (.filterError e) := by
  cases result with
  | error e' =>
    intro h
    cases h
  | ok value =>
    intro h
    cases h

theorem throws_filterError_iff (condition : FilterConditionValue) (options : FilterOptionsValue) :
    (∃ e, executeFilterCondition conv condition options {} = .error (.filterError e)) ↔
      ¬ Convertible conv options condition := by
  rw [executeFilterCondition, Convertible]
  by_cases htext : (conv.string condition.leftValue).toBool = false ∨
      (conv.string condition.rightValue).toBool = false
  · obtain ⟨e, he⟩ := parseFilterConditionValues_of_text options {} htext
    rw [he]
    refine iff_of_false ?_ fun h => h (.inr htext)
    rintro ⟨e', h⟩
    cases h
  · obtain ⟨hleft, hright⟩ := not_or.mp htext
    rw [Bool.not_eq_false] at hleft hright
    obtain ⟨result, hresult, hvalid⟩ :=
      parseFilterConditionValues_isOk_iff options {} hleft hright
    rw [hresult, ← hvalid, or_iff_left htext]
    rcases result with e | values
    · exact iff_of_true ⟨e, rfl⟩ Bool.false_ne_true
    · refine iff_of_false ?_ fun h => h rfl
      rintro ⟨e, h⟩
      exact mapError_ne_filterError _ e h

/-- **The validator agrees with the evaluation** exactly if all conditions are convertible. -/
theorem agrees_iff (conv : Conversions) (name : String) (value : FilterValue) :
    Agrees conv name value ↔
      ∀ condition ∈ value.conditions, Convertible conv value.options condition := by
  constructor
  · rintro ⟨issues, hissues, hagrees⟩ condition hmem
    rw [validateFilterParameter_eq] at hissues
    cases hissues
    obtain ⟨i, hi⟩ := List.getElem?_of_mem hmem
    by_contra hnot
    have hthrows := (throws_filterError_iff condition value.options).mpr hnot
    exact List.not_mem_nil ((hagrees i condition hi).mpr hthrows)
  · intro hconvertible
    refine ⟨_, validateFilterParameter_eq, fun i condition hi => ?_⟩
    refine iff_of_false List.not_mem_nil fun hthrows => ?_
    exact (throws_filterError_iff condition value.options).mp hthrows
      (hconvertible condition (List.mem_of_getElem? hi))

/-- A text that is compared as a date, and cannot be read as one. -/
def unreadableDate : FilterConditionValue where
  leftValue := .string "soon"
  operator := { type := .dateTime, operation := .exists, singleValue := true }
  rightValue := .null

/-- It is not reported. -/
theorem not_agrees_unreadableDate :
    ¬ ∀ (conv : Conversions) (name : String) (value : FilterValue), Agrees conv name value := by
  intro h
  obtain ⟨issues, hissues, hagrees⟩ := h sampleConversions "conditions" ⟨{}, [unreadableDate]⟩
  have hnone : validateFilterParameter sampleConversions "conditions" ⟨{}, [unreadableDate]⟩
      = .ok .empty := by rfl
  rw [hnone] at hissues
  cases hissues
  have hthrows : ∃ e, executeFilterCondition sampleConversions unreadableDate {} {}
      = .error (.filterError e) := ⟨_, rfl⟩
  exact List.not_mem_nil ((hagrees 0 unreadableDate rfl).mpr hthrows)

end N8n.FilterParameter
