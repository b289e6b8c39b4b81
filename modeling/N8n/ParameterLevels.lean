/-
One level of the parameters, as a call of `getNodeParameters` sees it.

* `resolvedValues`, `displays` — the values the display is checked by, and its outcome;
* `exists_setParameters` — a call is the loop over the parameters in their order.
-/
import N8n.ParameterLoops

namespace N8n.NodeHelpers

open JsValue
open WorkflowDiff (Json isEqual)

/-- The options of a call with or without the defaults, and of the calls it makes for the levels
below. -/
def call (defaults : Bool) (root : Option Values) (parentType : Option ParentType) :
    CallOptions where
  returnDefaults := defaults
  nodeValuesRoot := root
  parentType := parentType

@[simp] theorem call_returnDefaults (defaults : Bool) (root : Option Values)
    (parentType : Option ParentType) : (call defaults root parentType).returnDefaults = defaults :=
  rfl

@[simp] theorem call_onlySimpleTypes (defaults : Bool) (root : Option Values)
    (parentType : Option ParentType) : (call defaults root parentType).onlySimpleTypes = false :=
  rfl

variable (ctx : Context) (properties : List INodeProperties) (parentType : Option ParentType)

/-- The values the display is checked by. -/
def resolvedValues (root : Option Values) (values : Values) : Result Values :=
  pass ctx (entriesOf ctx properties) (call true root parentType).resolving none (.object values)

def displays
    (root : Option Values) (values : Values) (property : INodeProperties) : Result Bool := do
  let check ← resolvedValues ctx properties parentType root values
  displayParameter ctx check property.head (root.getD check)

/-- The values at the root of the node. -/
def rootOf (root : Option Values) (values : Values) : Result Values := do
  let check ← resolvedValues ctx properties parentType root values
  pure (root.getD check)

variable {ctx} {properties : List INodeProperties} {parentType : Option ParentType}
  {root : Option Values} {values : Values} {defaults : Bool}

theorem exists_setParameters {a : Values}
    (h : getNodeParameters ctx properties (.object values) (call defaults root parentType) = .ok a) :
    ∃ check entries, resolvedValues ctx properties parentType root values = .ok check ∧
      inOrder (entriesOf ctx properties) = .ok entries ∧
      setParameters ctx (call defaults root parentType)
        (isDuplicate ((entriesOf ctx properties).map Prod.fst)) (.object values) (some check)
        entries [] = .ok a := by
  obtain ⟨displayCheck, hdisplay, h⟩ := exists_of_bind_eq_ok h
  obtain ⟨entries, hentries, h⟩ := exists_of_bind_eq_ok h
  have hmap : some <$> resolvedValues ctx properties parentType root values
      = .ok displayCheck := hdisplay
  rcases hcheck : resolvedValues ctx properties parentType root values with e | check
  · rw [hcheck] at hmap
    cases hmap
  · rw [hcheck] at hmap
    cases hmap
    exact ⟨check, entries, rfl, hentries, h⟩

theorem mem_inOrder {entries : List (INodeProperties × Turn)}
    (h : inOrder (entriesOf ctx properties) = .ok entries) {e : INodeProperties × Turn} :
    e ∈ entries ↔ ∃ property ∈ properties, e = (property, turnOf ctx property) := by
  obtain ⟨order, horder, h⟩ := exists_of_bind_eq_ok h
  cases h
  have hmap : e ∈ entriesOf ctx properties ↔
      ∃ property ∈ properties, e = (property, turnOf ctx property) := by
    rw [entriesOf_eq_map, List.mem_map]
    simp only [eq_comm]
  rw [List.mem_filterMap, ← hmap]
  constructor
  · rintro ⟨i, -, hi⟩
    exact List.mem_of_getElem? hi
  · intro he
    obtain ⟨i, hi, rfl⟩ := List.mem_iff_getElem.mp he
    exact ⟨i, mem_getParameterResolveOrder horder (by simpa using hi), List.getElem?_eq_getElem hi⟩

def Missing (defaults : Bool) (parentType : Option ParentType) (value : JsValue) : Prop :=
  value = .undefined ∧ (defaults = false ∨ parentType = some .collection)

variable {duplicate : Bool} {check : Values} {property : INodeProperties} {turn : Turn}

theorem visit_cases
    {t : Turned}
    (h : visit ctx (call defaults root parentType) duplicate (.object values) check property turn
      = .ok t) :
    (Missing defaults parentType ((JsValue.object values).get property.name) ∧ t = .skip) ∨
    ¬ Missing defaults parentType ((JsValue.object values).get property.name) ∧
      ((displayParameter ctx check property.head (root.getD check) = .ok false ∧ t = .skip) ∨
      (displayParameter ctx check property.head (root.getD check) = .ok true ∧
        turn (call defaults root parentType) (root.getD check)
          ((JsValue.object values).get property.name) = .ok t)) := by
  have htruthy : (JsValue.object values).truthy = true := rfl
  rw [visit, htruthy] at h
  split at h
  · next hcond =>
    cases h
    exact .inl ⟨hcond.resolve_left Bool.false_ne_true.symm, rfl⟩
  · next hcond =>
    refine .inr ⟨fun hmissing => hcond (.inr hmissing), ?_⟩
    obtain ⟨displayed, hdisplayed, h⟩ := exists_of_bind_eq_ok h
    cases displayed with
    | false =>
      cases h
      exact .inl ⟨hdisplayed, rfl⟩
    | true =>
      refine .inr ⟨hdisplayed, ?_⟩
      simp only [call, Bool.false_or, Bool.not_true, Bool.false_eq_true, if_false] at h
      split at h
      · obtain ⟨again, hagain, h⟩ := exists_of_bind_eq_ok h
        obtain rfl : true = again := Except.ok.inj (hdisplayed.symm.trans hagain)
        exact h
      · exact h

theorem visit_of_displayed
    (hmissing : ¬ Missing defaults parentType ((JsValue.object values).get property.name))
    (hdisplayed : displayParameter ctx check property.head (root.getD check) = .ok true) :
    visit ctx (call defaults root parentType) duplicate (.object values) check property turn
      = turn (call defaults root parentType) (root.getD check)
        ((JsValue.object values).get property.name) := by
  have hdisplayed' : displayParameter ctx check property.head
      ((call defaults root parentType).nodeValuesRoot.getD check) = .ok true := hdisplayed
  rw [visit, hdisplayed', if_neg]
  · have hshown : ∀ f : Bool → Result Turned, ((.ok true : Result Bool) >>= f) = f true :=
      fun _ => rfl
    rw [hshown, Bool.or_true, Bool.not_true, if_neg Bool.false_ne_true, hshown, if_pos rfl,
      ite_self]
    rfl
  · rintro (hfalse | hcond)
    · exact Bool.false_ne_true hfalse.symm
    · exact hmissing hcond

variable {head : PropertyHead} {multipleValues : Option Bool}
  {options : List (String × List INodeProperties)} {r : Values} {given : Bool}

variable (ctx) in
/-- What is set for the item of a name. -/
def itemOf (head : PropertyHead) (multipleValues : Option Bool)
    (options : List (String × List INodeProperties)) (defaults : Bool) (r : Values)
    (given : Bool) : String → JsValue → Result (Option JsValue × Bool) :=
  setItem head multipleValues (levelsOf ctx options)
    (call defaults (some r) (some .fixedCollection)) given

variable (ctx) in
def entryOf (head : PropertyHead) (options : List (String × List INodeProperties))
    (defaults : Bool) (r : Values) (itemName : String) (item : JsValue) : Result JsValue :=
  match Fields.get options itemName with
  | some properties => do
    pure (.object (← getNodeParameters ctx properties item
      (call defaults (some r) (some .fixedCollection))))
  | none => throwing (.couldNotFindPropertyOption itemName head.name)

theorem itemOf_multiple {itemName : String} {item : JsValue} {result : Option JsValue × Bool}
    (h : itemOf ctx head (some true) options defaults r given itemName item = .ok result) :
    ∃ items entries, item = .array items ∧
      items.mapM (entryOf ctx head options defaults r itemName) = .ok entries ∧
      result = (some (.array entries), false) := by
  rw [itemOf, setItem, if_pos rfl, get_levelsOf] at h
  obtain ⟨values, hvalues, h⟩ := exists_of_bind_eq_ok h
  cases h
  cases item with
  | array items =>
    obtain ⟨entries, hentries, hvalues⟩ := exists_of_bind_eq_ok hvalues
    cases hvalues
    refine ⟨items, entries, rfl, ?_, rfl⟩
    rw [← hentries]
    congr 1
    funext item
    rw [entryOf]
    rcases Fields.get options itemName with _ | properties
    · rfl
    · rfl
  | _ => cases hvalues

theorem itemOf_single (hmultiple : multipleValues ≠ some true) {itemName : String} {item : JsValue}
    {result : Option JsValue × Bool}
    (h : itemOf ctx head multipleValues options defaults r given itemName item = .ok result) :
    (Fields.get options itemName = none ∧ result = (none, false)) ∨
    ∃ properties a, Fields.get options itemName = some properties ∧ given = true ∧
      getNodeParameters ctx properties item (call defaults (some r) (some .fixedCollection))
        = .ok a ∧
      result.1 = (if a ≠ [] ∨ (defaults = false ∧ hasNonDefaultValues properties item = false ∧
        item ≠ .undefined) then some (.object a) else none) ∧
      (a = [] → result.2 = !hasNonDefaultValues properties item) := by
  rw [itemOf, setItem, if_neg hmultiple, get_levelsOf] at h
  rcases hoption : Fields.get options itemName with _ | properties
  · rw [hoption] at h
    cases h
    exact .inl ⟨rfl, rfl⟩
  · rw [hoption] at h
    cases given with
    | false => cases h
    | true =>
      obtain ⟨a, ha, h⟩ := exists_of_bind_eq_ok h
      refine .inr ⟨properties, a, rfl, rfl, ha, ?_⟩
      by_cases hempty : a = []
      · subst hempty
        simp only [call, ne_eq, not_true_eq_false, decide_false, Bool.false_or, false_or,
          Bool.not_eq_true'] at h ⊢
        split at h
        · next hcond =>
          cases h
          exact ⟨(if_pos hcond).symm, fun _ => rfl⟩
        · next hcond =>
          cases h
          exact ⟨(if_neg hcond).symm, fun _ => rfl⟩
      · rw [if_pos (.inl hempty)] at h
        cases h
        exact ⟨(if_pos (.inl hempty)).symm, fun hnil => absurd hnil hempty⟩

theorem not_visible_itemOf {itemName : String} {item : JsValue}
    {result : Option JsValue × Bool} (hitem : item ≠ .undefined)
    (h : itemOf ctx head multipleValues options false r given itemName item = .ok result)
    (hnone : result.1 = none) : result.2 = false := by
  by_cases hmultiple : multipleValues = some true
  · subst hmultiple
    obtain ⟨_, _, -, -, rfl⟩ := itemOf_multiple h
    cases hnone
  · rcases itemOf_single hmultiple h with ⟨-, rfl⟩ | ⟨properties, a, -, -, -, hfirst, hsecond⟩
    · rfl
    · rw [hfirst] at hnone
      split at hnone
      · cases hnone
      · next hcond =>
        rw [not_or, not_ne_iff] at hcond
        rw [hsecond hcond.1]
        by_contra hvisible
        rw [Bool.not_eq_false, Bool.not_eq_true'] at hvisible
        exact hcond.2 ⟨rfl, hvisible, hitem⟩

theorem ne_undefined_of_itemOf {itemName : String} {item : JsValue}
    {result : Option JsValue × Bool}
    (h : itemOf ctx head multipleValues options defaults r given itemName item = .ok result) :
    result.1 ≠ some .undefined := by
  by_cases hmultiple : multipleValues = some true
  · subst hmultiple
    obtain ⟨_, _, -, -, rfl⟩ := itemOf_multiple h
    intro hsome
    cases hsome
  · rcases itemOf_single hmultiple h with ⟨-, rfl⟩ | ⟨properties, a, -, -, -, hset, -⟩
    · exact (Option.some_ne_none _).symm
    · rw [hset]
      split
      · intro hsome
        cases hsome
      · exact (Option.some_ne_none _).symm

theorem not_visible_of_collectItems {first : String → JsValue → Result (Option JsValue × Bool)} :
    ∀ {fields : Values} {c : Values × Bool},
      (∀ f ∈ fields, ∀ result, first f.1 f.2 = .ok result → result.1 = none → result.2 = false) →
      collectItems first fields = .ok c → c.1 = [] → c.2 = false := by
  intro fields
  induction fields with
  | nil =>
    intro c _ h _
    cases h
    rfl
  | cons f fields ih =>
    intro c hvisible h hempty
    obtain ⟨hfirst, hfields⟩ := List.forall_mem_cons.mp hvisible
    obtain ⟨result, rest, hresult, hrest, rfl⟩ := collectItems_cons h
    obtain ⟨hset, hrestempty⟩ := List.append_eq_nil_iff.mp hempty
    have hnone : result.1 = none := Option.toList_eq_nil_iff.mp (List.map_eq_nil_iff.mp hset)
    rw [hfirst result hresult hnone, ih hfields hrest hrestempty]
    rfl

variable {value : JsValue} {t : Turned}

theorem turnOf_fixedCollection_true
    (h : turnOf ctx (.fixedCollection head multipleValues options)
      (call true root parentType) r value = .ok t) :
    ∃ c, collectItems (itemOf ctx head multipleValues options true r (value ≠ .undefined))
      (if value = .undefined then head.default.1 else value).fields = .ok c ∧
      t = .set (.object c.1) := by
  rw [turnOf, fixedCollectionTurn] at h
  simp only [call, Bool.false_eq_true, true_and, Bool.true_eq_false, false_and, if_false,
    or_true, if_true] at h
  obtain ⟨c, hc, h⟩ := exists_of_bind_eq_ok h
  cases h
  exact ⟨c, hc, rfl⟩

theorem turnOf_fixedCollection_false (hitems : ∀ f ∈ value.fields, f.2 ≠ .undefined)
    (h : turnOf ctx (.fixedCollection head multipleValues options)
      (call false root parentType) r value = .ok t) :
    (t = .returnValues ∧ multipleValues = some false ∧ value.truthy = true ∧ value.fields = []) ∨
    ¬ (multipleValues = some false ∧ value.truthy = true ∧ value.fields = []) ∧
      ∃ c, collectItems (itemOf ctx head multipleValues options false r (value ≠ .undefined))
        value.fields = .ok c ∧
        t = if c.1 = [] then .skip else .set (.object c.1) := by
  rw [turnOf, fixedCollectionTurn] at h
  simp only [call, Bool.false_eq_true, false_and, if_false, true_and, or_false] at h
  split at h
  · next hcond =>
    cases h
    exact .inl ⟨rfl, hcond⟩
  · next hcond =>
    refine .inr ⟨hcond, ?_⟩
    obtain ⟨c, hc, h⟩ := exists_of_bind_eq_ok h
    refine ⟨c, hc, ?_⟩
    by_cases hempty : c.1 = []
    · have hvisible := not_visible_of_collectItems
        (fun f hf result hresult hnone => not_visible_itemOf (hitems f hf) hresult hnone) hc hempty
      simp only [hempty, ne_eq, not_true_eq_false, if_false, hvisible, Bool.false_eq_true,
        false_and] at h
      cases h
      rw [if_pos hempty]
    · rw [if_neg hempty]
      simp only [hempty, ne_eq, not_false_eq_true, if_true] at h
      cases h
      rfl

end N8n.NodeHelpers
