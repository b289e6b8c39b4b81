/-
The turn of a parameter on the value that is given, and on what is left of it.

The call without the defaults leaves some of the values.  A parameter does the same on what is left
of its value as on the value, with the defaults or without, if that holds for the levels below it.

* `SameCalls` — the calls on the values of a level and on what is left of them agree;
* `Fits` — a value has the shape of its property.
-/
import N8n.ParameterLevels

namespace N8n.NodeHelpers

open JsValue
open WorkflowDiff (Json isEqual)

variable {ctx : Context}

variable (properties : List INodeProperties)

variable (ctx) in
/-- Calls on some values and on what is left of them, with or without the defaults. -/
def SameCalls (parentType : Option ParentType)
    (root root' : Option Values) (values left : Values) : Prop :=
  ∀ defaults a b,
    getNodeParameters ctx properties (.object values) (call defaults root parentType) = .ok a →
    getNodeParameters ctx properties (.object left) (call defaults root' parentType) = .ok b →
    FieldsAgree defaults a b ∧ (b.map Prod.fst).Nodup

variable (ctx) in
/-- The calls on the values agree with those on the same values, or on the stripped ones. -/
def AgreesBelow (stripped : Bool) (properties : List INodeProperties)
    (parentType : Option ParentType) (root root' : Option Values) (values : Values) : Prop :=
  (JsValue.object values).Distinct → ∀ left,
    (stripped = false → left = values) →
    (stripped = true → getNodeParameters ctx properties (.object values)
      (call false root parentType) = .ok left) →
    SameCalls ctx properties parentType root root' values left

/-- A parameter without a value is skipped, and any other takes its turn. -/
def Takes (turn : Turn) (defaults : Bool) (parentType : Option ParentType) (root : Option Values)
    (r : Values) (value : JsValue) (t : Turned) : Prop :=
  (Missing defaults parentType value ∧ t = .skip) ∨
    (¬ Missing defaults parentType value ∧ turn (call defaults root parentType) r value = .ok t)

/-- What the turn without the defaults leaves of a value. -/
def LeftBy (turn : Turn) (parentType : Option ParentType) (root : Option Values) (r : Values)
    (value left : JsValue) : Prop :=
  (value = .undefined ∧ left = .undefined) ∨
    value ≠ .undefined ∧ (turn (call false root parentType) r value = .ok (.set left) ∨
      (turn (call false root parentType) r value = .ok .skip ∧ left = .undefined))

variable {defaults : Bool} {parentType : Option ParentType} {root root' : Option Values}
  {r r' v w : Values} {value left : JsValue} {head : PropertyHead} {t t' : Turned}

theorem not_missing_of_ne (h : value ≠ .undefined) : ¬ Missing defaults parentType value :=
  fun hmissing => h hmissing.1

variable {turn : Turn}

theorem Takes.of_ne (h : Takes turn defaults parentType root r value t)
    (hvalue : value ≠ .undefined) : turn (call defaults root parentType) r value = .ok t := by
  rcases h with ⟨hmissing, -⟩ | ⟨-, h⟩
  · exact absurd hmissing.1 hvalue
  · exact h

theorem Takes.skip (h : Takes turn false parentType root r .undefined t) :
    t = .skip := by
  rcases h with ⟨-, h⟩ | ⟨hnot, -⟩
  · exact h
  · exact absurd ⟨rfl, .inl rfl⟩ hnot

theorem Takes.undefined_cases {turn' : Turn}
    (h : Takes turn defaults parentType root r .undefined t)
    (h' : Takes turn' defaults parentType root' r' .undefined t') :
    (t = .skip ∧ t' = .skip) ∨ defaults = true ∧
      turn (call defaults root parentType) r .undefined = .ok t ∧
      turn' (call defaults root' parentType) r' .undefined = .ok t' := by
  rcases h with ⟨hmissing, h⟩ | ⟨hnot, h⟩
  · rcases h' with ⟨-, h'⟩ | ⟨hnot', -⟩
    · exact .inl ⟨h, h'⟩
    · exact absurd hmissing hnot'
  · rcases h' with ⟨hmissing, -⟩ | ⟨-, h'⟩
    · exact absurd hmissing hnot
    · refine .inr ⟨?_, h, h'⟩
      cases defaults with
      | true => rfl
      | false => exact absurd ⟨rfl, .inl rfl⟩ hnot

/-- The items of a fixed collection, or those of the default if there is no value. -/
def itemsOf (head : PropertyHead) (value : JsValue) : Values :=
  (if value = .undefined then head.default.1 else value).fields

/-- The item of one name: an array of objects, or an object. -/
def FitsItem (multipleValues : Option Bool) (item : JsValue) : Prop :=
  if multipleValues = some true then
    ∃ items, item = .array items ∧ ∀ i ∈ items, ∃ fields, i = .object fields
  else ∃ fields, item = .object fields

/-- The value of a property has the shape of the property. -/
def Fits : INodeProperties → JsValue → Prop
  | .simple head .resourceLocator, value =>
    isObject head.default.1 = true → value ≠ .undefined → value.get "__rl" ≠ .undefined
  | .simple _ _, _ => True
  | .collection _ multipleValues _, value =>
    multipleValues = some true ∨ value = .undefined ∨ ∃ fields, value = .object fields
  | .fixedCollection head multipleValues options, value =>
    (value = .undefined ∨ ∃ fields, value = .object fields) ∧
    ∀ f ∈ itemsOf head value, f.2 ≠ .undefined ∧
      ((Fields.get options f.1).isSome = true → FitsItem multipleValues f.2)

theorem alike_of_not_differs (h : value.Distinct) (hdiffers : differsFromDefault head value = false) :
    value.Alike false (fun s t => s = t) head.default.1 := by
  rw [differsFromDefault] at hdiffers
  split at hdiffers
  · rw [Bool.not_eq_false'] at hdiffers
    exact (JsValue.compare_iff (fun _ _ => beq_iff_eq) h head.default.2).mp hdiffers
  · rw [decide_eq_false_iff_not, not_ne_iff] at hdiffers
    rw [hdiffers]
    exact Alike.refl (fun _ => rfl) head.default.2

theorem get_ne_of_alike {other : JsValue} (h : value.Alike false (fun s t => s = t) other)
    {key : String} (hkey : value.get key ≠ .undefined) : other.get key ≠ .undefined := by
  cases value with
  | object as =>
    cases other with
    | object bs =>
      rcases hproperty : (JsValue.object as).property key with _ | a
      · refine absurd ?_ hkey
        rw [JsValue.get, show (as.find? _).map Prod.snd = none from hproperty]
        rfl
      · obtain ⟨b, hb, halike⟩ := alikeFields_iff.mp h.2 _ (mem_of_property_object hproperty)
        rw [JsValue.get, show (as.find? _).map Prod.snd = some a from hproperty] at hkey
        rw [JsValue.get, show (bs.find? _).map Prod.snd = some b from hb]
        rintro rfl
        cases a with
        | undefined => exact hkey rfl
        | _ => cases halike
    | array _ => exact absurd h.1 Bool.false_ne_true
    | _ => cases h
  | _ => exact absurd rfl hkey

theorem distinct_withDefault (type : SimpleType) (h : value.Distinct) :
    (withDefault head type value).Distinct := by
  have helse : (orElse value head.default.1).Distinct := by
    rw [orElse]
    split
    · exact head.default.2
    · exact h
  have hgiven : (if value ≠ .undefined then value else head.default.1).Distinct := by
    split
    · exact h
    · exact head.default.2
  cases type with
  | boolean => exact hgiven
  | number => exact hgiven
  | options => exact hgiven
  | other => exact helse
  | resourceLocator =>
    simp only [withDefault]
    split
    · split
      · exact h
      · exact distinct_asLocator head.default.2
    · exact helse

variable {type : SimpleType}

theorem withDefault_agree (h : value.Distinct) (hvalue : value ≠ .undefined)
    (hfits : Fits (.simple head type) value) (hdiffers : differsFromDefault head value = false) :
    Agree true (withDefault head type value) (withDefault head type .undefined) := by
  have hundefined : Distinct .undefined := trivial
  refine agree_true_iff.mpr ((JsValue.compare_iff (fun _ _ => beq_iff_eq)
    (distinct_withDefault type h) (distinct_withDefault type hundefined)).mpr ?_)
  have halike := alike_of_not_differs h hdiffers
  have helse : (orElse value head.default.1).Alike false (fun s t => s = t)
      (orElse .undefined head.default.1) := by
    rw [show orElse .undefined head.default.1 = head.default.1 from if_pos (.inr rfl), orElse]
    split
    · exact Alike.refl (fun _ => rfl) head.default.2
    · exact halike
  have hgiven : (if value ≠ .undefined then value else head.default.1).Alike false
      (fun s t => s = t) (if JsValue.undefined ≠ .undefined then .undefined else head.default.1) := by
    rw [if_pos hvalue, if_neg (not_not_intro rfl)]
    exact halike
  cases type with
  | boolean => exact hgiven
  | number => exact hgiven
  | options => exact hgiven
  | other => exact helse
  | resourceLocator =>
    simp only [withDefault]
    by_cases hobject : isObject head.default.1 = true
    · rw [if_pos hobject, if_pos hobject, if_pos hvalue, if_neg (not_not_intro rfl)]
      have hkey := get_ne_of_alike halike (hfits hobject hvalue)
      exact halike.trans (fun _ _ _ hst htu => hst.trans htu)
        (alike_asLocator head.default.2 hkey)
    · rw [if_neg hobject, if_neg hobject]
      exact helse

theorem turnedAgree_set {a : JsValue} (h : a.Distinct) :
    TurnedAgree defaults v w (.set a) (.set a) := .set (.refl h)

theorem simpleTurn_agree (type : SimpleType) (o : CallOptions) (h : value.Distinct) :
    TurnedAgree defaults v w (simpleTurn head type o value) (simpleTurn head type o value) := by
  rw [simpleTurn]
  split
  · exact turnedAgree_set (distinct_withDefault type h)
  · split
    · exact turnedAgree_set h
    · exact .skip

theorem simple_agree (h : value.Distinct) (hfits : Fits (.simple head type) value)
    (hleft : left = value ∨
      (simpleTurn head type (call false root parentType) value = .skip ∧ left = .undefined))
    (ht : Takes (turnOf ctx (.simple head type)) defaults parentType root r value t)
    (ht' : Takes (turnOf ctx (.simple head type)) defaults parentType root' r' left t') :
    TurnedAgree defaults v w t t' := by
  by_cases hsame : left = value
  · subst hsame
    rcases ht with ⟨hmissing, rfl⟩ | ⟨hnot, ht⟩
    · rcases ht' with ⟨-, rfl⟩ | ⟨hnot', -⟩
      · exact .skip
      · exact absurd hmissing hnot'
    · rcases ht' with ⟨hmissing, -⟩ | ⟨-, ht'⟩
      · exact absurd hmissing hnot
      · cases ht
        cases ht'
        exact simpleTurn_agree type _ h
  · obtain ⟨hskip, rfl⟩ := hleft.resolve_left hsame
    have hvalue : value ≠ .undefined := Ne.symm hsame
    have hcond : ¬ (differsFromDefault head value = true ∨
        (value ≠ .undefined ∧ parentType = some .collection)) := by
      intro hcond
      have hset : simpleTurn head type (call false root parentType) value = .set value :=
        (if_neg Bool.false_ne_true).trans (if_pos hcond)
      rw [hset] at hskip
      cases hskip
    obtain ⟨hdiffers, hparent⟩ := not_or.mp hcond
    have hturn := ht.of_ne hvalue
    cases defaults with
    | false =>
      obtain rfl := ht'.skip
      obtain rfl : Turned.skip = t := hskip.symm.trans (Except.ok.inj hturn)
      exact .skip
    | true =>
      have hpresent : ¬ Missing true parentType .undefined := by
        rintro ⟨-, hfalse | hcollection⟩
        · exact Bool.false_ne_true hfalse.symm
        · exact hparent ⟨hvalue, hcollection⟩
      rcases ht' with ⟨hmissing, -⟩ | ⟨-, ht'⟩
      · exact absurd hmissing hpresent
      · cases hturn
        cases ht'
        exact .set (withDefault_agree h hvalue hfits (Bool.not_eq_true _ ▸ hdiffers))

theorem turnOf_multipleCollection {options : List INodeProperties} (hvalue : value ≠ .undefined) :
    turnOf ctx (.collection head (some true) options) (call defaults root parentType) r value
      = .ok (.set value) := by
  rw [turnOf, collectionTurn, call_onlySimpleTypes, if_neg Bool.false_ne_true, if_pos rfl,
    if_pos hvalue]
  rfl

section

variable {multipleValues : Option Bool} {options : List INodeProperties}

theorem exists_of_turnOf_collection
    (hmultiple : multipleValues ≠ some true) {fields : Values}
    (h : turnOf ctx (.collection head multipleValues options) (call defaults root parentType) r
      (.object fields) = .ok t) :
    ∃ a, getNodeParameters ctx options (.object fields)
      (call defaults (some r) (some .collection)) = .ok a ∧ t = .set (.object a) := by
  have hvalue : JsValue.object fields ≠ .undefined := by
    intro hvalue
    cases hvalue
  rw [turnOf, collectionTurn, call_onlySimpleTypes, if_neg Bool.false_ne_true, if_neg hmultiple,
    if_pos hvalue] at h
  obtain ⟨a, ha, h⟩ := exists_of_bind_eq_ok h
  cases h
  exact ⟨a, ha, rfl⟩

theorem collection_agree_undefined
    (ht : Takes (turnOf ctx (.collection head multipleValues options)) defaults parentType root r
      .undefined t)
    (ht' : Takes (turnOf ctx (.collection head multipleValues options)) defaults parentType root' r'
      .undefined t') : TurnedAgree defaults v w t t' := by
  rcases ht.undefined_cases ht' with ⟨rfl, rfl⟩ | ⟨rfl, ht, ht'⟩
  · exact .skip
  · rw [turnOf, collectionTurn, call_onlySimpleTypes, if_neg Bool.false_ne_true,
      call_returnDefaults] at ht ht'
    by_cases hmultiple : multipleValues = some true
    · rw [if_pos hmultiple, if_neg (not_not_intro rfl), if_pos rfl] at ht ht'
      split at ht
      · next items hitems =>
        cases ht
        rw [hitems] at ht'
        cases ht'
        exact turnedAgree_set (hitems ▸ head.default.2)
      · next hnot =>
        cases ht
        split at ht'
        · next items hitems => exact absurd hitems (hnot items)
        · cases ht'
          exact turnedAgree_set trivial
    · rw [if_neg hmultiple, if_neg (not_not_intro rfl), if_pos rfl] at ht ht'
      cases ht
      cases ht'
      exact turnedAgree_set head.default.2

theorem collection_agree
    {below : Bool} (h : value.Distinct)
    (hfits : Fits (.collection head multipleValues options) value)
    (hleft : if below = true then
      LeftBy (turnOf ctx (.collection head multipleValues options)) parentType root r value left
      else left = value)
    (hbelow : multipleValues ≠ some true → ∀ fields, value = .object fields →
      AgreesBelow ctx below options (some .collection) (some r) (some r') fields)
    (ht : Takes (turnOf ctx (.collection head multipleValues options)) defaults parentType root r
      value t)
    (ht' : Takes (turnOf ctx (.collection head multipleValues options)) defaults parentType root' r'
      left t') : TurnedAgree defaults v w t t' := by
  by_cases hvalue : value = .undefined
  · subst hvalue
    obtain rfl : left = .undefined := by
      split at hleft
      · rcases hleft with ⟨-, rfl⟩ | ⟨hne, -⟩
        · rfl
        · exact absurd rfl hne
      · exact hleft
    exact collection_agree_undefined ht ht'
  have hturn := ht.of_ne hvalue
  by_cases hmultiple : multipleValues = some true
  · subst hmultiple
    obtain rfl : left = value := by
      split at hleft
      · rcases hleft with ⟨hundefined, -⟩ | ⟨-, hset | ⟨hskip, -⟩⟩
        · exact absurd hundefined hvalue
        · rw [turnOf_multipleCollection hvalue] at hset
          cases hset
          rfl
        · rw [turnOf_multipleCollection hvalue] at hskip
          cases hskip
      · exact hleft
    have hturn' := ht'.of_ne hvalue
    rw [turnOf_multipleCollection hvalue] at hturn hturn'
    cases hturn
    cases hturn'
    exact turnedAgree_set h
  · obtain ⟨fields, rfl⟩ := (hfits.resolve_left hmultiple).resolve_left hvalue
    obtain ⟨a, ha, rfl⟩ := exists_of_turnOf_collection hmultiple hturn
    obtain ⟨fields', rfl, hsame, hstripped⟩ : ∃ fields', left = .object fields' ∧
        (below = false → fields' = fields) ∧
        (below = true → getNodeParameters ctx options (.object fields)
          (call false (some r) (some .collection)) = .ok fields') := by
      cases below with
      | true =>
        rcases hleft with ⟨hundefined, -⟩ | ⟨-, hset | ⟨hskip, -⟩⟩
        · exact absurd hundefined hvalue
        · obtain ⟨a', ha', heq⟩ := exists_of_turnOf_collection hmultiple hset
          cases heq
          exact ⟨a', rfl, fun hfalse => absurd hfalse Bool.false_ne_true.symm, fun _ => ha'⟩
        · obtain ⟨a', -, heq⟩ := exists_of_turnOf_collection hmultiple hskip
          cases heq
      | false =>
        exact ⟨fields, hleft, fun _ => rfl, fun htrue => absurd htrue Bool.false_ne_true⟩
    have hleft : JsValue.object fields' ≠ .undefined := by
      intro hundefined
      cases hundefined
    obtain ⟨b, hb, rfl⟩ := exists_of_turnOf_collection hmultiple (ht'.of_ne hleft)
    obtain ⟨hagree, hkeys⟩ :=
      hbelow hmultiple fields rfl h fields' hsame hstripped defaults a b ha hb
    exact .set (.object hagree hkeys)

end

variable (ctx) in
/-- All its values are gone, and one of them was not the default. -/
def Dropped (root fields : Values) : Prop :=
  getNodeParameters ctx properties (.object fields)
    (call false (some root) (some .fixedCollection)) = .ok [] ∧
  hasNonDefaultValues properties (.object fields) = true

variable (ctx) in
/-- None of its properties is displayed. -/
def ShowsNothing (root fields : Values) : Prop :=
  ∀ property ∈ properties,
    displays ctx properties (some .fixedCollection) (some root) fields property = .ok false

variable {multipleValues : Option Bool} {options : List (String × List INodeProperties)}
  {below given : Bool} {itemName : String} {item item' : JsValue}

theorem displayParameter_of_displays {properties : List INodeProperties} {values check : Values}
    {property : INodeProperties}
    (hcheck : resolvedValues ctx properties parentType root values = .ok check) :
    displays ctx properties parentType root values property
      = displayParameter ctx check property.head (root.getD check) := by
  rw [displays, hcheck]
  rfl

variable {fields : Values}

theorem ShowsNothing.eq_nil {properties : List INodeProperties} {a : Values}
    (h : ShowsNothing ctx properties r fields)
    (ha : getNodeParameters ctx properties (.object fields)
      (call defaults (some r) (some .fixedCollection)) = .ok a) : a = [] := by
  obtain ⟨check, entries, hcheck, hentries, hset⟩ := exists_setParameters ha
  refine setParameters_of_skip (fun e he t ht => ?_) hset
  obtain ⟨property, hproperty, rfl⟩ := (mem_inOrder hentries).mp he
  have hhidden := h property hproperty
  rw [displayParameter_of_displays hcheck] at hhidden
  rcases visit_cases ht with ⟨-, rfl⟩ | ⟨-, ⟨-, rfl⟩ | ⟨hdisplayed, -⟩⟩
  · rfl
  · rfl
  · rw [hhidden] at hdisplayed
    cases hdisplayed

theorem exists_of_entryOf {z : JsValue} (h : entryOf ctx head options defaults r itemName item = .ok z) :
    ∃ properties a, Fields.get options itemName = some properties ∧
      getNodeParameters ctx properties item (call defaults (some r) (some .fixedCollection))
        = .ok a ∧ z = .object a := by
  rw [entryOf] at h
  rcases hoption : Fields.get options itemName with _ | properties
  · rw [hoption] at h
    cases h
  · rw [hoption] at h
    obtain ⟨a, ha, h⟩ := exists_of_bind_eq_ok h
    cases h
    exact ⟨properties, a, rfl, ha, rfl⟩

theorem exists_of_mapM_cons {ε α β : Type} {f : α → Except ε β} {a : α} {as : List α}
    {bs : List β} (h : (a :: as).mapM f = .ok bs) :
    ∃ b rest, f a = .ok b ∧ as.mapM f = .ok rest ∧ bs = b :: rest := by
  rw [List.mapM_cons] at h
  obtain ⟨b, hb, h⟩ := exists_of_bind_eq_ok h
  obtain ⟨rest, hrest, h⟩ := exists_of_bind_eq_ok h
  cases h
  exact ⟨b, rest, hb, hrest, rfl⟩

theorem entries_agree {items : List JsValue} (hdistinct : DistinctItems items)
    (hshape : (Fields.get options itemName).isSome = true → ∀ i ∈ items, ∃ fields, i = .object fields)
    (hbelow : ∀ properties fields, Fields.get options itemName = some properties →
      .object fields ∈ items →
      AgreesBelow ctx below properties (some .fixedCollection) (some r) (some r') fields) :
    ∀ {left as bs : List JsValue}, (below = false → left = items) →
      (below = true → items.mapM (entryOf ctx head options false r itemName) = .ok left) →
      items.mapM (entryOf ctx head options defaults r itemName) = .ok as →
      left.mapM (entryOf ctx head options defaults r' itemName) = .ok bs →
      List.Forall₂ (Agree defaults) as bs := by
  induction items with
  | nil =>
    intro left as bs hsame hstripped has hbs
    obtain rfl : left = [] := by
      cases below with
      | true => exact (Except.ok.inj (hstripped rfl)).symm
      | false => exact hsame rfl
    cases has
    cases hbs
    exact .nil
  | cons i items ih =>
    intro left as bs hsame hstripped has hbs
    obtain ⟨z, as, hz, hastail, rfl⟩ := exists_of_mapM_cons has
    obtain ⟨properties, a, hoption, ha, rfl⟩ := exists_of_entryOf hz
    obtain ⟨fields, rfl⟩ := hshape (by rw [hoption]; rfl) i List.mem_cons_self
    obtain ⟨fields', left, rfl, hsame', hstripped', hrest, hreststripped⟩ :
        ∃ fields' rest, left = .object fields' :: rest ∧ (below = false → fields' = fields) ∧
          (below = true → getNodeParameters ctx properties (.object fields)
            (call false (some r) (some .fixedCollection)) = .ok fields') ∧
          (below = false → rest = items) ∧
          (below = true → items.mapM (entryOf ctx head options false r itemName) = .ok rest) := by
      cases below with
      | true =>
        obtain ⟨z', rest, hz', hrest, rfl⟩ := exists_of_mapM_cons (hstripped rfl)
        obtain ⟨properties', a', hoption', ha', rfl⟩ := exists_of_entryOf hz'
        obtain rfl : properties = properties' := Option.some.inj (hoption.symm.trans hoption')
        exact ⟨a', rest, rfl, fun hfalse => absurd hfalse Bool.false_ne_true.symm, fun _ => ha',
          fun hfalse => absurd hfalse Bool.false_ne_true.symm, fun _ => hrest⟩
      | false =>
        exact ⟨fields, items, hsame rfl, fun _ => rfl, fun htrue => absurd htrue Bool.false_ne_true,
          fun _ => rfl, fun htrue => absurd htrue Bool.false_ne_true⟩
    obtain ⟨z', bs, hz', hbstail, rfl⟩ := exists_of_mapM_cons hbs
    obtain ⟨properties', b, hoption', hb, rfl⟩ := exists_of_entryOf hz'
    obtain rfl : properties = properties' := Option.some.inj (hoption.symm.trans hoption')
    obtain ⟨hagree, hkeys⟩ := hbelow properties fields hoption List.mem_cons_self hdistinct.1
      fields' hsame' hstripped' defaults a b ha hb
    refine .cons (.object hagree hkeys) (ih hdistinct.2 ?_ ?_ hrest hreststripped hastail hbstail)
    · exact fun hsome i hi => hshape hsome i (List.mem_cons_of_mem _ hi)
    · exact fun properties fields hget hmem =>
        hbelow properties fields hget (List.mem_cons_of_mem _ hmem)

variable (ctx) in
/-- The levels below an item agree with what is left of them. -/
structure ItemAgrees (multipleValues : Option Bool)
    (options : List (String × List INodeProperties)) (below given : Bool) (r r' : Values)
    (itemName : String) (item : JsValue) : Prop where
  distinct : item.Distinct
  present : item ≠ .undefined
  fits : (Fields.get options itemName).isSome = true → FitsItem multipleValues item
  multiple : multipleValues = some true → ∀ properties items fields,
    Fields.get options itemName = some properties → item = .array items → .object fields ∈ items →
    AgreesBelow ctx below properties (some .fixedCollection) (some r) (some r') fields
  single : multipleValues ≠ some true → given = true → ∀ properties fields,
    Fields.get options itemName = some properties → item = .object fields →
    ¬ (below = true ∧ Dropped ctx properties r fields) →
    AgreesBelow ctx below properties (some .fixedCollection) (some r) (some r') fields
  dropped : below = true → multipleValues ≠ some true → ∀ properties fields,
    Fields.get options itemName = some properties → item = .object fields →
    Dropped ctx properties r fields → ShowsNothing ctx properties r fields

/-- The item is the same, or it is what the call without the defaults has left. -/
def ItemLeft (below : Bool) (first : String → JsValue → Result (Option JsValue × Bool))
    (itemName : String) (item item' : JsValue) : Prop :=
  (below = false ∧ item' = item) ∨
    (below = true ∧ ∃ result, first itemName item = .ok result ∧ result.1 = some item')

variable {result : Option JsValue × Bool} {result' : Option JsValue × Bool}

theorem multipleItem_agree
    (h : ItemAgrees ctx (some true) options below given r r' itemName item)
    (hleft : ItemLeft below (itemOf ctx head (some true) options false r given) itemName item item')
    (ha : itemOf ctx head (some true) options defaults r given itemName item = .ok result)
    (hb : itemOf ctx head (some true) options defaults r' given itemName item' = .ok result') :
    Option.Rel (Agree defaults) result.1 result'.1 := by
  obtain ⟨items, as, rfl, has, rfl⟩ := itemOf_multiple ha
  obtain ⟨items', bs, rfl, hbs, rfl⟩ := itemOf_multiple hb
  have hshape : (Fields.get options itemName).isSome = true →
      ∀ i ∈ items, ∃ fields, i = .object fields := by
    intro hsome
    have hfits := h.fits hsome
    rw [FitsItem, if_pos rfl] at hfits
    obtain ⟨items', heq, hitems⟩ := hfits
    cases heq
    exact hitems
  refine .some (.array (entries_agree h.distinct hshape
    (fun properties fields hget hmem => h.multiple rfl properties items fields hget rfl hmem)
    (fun hfalse => ?_) (fun htrue => ?_) has hbs))
  · rcases hleft with ⟨-, heq⟩ | ⟨htrue, -⟩
    · cases heq
      rfl
    · rw [hfalse] at htrue
      cases htrue
  · rcases hleft with ⟨hfalse, -⟩ | ⟨-, _, hfirst, hsome⟩
    · rw [htrue] at hfalse
      cases hfalse
    · obtain ⟨items₀, entries, heq, hentries, rfl⟩ := itemOf_multiple hfirst
      cases heq
      cases hsome
      exact hentries

theorem exists_of_itemLeft (hmultiple : multipleValues ≠ some true)
    {properties : List INodeProperties} (hoption : Fields.get options itemName = some properties)
    (hleft : ItemLeft below (itemOf ctx head multipleValues options false r given) itemName
      (.object fields) item') :
    ∃ fields', item' = .object fields' ∧ (below = false → fields' = fields) ∧
      (below = true → getNodeParameters ctx properties (.object fields)
        (call false (some r) (some .fixedCollection)) = .ok fields' ∧
        (fields' = [] → hasNonDefaultValues properties (.object fields) = false)) := by
  rcases hleft with ⟨rfl, rfl⟩ | ⟨rfl, result, hresult, hsome⟩
  · exact ⟨fields, rfl, fun _ => rfl, fun htrue => absurd htrue Bool.false_ne_true⟩
  · rcases itemOf_single hmultiple hresult with ⟨hnone, -⟩ | ⟨properties', a, hget, -, ha, hset, -⟩
    · rw [hoption] at hnone
      cases hnone
    · obtain rfl : properties = properties' := Option.some.inj (hoption.symm.trans hget)
      rw [hset] at hsome
      split at hsome
      · next hcond =>
        cases hsome
        refine ⟨a, rfl, fun hfalse => absurd hfalse Bool.false_ne_true.symm, fun _ => ⟨ha, ?_⟩⟩
        exact fun hempty => (hcond.resolve_left (not_not_intro hempty)).2.1
      · cases hsome

theorem singleItem_agree (hmultiple : multipleValues ≠ some true)
    (h : ItemAgrees ctx multipleValues options below given r r' itemName item)
    (hleft : ItemLeft below (itemOf ctx head multipleValues options false r given) itemName item
      item')
    (ha : itemOf ctx head multipleValues options defaults r given itemName item = .ok result)
    (hb : itemOf ctx head multipleValues options defaults r' given itemName item' = .ok result') :
    Option.Rel (Agree defaults) result.1 result'.1 := by
  rcases itemOf_single hmultiple ha with ⟨hnone, rfl⟩ | ⟨properties, a, hoption, hgiven, ha, hset, -⟩
  · rcases itemOf_single hmultiple hb with ⟨-, rfl⟩ | ⟨_, _, hsome, -⟩
    · exact .none
    · rw [hnone] at hsome
      cases hsome
  rcases itemOf_single hmultiple hb with ⟨hnone, -⟩ | ⟨properties', b, hoption', -, hb, hset', -⟩
  · rw [hoption] at hnone
    cases hnone
  obtain rfl : properties = properties' := Option.some.inj (hoption.symm.trans hoption')
  have hfits := h.fits (by rw [hoption]; rfl)
  rw [FitsItem, if_neg hmultiple] at hfits
  obtain ⟨fields, rfl⟩ := hfits
  obtain ⟨fields', rfl, hsame, hstripped⟩ := exists_of_itemLeft hmultiple hoption hleft
  have hkept : ¬ (below = true ∧ Dropped ctx properties r fields) := by
    rintro ⟨htrue, hempty, hvalues⟩
    obtain ⟨hcall, hdefaults⟩ := hstripped htrue
    rw [hdefaults (Except.ok.inj (hcall.symm.trans hempty))] at hvalues
    cases hvalues
  obtain ⟨hagree, hkeys⟩ := h.single hmultiple hgiven properties fields hoption rfl hkept h.distinct
    fields' hsame (fun htrue => (hstripped htrue).1) defaults a b ha hb
  have hvalue : Agree defaults (.object a) (.object b) := .object hagree hkeys
  have hobject : ∀ fields : Values, JsValue.object fields ≠ .undefined := by
    intro fields hundefined
    cases hundefined
  rw [hset, hset']
  by_cases hempty : a = []
  · -- an empty item is kept if all its values were defaults, and then it has none that is not
    have hdefaults : defaults = false →
        hasNonDefaultValues properties (.object fields')
          = hasNonDefaultValues properties (.object fields) := by
      rintro rfl
      cases below with
      | false => rw [hsame rfl]
      | true =>
        obtain ⟨hcall, hnone⟩ := hstripped rfl
        obtain rfl : fields' = [] := Except.ok.inj (hcall.symm.trans (ha.trans (by rw [hempty])))
        exact (hnone rfl).symm
    have hb := hvalue.isEmpty.mp hempty
    subst hempty hb
    by_cases hkeep : defaults = false ∧ hasNonDefaultValues properties (.object fields) = false
    · rw [if_pos (.inr ⟨hkeep.1, hkeep.2, hobject fields⟩),
        if_pos (.inr ⟨hkeep.1, (hdefaults hkeep.1).trans hkeep.2, hobject fields'⟩)]
      exact .some hvalue
    · have hskip : ∀ fields'' : Values, (defaults = false →
          hasNonDefaultValues properties (.object fields'')
            = hasNonDefaultValues properties (.object fields)) →
          ¬ (([] : Values) ≠ [] ∨ defaults = false ∧
            hasNonDefaultValues properties (.object fields'') = false ∧
            JsValue.object fields'' ≠ .undefined) := by
        rintro fields'' heq (hne | ⟨hfalse, hnone, -⟩)
        · exact hne rfl
        · exact hkeep ⟨hfalse, (heq hfalse).symm.trans hnone⟩
      rw [if_neg (hskip fields fun _ => rfl), if_neg (hskip fields' hdefaults)]
      exact .none
  · rw [if_pos (.inl hempty), if_pos (.inl (mt hvalue.isEmpty.mpr hempty))]
    exact .some hvalue

theorem dropped_of_none (hmultiple : multipleValues ≠ some true)
    {properties : List INodeProperties} (hoption : Fields.get options itemName = some properties)
    (h : itemOf ctx head multipleValues options false r given itemName (.object fields) = .ok result)
    (hnone : result.1 = none) : Dropped ctx properties r fields := by
  rcases itemOf_single hmultiple h with ⟨hunknown, -⟩ | ⟨properties', a, hget, -, ha, hset, -⟩
  · rw [hoption] at hunknown
    cases hunknown
  · obtain rfl : properties = properties' := Option.some.inj (hoption.symm.trans hget)
    rw [hset] at hnone
    split at hnone
    · cases hnone
    · next hcond =>
      obtain ⟨hempty, hvalues⟩ := not_or.mp hcond
      rw [not_ne_iff] at hempty
      subst hempty
      refine ⟨ha, ?_⟩
      by_contra hdefaults
      refine hvalues ⟨rfl, Bool.not_eq_true _ ▸ hdefaults, ?_⟩
      intro hundefined
      cases hundefined

theorem eq_none_of_dropped (h : ItemAgrees ctx multipleValues options true given r r' itemName item)
    {result₀ : Option JsValue × Bool}
    (hfirst : itemOf ctx head multipleValues options false r given itemName item = .ok result₀)
    (hnone : result₀.1 = none)
    (ha : itemOf ctx head multipleValues options defaults r given itemName item = .ok result) :
    result.1 = none := by
  by_cases hmultiple : multipleValues = some true
  · subst hmultiple
    obtain ⟨_, _, -, -, rfl⟩ := itemOf_multiple hfirst
    cases hnone
  cases defaults with
  | false =>
    obtain rfl := Except.ok.inj (hfirst.symm.trans ha)
    exact hnone
  | true =>
    rcases itemOf_single hmultiple ha with ⟨-, rfl⟩ | ⟨properties, a, hoption, -, ha, hset, -⟩
    · rfl
    have hfits := h.fits (by rw [hoption]; rfl)
    rw [FitsItem, if_neg hmultiple] at hfits
    obtain ⟨fields, rfl⟩ := hfits
    have hdropped := dropped_of_none hmultiple hoption hfirst hnone
    have hempty := (h.dropped rfl hmultiple properties fields hoption rfl hdropped).eq_nil ha
    rw [hset, if_neg]
    rintro (hne | ⟨htrue, -⟩)
    · exact hne hempty
    · cases htrue

theorem item_agree (h : ItemAgrees ctx multipleValues options below given r r' itemName item)
    (hleft : ItemLeft below (itemOf ctx head multipleValues options false r given) itemName item
      item')
    (ha : itemOf ctx head multipleValues options defaults r given itemName item = .ok result)
    (hb : itemOf ctx head multipleValues options defaults r' given itemName item' = .ok result') :
    Option.Rel (Agree defaults) result.1 result'.1 := by
  by_cases hmultiple : multipleValues = some true
  · subst hmultiple
    exact multipleItem_agree h hleft ha hb
  · exact singleItem_agree hmultiple h hleft ha hb

variable (ctx) in
def Gone (multipleValues : Option Bool) (options : List (String × List INodeProperties))
    (root : Values) (value : JsValue) : Prop :=
  if multipleValues = some true then value.fields = []
  else ∀ itemName properties fields, (itemName, .object fields) ∈ value.fields →
    Fields.get options itemName = some properties → Dropped ctx properties root fields

theorem gone_of_collectItems {c : Values × Bool}
    (h : collectItems (itemOf ctx head multipleValues options false r given) value.fields = .ok c)
    (hempty : c.1 = []) : Gone ctx multipleValues options r value := by
  have hnone := (collectItems_eq_nil_iff h).mp hempty
  have hok := exists_of_collectItems h
  rw [Gone]
  split
  · next hmultiple =>
    subst hmultiple
    refine List.eq_nil_iff_forall_not_mem.mpr fun f hf => ?_
    obtain ⟨result, hresult⟩ := hok f hf
    have hset := hnone f hf result hresult
    obtain ⟨_, _, -, -, rfl⟩ := itemOf_multiple hresult
    cases hset
  · next hmultiple =>
    intro itemName properties fields hmem hoption
    obtain ⟨result, hresult⟩ := hok _ hmem
    exact dropped_of_none hmultiple hoption hresult (hnone _ hmem result hresult)

theorem nodup_keys_fields (h : value.Distinct) : (value.fields.map Prod.fst).Nodup := by
  cases value with
  | object fields => exact h.1
  | _ => exact List.nodup_nil

variable {f : String × JsValue}

theorem mem_fields_of_mem_itemsOf (h : f ∈ itemsOf head value)
    (hvalue : value ≠ .undefined) : f ∈ value.fields := by
  rwa [itemsOf, if_neg hvalue] at h

theorem distinct_of_mem_itemsOf (h : f ∈ itemsOf head value)
    (hvalue : value.Distinct) : f.2.Distinct := by
  refine distinctFields_iff.mp (distinctFields_fields ?_) f h
  split
  · exact head.default.2
  · exact hvalue

theorem collected_agree {c c' : Values × Bool}
    (hitems : ∀ f ∈ fields, ItemAgrees ctx multipleValues options false given r r' f.1 f.2)
    (hkeys : (fields.map Prod.fst).Nodup)
    (hc : collectItems (itemOf ctx head multipleValues options defaults r given) fields = .ok c)
    (hc' : collectItems (itemOf ctx head multipleValues options defaults r' given) fields = .ok c') :
    FieldsAgree defaults c.1 c'.1 ∧ (c'.1.map Prod.fst).Nodup := by
  refine ⟨collectItems_agree (fun f hf result result' hresult hresult' => ?_) hc hc',
    hkeys.sublist (keys_collectItems hc')⟩
  exact item_agree (hitems f hf) (.inl ⟨rfl, rfl⟩) hresult hresult'

theorem collected_saved {c c₁ c₂ : Values × Bool}
    (hitems : ∀ f ∈ fields, ItemAgrees ctx multipleValues options true given r r' f.1 f.2)
    (hkeys : (fields.map Prod.fst).Nodup)
    (hc : collectItems (itemOf ctx head multipleValues options false r given) fields = .ok c)
    (hc₁ : collectItems (itemOf ctx head multipleValues options defaults r given) fields = .ok c₁)
    (hc₂ : collectItems (itemOf ctx head multipleValues options defaults r' given) c.1 = .ok c₂) :
    FieldsAgree defaults c₁.1 c₂.1 ∧ (c₂.1.map Prod.fst).Nodup := by
  refine ⟨collectItems_saved (fun f hf result hresult => ⟨?_, ?_⟩) hc hc₁ hc₂,
    (hkeys.sublist (keys_collectItems hc)).sublist (keys_collectItems hc₂)⟩
  · exact fun result₀ hfirst hnone => eq_none_of_dropped (hitems f hf) hfirst hnone hresult
  · exact fun result₀ item result' hfirst hsome hresult' =>
      item_agree (hitems f hf) (.inr ⟨rfl, result₀, hfirst, hsome⟩) hresult hresult'

theorem fixedCollection_agree_undefined
    (hitems : ∀ f ∈ head.default.1.fields,
      ItemAgrees ctx multipleValues options false false r r' f.1 f.2)
    (ht : Takes (turnOf ctx (.fixedCollection head multipleValues options)) defaults parentType root
      r .undefined t)
    (ht' : Takes (turnOf ctx (.fixedCollection head multipleValues options)) defaults parentType
      root' r' .undefined t') : TurnedAgree defaults v w t t' := by
  rcases ht.undefined_cases ht' with ⟨rfl, rfl⟩ | ⟨rfl, ht, ht'⟩
  · exact .skip
  · obtain ⟨c, hc, rfl⟩ := turnOf_fixedCollection_true ht
    obtain ⟨c', hc', rfl⟩ := turnOf_fixedCollection_true ht'
    rw [if_pos rfl] at hc hc'
    obtain ⟨hagree, hkeys⟩ := collected_agree hitems (nodup_keys_fields head.default.2) hc hc'
    exact .set (.object hagree hkeys)

theorem fixedCollection_agree_same (hvalue : value ≠ .undefined) (h : value.Distinct)
    (hitems : ∀ f ∈ value.fields, ItemAgrees ctx multipleValues options false true r r' f.1 f.2)
    (hsame : FieldsAgree defaults v w ∧ (w.map Prod.fst).Nodup)
    (ht : turnOf ctx (.fixedCollection head multipleValues options)
      (call defaults root parentType) r value = .ok t)
    (ht' : turnOf ctx (.fixedCollection head multipleValues options)
      (call defaults root' parentType) r' value = .ok t') : TurnedAgree defaults v w t t' := by
  have hkeys := nodup_keys_fields h
  have hgivenTrue : decide (value ≠ .undefined) = true := decide_eq_true hvalue
  cases defaults with
  | true =>
    obtain ⟨c, hc, rfl⟩ := turnOf_fixedCollection_true ht
    obtain ⟨c', hc', rfl⟩ := turnOf_fixedCollection_true ht'
    rw [if_neg hvalue, hgivenTrue] at hc hc'
    obtain ⟨hagree, hnodup⟩ := collected_agree hitems hkeys hc hc'
    exact .set (.object hagree hnodup)
  | false =>
    have hgiven : ∀ f ∈ value.fields, f.2 ≠ .undefined := fun f hf => (hitems f hf).present
    rcases turnOf_fixedCollection_false hgiven ht with ⟨rfl, hwhole⟩ | ⟨hnot, c, hc, rfl⟩
    · rcases turnOf_fixedCollection_false hgiven ht' with ⟨rfl, -⟩ | ⟨hnot, -⟩
      · exact .returnValues hsame.1 hsame.2
      · exact absurd hwhole hnot
    · rcases turnOf_fixedCollection_false hgiven ht' with ⟨-, hwhole⟩ | ⟨-, c', hc', rfl⟩
      · exact absurd hwhole hnot
      · rw [hgivenTrue] at hc hc'
        obtain ⟨hagree, hnodup⟩ := collected_agree hitems hkeys hc hc'
        rw [fieldsAgree_false_iff.mp hagree]
        split
        · exact .skip
        · exact .set (.object (fieldsAgree_false_iff.mpr rfl) hnodup)

theorem fixedCollection_agree_stripped (hvalue : value ≠ .undefined) (h : value.Distinct)
    (hitems : ∀ f ∈ value.fields, ItemAgrees ctx multipleValues options true true r r' f.1 f.2)
    (hgone : Gone ctx multipleValues options r value →
      parentType ≠ some .collection ∧ head.default.1.fields = [])
    (hleft : turnOf ctx (.fixedCollection head multipleValues options)
        (call false root parentType) r value = .ok (.set left) ∨
      (turnOf ctx (.fixedCollection head multipleValues options)
        (call false root parentType) r value = .ok .skip ∧ left = .undefined))
    (ht : turnOf ctx (.fixedCollection head multipleValues options)
      (call defaults root parentType) r value = .ok t)
    (ht' : Takes (turnOf ctx (.fixedCollection head multipleValues options)) defaults parentType
      root' r' left t') : TurnedAgree defaults v w t t' := by
  have hkeys := nodup_keys_fields h
  have hgivenTrue : decide (value ≠ .undefined) = true := decide_eq_true hvalue
  have hgiven : ∀ f ∈ value.fields, f.2 ≠ .undefined := fun f hf => (hitems f hf).present
  have hnotReturn : turnOf ctx (.fixedCollection head multipleValues options)
      (call false root parentType) r value ≠ .ok .returnValues := by
    intro hreturn
    rcases hleft with hset | ⟨hskip, -⟩
    · rw [hreturn] at hset
      cases hset
    · rw [hreturn] at hskip
      cases hskip
  obtain ⟨c, hc, hturn⟩ : ∃ c, collectItems
      (itemOf ctx head multipleValues options false r (value ≠ .undefined)) value.fields = .ok c ∧
      turnOf ctx (.fixedCollection head multipleValues options) (call false root parentType) r value
        = .ok (if c.1 = [] then .skip else .set (.object c.1)) := by
    obtain ⟨t₀, ht₀⟩ : ∃ t₀, turnOf ctx (.fixedCollection head multipleValues options)
        (call false root parentType) r value = .ok t₀ := by
      rcases hleft with hset | ⟨hskip, -⟩
      · exact ⟨_, hset⟩
      · exact ⟨_, hskip⟩
    rcases turnOf_fixedCollection_false hgiven ht₀ with ⟨rfl, -⟩ | ⟨-, c, hc, rfl⟩
    · exact absurd ht₀ hnotReturn
    · exact ⟨c, hc, ht₀⟩
  rw [hturn] at hleft
  rw [hgivenTrue] at hc
  by_cases hempty : c.1 = []
  · rw [if_pos hempty] at hleft hturn
    obtain rfl : left = .undefined := by
      rcases hleft with hset | ⟨-, hundefined⟩
      · cases hset
      · exact hundefined
    obtain ⟨hparent, hdefault⟩ := hgone (gone_of_collectItems hc hempty)
    cases defaults with
    | false =>
      obtain rfl := Except.ok.inj (hturn.symm.trans ht)
      obtain rfl := ht'.skip
      exact .skip
    | true =>
      obtain ⟨c₁, hc₁, rfl⟩ := turnOf_fixedCollection_true ht
      rw [if_neg hvalue, hgivenTrue] at hc₁
      have hnone : c₁.1 = [] := by
        refine (collectItems_eq_nil_iff hc₁).mpr fun f hf result hresult => ?_
        obtain ⟨result₀, hfirst⟩ := exists_of_collectItems hc f hf
        exact eq_none_of_dropped (hitems f hf) hfirst
          ((collectItems_eq_nil_iff hc).mp hempty f hf result₀ hfirst) hresult
      rcases ht' with ⟨⟨-, hfalse | hcollection⟩, -⟩ | ⟨-, ht'⟩
      · cases hfalse
      · exact absurd hcollection hparent
      · obtain ⟨c₂, hc₂, rfl⟩ := turnOf_fixedCollection_true ht'
        rw [if_pos rfl, hdefault] at hc₂
        cases hc₂
        rw [hnone]
        exact .set (.object .nil List.nodup_nil)
  · rw [if_neg hempty] at hleft hturn
    obtain rfl : left = .object c.1 := by
      rcases hleft with hset | ⟨hskip, -⟩
      · cases hset
        rfl
      · cases hskip
    have hobject : JsValue.object c.1 ≠ .undefined := by
      intro hundefined
      cases hundefined
    have ht' := ht'.of_ne hobject
    have hleftTrue : decide (JsValue.object c.1 ≠ .undefined) = true := decide_eq_true hobject
    cases defaults with
    | true =>
      obtain ⟨c₁, hc₁, rfl⟩ := turnOf_fixedCollection_true ht
      obtain ⟨c₂, hc₂, rfl⟩ := turnOf_fixedCollection_true ht'
      rw [if_neg hvalue, hgivenTrue] at hc₁
      rw [if_neg hobject, hleftTrue] at hc₂
      obtain ⟨hagree, hnodup⟩ := collected_saved hitems hkeys hc hc₁ hc₂
      exact .set (.object hagree hnodup)
    | false =>
      obtain rfl := Except.ok.inj (hturn.symm.trans ht)
      have hset : ∀ f ∈ (JsValue.object c.1).fields, f.2 ≠ .undefined := by
        intro f hf hundefined
        obtain ⟨item, result, -, hresult, hsome⟩ := exists_of_mem_collectItems hc f hf
        exact ne_undefined_of_itemOf hresult (hundefined ▸ hsome)
      rcases turnOf_fixedCollection_false hset ht' with ⟨-, -, -, hnil⟩ | ⟨-, c₂, hc₂, rfl⟩
      · exact absurd hnil hempty
      · rw [hleftTrue] at hc₂
        obtain ⟨hagree, hnodup⟩ := collected_saved hitems hkeys hc hc hc₂
        rw [← fieldsAgree_false_iff.mp hagree, if_neg hempty]
        exact .set (agree_false_iff.mpr rfl)

theorem fixedCollection_agree (h : value.Distinct)
    (hitems : ∀ f ∈ itemsOf head value,
      ItemAgrees ctx multipleValues options (below && value ≠ .undefined) (value ≠ .undefined) r r'
        f.1 f.2)
    (hgone : below = true → value ≠ .undefined → Gone ctx multipleValues options r value →
      parentType ≠ some .collection ∧ head.default.1.fields = [])
    (hsame : below = false → FieldsAgree defaults v w ∧ (w.map Prod.fst).Nodup)
    (hleft : if below = true then
      LeftBy (turnOf ctx (.fixedCollection head multipleValues options)) parentType root r value left
      else left = value)
    (ht : Takes (turnOf ctx (.fixedCollection head multipleValues options)) defaults parentType root
      r value t)
    (ht' : Takes (turnOf ctx (.fixedCollection head multipleValues options)) defaults parentType
      root' r' left t') : TurnedAgree defaults v w t t' := by
  by_cases hvalue : value = .undefined
  · subst hvalue
    obtain rfl : left = .undefined := by
      split at hleft
      · rcases hleft with ⟨-, rfl⟩ | ⟨hne, -⟩
        · rfl
        · exact absurd rfl hne
      · exact hleft
    rw [itemsOf, if_pos rfl, decide_eq_false (not_not_intro rfl), Bool.and_false] at hitems
    exact fixedCollection_agree_undefined hitems ht ht'
  · rw [itemsOf, if_neg hvalue, decide_eq_true hvalue, Bool.and_true] at hitems
    cases below with
    | true =>
      refine fixedCollection_agree_stripped hvalue h hitems (hgone rfl hvalue) ?_
        (ht.of_ne hvalue) ht'
      rcases hleft with ⟨hundefined, -⟩ | ⟨-, hleft⟩
      · exact absurd hundefined hvalue
      · exact hleft
    | false =>
      obtain rfl : left = value := hleft
      exact fixedCollection_agree_same hvalue h hitems (hsame rfl) (ht.of_ne hvalue)
        (ht'.of_ne hvalue)

end N8n.NodeHelpers
