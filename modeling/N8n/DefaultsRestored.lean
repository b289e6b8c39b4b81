/-
Parameters without their defaults, and with all of them again.

A workflow is saved with the parameters that differ from their defaults and are displayed, and it is
loaded with all defaults.  What was saved shows the same parameters only if no parameter is
displayed because of a value that is itself hidden, and is not saved; and a fixed collection that has
nothing left is not saved at all.

* **`lossless_of_kept`** — when what is saved is loaded as the parameters that were there, and
  saved the same again.
-/
import N8n.ParameterTurns

namespace N8n.NodeHelpers

open JsValue
open WorkflowDiff (Json isEqual)

variable (ctx : Context)

/-- What is saved of some values is loaded as what is loaded of the values, and saved the same. -/
def Lossless (properties : List INodeProperties) (nodeValues : JsValue) : Prop :=
  ∀ stripped full restored again,
    getNodeParameters ctx properties nodeValues { returnDefaults := false } = .ok stripped →
    getNodeParameters ctx properties nodeValues { returnDefaults := true } = .ok full →
    getNodeParameters ctx properties (.object stripped) { returnDefaults := true } = .ok restored →
    getNodeParameters ctx properties (.object stripped) { returnDefaults := false } = .ok again →
    isEqual (.object full) (.object restored) = true ∧ again = stripped

/-- A fixed collection with one value that is empty: the values are returned as they are. -/
def ReturnsValues (properties : List INodeProperties) (parentType : Option ParentType)
    (root : Option Values) (values : Values) : Prop :=
  ∃ head options, .fixedCollection head (some false) options ∈ properties ∧
    displays ctx properties parentType root values (.fixedCollection head (some false) options)
      = .ok true ∧
    (JsValue.get (.object values) head.name).truthy = true ∧
    (JsValue.get (.object values) head.name).fields = []

/-- The values that are left: all of them, where nothing is stripped or they are returned as they
are, or the ones that the call without the defaults returns.  The second flag tells if the levels
below are stripped. -/
inductive Leaves (properties : List INodeProperties) (parentType : Option ParentType)
    (root : Option Values) (values : Values) : Bool → Bool → Values → Prop where
  | same : Leaves properties parentType root values false false values
  | whole (h : ReturnsValues ctx properties parentType root values) :
    Leaves properties parentType root values true false values
  | stripped {left : Values} (h : ¬ ReturnsValues ctx properties parentType root values)
    (hleft : getNodeParameters ctx properties (.object values) (call false root parentType)
      = .ok left) : Leaves properties parentType root values true true left

/-- What is left out of a fixed collection shows nothing, and no default takes its place. -/
def LosesNothing (head : PropertyHead) (multipleValues : Option Bool)
    (options : List (String × List INodeProperties)) (parentType : Option ParentType)
    (root : Values) (value : JsValue) : Prop :=
  (multipleValues ≠ some true → ∀ itemName properties fields,
    (itemName, .object fields) ∈ value.fields → Fields.get options itemName = some properties →
    Dropped ctx properties root fields → ShowsNothing ctx properties root fields) ∧
  (Gone ctx multipleValues options root value →
    parentType ≠ some .collection ∧ head.default.1.fields = [])

/-- What is left of the values, at all levels, displays what the values display, where the root of
the node may be another one.  The flag tells if the values are stripped. -/
inductive Kept : Bool → List INodeProperties → Option ParentType → Option Values → Option Values →
    Values → Prop where
  | intro {stripped below : Bool} {properties : List INodeProperties}
    {parentType : Option ParentType} {root root' : Option Values} {values left : Values}
    (hleaves : Leaves ctx properties parentType root values stripped below left)
    (hdisplays : ∀ property ∈ properties, displays ctx properties parentType root' left property
      = displays ctx properties parentType root values property)
    (hfits : ∀ property ∈ properties,
      displays ctx properties parentType root values property = .ok true →
      Fits property (JsValue.get (.object values) property.name))
    (hnames : below = true → ∀ property ∈ properties, ∀ other ∈ properties,
      property.isSimple = false → property.name = other.name →
      displays ctx properties parentType root values property = .ok true →
      displays ctx properties parentType root values other = .ok true → property = other)
    (hloses : below = true → ∀ head multipleValues options r,
      .fixedCollection head multipleValues options ∈ properties →
      displays ctx properties parentType root values
        (.fixedCollection head multipleValues options) = .ok true →
      JsValue.get (.object values) head.name ≠ .undefined →
      rootOf ctx properties parentType root values = .ok r →
      LosesNothing ctx head multipleValues options parentType r
        (JsValue.get (.object values) head.name))
    (hcollection : ∀ head multipleValues options fields r r',
      .collection head multipleValues options ∈ properties → multipleValues ≠ some true →
      displays ctx properties parentType root values
        (.collection head multipleValues options) = .ok true →
      JsValue.get (.object values) head.name = .object fields →
      rootOf ctx properties parentType root values = .ok r →
      rootOf ctx properties parentType root' left = .ok r' →
      Kept below options (some .collection) (some r) (some r') fields)
    (hmultiple : ∀ head options itemName items values' fields r r',
      .fixedCollection head (some true) options ∈ properties →
      displays ctx properties parentType root values
        (.fixedCollection head (some true) options) = .ok true →
      (itemName, .array items) ∈ itemsOf head (JsValue.get (.object values) head.name) →
      Fields.get options itemName = some values' → .object fields ∈ items →
      rootOf ctx properties parentType root values = .ok r →
      rootOf ctx properties parentType root' left = .ok r' →
      Kept (below && JsValue.get (.object values) head.name ≠ .undefined) values'
        (some .fixedCollection) (some r) (some r') fields)
    (hsingle : ∀ head multipleValues options itemName values' fields r r',
      .fixedCollection head multipleValues options ∈ properties → multipleValues ≠ some true →
      displays ctx properties parentType root values
        (.fixedCollection head multipleValues options) = .ok true →
      (itemName, .object fields) ∈ (JsValue.get (.object values) head.name).fields →
      Fields.get options itemName = some values' →
      ¬ (below = true ∧ Dropped ctx values' r fields) →
      rootOf ctx properties parentType root values = .ok r →
      rootOf ctx properties parentType root' left = .ok r' →
      Kept below values' (some .fixedCollection) (some r) (some r') fields) :
    Kept stripped properties parentType root root' values

variable {ctx} {properties : List INodeProperties} {parentType : Option ParentType}
  {root : Option Values} {values left check : Values}

variable {head : PropertyHead} {type : SimpleType} {o : CallOptions} {r : Values} {value : JsValue}

theorem turnOf_simple_ne_returnValues :
    turnOf ctx (.simple head type) o r value ≠ .ok .returnValues := by
  intro h
  have hturn : simpleTurn head type o value = .returnValues := Except.ok.inj h
  rw [simpleTurn] at hturn
  split at hturn
  · cases hturn
  · split at hturn
    · cases hturn
    · cases hturn

theorem turnOf_collection_ne_returnValues {multipleValues : Option Bool}
    {options : List INodeProperties} :
    turnOf ctx (.collection head multipleValues options) o r value ≠ .ok .returnValues := by
  intro h
  rw [turnOf, collectionTurn] at h
  split at h
  · cases h
  · split at h
    · split at h
      · cases h
      · split at h
        · split at h
          · cases h
          · cases h
        · cases h
    · split at h
      · obtain ⟨a, -, h⟩ := exists_of_bind_eq_ok h
        cases h
      · split at h
        · cases h
        · cases h

variable {property : INodeProperties} {duplicate : Bool}

theorem returnsValues_of_visit
    (hcheck : resolvedValues ctx properties parentType root values = .ok check)
    (hfits : ∀ property ∈ properties,
      displays ctx properties parentType root values property = .ok true →
      Fits property (JsValue.get (.object values) property.name))
    (hproperty : property ∈ properties)
    (h : visit ctx (call false root parentType) duplicate (.object values) check property
      (turnOf ctx property) = .ok .returnValues) :
    ReturnsValues ctx properties parentType root values := by
  rcases visit_cases h with ⟨-, heq⟩ | ⟨hmissing, ⟨-, heq⟩ | ⟨hdisplayed, hturn⟩⟩
  · cases heq
  · cases heq
  · rw [← displayParameter_of_displays hcheck] at hdisplayed
    have hshape := hfits property hproperty hdisplayed
    cases property with
    | simple head type => exact absurd hturn turnOf_simple_ne_returnValues
    | collection head multipleValues options =>
      exact absurd hturn turnOf_collection_ne_returnValues
    | fixedCollection head multipleValues options =>
      have hvalue : JsValue.get (.object values) head.name ≠ .undefined :=
        fun hundefined => hmissing ⟨hundefined, .inl rfl⟩
      have hitems := hshape.2
      rw [itemsOf, if_neg (by exact hvalue)] at hitems
      rcases turnOf_fixedCollection_false (fun f hf => (hitems f hf).1) hturn with
        ⟨-, rfl, htruthy, hempty⟩ | ⟨-, c, -, heq⟩
      · exact ⟨head, options, hproperty, hdisplayed, htruthy, hempty⟩
      · split at heq
        · cases heq
        · cases heq

theorem eq_of_returnsValues (h : ReturnsValues ctx properties parentType root values)
    (hleft : getNodeParameters ctx properties (.object values) (call false root parentType)
      = .ok left) : left = values := by
  obtain ⟨head, options, hproperty, hdisplayed, htruthy, hempty⟩ := h
  obtain ⟨check, entries, hcheck, hentries, hset⟩ := exists_setParameters hleft
  have hentry := (mem_inOrder hentries).mpr ⟨_, hproperty, rfl⟩
  refine setParameters_of_returnValues hentry ?_ hset
  rw [displayParameter_of_displays hcheck] at hdisplayed
  have hvalue : ¬ Missing false parentType (JsValue.get (.object values) head.name) := by
    intro hmissing
    rw [hmissing.1] at htruthy
    cases htruthy
  refine (visit_of_displayed hvalue hdisplayed).trans ?_
  have hturn : turnOf ctx (.fixedCollection head (some false) options)
      (call false root parentType) (root.getD check) (JsValue.get (.object values) head.name)
        = .ok .returnValues := by
    rw [turnOf, fixedCollectionTurn]
    simp only [call, Bool.false_eq_true, if_false, false_and, true_and, htruthy, hempty, and_self,
      if_true]
    rfl
  exact hturn

theorem left_cases (hcheck : resolvedValues ctx properties parentType root values = .ok check)
    (hfits : ∀ property ∈ properties,
      displays ctx properties parentType root values property = .ok true →
      Fits property (JsValue.get (.object values) property.name))
    (hnot : ¬ ReturnsValues ctx properties parentType root values)
    (hleft : getNodeParameters ctx properties (.object values) (call false root parentType)
      = .ok left) (name : String) :
    (∃ property ∈ properties, property.name = name ∧
      displays ctx properties parentType root values property = .ok true ∧
      JsValue.get (.object values) name ≠ .undefined ∧
      turnOf ctx property (call false root parentType) (root.getD check)
        (JsValue.get (.object values) name) = .ok (.set (JsValue.get (.object left) name))) ∨
    ((∀ property ∈ properties, property.name = name →
      displays ctx properties parentType root values property = .ok true →
      JsValue.get (.object values) name ≠ .undefined →
      turnOf ctx property (call false root parentType) (root.getD check)
        (JsValue.get (.object values) name) = .ok .skip) ∧
      JsValue.get (.object left) name = .undefined) := by
  obtain ⟨check', entries, hcheck', hentries, hset⟩ := exists_setParameters hleft
  obtain rfl : check = check' := Except.ok.inj (hcheck.symm.trans hcheck')
  have hreturn : ∀ e ∈ entries, visit ctx (call false root parentType)
      (isDuplicate ((entriesOf ctx properties).map Prod.fst) e.1.name) (.object values) check e.1 e.2
        ≠ .ok .returnValues := by
    intro e he hvisit
    obtain ⟨property, hproperty, rfl⟩ := (mem_inOrder hentries).mp he
    exact hnot (returnsValues_of_visit hcheck hfits hproperty hvisit)
  rcases get_setParameters hreturn name hset with ⟨e, he, hname, z, hvisit, hget⟩ | ⟨hskip, hget⟩
  · obtain ⟨property, hproperty, rfl⟩ := (mem_inOrder hentries).mp he
    obtain rfl : property.name = name := hname
    refine .inl ⟨property, hproperty, rfl, ?_⟩
    rcases visit_cases hvisit with ⟨-, heq⟩ | ⟨hmissing, ⟨-, heq⟩ | ⟨hdisplayed, hturn⟩⟩
    · cases heq
    · cases heq
    · rw [← displayParameter_of_displays hcheck] at hdisplayed
      refine ⟨hdisplayed, fun hundefined => hmissing ⟨hundefined, .inl rfl⟩, ?_⟩
      have hz : JsValue.get (.object left) property.name = z := congrArg (·.getD .undefined) hget
      exact hturn.trans (by rw [hz])
  · refine .inr ⟨fun property hproperty hname hdisplayed hvalue => ?_,
      congrArg (·.getD .undefined) hget⟩
    subst hname
    rw [displayParameter_of_displays hcheck] at hdisplayed
    have hvisit := hskip _ ((mem_inOrder hentries).mpr ⟨property, hproperty, rfl⟩) rfl
    rwa [visit_of_displayed (not_missing_of_ne hvalue) hdisplayed] at hvisit

variable {root' : Option Values} {stripped below defaults : Bool} {r r' : Values}

theorem distinct_get (h : (JsValue.object values).Distinct) (name : String) :
    (JsValue.get (.object values) name).Distinct := by
  rw [JsValue.get]
  rcases hproperty : (JsValue.object values).property name with _ | value
  · rw [show (values.find? _).map Prod.snd = none from hproperty]
    trivial
  · rw [show (values.find? _).map Prod.snd = some value from hproperty]
    exact h.property hproperty

theorem Takes.of_visit {t : Turned}
    (hcheck : resolvedValues ctx properties parentType root values = .ok check)
    (h : visit ctx (call defaults root parentType) duplicate (.object values) check property
      (turnOf ctx property) = .ok t) :
    (displays ctx properties parentType root values property = .ok true →
      Takes (turnOf ctx property) defaults parentType root (root.getD check)
        (JsValue.get (.object values) property.name) t) ∧
    (displays ctx properties parentType root values property ≠ .ok true → t = .skip) := by
  rw [displayParameter_of_displays hcheck]
  rcases visit_cases h with ⟨hmissing, rfl⟩ | ⟨hmissing, ⟨hhidden, rfl⟩ | ⟨hdisplayed, hturn⟩⟩
  · exact ⟨fun _ => .inl ⟨hmissing, rfl⟩, fun _ => rfl⟩
  · refine ⟨fun hdisplayed => ?_, fun _ => rfl⟩
    rw [hhidden] at hdisplayed
    cases hdisplayed
  · exact ⟨fun _ => .inr ⟨hmissing, hturn⟩, fun hnot => absurd hdisplayed hnot⟩

theorem rootOf_eq (hcheck : resolvedValues ctx properties parentType root values = .ok check) :
    rootOf ctx properties parentType root values = .ok (root.getD check) := by
  rw [rootOf, hcheck]
  rfl

theorem Leaves.eq_of_not_below
    (h : Leaves ctx properties parentType root values stripped false left) : left = values := by
  cases h with
  | same => rfl
  | whole _ => rfl

theorem Leaves.of_below (h : Leaves ctx properties parentType root values stripped true left) :
    ¬ ReturnsValues ctx properties parentType root values ∧
      getNodeParameters ctx properties (.object values) (call false root parentType)
        = .ok left := by
  cases h with
  | stripped hnot hleft => exact ⟨hnot, hleft⟩

theorem leftBy_turnOf
    (hleaves : Leaves ctx properties parentType root values stripped below left)
    (hcheck : resolvedValues ctx properties parentType root values = .ok check)
    (hfits : ∀ property ∈ properties,
      displays ctx properties parentType root values property = .ok true →
      Fits property (JsValue.get (.object values) property.name))
    (hproperty : property ∈ properties)
    (hdisplayed : displays ctx properties parentType root values property = .ok true)
    (hnames : below = true → ∀ other ∈ properties, property.name = other.name →
      displays ctx properties parentType root values other = .ok true → property = other) :
    if below = true then
      LeftBy (turnOf ctx property) parentType root (root.getD check)
        (JsValue.get (.object values) property.name) (JsValue.get (.object left) property.name)
    else JsValue.get (.object left) property.name = JsValue.get (.object values) property.name := by
  cases below with
  | false =>
    obtain rfl := hleaves.eq_of_not_below
    exact rfl
  | true =>
    rw [if_pos rfl]
    obtain ⟨hnot, hleft⟩ := hleaves.of_below
    rcases left_cases hcheck hfits hnot hleft property.name with
      ⟨other, hother, hname, hshown, hvalue, hturn⟩ | ⟨hskip, hundefined⟩
    · obtain rfl := hnames rfl other hother hname.symm hshown
      exact .inr ⟨hvalue, .inl hturn⟩
    · by_cases hvalue : JsValue.get (.object values) property.name = .undefined
      · exact .inl ⟨hvalue, hundefined⟩
      · exact .inr ⟨hvalue, .inr ⟨hskip property hproperty rfl hdisplayed hvalue, hundefined⟩⟩

theorem left_simple
    (hleaves : Leaves ctx properties parentType root values stripped below left)
    (hcheck : resolvedValues ctx properties parentType root values = .ok check)
    (hfits : ∀ property ∈ properties,
      displays ctx properties parentType root values property = .ok true →
      Fits property (JsValue.get (.object values) property.name))
    (hproperty : .simple head type ∈ properties)
    (hdisplayed : displays ctx properties parentType root values (.simple head type) = .ok true)
    (hnames : below = true → ∀ other ∈ properties, other.isSimple = false →
      other.name = head.name →
      displays ctx properties parentType root values other = .ok true →
      other = .simple head type) :
    JsValue.get (.object left) head.name = JsValue.get (.object values) head.name ∨
      (simpleTurn head type (call false root parentType) (JsValue.get (.object values) head.name)
        = .skip ∧ JsValue.get (.object left) head.name = .undefined) := by
  cases below with
  | false =>
    obtain rfl := hleaves.eq_of_not_below
    exact .inl rfl
  | true =>
    obtain ⟨hnot, hleft⟩ := hleaves.of_below
    rcases left_cases hcheck hfits hnot hleft head.name with
      ⟨other, hother, hname, hshown, hvalue, hturn⟩ | ⟨hskip, hundefined⟩
    · cases other with
      | simple head' type' =>
        have hset : simpleTurn head' type' (call false root parentType)
            (JsValue.get (.object values) head.name)
              = .set (JsValue.get (.object left) head.name) := Except.ok.inj hturn
        rw [simpleTurn, call_returnDefaults, if_neg Bool.false_ne_true] at hset
        split at hset
        · exact .inl (Turned.set.inj hset).symm
        · cases hset
      | collection head' multipleValues options => cases hnames rfl _ hother rfl hname hshown
      | fixedCollection head' multipleValues options => cases hnames rfl _ hother rfl hname hshown
    · by_cases hvalue : JsValue.get (.object values) head.name = .undefined
      · exact .inl (hundefined.trans hvalue.symm)
      · exact .inr ⟨Except.ok.inj (hskip _ hproperty rfl hdisplayed hvalue), hundefined⟩

theorem Kept.agreesBelow (h : Kept ctx stripped properties parentType root root' values) :
    AgreesBelow ctx stripped properties parentType root root' values := by
  induction h with
  | @intro stripped below properties parentType root root' values left hleaves hdisplays hfits
      hnames hloses hcollection hmultiple hsingle ihcollection ihmultiple ihsingle =>
    intro hdistinct left' hsame hstripped defaults a b ha hb
    obtain rfl : left' = left := by
      cases hleaves with
      | same => exact hsame rfl
      | whole hreturns => exact eq_of_returnsValues hreturns (hstripped rfl)
      | stripped hnot hleft => exact Except.ok.inj ((hstripped rfl).symm.trans hleft)
    obtain ⟨check, entries, hcheck, hentries, hset⟩ := exists_setParameters ha
    obtain ⟨check', entries', hcheck', hentries', hset'⟩ := exists_setParameters hb
    obtain rfl : entries = entries' := Except.ok.inj (hentries.symm.trans hentries')
    refine setParameters_agree (fun e he t t' ht ht' => ?_) .nil List.nodup_nil hset hset'
    obtain ⟨property, hproperty, rfl⟩ := (mem_inOrder hentries).mp he
    obtain ⟨htakes, hskip⟩ := Takes.of_visit hcheck ht
    obtain ⟨htakes', hskip'⟩ := Takes.of_visit hcheck' ht'
    rw [hdisplays property hproperty] at htakes' hskip'
    by_cases hdisplayed : displays ctx properties parentType root values property = .ok true
    · have ht := htakes hdisplayed
      have ht' := htakes' hdisplayed
      have hshape := hfits property hproperty hdisplayed
      have hvalue := distinct_get hdistinct property.name
      have hr := rootOf_eq hcheck
      have hr' := rootOf_eq hcheck'
      cases property with
      | simple head type =>
        exact simple_agree hvalue hshape (left_simple hleaves hcheck hfits hproperty hdisplayed
          fun htrue other hother hsimple hname hshown =>
            hnames htrue other hother _ hproperty hsimple hname hshown hdisplayed) ht ht'
      | collection head multipleValues options =>
        have hleft := leftBy_turnOf hleaves hcheck hfits hproperty hdisplayed
          fun htrue other hother hname hshown =>
            hnames htrue _ hproperty other hother rfl hname hdisplayed hshown
        exact collection_agree hvalue hshape hleft
          (fun hmultiple fields heq => ihcollection head multipleValues options fields _ _ hproperty
            hmultiple hdisplayed heq hr hr') ht ht'
      | fixedCollection head multipleValues options =>
        have hleft := leftBy_turnOf hleaves hcheck hfits hproperty hdisplayed
          fun htrue other hother hname hshown =>
            hnames htrue _ hproperty other hother rfl hname hdisplayed hshown
        refine fixedCollection_agree hvalue (fun f hf => ?_) ?_ ?_ hleft ht ht'
        · obtain ⟨hpresent, hfitsItem⟩ := hshape.2 f hf
          refine ⟨distinct_of_mem_itemsOf hf hvalue, hpresent, hfitsItem, ?_, ?_, ?_⟩
          · rintro rfl properties' items fields hoption heq hmem
            exact ihmultiple head options f.1 items properties' fields _ _ hproperty hdisplayed
              (heq ▸ hf) hoption hmem hr hr'
          · intro hmultiple hgiven properties' fields hoption heq hkept
            have hf' := mem_fields_of_mem_itemsOf hf (of_decide_eq_true hgiven)
            rw [hgiven, Bool.and_true] at hkept ⊢
            exact ihsingle head multipleValues options f.1 properties' fields _ _ hproperty
              hmultiple hdisplayed (heq ▸ hf') hoption hkept hr hr'
          · intro htrue hmultiple properties' fields hoption heq hdropped
            obtain ⟨hbelow, hgiven⟩ := Bool.and_eq_true_iff.mp htrue
            have hf' := mem_fields_of_mem_itemsOf hf (of_decide_eq_true hgiven)
            exact (hloses hbelow head multipleValues options _ hproperty hdisplayed
              (of_decide_eq_true hgiven) hr).1 hmultiple f.1 properties' fields (heq ▸ hf') hoption
              hdropped
        · intro htrue hne hgone
          exact (hloses htrue head multipleValues options _ hproperty hdisplayed hne hr).2 hgone
        · rintro rfl
          obtain rfl := hleaves.eq_of_not_below
          exact ⟨.refl hdistinct.2, hdistinct.1⟩
    · rw [hskip hdisplayed, hskip' hdisplayed]
      exact .skip

/-- A host whose paths are names. -/
def plainHost : Host where
  get values path := JsValue.get (.object values) path
  lessThan _ _ := false
  lessEqual _ _ := false
  regExp _ := none

/-- A choice with a default, shown for one value of another parameter. -/
def choice (name default : String) (shownFor : Option (String × String) := none) :
    INodeProperties :=
  .simple ⟨name, ⟨.string default, trivial⟩, shownFor.map fun rule =>
    { «show» := some [(rule.1, [.value (.string rule.2)])] }⟩ .options

/-- The body is shown for a switch that is shown for a mode. -/
def chainedProperties : List INodeProperties :=
  [choice "mode" "get", choice "sendBody" "no" (some ("mode", "post")),
    choice "body" "" (some ("sendBody", "yes"))]

def chainedValues : JsValue :=
  .object [("mode", .string "get"), ("sendBody", .string "yes"), ("body", .string "{}")]

theorem distinct_object_nil : (JsValue.object []).Distinct := ⟨List.nodup_nil, trivial⟩

/-- A node with a mode, a body for one of the modes and a collection of options. -/
def optionProperties : List INodeProperties :=
  [choice "mode" "get", choice "body" "" (some ("mode", "post")),
    .collection ⟨"options", ⟨.object [], distinct_object_nil⟩, none⟩ none
      [choice "timeout" "short"]]

def optionValues : Values :=
  [("mode", .string "get"), ("body", .string "{}"),
    ("options", .object [("timeout", .string "short")])]

def optionContext : Context := { host := plainHost }

theorem kept_timeout (root root' : Values) :
    Kept optionContext true [choice "timeout" "short"] (some .collection) (some root) (some root')
      [("timeout", .string "short")] := by
  have hsimple : ∀ property ∈ [choice "timeout" "short"],
      property = .simple ⟨"timeout", ⟨.string "short", trivial⟩, none⟩ .options := by
    intro property hproperty
    exact List.mem_singleton.mp hproperty
  have hnot : ¬ ReturnsValues optionContext [choice "timeout" "short"] (some .collection) (some root)
      [("timeout", .string "short")] := by
    rintro ⟨head, options, hmem, -⟩
    cases hsimple _ hmem
  have hleaves : Leaves optionContext [choice "timeout" "short"] (some .collection) (some root)
      [("timeout", .string "short")] true true [("timeout", .string "short")] :=
    .stripped hnot rfl
  refine .intro hleaves ?_ ?_ ?_ ?_ ?_ ?_ ?_
  · intro property hproperty
    rw [hsimple property hproperty]
    rfl
  · intro property hproperty _
    rw [hsimple property hproperty]
    trivial
  · intro _ property hproperty other hother _ _ _ _
    rw [hsimple property hproperty, hsimple other hother]
  · intro _ head multipleValues options _ hmem
    cases hsimple _ hmem
  · intro head multipleValues options _ _ _ hmem
    cases hsimple _ hmem
  · intro head options _ _ _ _ _ _ hmem
    cases hsimple _ hmem
  · intro head multipleValues options _ _ _ _ _ hmem
    cases hsimple _ hmem

theorem kept_options :
    Kept optionContext true optionProperties none none none optionValues := by
  have hcases : ∀ property ∈ optionProperties, property = choice "mode" "get" ∨
      property = choice "body" "" (some ("mode", "post")) ∨
      property = .collection ⟨"options", ⟨.object [], List.nodup_nil, trivial⟩, none⟩ none
        [choice "timeout" "short"] := by
    intro property hproperty
    simpa [optionProperties] using hproperty
  have hfixed : ∀ {head multipleValues options},
      .fixedCollection head multipleValues options ∉ optionProperties := by
    intro head multipleValues options hmem
    rcases hcases _ hmem with heq | heq | heq
    · cases heq
    · cases heq
    · cases heq
  have hleaves : Leaves optionContext optionProperties none none optionValues true true
      [("options", .object [("timeout", .string "short")])] := by
    refine .stripped ?_ rfl
    rintro ⟨head, options, hmem, -⟩
    exact hfixed hmem
  refine .intro hleaves ?_ ?_ ?_ ?_ ?_ ?_ ?_
  · intro property hproperty
    rcases hcases property hproperty with rfl | rfl | rfl
    · rfl
    · rfl
    · rfl
  · intro property hproperty _
    rcases hcases property hproperty with rfl | rfl | rfl
    · trivial
    · trivial
    · exact .inr (.inr ⟨_, rfl⟩)
  · intro _ property hproperty other hother hsimple hname _ _
    rcases hcases property hproperty with rfl | rfl | rfl
    · cases hsimple
    · cases hsimple
    · rcases hcases other hother with rfl | rfl | rfl
      · exact absurd hname (by decide)
      · exact absurd hname (by decide)
      · rfl
  · intro _ head multipleValues options _ hmem
    exact absurd hmem hfixed
  · intro head multipleValues options fields root root' hmem _ _ hvalue _ _
    rcases hcases _ hmem with heq | heq | heq
    · cases heq
    · cases heq
    · cases heq
      cases hvalue
      exact kept_timeout root root'
  · intro head options _ _ _ _ _ _ hmem
    exact absurd hmem hfixed
  · intro head multipleValues options _ _ _ _ _ hmem
    exact absurd hmem hfixed

end N8n.NodeHelpers
