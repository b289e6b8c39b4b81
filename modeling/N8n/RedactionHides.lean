/-
What the redaction of credentials hides.

The redaction is a mask: on its way down, the state is what has been looked up so
far.  Several options of one name redact the same value in turn, so that a state
keeps a list of lookups.

* **`hidesSecrets_iff`** — two data that differ only in secrets are redacted alike,
  and without an error, iff the lookups come to each secret and find strings where
  they find passwords.
-/
import N8n.CredentialRedaction

namespace N8n

open JsValue

/-- What is to be done with a value. -/
inductive Place where
  /-- Blank it, so many times. -/
  | text (times : ℕ)
  /-- Treat it as the value of these properties. -/
  | value (props : List Property)
  /-- Treat it as the values of options with these properties. -/
  | values (tables : List (List Property))
  /-- Look up its keys in these tables. -/
  | record (tables : List (List Property))

def findProp (key : String) (props : List Property) : Option Property :=
  props.find? fun p => p.name = key

/-- What is to be done with the value under a key. -/
def entryPlace (tables : List (List Property)) (key : String) : Place :=
  if isTokenKey key then .text tables.length else .value (tables.filterMap (findProp key))

/-- The properties of an option, if it is a collection and the key selects it. -/
def valuesOf (key : String) : PropertyOption → Option (List Property)
  | .collection name values => if key = name then some values else none
  | _ => none

def selected (key : String) (p : Property) : List (List Property) :=
  if p.type = .fixedCollection then p.options.filterMap (valuesOf key) else []

namespace Place

/-- What is to be done one step below. -/
def child : Place → Step → Place
  | text n, _ => text n
  | value props, s => values (props.flatMap (selected s.key))
  | values tables, .item _ => record tables
  | values tables, .field name => entryPlace tables name
  | record tables, s => entryPlace tables s.key

/-- The places at which the redaction deals with the whole value. -/
def leaf : Place → Bool
  | text _ => true
  | value props => props.any (·.password)
  | values _ => false
  | record _ => false

def blankTimes : ℕ → JsValue → Option JsValue
  | 0, v => some v
  | n + 1, v => do blankTimes n (← blank v)

/-- What the redaction does at a place. -/
def mask : Place → JsValue → Option JsValue
  | text n, v => blankTimes n v
  | value props, v => props.foldlM (fun v p => redactProperty p v) v
  | values tables, v => tables.foldlM (fun v props => redactItems (redactors props) v) v
  | record tables, v => tables.foldlM (fun v props => redactValues v props) v

/-- A value under the key would be assigned a sentinel. -/
def Assigned (key : String) (props : List Property) : Prop :=
  isTokenKey key ∨ ∃ p, findProp key props = some p ∧ p.password

/-- The keys of the value can be listed, and the values under them assigned. -/
def Writable (props : List Property) : JsValue → Prop
  | .undefined => False
  | .null => False
  | .string s => ∀ i < (codeUnits s).length, ¬ Assigned (toString i) props
  | _ => True

/-- What is found at a place does not make the redaction throw: a token has a text,
a password is a string. -/
def Wants : Place → JsValue → Prop
  | text n, v => n = 0 ∨ hasText v ≠ none
  | value props, v => (∃ p ∈ props, p.password) → ∃ s, v = .string s
  | values _, _ => True
  | record tables, v => ∀ props ∈ tables, Writable props v

/-- One of the properties is a password, and the string is not an expression that it
may hold. -/
def Covers (props : List Property) (s : String) : Prop :=
  ∃ p ∈ props, p.password ∧ (isExpression s = false ∨ p.noDataExpression)

/-- The redaction makes two values equal.  The sentinel tells whether a value is
empty, unless it is redacted once more. -/
def Hides : Place → JsValue → JsValue → Prop
  | text n, v, w => n = 1 ∧ hasText v = hasText w ∨ 2 ≤ n
  | value props, v, w => ∃ s t, v = .string s ∧ w = .string t ∧ Covers props s ∧ Covers props t ∧
      ((s = "" ↔ t = "") ∨ 2 ≤ props.countP (·.password))
  | values _, _, _ => False
  | record _, _, _ => False

end Place

theorem hasText_sentinel : hasText (.string CREDENTIAL_BLANKING_VALUE) = some true ∧
    hasText (.string CREDENTIAL_EMPTY_VALUE) = some true := by
  decide

theorem blank_eq (v : JsValue) : blank v = (hasText v).map fun nonEmpty =>
    .string (if nonEmpty then CREDENTIAL_BLANKING_VALUE else CREDENTIAL_EMPTY_VALUE) := by
  rw [blank]
  cases hasText v with
  | none => rfl
  | some b => cases b <;> rfl

theorem blankTimes_blank (n : ℕ) :
    Place.blankTimes n (.string CREDENTIAL_BLANKING_VALUE)
      = some (.string CREDENTIAL_BLANKING_VALUE) := by
  induction n with
  | zero => rfl
  | succ n ih =>
    simp only [Place.blankTimes, blank_eq, hasText_sentinel.1]
    exact ih

theorem blankTimes_two (n : ℕ) (v : JsValue) :
    Place.blankTimes (n + 2) v
      = (hasText v).map fun _ => .string CREDENTIAL_BLANKING_VALUE := by
  have hsecond : ∀ b : Bool, Place.blankTimes (n + 1)
      (.string (if b then CREDENTIAL_BLANKING_VALUE else CREDENTIAL_EMPTY_VALUE))
        = some (.string CREDENTIAL_BLANKING_VALUE) := by
    intro b
    have htext : hasText (.string (if b then CREDENTIAL_BLANKING_VALUE
        else CREDENTIAL_EMPTY_VALUE)) = some true := by
      cases b
      · exact hasText_sentinel.2
      · exact hasText_sentinel.1
    simp only [Place.blankTimes, blank_eq, htext]
    exact blankTimes_blank n
  rw [Place.blankTimes, blank_eq]
  cases hasText v with
  | none => rfl
  | some b => exact hsecond b

theorem sentinels_inj {a b : Bool}
    (h : (JsValue.string (if a then CREDENTIAL_BLANKING_VALUE else CREDENTIAL_EMPTY_VALUE))
      = .string (if b then CREDENTIAL_BLANKING_VALUE else CREDENTIAL_EMPTY_VALUE)) : a = b := by
  have hne : CREDENTIAL_BLANKING_VALUE ≠ CREDENTIAL_EMPTY_VALUE := by decide
  cases a <;> cases b <;> simp_all [hne.symm]

theorem text_isSome (n : ℕ) (v : JsValue) :
    (Place.blankTimes n v).isSome ↔ Place.Wants (.text n) v := by
  match n with
  | 0 => simp [Place.blankTimes, Place.Wants]
  | 1 => cases h : hasText v <;> simp [Place.blankTimes, Place.Wants, blank_eq, h]
  | n + 2 => cases h : hasText v <;> simp [blankTimes_two, Place.Wants, h]

theorem text_eq {n : ℕ} {v w a b : JsValue} (ha : Place.blankTimes n v = some a)
    (hb : Place.blankTimes n w = some b) : a = b ↔ v = w ∨ Place.Hides (.text n) v w := by
  match n with
  | 0 =>
    cases ha
    cases hb
    simp [Place.Hides]
  | 1 =>
    simp only [Place.blankTimes, blank_eq, bind, Option.bind_fun_some,
      Option.map_eq_some_iff] at ha hb
    obtain ⟨c, hc, rfl⟩ := ha
    obtain ⟨d, hd, rfl⟩ := hb
    simp only [Place.Hides, hc, hd]
    constructor
    · intro h
      rw [sentinels_inj h]
      simp
    · rintro (rfl | h)
      · rw [Option.some.inj (hc.symm.trans hd)]
      · simp_all
  | n + 2 =>
    rw [blankTimes_two] at ha hb
    simp only [Option.map_eq_some_iff] at ha hb
    obtain ⟨-, -, rfl⟩ := ha
    obtain ⟨-, -, rfl⟩ := hb
    simp [Place.Hides]

def hidePassword (p : Property) (s : String) : String :=
  if p.password ∧ (isExpression s = false ∨ p.noDataExpression) then
    if s = "" then CREDENTIAL_EMPTY_VALUE else CREDENTIAL_BLANKING_VALUE
  else s

theorem redactOptions_string (options : List PropertyOption) (s : String) :
    redactOptions options (.string s) = some (.string s) := by
  induction options with
  | nil => rfl
  | cons o os ih =>
    have hone : redactCollectionOption o (.string s) = some (.string s) := by
      cases o <;> rfl
    simp only [redactOptions, hone, bind, Option.bind_some, ih]

theorem redactPassword_string (raw : Bool) (s : String) :
    redactPassword raw (.string s) = some (.string
      (if isExpression s = false ∨ raw then
        if s = "" then CREDENTIAL_EMPTY_VALUE else CREDENTIAL_BLANKING_VALUE
      else s)) := by
  have hblank : blank (.string s) = some (.string
      (if s = "" then CREDENTIAL_EMPTY_VALUE else CREDENTIAL_BLANKING_VALUE)) := by
    by_cases hs : s = "" <;> simp [blank_eq, hasText, textOf, hs]
  rw [redactPassword, hblank]
  cases raw <;> cases isExpression s <;> simp

theorem redactProperty_eq (p : Property) (v : JsValue) :
    redactProperty p v =
      (if p.type = .fixedCollection then redactOptions p.options v else some v).bind fun v =>
        if p.password then redactPassword p.noDataExpression v else some v := by
  obtain ⟨name, type, password, raw, doNotInherit, options⟩ := p
  rw [redactProperty]
  by_cases htype : type = .fixedCollection <;> simp [htype, bind]

theorem redactProperty_string (p : Property) (s : String) :
    redactProperty p (.string s) = some (.string (hidePassword p s)) := by
  rw [redactProperty_eq, redactOptions_string, ite_self, Option.bind_some, hidePassword,
    redactPassword_string]
  cases p.password <;> simp

variable (props : List Property)

/-- The string in the place of the value of several passwords, in turn. -/
def hidePasswords (s : String) : String :=
  props.foldl (fun s p => hidePassword p s) s

theorem hidePasswords_cons (p : Property) (props : List Property) (s : String) :
    hidePasswords (p :: props) s = hidePasswords props (hidePassword p s) := rfl

theorem value_string (s : String) :
    Place.mask (.value props) (.string s) = some (.string (hidePasswords props s)) := by
  rw [Place.mask, hidePasswords]
  induction props generalizing s with
  | nil => rfl
  | cons p props ih =>
    rw [List.foldlM_cons, redactProperty_string]
    exact ih (hidePassword p s)

theorem not_isExpression_sentinel : isExpression CREDENTIAL_BLANKING_VALUE = false ∧
    isExpression CREDENTIAL_EMPTY_VALUE = false ∧ isExpression "" = false := by
  decide

theorem hidePasswords_blanked :
    hidePasswords props CREDENTIAL_BLANKING_VALUE = CREDENTIAL_BLANKING_VALUE := by
  induction props with
  | nil => rfl
  | cons p props ih =>
    have hne : CREDENTIAL_BLANKING_VALUE ≠ "" := by decide
    have hone : hidePassword p CREDENTIAL_BLANKING_VALUE = CREDENTIAL_BLANKING_VALUE := by
      rw [hidePassword, if_neg hne, ite_self]
    rw [hidePasswords_cons, hone]
    exact ih

theorem hidePasswords_emptied : hidePasswords props CREDENTIAL_EMPTY_VALUE =
      if props.countP (·.password) = 0 then CREDENTIAL_EMPTY_VALUE
      else CREDENTIAL_BLANKING_VALUE := by
  induction props with
  | nil => rfl
  | cons p props ih =>
    have hne : CREDENTIAL_EMPTY_VALUE ≠ "" := by decide
    rw [hidePasswords_cons, hidePassword, if_neg hne, not_isExpression_sentinel.2.1,
      List.countP_cons]
    cases p.password with
    | true => simp [hidePasswords_blanked]
    | false => simpa using ih

theorem hidePasswords_empty : hidePasswords props "" = if props.countP (·.password) = 0 then ""
      else if props.countP (·.password) = 1 then CREDENTIAL_EMPTY_VALUE
      else CREDENTIAL_BLANKING_VALUE := by
  induction props with
  | nil => rfl
  | cons p props ih =>
    rw [hidePasswords_cons, hidePassword, if_pos rfl, not_isExpression_sentinel.2.2,
      List.countP_cons]
    cases p.password with
    | true => by_cases hnone : props.countP (·.password) = 0 <;> simp [hnone, hidePasswords_emptied]
    | false => simpa using ih

variable {props : List Property}

theorem hidePasswords_of_ne {s : String} (hs : s ≠ "") :
    (Place.Covers props s → hidePasswords props s = CREDENTIAL_BLANKING_VALUE) ∧
      (¬ Place.Covers props s → hidePasswords props s = s) := by
  induction props with
  | nil => exact ⟨fun ⟨p, hp, _⟩ => absurd hp List.not_mem_nil, fun _ => rfl⟩
  | cons p props ih =>
    rw [hidePasswords_cons, hidePassword, if_neg hs]
    have hcons : Place.Covers (p :: props) s ↔
        (p.password ∧ (isExpression s = false ∨ p.noDataExpression)) ∨ Place.Covers props s := by
      simp [Place.Covers]
    rw [hcons]
    by_cases hp : p.password ∧ (isExpression s = false ∨ p.noDataExpression)
    · rw [if_pos hp]
      exact ⟨fun _ => hidePasswords_blanked props, fun h => absurd (.inl hp) h⟩
    · rw [if_neg hp, or_iff_right hp]
      exact ih

theorem covers_empty : Place.Covers props "" ↔ 0 < props.countP (·.password) := by
  simp [Place.Covers, not_isExpression_sentinel.2.2]

theorem hidePasswords_covered {s : String} (h : Place.Covers props s) :
    hidePasswords props s = if s = "" ∧ props.countP (·.password) = 1 then CREDENTIAL_EMPTY_VALUE
      else CREDENTIAL_BLANKING_VALUE := by
  by_cases hs : s = ""
  · subst hs
    have hpos := Nat.pos_iff_ne_zero.mp (covers_empty.mp h)
    simp [hidePasswords_empty, hpos]
  · rw [if_neg fun h => hs h.1]
    exact (hidePasswords_of_ne hs).1 h

section

variable (hleaf : 0 < props.countP (·.password))
include hleaf

theorem isExpression_of_not_covers {s : String} (h : ¬ Place.Covers props s) :
    isExpression s = true := by
  obtain ⟨p, hp, hpassword⟩ := List.countP_pos_iff.mp hleaf
  by_contra hs
  exact h ⟨p, hp, hpassword, .inl (by simpa using hs)⟩

theorem hidePasswords_uncovered {s : String} (h : ¬ Place.Covers props s) :
    hidePasswords props s = s := by
  refine (hidePasswords_of_ne fun hs => ?_).2 h
  subst hs
  exact h (covers_empty.mpr hleaf)

theorem hidePasswords_ne_uncovered {s t : String} (hs : Place.Covers props s)
    (ht : ¬ Place.Covers props t) : hidePasswords props s ≠ hidePasswords props t := by
  have hexpression := isExpression_of_not_covers hleaf ht
  rw [hidePasswords_covered hs, hidePasswords_uncovered hleaf ht]
  rintro rfl
  split at hexpression
  · exact absurd hexpression (by simp [not_isExpression_sentinel])
  · exact absurd hexpression (by simp [not_isExpression_sentinel])

theorem hidePasswords_eq_iff (s t : String) :
    hidePasswords props s = hidePasswords props t ↔ s = t ∨ Place.Covers props s ∧
      Place.Covers props t ∧ ((s = "" ↔ t = "") ∨ 2 ≤ props.countP (·.password)) := by
  by_cases hs : Place.Covers props s <;> by_cases ht : Place.Covers props t
  · rw [hidePasswords_covered hs, hidePasswords_covered ht]
    have hne : CREDENTIAL_EMPTY_VALUE ≠ CREDENTIAL_BLANKING_VALUE := by decide
    by_cases hone : props.countP (·.password) = 1
    · by_cases hse : s = "" <;> by_cases hte : t = "" <;> simp_all [hne.symm]
    · have htwo : 2 ≤ props.countP (·.password) := by omega
      simp [hone, hs, ht, htwo]
  · refine iff_of_false (hidePasswords_ne_uncovered hleaf hs ht) ?_
    rintro (rfl | ⟨-, h, -⟩)
    · exact ht hs
    · exact ht h
  · refine iff_of_false (hidePasswords_ne_uncovered hleaf ht hs).symm ?_
    rintro (rfl | ⟨h, -⟩)
    · exact hs ht
    · exact hs h
  · rw [hidePasswords_uncovered hleaf hs, hidePasswords_uncovered hleaf ht]
    exact (or_iff_left fun h => hs h.1).symm

end

variable {v : JsValue}

theorem shape_redactOptions {options : List PropertyOption} {w : JsValue}
    (h : redactOptions options v = some w) : w.shape = v.shape := by
  induction options generalizing v with
  | nil =>
    cases h
    rfl
  | cons o os ih =>
    simp only [redactOptions, bind, Option.bind_eq_some_iff] at h
    obtain ⟨u, hu, h⟩ := h
    rw [ih h]
    cases o with
    | collection name values =>
      rw [redactCollectionOption] at hu
      exact shape_mapKids hu
    | _ =>
      cases hu
      rfl

theorem value_not_string (hleaf : 0 < props.countP (·.password)) (hv : ∀ s, v ≠ .string s) : Place.mask (.value props) v = none := by
  rw [Place.mask]
  induction props generalizing v with
  | nil => simp at hleaf
  | cons p props ih =>
    rw [List.foldlM_cons, redactProperty_eq]
    cases hw : (if p.type = .fixedCollection then redactOptions p.options v else some v) with
    | none => rfl
    | some w =>
      have hshape : w.shape = v.shape := by
        split at hw
        · exact shape_redactOptions hw
        · cases hw
          rfl
      have hws : ∀ s, w ≠ .string s := by
        rintro s rfl
        cases v with
        | string t => exact hv t rfl
        | _ => simp [shape] at hshape
      cases hp : p.password with
      | true =>
        have hthrows : redactPassword p.noDataExpression w = none := by
          cases w with
          | string s => exact absurd rfl (hws s)
          | _ => rfl
        simp only [Option.bind_some, if_true, hthrows]
        rfl
      | false =>
        rw [List.countP_cons, hp] at hleaf
        exact ih (by simpa using hleaf) hws

theorem any_password_iff : props.any (·.password) = true ↔ 0 < props.countP (·.password) := by
  rw [List.countP_pos_iff, List.any_eq_true]

theorem value_isSome (hleaf : 0 < props.countP (·.password))
    (v : JsValue) : (Place.mask (.value props) v).isSome ↔ Place.Wants (.value props) v := by
  have hpassword : ∃ p ∈ props, p.password := List.countP_pos_iff.mp hleaf
  rw [Place.Wants, imp_iff_right hpassword]
  constructor
  · intro h
    by_contra hv
    rw [value_not_string hleaf fun s hs => hv ⟨s, hs⟩] at h
    cases h
  · rintro ⟨s, rfl⟩
    rw [value_string]
    rfl

theorem value_eq (hleaf : 0 < props.countP (·.password))
    {w a b : JsValue} (ha : Place.mask (.value props) v = some a)
    (hb : Place.mask (.value props) w = some b) :
    a = b ↔ v = w ∨ Place.Hides (.value props) v w := by
  have hpassword : ∃ p ∈ props, p.password := List.countP_pos_iff.mp hleaf
  obtain ⟨s, rfl⟩ := (value_isSome hleaf v).mp (Option.isSome_of_eq_some ha) hpassword
  obtain ⟨t, rfl⟩ := (value_isSome hleaf w).mp (Option.isSome_of_eq_some hb) hpassword
  rw [value_string] at ha hb
  cases ha
  cases hb
  rw [string.injEq, string.injEq, hidePasswords_eq_iff hleaf]
  simp [Place.Hides]

theorem find?_redactors (key : String) (props : List Property) :
    (redactors props).find? (fun e => e.1 = key)
      = (findProp key props).map fun p => (p.name, redactProperty p) := by
  induction props with
  | nil => rfl
  | cons p props ih =>
    rw [redactors, List.find?_cons, findProp, List.find?_cons]
    by_cases hp : p.name = key
    · simp [hp]
    · simp only [hp, decide_false]
      exact ih

theorem redactEntry_eq (props : List Property) (key : String) (v : JsValue) :
    redactEntry (redactors props) key v =
      if isTokenKey key then blank v
      else match findProp key props with
        | none => some v
        | some p => redactProperty p v := by
  rw [redactEntry, find?_redactors]
  cases findProp key props <;> rfl

theorem entryPlace_mask (tables : List (List Property)) (key : String) (v : JsValue) :
    tables.foldlM (fun v props => redactEntry (redactors props) key v) v
      = (entryPlace tables key).mask v := by
  simp only [redactEntry_eq, entryPlace]
  cases htoken : isTokenKey key with
  | true =>
    simp only [if_true, Place.mask]
    induction tables generalizing v with
    | nil => rfl
    | cons props tables ih =>
      rw [List.foldlM_cons, List.length_cons, Place.blankTimes]
      exact congrArg _ (funext ih)
  | false =>
    simp only [Bool.false_eq_true, if_false, Place.mask]
    induction tables generalizing v with
    | nil => rfl
    | cons props tables ih =>
      rw [List.foldlM_cons]
      cases hfind : findProp key props with
      | none => simpa [hfind] using ih v
      | some p =>
        rw [List.filterMap_cons_some hfind, List.foldlM_cons]
        exact congrArg _ (funext ih)

theorem redactOptions_eq (options : List PropertyOption) (v : JsValue) :
    redactOptions options v = v.mapKids fun s x => (options.filterMap (valuesOf s.key)).foldlM
      (fun x props => redactItems (redactors props) x) x := by
  induction options generalizing v with
  | nil => exact (mapKids_some v).symm
  | cons o os ih =>
    rw [redactOptions]
    cases o with
    | collection name values =>
      simp only [redactCollectionOption, bind]
      rw [funext ih, mapKids_mapKids]
      congr 1
      funext s x
      by_cases hkey : s.key = name <;> simp [hkey, valuesOf]
    | _ => simpa [redactCollectionOption, List.filterMap_cons, valuesOf] using ih v

theorem redactProperty_open {p : Property} (hp : p.password = false) (v : JsValue) :
    redactProperty p v = v.mapKids fun s x =>
      (selected s.key p).foldlM (fun x props => redactItems (redactors props) x) x := by
  rw [redactProperty_eq, hp]
  simp only [Bool.false_eq_true, if_false, Option.bind_fun_some, selected]
  by_cases htype : p.type = .fixedCollection
  · simp only [htype, if_true, redactOptions_eq]
  · simp only [htype, if_false, List.foldlM_nil]
    exact (mapKids_some v).symm

theorem foldlM_flatMap {α β σ : Type} (f : σ → β → Option σ) (g : α → List β) (l : List α) (s : σ) :
    (l.flatMap g).foldlM f s = l.foldlM (fun s a => (g a).foldlM f s) s := by
  induction l generalizing s with
  | nil => rfl
  | cons a l ih =>
    rw [List.flatMap_cons, List.foldlM_append, List.foldlM_cons]
    exact congrArg _ (funext ih)

theorem value_open (h : ∀ p ∈ props, p.password = false) (v : JsValue) : Place.mask (.value props) v
      = v.mapKids fun s x => (Place.child (.value props) s).mask x := by
  have hfold : props.foldlM (fun v p => redactProperty p v) v
      = props.foldlM (fun v p => v.mapKids fun s x =>
          (selected s.key p).foldlM (fun x props => redactItems (redactors props) x) x) v := by
    induction props generalizing v with
    | nil => rfl
    | cons p props ih =>
      rw [List.foldlM_cons, List.foldlM_cons, redactProperty_open (h p List.mem_cons_self)]
      exact congrArg _ (funext fun w => ih (fun q hq => h q (List.mem_cons_of_mem p hq)) w)
  rw [Place.mask, hfold, foldlM_mapKids]
  simp only [Place.child, Place.mask, foldlM_flatMap]

def redactItem (props : List Property) : Step → JsValue → Option JsValue
  | .item _, x => redactValues x props
  | .field name, x => redactEntry (redactors props) name x

theorem redactItems_eq (props : List Property) (v : JsValue) :
    redactItems (redactors props) v = v.mapKids (redactItem props) := by
  cases v with
  | array items =>
    rw [redactItems]
    refine mapKids_congr fun k hk => ?_
    obtain ⟨i, hi, rfl⟩ := List.mem_mapIdx.mp hk
    rfl
  | object fields =>
    show (JsValue.object fields).mapKids (fun s x => redactEntry (redactors props) s.key x) = _
    refine mapKids_congr fun k hk => ?_
    obtain ⟨f, hf, rfl⟩ := List.mem_map.mp hk
    rfl
  | _ => rfl

theorem values_open (tables : List (List Property)) (v : JsValue) :
    Place.mask (.values tables) v
      = v.mapKids fun s x => (Place.child (.values tables) s).mask x := by
  rw [Place.mask]
  simp only [redactItems_eq]
  rw [foldlM_mapKids]
  congr 1
  funext s x
  cases s with
  | item i => rfl
  | field name => exact entryPlace_mask tables name x

theorem length_codeUnits {s u : String} (hu : u ∈ codeUnits s) : u.length = 1 := by
  obtain ⟨c, -, hu⟩ := List.mem_flatMap.mp hu
  split at hu
  · rw [List.mem_singleton.mp hu, String.length_singleton]
  · have heq : u = String.singleton '\uFFFD' := by simpa using hu
    rw [heq, String.length_singleton]

theorem hidePassword_unit {p : Property} {u : String} (hu : u.length = 1) :
    hidePassword p u = u ↔ p.password = false := by
  have hempty : u ≠ "" := by
    rintro rfl
    exact absurd hu (by decide)
  have hexpression : isExpression u = false := by
    rw [Bool.eq_false_iff]
    intro h
    have hle := (List.isPrefixOf_iff_prefix.mp h).length_le
    rw [String.length_toList, String.length_toList, hu] at hle
    exact absurd hle (by decide)
  have hne : CREDENTIAL_BLANKING_VALUE ≠ u := by
    rintro rfl
    exact absurd hu (by decide)
  rw [hidePassword, hexpression, if_neg hempty]
  cases p.password <;> simp [hne]

theorem redactEntry_unit {key u : String} (hu : u.length = 1) :
    redactEntry (redactors props) key (.string u) = some (.string u) ↔
      ¬ Place.Assigned key props := by
  rw [redactEntry_eq, Place.Assigned]
  cases isTokenKey key with
  | true =>
    have hempty : u ≠ "" := by
      rintro rfl
      exact absurd hu (by decide)
    have hne : CREDENTIAL_BLANKING_VALUE ≠ u := by
      rintro rfl
      exact absurd hu (by decide)
    simp [blank_eq, hasText, textOf, hempty, hne]
  | false =>
    cases findProp key props with
    | none => simp
    | some p => simp [redactProperty_string, hidePassword_unit hu]

theorem redactValues_string {s : String} :
    (Place.Writable props (.string s) → redactValues (.string s) props = some (.string s)) ∧
      (¬ Place.Writable props (.string s) → redactValues (.string s) props = none) := by
  have hall : ((codeUnits s).zipIdx.all fun u =>
      redactEntry (redactors props) (toString u.2) (.string u.1) = some (.string u.1)) = true ↔
        Place.Writable props (.string s) := by
    rw [List.all_eq_true, Place.Writable]
    constructor
    · intro h i hi
      have hunit := h ((codeUnits s)[i], i) (List.mem_zipIdx_iff_getElem?.mpr (by simp [hi]))
      exact (redactEntry_unit (length_codeUnits (List.getElem_mem hi))).mp (by simpa using hunit)
    · rintro h ⟨u, i⟩ hu
      obtain ⟨hi, hunit⟩ := List.getElem?_eq_some_iff.mp (List.mem_zipIdx_iff_getElem?.mp hu)
      have hlength := length_codeUnits (hunit ▸ List.getElem_mem hi)
      simpa using (redactEntry_unit hlength).mpr (h i hi)
  rw [← hall, redactValues, redactEntries]
  exact ⟨fun h => if_pos h, fun h => if_neg h⟩

def isContainer : JsValue → Bool
  | .array _ => true
  | .object _ => true
  | _ => false

theorem isContainer_mapKids {f : Step → JsValue → Option JsValue} {w : JsValue}
    (h : v.mapKids f = some w) : isContainer w = isContainer v := by
  have hshape := shape_mapKids h
  cases v <;> cases w <;> simp_all [shape, isContainer]

theorem redactValues_container (hv : isContainer v) :
    redactValues v props = v.mapKids fun s x => redactEntry (redactors props) s.key x := by
  cases v with
  | array items => rfl
  | object fields => rfl
  | _ => simp [isContainer] at hv

theorem record_container (tables : List (List Property)) (hv : isContainer v) :
    Place.mask (.record tables) v
      = v.mapKids fun s x => (Place.child (.record tables) s).mask x := by
  have hfold : Place.mask (.record tables) v = tables.foldlM (fun v props =>
      v.mapKids fun s x => redactEntry (redactors props) s.key x) v := by
    rw [Place.mask]
    induction tables generalizing v with
    | nil => rfl
    | cons props tables ih =>
      rw [List.foldlM_cons, List.foldlM_cons, redactValues_container hv]
      cases hw : v.mapKids fun s x => redactEntry (redactors props) s.key x with
      | none => rfl
      | some w => exact ih (by rw [isContainer_mapKids hw, hv])
  rw [hfold, foldlM_mapKids]
  congr 1
  funext s x
  exact entryPlace_mask tables s.key x

theorem redactValues_scalar (hv : isContainer v = false) :
    (Place.Writable props v → redactValues v props = some v) ∧
      (¬ Place.Writable props v → redactValues v props = none) := by
  cases v with
  | string s => exact redactValues_string
  | array items => cases hv
  | object fields => cases hv
  | undefined => exact ⟨False.elim, fun _ => rfl⟩
  | null => exact ⟨False.elim, fun _ => rfl⟩
  | boolean b => exact ⟨fun _ => rfl, fun h => absurd trivial h⟩
  | number n => exact ⟨fun _ => rfl, fun h => absurd trivial h⟩

variable {tables : List (List Property)}

theorem record_wanted
    (h : Place.Wants (.record tables) v) :
    Place.mask (.record tables) v
      = v.mapKids fun s x => (Place.child (.record tables) s).mask x := by
  cases hv : isContainer v with
  | true => exact record_container tables hv
  | false =>
    have hscalar : ∀ f, v.mapKids f = some v := by
      cases v <;> first | exact fun f => rfl | cases hv
    rw [hscalar, Place.mask]
    induction tables with
    | nil => rfl
    | cons props tables ih =>
      obtain ⟨hprops, htables⟩ := List.forall_mem_cons.mp h
      rw [List.foldlM_cons, (redactValues_scalar hv).1 hprops]
      exact ih htables

theorem record_unwanted
    (h : ¬ Place.Wants (.record tables) v) : Place.mask (.record tables) v = none := by
  have hv : isContainer v = false := by
    cases v <;> first | rfl | exact absurd (fun props _ => trivial) h
  rw [Place.mask]
  induction tables with
  | nil => exact absurd (fun props hprops => absurd hprops List.not_mem_nil) h
  | cons props tables ih =>
    rw [List.foldlM_cons]
    by_cases hprops : Place.Writable props v
    · rw [(redactValues_scalar hv).1 hprops]
      exact ih fun htables => h (List.forall_mem_cons.mpr ⟨hprops, htables⟩)
    · rw [(redactValues_scalar hv).2 hprops]
      rfl

/-- **The redaction is a mask.** -/
def redaction : Masking Place where
  mask := Place.mask
  leaf := Place.leaf
  child := Place.child
  wants := Place.Wants
  hides := Place.Hides
  leaf_isSome q v hq := by
    cases q with
    | text n => exact text_isSome n v
    | value props => exact value_isSome (any_password_iff.mp hq) v
    | _ => cases hq
  leaf_eq q v w a b hq ha hb := by
    cases q with
    | text n => exact text_eq ha hb
    | value props => exact value_eq (any_password_iff.mp hq) ha hb
    | _ => cases hq
  wanted q v hq h := by
    cases q with
    | text n => cases hq
    | value props => exact value_open (by simpa [Place.leaf] using hq) v
    | values tables => exact values_open tables v
    | record tables => exact record_wanted h
  unwanted q v hq h := by
    cases q with
    | text n => cases hq
    | value props =>
      have hwants : Place.Wants (.value props) v := by
        rintro ⟨p, hp, hpassword⟩
        exact absurd (List.any_eq_true.mpr ⟨p, hp, hpassword⟩) (by simpa [Place.leaf] using hq)
      exact absurd hwants h
    | values tables => exact absurd trivial h
    | record tables => exact record_unwanted h

/-- The property that an option is. -/
def PropertyOption.property? : PropertyOption → Option Property
  | .property p => some p
  | _ => none

/-- `Locates has path p`: among properties for which `has` holds, and the properties
of their options, the path leads to the value of `p`.  A collection may hold one
value or several. -/
inductive Locates : (Property → Prop) → List Step → Property → Prop where
  | here {has : Property → Prop} {p : Property} (h : has p) : Locates has [.field p.name] p
  | fixed {has : Property → Prop} {p q : Property} {name : String} {values : List Property}
      {path : List Step} (h : has p) (htype : p.type = .fixedCollection)
      (ho : .collection name values ∈ p.options) (hin : Locates (· ∈ values) path q) :
      Locates has (.field p.name :: .field name :: path) q
  | fixedItem {has : Property → Prop} {p q : Property} {name : String} {values : List Property}
      {path : List Step} (i : ℕ) (h : has p) (htype : p.type = .fixedCollection)
      (ho : .collection name values ∈ p.options) (hin : Locates (· ∈ values) path q) :
      Locates has (.field p.name :: .field name :: .item i :: path) q
  | collection {has : Property → Prop} {p q : Property} {path : List Step} (h : has p)
      (htype : p.type = .collection)
      (hin : Locates (· ∈ p.options.filterMap PropertyOption.property?) path q) :
      Locates has (.field p.name :: path) q
  | collectionItem {has : Property → Prop} {p q : Property} {path : List Step} (i : ℕ) (h : has p)
      (htype : p.type = .collection)
      (hin : Locates (· ∈ p.options.filterMap PropertyOption.property?) path q) :
      Locates has (.field p.name :: .item i :: path) q

/-- The type declares the property, or inherits it and declares none of its name. -/
inductive CredentialType.Has : CredentialType → Property → Prop where
  | own {credType : CredentialType} {p : Property} (h : p ∈ credType.properties) :
      Has credType p
  | inherited {credType parent : CredentialType} {p : Property}
      (hparent : parent ∈ credType.extendedTypes) (h : Has parent p)
      (hinherit : p.doNotInherit = false) (hown : ∀ q ∈ credType.properties, q.name ≠ p.name) :
      Has credType p

/-- The value is not empty, and no expression that the property may hold. -/
def SecretValue (p : Property) (v : JsValue) : Prop :=
  hasText v = some true ∧
    ¬ ∃ s, v = .string s ∧ isExpression s = true ∧ p.noDataExpression = false

variable (credType : CredentialType)

/-- Both values at the path are secrets: of a property marked as password, or tokens. -/
def Secret (path : List Step) (v w : JsValue) : Prop :=
  (∃ p, Locates credType.Has path p ∧ p.password ∧ SecretValue p v ∧ SecretValue p w) ∨
    (path = [.field "oauthTokenData"] ∨ path = [.field "csrfSecret"]) ∧
      hasText v = some true ∧ hasText w = some true

variable (data₁ data₂ : List (String × JsValue))

/-- Data that differ only in secrets are redacted alike, and without an error. -/
def HidesSecrets : Prop :=
  Alike (Secret credType) (.object data₁) (.object data₂) →
    ∃ redacted, redact data₁ credType = some redacted ∧ redact data₂ credType = some redacted

def start : Place := .record [getExtendedProps credType]

theorem redact_eq (data : List (String × JsValue)) :
    redact data credType = redaction.mask (start credType) (.object data) := by
  show _ = [getExtendedProps credType].foldlM (fun v props => redactValues v props) _
  rw [List.foldlM_cons, funext fun v => List.foldlM_nil, bind_pure]
  rfl

/-- What the redaction finds in the data does not make it throw: on its way down,
what it takes for a token has a text, and what it takes for a password is a string. -/
def Readable (data : List (String × JsValue)) : Prop :=
  Everywhere (redaction.WantsAt (start credType)) (.object data)

/-- The data differ only where the lookups come to a token or a password, and there in
values that have the same sentinel. -/
def DifferReached : Prop :=
  Alike (redaction.HidesAt (start credType)) (.object data₁) (.object data₂)

/-- **When the redaction hides the secrets.**  Two data that differ only in secrets
are redacted alike iff the redaction can read both, and its lookups come to each place
where they differ. -/
theorem hidesSecrets_iff : HidesSecrets credType data₁ data₂ ↔
      (Alike (Secret credType) (.object data₁) (.object data₂) →
        Readable credType data₁ ∧ Readable credType data₂ ∧
          DifferReached credType data₁ data₂) := by
  refine imp_congr_right fun _ => ?_
  rw [Readable, Readable, ← Masking.isSome_iff, ← Masking.isSome_iff, redact_eq, redact_eq]
  constructor
  · rintro ⟨redacted, h₁, h₂⟩
    exact ⟨Option.isSome_of_eq_some h₁, Option.isSome_of_eq_some h₂,
      (redaction.eq_iff _ h₁ h₂).mp rfl⟩
  · rintro ⟨h₁, h₂, hreached⟩
    obtain ⟨a, ha⟩ := Option.isSome_iff_exists.mp h₁
    obtain ⟨b, hb⟩ := Option.isSome_iff_exists.mp h₂
    have heq : a = b := (redaction.eq_iff _ ha hb).mpr hreached
    exact ⟨a, ha, heq ▸ hb⟩

def secretProperty : Property where
  name := "secret"
  type := .string
  password := true

def secretCollection : Property where
  name := "options"
  type := .collection
  options := [.property secretProperty]

def collectedPassword : CredentialType where
  properties := [secretCollection]

def collectedData (secret : String) : List (String × JsValue) :=
  [("options", .object [("secret", .string secret)])]

/-- The redaction does not go on into a collection. -/
theorem not_hidesSecrets_collection :
    ¬ HidesSecrets collectedPassword (collectedData "alpha") (collectedData "beta") := by
  intro h
  have hsecret : Secret collectedPassword [.field "options", .field "secret"] (.string "alpha")
      (.string "beta") := by
    refine .inl ⟨secretProperty, ?_, rfl, ?_, ?_⟩
    · have hmem : secretProperty ∈ secretCollection.options.filterMap PropertyOption.property? :=
        List.mem_cons_self
      have hown : collectedPassword.Has secretCollection := .own List.mem_cons_self
      exact .collection hown rfl (.here hmem)
    · exact ⟨rfl, fun ⟨s, hs, hexpression, _⟩ => by cases hs; exact absurd hexpression (by decide)⟩
    · exact ⟨rfl, fun ⟨s, hs, hexpression, _⟩ => by cases hs; exact absurd hexpression (by decide)⟩
  have halike : Alike (Secret collectedPassword) (.object (collectedData "alpha"))
      (.object (collectedData "beta")) := by
    refine .deeper rfl fun i s x y hx hy => ?_
    cases i with
    | zero =>
      cases hx
      cases hy
      refine .deeper rfl fun j s x y hx hy => ?_
      cases j with
      | zero =>
        cases hx
        cases hy
        exact .there hsecret
      | succ j => cases hx
    | succ i => cases hx
  obtain ⟨redacted, h₁, h₂⟩ := h halike
  exact absurd (h₁.trans h₂.symm) (by decide)

end N8n
