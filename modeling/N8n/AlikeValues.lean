/-
Values of one shape: the same kind of value at every place, the same keys and lengths, and leaves
that are equal, except that strings are in some relation.

A comparison of JSON values goes down both of them at once.  A loose one also compares an object
with an array, by the properties of both; a place where that can happen is a mixed one.

* **`alike_iff_unmixed`** — values that are loosely alike have one shape iff no place is mixed.
-/
import N8n.JsValue
import Mathlib.Data.List.Nodup
import Mathlib.Data.List.Perm.Subperm

namespace N8n.JsValue

/-- The own property of a value. -/
def property : JsValue → String → Option JsValue
  | object fields, key => (fields.find? fun f => f.1 = key).map Prod.snd
  | array items, key =>
    if key = "length" then some (number items.length)
    else (items.zipIdx.find? fun e => toString e.2 = key).map Prod.fst
  | _, _ => none

mutual
def Distinct : JsValue → Prop
  | array items => DistinctItems items
  | object fields => (fields.map Prod.fst).Nodup ∧ DistinctFields fields
  | _ => True

def DistinctItems : List JsValue → Prop
  | [] => True
  | a :: as => Distinct a ∧ DistinctItems as

def DistinctFields : List (String × JsValue) → Prop
  | [] => True
  | (_, a) :: as => Distinct a ∧ DistinctFields as
end

mutual
/-- One shape, with related strings; loosely, an object may stand for an array. -/
def Alike (loose : Bool) (R : String → String → Prop) : JsValue → JsValue → Prop
  | string s, string t => R s t
  | array as, array bs => AlikeItems loose R as bs
  | object as, object bs =>
    (∀ key, key ∈ as.map Prod.fst ↔ key ∈ bs.map Prod.fst) ∧ AlikeFields loose R as (object bs)
  | object as, array bs =>
    loose = true ∧ as.length = bs.length ∧ AlikeFields loose R as (array bs)
  | undefined, undefined => True
  | null, null => True
  | boolean a, boolean b => a = b
  | number m, number n => m = n
  | _, _ => False

def AlikeItems (loose : Bool) (R : String → String → Prop) : List JsValue → List JsValue → Prop
  | [], [] => True
  | a :: as, b :: bs => Alike loose R a b ∧ AlikeItems loose R as bs
  | _, _ => False

/-- Each field has its counterpart among the properties of a value. -/
def AlikeFields (loose : Bool) (R : String → String → Prop) :
    List (String × JsValue) → JsValue → Prop
  | [], _ => True
  | (key, a) :: as, b =>
    (∃ v, b.property key = some v ∧ Alike loose R a v) ∧ AlikeFields loose R as b
end

mutual
/-- Nowhere does an object meet an array. -/
def Unmixed : JsValue → JsValue → Prop
  | array as, array bs => UnmixedItems as bs
  | object as, object bs => UnmixedFields as (object bs)
  | object _, array _ => False
  | _, _ => True

def UnmixedItems : List JsValue → List JsValue → Prop
  | a :: as, b :: bs => Unmixed a b ∧ UnmixedItems as bs
  | _, _ => True

def UnmixedFields : List (String × JsValue) → JsValue → Prop
  | [], _ => True
  | (key, a) :: as, b => (∀ v, b.property key = some v → Unmixed a v) ∧ UnmixedFields as b
end

mutual
/-- The comparison, by one of the strings, loose or not. -/
def compare (loose : Bool) (strings : String → String → Bool) : JsValue → JsValue → Bool
  | string s, string t => strings s t
  | array as, array bs => as.length == bs.length && compareItems loose strings as bs
  | object as, object bs => as.length == bs.length && compareFields loose strings as (object bs)
  | object as, array bs =>
    loose && as.length == bs.length && compareFields loose strings as (array bs)
  | undefined, undefined => true
  | null, null => true
  | boolean a, boolean b => a == b
  | number m, number n => m == n
  | _, _ => false

def compareItems (loose : Bool) (strings : String → String → Bool) :
    List JsValue → List JsValue → Bool
  | a :: as, b :: bs => compare loose strings a b && compareItems loose strings as bs
  | _, _ => true

/-- A field whose key is not an own property of the other value ends the comparison. -/
def compareFields (loose : Bool) (strings : String → String → Bool) :
    List (String × JsValue) → JsValue → Bool
  | [], _ => true
  | (key, a) :: as, b => (match b.property key with
    | some v => compare loose strings a v
    | none => false) && compareFields loose strings as b
end

variable {loose : Bool} {R S : String → String → Prop} {strings : String → String → Bool}
  {as bs : List (String × JsValue)}

variable {key : String}

theorem property_object_eq_some_of_mem (h : (as.map Prod.fst).Nodup) {a : JsValue}
    (hmem : (key, a) ∈ as) : (object as).property key = some a := by
  induction as with
  | nil => cases hmem
  | cons f as ih =>
    rw [List.map_cons, List.nodup_cons] at h
    rcases List.mem_cons.mp hmem with rfl | hmem
    · simp [property]
    · have hne : f.1 ≠ key := by
        rintro rfl
        exact h.1 (List.mem_map.mpr ⟨_, hmem, rfl⟩)
      have hrest := ih h.2 hmem
      simpa [property, hne] using hrest

theorem mem_of_property_object {a : JsValue}
    (h : (object as).property key = some a) : (key, a) ∈ as := by
  obtain ⟨f, hfind, rfl⟩ := Option.map_eq_some_iff.mp h
  have hkey := List.find?_some hfind
  simp only [decide_eq_true_eq] at hkey
  rw [← hkey]
  exact List.mem_of_find?_eq_some hfind

theorem alikeFields_iff {b : JsValue} : AlikeFields loose R as b ↔
    ∀ f ∈ as, ∃ v, b.property f.1 = some v ∧ Alike loose R f.2 v := by
  induction as with
  | nil => simp [AlikeFields]
  | cons f as ih => rw [List.forall_mem_cons, ← ih, AlikeFields]

theorem distinctFields_iff : DistinctFields as ↔ ∀ f ∈ as, Distinct f.2 := by
  induction as with
  | nil => simp [DistinctFields]
  | cons f as ih => rw [List.forall_mem_cons, ← ih, DistinctFields]

theorem distinctItems_iff {as : List JsValue} : DistinctItems as ↔ ∀ a ∈ as, Distinct a := by
  induction as with
  | nil => simp [DistinctItems]
  | cons a as ih => rw [List.forall_mem_cons, ← ih, DistinctItems]

theorem keys_iff_length (has : (as.map Prod.fst).Nodup) (hbs : (bs.map Prod.fst).Nodup)
    (hsub : ∀ key ∈ as.map Prod.fst, key ∈ bs.map Prod.fst) :
    as.length = bs.length ↔ ∀ key, key ∈ as.map Prod.fst ↔ key ∈ bs.map Prod.fst := by
  have hle := has.subperm hsub
  constructor
  · intro hlength key
    have hperm := hle.perm_of_length_le (by simp [hlength])
    exact hperm.mem_iff
  · intro hkeys
    have hperm := (List.perm_ext_iff_of_nodup has hbs).mpr hkeys
    simpa using hperm.length_eq

theorem AlikeFields.keys (h : AlikeFields loose R as (object bs)) :
    ∀ key ∈ as.map Prod.fst, key ∈ bs.map Prod.fst := by
  intro key hkey
  obtain ⟨f, hf, rfl⟩ := List.mem_map.mp hkey
  obtain ⟨v, hv, -⟩ := alikeFields_iff.mp h f hf
  exact List.mem_map.mpr ⟨_, mem_of_property_object hv, rfl⟩

theorem Distinct.property {b v : JsValue} (hb : Distinct b)
    (h : b.property key = some v) : Distinct v := by
  cases b with
  | object fields => exact distinctFields_iff.mp hb.2 _ (mem_of_property_object h)
  | array items =>
    rw [JsValue.property] at h
    split at h
    · cases h
      trivial
    · obtain ⟨e, hfind, rfl⟩ := Option.map_eq_some_iff.mp h
      obtain ⟨hlt, hitem⟩ := List.mem_zipIdx' (List.mem_of_find?_eq_some hfind)
      exact distinctItems_iff.mp hb _ (hitem ▸ List.getElem_mem hlt)
  | _ => cases h

mutual
theorem compare_iff (hR : ∀ s t, strings s t = true ↔ R s t) :
    ∀ {a b : JsValue}, Distinct a → Distinct b →
      (compare loose strings a b = true ↔ Alike loose R a b)
  | string _, b, _, _ => by cases b <;> simp [compare, Alike, hR]
  | undefined, b, _, _ => by cases b <;> simp [compare, Alike]
  | null, b, _, _ => by cases b <;> simp [compare, Alike]
  | boolean _, b, _, _ => by cases b <;> simp [compare, Alike]
  | number _, b, _, _ => by cases b <;> simp [compare, Alike]
  | array as, b, ha, hb => by
    cases b with
    | array bs =>
      rw [compare, Alike, Bool.and_eq_true, beq_iff_eq]
      exact compareItems_iff hR ha hb
    | _ => simp [compare, Alike]
  | object as, b, ha, hb => by
    have hfields := compareFields_iff hR ha.2 hb
    cases b with
    | object bs =>
      rw [compare, Alike, Bool.and_eq_true, beq_iff_eq, hfields]
      refine and_congr_left fun h => ?_
      exact keys_iff_length ha.1 hb.1 h.keys
    | array bs =>
      rw [compare, Alike, Bool.and_eq_true, Bool.and_eq_true, beq_iff_eq, hfields, and_assoc]
    | _ => simp [compare, Alike]

theorem compareItems_iff (hR : ∀ s t, strings s t = true ↔ R s t) :
    ∀ {as bs : List JsValue}, DistinctItems as → DistinctItems bs →
      (as.length = bs.length ∧ compareItems loose strings as bs = true ↔
        AlikeItems loose R as bs)
  | [], [], _, _ => by simp [compareItems, AlikeItems]
  | [], _ :: _, _, _ => by simp [AlikeItems]
  | _ :: _, [], _, _ => by simp [AlikeItems]
  | a :: as, b :: bs, ha, hb => by
    rw [AlikeItems, compareItems, ← compareItems_iff hR ha.2 hb.2, Bool.and_eq_true,
      compare_iff hR ha.1 hb.1, List.length_cons, List.length_cons, Nat.add_right_cancel_iff]
    exact and_left_comm

theorem compareFields_iff (hR : ∀ s t, strings s t = true ↔ R s t) :
    ∀ {as : List (String × JsValue)} {b : JsValue}, DistinctFields as → Distinct b →
      (compareFields loose strings as b = true ↔ AlikeFields loose R as b)
  | [], _, _, _ => by simp [compareFields, AlikeFields]
  | (key, a) :: as, b, ha, hb => by
    rw [AlikeFields, compareFields, Bool.and_eq_true, compareFields_iff hR ha.2 hb]
    refine and_congr_left fun _ => ?_
    rcases hv : b.property key with _ | v
    · simp
    · have hvalue := compare_iff hR ha.1 (hb.property hv)
      simp [hvalue]
end

variable {tight : Bool}

mutual
theorem Alike.mono (h : ∀ s t, R s t → S s t) (hloose : tight = true → loose = true) :
    ∀ {a b : JsValue}, Alike tight R a b → Alike loose S a b
  | string s, b, hab => by
    cases b with
    | string t => exact h s t hab
    | _ => cases hab
  | undefined, b, hab => by cases b <;> exact hab
  | null, b, hab => by cases b <;> exact hab
  | boolean _, b, hab => by cases b <;> exact hab
  | number _, b, hab => by cases b <;> exact hab
  | array as, b, hab => by
    cases b with
    | array bs => exact AlikeItems.mono h hloose hab
    | _ => cases hab
  | object as, b, hab => by
    cases b with
    | object bs => exact ⟨hab.1, AlikeFields.mono h hloose hab.2⟩
    | array bs => exact ⟨hloose hab.1, hab.2.1, AlikeFields.mono h hloose hab.2.2⟩
    | _ => cases hab

theorem AlikeItems.mono (h : ∀ s t, R s t → S s t)
    (hloose : tight = true → loose = true) :
    ∀ {as bs : List JsValue}, AlikeItems tight R as bs → AlikeItems loose S as bs
  | [], [], _ => trivial
  | [], _ :: _, hab => by cases hab
  | _ :: _, [], hab => by cases hab
  | _ :: _, _ :: _, hab => ⟨Alike.mono h hloose hab.1, AlikeItems.mono h hloose hab.2⟩

theorem AlikeFields.mono (h : ∀ s t, R s t → S s t)
    (hloose : tight = true → loose = true) :
    ∀ {as : List (String × JsValue)} {b : JsValue}, AlikeFields tight R as b →
      AlikeFields loose S as b
  | [], _, _ => trivial
  | (_, _) :: _, _, hab =>
    ⟨hab.1.imp fun _ hv => ⟨hv.1, Alike.mono h hloose hv.2⟩, AlikeFields.mono h hloose hab.2⟩
end

mutual
theorem Alike.refl (h : ∀ s, R s s) : ∀ {a : JsValue}, Distinct a → Alike loose R a a
  | string s, _ => h s
  | undefined, _ => trivial
  | null, _ => trivial
  | boolean _, _ => rfl
  | number _, _ => rfl
  | array _, ha => AlikeItems.refl h ha
  | object _, ha => ⟨fun _ => Iff.rfl, AlikeFields.refl h ha.2 fun _ =>
      property_object_eq_some_of_mem ha.1⟩

theorem AlikeItems.refl (h : ∀ s, R s s) :
    ∀ {as : List JsValue}, DistinctItems as → AlikeItems loose R as as
  | [], _ => trivial
  | _ :: _, ha => ⟨Alike.refl h ha.1, AlikeItems.refl h ha.2⟩

theorem AlikeFields.refl (h : ∀ s, R s s) {b : JsValue} :
    ∀ {as : List (String × JsValue)}, DistinctFields as →
      (∀ f ∈ as, b.property f.1 = some f.2) → AlikeFields loose R as b
  | [], _, _ => trivial
  | (_, a) :: _, ha, hb =>
    ⟨⟨a, hb _ List.mem_cons_self, Alike.refl h ha.1⟩, AlikeFields.refl h ha.2 fun f hf =>
      hb f (List.mem_cons_of_mem _ hf)⟩
end

mutual
theorem Alike.trans (h : ∀ s t u, R s t → R t u → R s u) :
    ∀ {a b c : JsValue}, Alike false R a b → Alike false R b c → Alike false R a c
  | string s, b, c, hab, hbc => by
    cases b with
    | string t =>
      cases c with
      | string u => exact h s t u hab hbc
      | _ => cases hbc
    | _ => cases hab
  | undefined, b, c, hab, hbc => by
    cases b with
    | undefined => exact hbc
    | _ => cases hab
  | null, b, c, hab, hbc => by
    cases b with
    | null => exact hbc
    | _ => cases hab
  | boolean a, b, c, hab, hbc => by
    cases b with
    | boolean b =>
      obtain rfl : a = b := hab
      exact hbc
    | _ => cases hab
  | number a, b, c, hab, hbc => by
    cases b with
    | number b =>
      obtain rfl : a = b := hab
      exact hbc
    | _ => cases hab
  | array as, b, c, hab, hbc => by
    cases b with
    | array bs =>
      cases c with
      | array cs => exact AlikeItems.trans h hab hbc
      | _ => cases hbc
    | _ => cases hab
  | object as, b, c, hab, hbc => by
    cases b with
    | object bs =>
      cases c with
      | object cs =>
        exact ⟨fun key => (hab.1 key).trans (hbc.1 key), AlikeFields.trans h hab.2 hbc.2⟩
      | array cs => exact absurd hbc.1 Bool.false_ne_true
      | _ => cases hbc
    | array bs => exact absurd hab.1 Bool.false_ne_true
    | _ => cases hab

theorem AlikeItems.trans (h : ∀ s t u, R s t → R t u → R s u) :
    ∀ {as bs cs : List JsValue}, AlikeItems false R as bs → AlikeItems false R bs cs →
      AlikeItems false R as cs
  | [], [], _, _, hbc => hbc
  | [], _ :: _, _, hab, _ => by cases hab
  | _ :: _, [], _, hab, _ => by cases hab
  | _ :: _, _ :: _, [], _, hbc => by cases hbc
  | _ :: _, _ :: _, _ :: _, hab, hbc =>
    ⟨Alike.trans h hab.1 hbc.1, AlikeItems.trans h hab.2 hbc.2⟩

theorem AlikeFields.trans (h : ∀ s t u, R s t → R t u → R s u) {bs : List (String × JsValue)}
    {c : JsValue} :
    ∀ {as : List (String × JsValue)}, AlikeFields false R as (object bs) →
      AlikeFields false R bs c → AlikeFields false R as c
  | [], _, _ => trivial
  | (key, a) :: as, hab, hbc => by
    obtain ⟨⟨v, hv, hav⟩, has⟩ := hab
    obtain ⟨w, hw, hvw⟩ := alikeFields_iff.mp hbc _ (mem_of_property_object hv)
    exact ⟨⟨w, hw, Alike.trans h hav hvw⟩, AlikeFields.trans h has hbc⟩
end

mutual
theorem alike_iff_unmixed :
    ∀ {a b : JsValue}, Alike true R a b → (Alike false R a b ↔ Unmixed a b)
  | string _, b, h => by cases b <;> exact iff_of_true h trivial
  | undefined, b, h => by cases b <;> exact iff_of_true h trivial
  | null, b, h => by cases b <;> exact iff_of_true h trivial
  | boolean _, b, h => by cases b <;> exact iff_of_true h trivial
  | number _, b, h => by cases b <;> exact iff_of_true h trivial
  | array as, b, h => by
    cases b with
    | array bs => exact alikeItems_iff_unmixed h
    | _ => cases h
  | object as, b, h => by
    cases b with
    | object bs => exact (and_iff_right h.1).trans (alikeFields_iff_unmixed h.2)
    | array bs => exact iff_of_false (fun hab => absurd hab.1 Bool.false_ne_true) id
    | _ => cases h

theorem alikeItems_iff_unmixed :
    ∀ {as bs : List JsValue}, AlikeItems true R as bs →
      (AlikeItems false R as bs ↔ UnmixedItems as bs)
  | [], [], _ => Iff.rfl
  | [], _ :: _, h => by cases h
  | _ :: _, [], h => by cases h
  | _ :: _, _ :: _, h => and_congr (alike_iff_unmixed h.1) (alikeItems_iff_unmixed h.2)

theorem alikeFields_iff_unmixed {b : JsValue} :
    ∀ {as : List (String × JsValue)}, AlikeFields true R as b →
      (AlikeFields false R as b ↔ UnmixedFields as b)
  | [], _ => Iff.rfl
  | (key, a) :: as, h => by
    obtain ⟨⟨v, hv, hav⟩, has⟩ := h
    refine and_congr ?_ (alikeFields_iff_unmixed has)
    have hvalue := alike_iff_unmixed hav
    simp [hv, hvalue]
end

end N8n.JsValue
