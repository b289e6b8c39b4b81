/-
Two runs of the loop over the parameters, and what one run leaves.

Two calls of `getNodeParameters` on the same properties go through them in the same order.  If each
parameter does the same in both, so do the calls; with all defaults the values are the same up to the
order of the keys in a default.

* `Agree` — values that are the same, or equal by their content;
* `setParameters_agree` — turn by turn, two runs agree.
-/
import N8n.NodeParameters

namespace N8n.NodeHelpers

open JsValue
open WorkflowDiff (Json isEqual isEqual_self)

/-- Equal by their content if `defaults` is set, or else the same. -/
def Agree (defaults : Bool) (a b : JsValue) : Prop :=
  if defaults = true then isEqual a b = true else a = b

def FieldsAgree (defaults : Bool) : Values → Values → Prop :=
  List.Forall₂ fun f g => f.1 = g.1 ∧ Agree defaults f.2 g.2

variable {defaults : Bool}

theorem agree_true_iff {a b : JsValue} : Agree true a b ↔ isEqual a b = true := by
  rw [Agree, if_pos rfl]

theorem agree_false_iff {a b : JsValue} : Agree false a b ↔ a = b := by
  rw [Agree, if_neg Bool.false_ne_true]

theorem Agree.refl {a : JsValue} (h : a.Distinct) : Agree defaults a a := by
  cases defaults with
  | true => exact agree_true_iff.mpr (isEqual_self h)
  | false => exact agree_false_iff.mpr rfl

variable {as bs : Values}

theorem fieldsAgree_false_iff : FieldsAgree false as bs ↔ as = bs := by
  constructor
  · intro h
    induction h with
    | nil => rfl
    | cons hab _ ih => rw [Prod.ext hab.1 (agree_false_iff.mp hab.2), ih]
  · rintro rfl
    exact List.forall₂_same.mpr fun f _ => ⟨rfl, agree_false_iff.mpr rfl⟩

theorem FieldsAgree.refl (h : DistinctFields as) : FieldsAgree defaults as as :=
  List.forall₂_same.mpr fun f hf => ⟨rfl, .refl (distinctFields_iff.mp h f hf)⟩

theorem FieldsAgree.keys (h : FieldsAgree defaults as bs) : as.map Prod.fst = bs.map Prod.fst := by
  induction h with
  | nil => rfl
  | cons hab _ ih => rw [List.map_cons, List.map_cons, hab.1, ih]

theorem Agree.array {as bs : List JsValue} (h : List.Forall₂ (Agree defaults) as bs) :
    Agree defaults (.array as) (.array bs) := by
  cases defaults with
  | true =>
    have hlength : as.length = bs.length := h.length_eq
    rw [agree_true_iff, isEqual, JsValue.compare, hlength, beq_self_eq_true, Bool.true_and]
    clear hlength
    induction h with
    | nil => rfl
    | cons hab _ ih => exact Bool.and_eq_true_iff.mpr ⟨agree_true_iff.mp hab, ih⟩
  | false =>
    rw [agree_false_iff]
    induction h with
    | nil => rfl
    | cons hab _ ih => rw [agree_false_iff.mp hab, JsValue.array.inj ih]

theorem compareFields_eq_true {b : JsValue} {strings : String → String → Bool}
    (h : ∀ f ∈ as, ∃ v, b.property f.1 = some v ∧ JsValue.compare false strings f.2 v = true) :
    compareFields false strings as b = true := by
  induction as with
  | nil => rfl
  | cons f as ih =>
    obtain ⟨⟨v, hv, hcompare⟩, hrest⟩ := List.forall_mem_cons.mp h
    rw [compareFields, hv]
    exact Bool.and_eq_true_iff.mpr ⟨hcompare, ih hrest⟩

theorem Agree.object (h : FieldsAgree defaults as bs)
    (hbs : (bs.map Prod.fst).Nodup) : Agree defaults (.object as) (.object bs) := by
  cases defaults with
  | true =>
    have hlength : as.length = bs.length := h.length_eq
    rw [agree_true_iff, isEqual, JsValue.compare, hlength, beq_self_eq_true, Bool.true_and]
    refine compareFields_eq_true fun f hf => ?_
    obtain ⟨i, hi, rfl⟩ := List.mem_iff_getElem.mp hf
    obtain ⟨-, hget⟩ := List.forall₂_iff_get.mp h
    have hi' : i < bs.length := hlength ▸ hi
    obtain ⟨hkey, hagree⟩ := hget i hi hi'
    refine ⟨bs[i].2, ?_, agree_true_iff.mp hagree⟩
    have hmem : bs[i] ∈ bs := List.getElem_mem _
    rw [show as[i].1 = bs[i].1 from hkey]
    exact property_object_eq_some_of_mem hbs hmem
  | false => rw [agree_false_iff, fieldsAgree_false_iff.mp h]

theorem Agree.isEmpty (h : Agree defaults (.object as) (.object bs)) : as = [] ↔ bs = [] := by
  have hlength : as.length = bs.length := by
    cases defaults with
    | true =>
      rw [agree_true_iff, isEqual, JsValue.compare, Bool.and_eq_true, beq_iff_eq] at h
      exact h.1
    | false => rw [JsValue.object.inj (agree_false_iff.mp h)]
  rw [← List.length_eq_zero_iff, hlength, List.length_eq_zero_iff]

variable {fields : Values}

theorem isSome_get_iff {key : String} :
    (Fields.get fields key).isSome = true ↔ key ∈ fields.map Prod.fst := by
  induction fields with
  | nil => simp
  | cons f fields ih =>
    rw [Fields.get_cons, List.map_cons, List.mem_cons]
    by_cases hkey : f.1 = key
    · simp [hkey]
    · rw [if_neg hkey, ih, or_iff_right (Ne.symm hkey)]

theorem FieldsAgree.set (h : FieldsAgree defaults as bs) (key : String)
    {a b : JsValue} (hab : Agree defaults a b) :
    FieldsAgree defaults (Fields.set as key a) (Fields.set bs key b) := by
  have hsome : (Fields.get as key).isSome = (Fields.get bs key).isSome := by
    rw [Bool.eq_iff_iff, isSome_get_iff, isSome_get_iff, h.keys]
  rw [Fields.set, Fields.set, hsome]
  split
  · rw [FieldsAgree, List.forall₂_map_left_iff, List.forall₂_map_right_iff]
    refine h.imp fun f g hfg => ?_
    rw [← hfg.1]
    split
    · exact ⟨rfl, hab⟩
    · exact hfg
  · exact List.rel_append h (.cons ⟨rfl, hab⟩ .nil)

theorem nodup_keys_set (h : (fields.map Prod.fst).Nodup) (key : String)
    (value : JsValue) : ((Fields.set fields key value).map Prod.fst).Nodup := by
  rw [Fields.set]
  split
  · have hkeys : (fields.map fun s => if s.1 = key then (key, value) else s).map Prod.fst
        = fields.map Prod.fst := by
      rw [List.map_map]
      refine List.map_congr_left fun f _ => ?_
      by_cases hf : f.1 = key
      · simp [hf]
      · simp [hf]
    rwa [hkeys]
  · next hnone =>
    rw [isSome_get_iff] at hnone
    rw [List.map_append, List.map_cons, List.map_nil]
    exact List.nodup_append.mpr ⟨h, List.nodup_singleton key, fun k hk l hl hkl =>
      hnone ((hkl.trans (List.mem_singleton.mp hl) : k = key) ▸ hk)⟩

theorem get_foldl_set (h : (fields.map Prod.fst).Nodup) (key : String) :
    ∀ base : Values,
      Fields.get (fields.foldl (fun base f => Fields.set base f.1 f.2) base) key
        = (Fields.get fields key).or (Fields.get base key) := by
  induction fields with
  | nil => exact fun base => rfl
  | cons f fields ih =>
    intro base
    rw [List.map_cons, List.nodup_cons, ← isSome_get_iff, Bool.not_eq_true,
      Option.isSome_eq_false_iff, Option.isNone_iff_eq_none] at h
    rw [List.foldl_cons, ih h.2, Fields.get_set, Fields.get_cons]
    by_cases hkey : f.1 = key
    · subst hkey
      rw [if_pos rfl, if_pos rfl, h.1, Option.none_or, Option.some_or]
    · rw [if_neg hkey, if_neg (Ne.symm hkey)]

variable {value : JsValue}

theorem distinct_set (h : (JsValue.object fields).Distinct) (key : String) (hvalue : value.Distinct) :
    (JsValue.object (Fields.set fields key value)).Distinct := by
  refine ⟨nodup_keys_set h.1 key value, distinctFields_iff.mpr fun f hf => ?_⟩
  rw [Fields.set] at hf
  split at hf
  · obtain ⟨g, hg, rfl⟩ := List.mem_map.mp hf
    split
    · exact hvalue
    · exact distinctFields_iff.mp h.2 g hg
  · rcases List.mem_append.mp hf with hf | hf
    · exact distinctFields_iff.mp h.2 f hf
    · rw [List.mem_singleton.mp hf]
      exact hvalue

theorem distinct_foldl_set (h : DistinctFields fields) :
    ∀ {base : Values}, (JsValue.object base).Distinct →
      (JsValue.object (fields.foldl (fun base f => Fields.set base f.1 f.2) base)).Distinct := by
  induction fields with
  | nil => exact fun hbase => hbase
  | cons f fields ih => exact fun hbase => ih h.2 (distinct_set hbase f.1 h.1)

theorem distinctFields_fields (h : value.Distinct) :
    DistinctFields value.fields := by
  cases value with
  | object fields => exact h.2
  | _ => trivial

theorem distinct_asLocator (h : value.Distinct) : (asLocator value).Distinct :=
  distinct_foldl_set (distinctFields_fields h)
    ⟨List.nodup_singleton _, trivial, trivial⟩

theorem alike_asLocator (h : value.Distinct) (hkey : value.get "__rl" ≠ .undefined) :
    value.Alike false (fun s t => s = t) (asLocator value) := by
  cases value with
  | object fields =>
    have hget : ∀ key, Fields.get ((object fields).fields.foldl
        (fun fields f => Fields.set fields f.1 f.2) [("__rl", .boolean true)]) key
          = (Fields.get fields key).or (Fields.get [("__rl", .boolean true)] key) :=
      fun key => get_foldl_set h.1 key _
    have hsome : (Fields.get fields "__rl").isSome = true := by
      rcases hnone : Fields.get fields "__rl" with _ | v
      · refine absurd ?_ hkey
        rw [JsValue.get, show (fields.find? _).map Prod.snd = none from hnone]
        rfl
      · rfl
    refine ⟨fun key => ?_, alikeFields_iff.mpr fun f hf => ⟨f.2, ?_, ?_⟩⟩
    · rw [← isSome_get_iff, ← isSome_get_iff, hget, Fields.get_cons, Fields.get_nil]
      by_cases hrl : "__rl" = key
      · subst hrl
        rw [hsome, if_pos rfl]
        simp
      · rw [if_neg hrl, Option.or_none]
    · have hproperty := property_object_eq_some_of_mem h.1 hf
      exact (hget f.1).trans (by rw [show Fields.get fields f.1 = some f.2 from hproperty]; rfl)
    · exact Alike.refl (fun _ => rfl) (distinctFields_iff.mp h.2 f hf)
  | _ => exact absurd rfl hkey

/-- Two turns that do the same; where the values are returned, they are the same. -/
inductive TurnedAgree (defaults : Bool) (v w : Values) : Turned → Turned → Prop where
  | skip : TurnedAgree defaults v w .skip .skip
  | set {a b : JsValue} (h : Agree defaults a b) : TurnedAgree defaults v w (.set a) (.set b)
  | returnValues (h : FieldsAgree defaults v w) (hkeys : (w.map Prod.fst).Nodup) :
    TurnedAgree defaults v w .returnValues .returnValues

variable {ctx : Context} {o o' : CallOptions} {duplicate : String → Bool} {v w : Values}
  {check check' : Values}

variable {entries : List (INodeProperties × Turn)}

theorem setParameters_agree (hturns : ∀ e ∈ entries, ∀ t t',
      visit ctx o (duplicate e.1.name) (.object v) check e.1 e.2 = .ok t →
      visit ctx o' (duplicate e.1.name) (.object w) check' e.1 e.2 = .ok t' →
      TurnedAgree defaults v w t t') :
    ∀ {s s' a b : Values}, FieldsAgree defaults s s' → (s'.map Prod.fst).Nodup →
      setParameters ctx o duplicate (.object v) (some check) entries s = .ok a →
      setParameters ctx o' duplicate (.object w) (some check') entries s' = .ok b →
      FieldsAgree defaults a b ∧ (b.map Prod.fst).Nodup := by
  induction entries with
  | nil =>
    intro s s' a b hs hnodup ha hb
    cases ha
    cases hb
    exact ⟨hs, hnodup⟩
  | cons e entries ih =>
    intro s s' a b hs hnodup ha hb
    obtain ⟨t, ht, ha⟩ := exists_of_bind_eq_ok ha
    obtain ⟨t', ht', hb⟩ := exists_of_bind_eq_ok hb
    obtain ⟨hturn, hrest⟩ := List.forall_mem_cons.mp hturns
    cases hturn t t' ht ht' with
    | skip => exact ih hrest hs hnodup ha hb
    | set h => exact ih hrest (hs.set _ h) (nodup_keys_set hnodup _ _) ha hb
    | returnValues h hkeys =>
      cases ha
      cases hb
      exact ⟨h, hkeys⟩

theorem get_setParameters (hreturn : ∀ e ∈ entries,
      visit ctx o (duplicate e.1.name) (.object v) check e.1 e.2 ≠ .ok .returnValues)
    (name : String) :
    ∀ {s a : Values}, setParameters ctx o duplicate (.object v) (some check) entries s = .ok a →
      (∃ e ∈ entries, e.1.name = name ∧ ∃ value,
        visit ctx o (duplicate e.1.name) (.object v) check e.1 e.2 = .ok (.set value) ∧
        Fields.get a name = some value) ∨
      ((∀ e ∈ entries, e.1.name = name →
        visit ctx o (duplicate e.1.name) (.object v) check e.1 e.2 = .ok .skip) ∧
        Fields.get a name = Fields.get s name) := by
  induction entries with
  | nil =>
    intro s a ha
    cases ha
    exact .inr ⟨fun e he => absurd he List.not_mem_nil, rfl⟩
  | cons e entries ih =>
    intro s a ha
    obtain ⟨t, ht, ha⟩ := exists_of_bind_eq_ok ha
    obtain ⟨hfirst, hrest⟩ := List.forall_mem_cons.mp hreturn
    cases t with
    | skip =>
      rcases ih hrest ha with ⟨e', he', hset⟩ | ⟨hskip, hget⟩
      · exact .inl ⟨e', List.mem_cons_of_mem _ he', hset⟩
      · exact .inr ⟨List.forall_mem_cons.mpr ⟨fun _ => ht, hskip⟩, hget⟩
    | set value =>
      rcases ih hrest ha with ⟨e', he', hset⟩ | ⟨hskip, hget⟩
      · exact .inl ⟨e', List.mem_cons_of_mem _ he', hset⟩
      · rw [Fields.get_set] at hget
        by_cases hname : name = e.1.name
        · rw [if_pos hname] at hget
          exact .inl ⟨e, List.mem_cons_self, hname.symm, value, ht, hget⟩
        · rw [if_neg hname] at hget
          exact .inr ⟨List.forall_mem_cons.mpr ⟨fun h => absurd h.symm hname, hskip⟩, hget⟩
    | returnValues => exact absurd ht hfirst

theorem setParameters_of_returnValues {e : INodeProperties × Turn} (he : e ∈ entries)
    (hreturn : visit ctx o (duplicate e.1.name) (.object v) check e.1 e.2 = .ok .returnValues) :
    ∀ {s a : Values}, setParameters ctx o duplicate (.object v) (some check) entries s = .ok a →
      a = v := by
  induction entries with
  | nil => cases he
  | cons e' entries ih =>
    intro s a ha
    obtain ⟨t, ht, ha⟩ := exists_of_bind_eq_ok ha
    rcases List.mem_cons.mp he with rfl | he
    · obtain rfl : Turned.returnValues = t := Except.ok.inj (hreturn.symm.trans ht)
      cases ha
      rfl
    · cases t with
      | skip => exact ih he ha
      | set value => exact ih he ha
      | returnValues =>
        cases ha
        rfl

theorem setParameters_of_skip (hskip : ∀ e ∈ entries, ∀ t,
      visit ctx o (duplicate e.1.name) (.object v) check e.1 e.2 = .ok t → t = .skip) :
    ∀ {s a : Values}, setParameters ctx o duplicate (.object v) (some check) entries s = .ok a →
      a = s := by
  induction entries with
  | nil =>
    intro s a ha
    cases ha
    rfl
  | cons e entries ih =>
    intro s a ha
    obtain ⟨t, ht, ha⟩ := exists_of_bind_eq_ok ha
    obtain ⟨hfirst, hrest⟩ := List.forall_mem_cons.mp hskip
    obtain rfl := hfirst t ht
    exact ih hrest ha

variable {first second third : String → JsValue → Result (Option JsValue × Bool)}

theorem collectItems_cons {f : String × JsValue} {a : Values × Bool}
    (h : collectItems first (f :: fields) = .ok a) :
    ∃ r rest, first f.1 f.2 = .ok r ∧ collectItems first fields = .ok rest ∧
      a = (r.1.toList.map (fun value => (f.1, value)) ++ rest.1, r.2 || rest.2) := by
  obtain ⟨⟨value, visible⟩, hr, h⟩ := exists_of_bind_eq_ok h
  obtain ⟨⟨values, anyVisible⟩, hrest, h⟩ := exists_of_bind_eq_ok h
  refine ⟨_, _, hr, hrest, ?_⟩
  cases h
  cases value with
  | none => rfl
  | some value => rfl

theorem keys_collectItems : ∀ {fields : Values} {a : Values × Bool},
    collectItems first fields = .ok a → (a.1.map Prod.fst).Sublist (fields.map Prod.fst) := by
  intro fields
  induction fields with
  | nil =>
    intro a h
    cases h
    exact List.Sublist.refl _
  | cons f fields ih =>
    intro a h
    obtain ⟨⟨value, visible⟩, rest, -, hrest, rfl⟩ := collectItems_cons h
    cases value with
    | none => exact (ih hrest).cons _
    | some value => exact (ih hrest).cons_cons _

theorem collectItems_agree : ∀ {fields : Values} {a b : Values × Bool},
    (∀ f ∈ fields, ∀ r r', first f.1 f.2 = .ok r → second f.1 f.2 = .ok r' →
      Option.Rel (Agree defaults) r.1 r'.1) →
    collectItems first fields = .ok a → collectItems second fields = .ok b →
      FieldsAgree defaults a.1 b.1 := by
  intro fields
  induction fields with
  | nil =>
    intro a b _ ha hb
    cases ha
    cases hb
    exact .nil
  | cons f fields ih =>
    intro a b h ha hb
    obtain ⟨hfirst, hfields⟩ := List.forall_mem_cons.mp h
    obtain ⟨⟨value, visible⟩, rest, hr, hrest, rfl⟩ := collectItems_cons ha
    obtain ⟨⟨value', visible'⟩, rest', hr', hrest', rfl⟩ := collectItems_cons hb
    have hagree := ih hfields hrest hrest'
    cases hfirst _ _ hr hr' with
    | none => exact hagree
    | some hvalue => exact .cons ⟨rfl, hvalue⟩ hagree

theorem collectItems_saved : ∀ {fields : Values} {saved a b : Values × Bool},
    (∀ f ∈ fields, ∀ r, second f.1 f.2 = .ok r →
      (∀ r₀, first f.1 f.2 = .ok r₀ → r₀.1 = none → r.1 = none) ∧
      ∀ r₀ item r', first f.1 f.2 = .ok r₀ → r₀.1 = some item → third f.1 item = .ok r' →
        Option.Rel (Agree defaults) r.1 r'.1) →
    collectItems first fields = .ok saved → collectItems second fields = .ok a →
      collectItems third saved.1 = .ok b → FieldsAgree defaults a.1 b.1 := by
  intro fields
  induction fields with
  | nil =>
    intro saved a b _ hsaved ha hb
    cases hsaved
    cases ha
    cases hb
    exact .nil
  | cons f fields ih =>
    intro saved a b h hsaved ha hb
    obtain ⟨hfirst, hfields⟩ := List.forall_mem_cons.mp h
    obtain ⟨⟨item, visible⟩, saved', hr₀, hsaved', rfl⟩ := collectItems_cons hsaved
    obtain ⟨⟨value, visible'⟩, rest, hr, hrest, rfl⟩ := collectItems_cons ha
    obtain ⟨hnone, hsome⟩ := hfirst _ hr
    cases item with
    | none =>
      obtain rfl : value = none := hnone _ hr₀ rfl
      have hagree : FieldsAgree defaults rest.1 b.1 := ih hfields hsaved' hrest hb
      exact hagree
    | some item =>
      obtain ⟨⟨value', visible''⟩, rest', hr', hrest', rfl⟩ := collectItems_cons hb
      have hagree := ih hfields hsaved' hrest hrest'
      cases hsome _ _ _ hr₀ rfl hr' with
      | none => exact hagree
      | some hvalue => exact .cons ⟨rfl, hvalue⟩ hagree

theorem collectItems_eq_nil_iff : ∀ {fields : Values} {c : Values × Bool},
    collectItems first fields = .ok c →
      (c.1 = [] ↔ ∀ f ∈ fields, ∀ result, first f.1 f.2 = .ok result → result.1 = none) := by
  intro fields
  induction fields with
  | nil =>
    intro c h
    cases h
    exact iff_of_true rfl fun f hf => absurd hf List.not_mem_nil
  | cons f fields ih =>
    intro c h
    obtain ⟨result, rest, hresult, hrest, rfl⟩ := collectItems_cons h
    have hfirst : (∀ r, first f.1 f.2 = .ok r → r.1 = none) ↔ result.1 = none := by
      rw [hresult]
      exact ⟨fun h => h result rfl, fun h r hr => Except.ok.inj hr ▸ h⟩
    rw [List.append_eq_nil_iff, List.map_eq_nil_iff, Option.toList_eq_nil_iff, ih hrest,
      List.forall_mem_cons, hfirst]

theorem exists_of_collectItems {c : Values × Bool}
    (h : collectItems first fields = .ok c) : ∀ f ∈ fields, ∃ result, first f.1 f.2 = .ok result := by
  induction fields generalizing c with
  | nil => exact fun f hf => absurd hf List.not_mem_nil
  | cons f fields ih =>
    obtain ⟨result, rest, hresult, hrest, -⟩ := collectItems_cons h
    exact List.forall_mem_cons.mpr ⟨⟨result, hresult⟩, ih hrest⟩

theorem exists_of_mem_collectItems : ∀ {fields : Values} {c : Values × Bool},
    collectItems first fields = .ok c → ∀ f ∈ c.1, ∃ item result,
      (f.1, item) ∈ fields ∧ first f.1 item = .ok result ∧ result.1 = some f.2 := by
  intro fields
  induction fields with
  | nil =>
    intro c h f hf
    cases h
    cases hf
  | cons g fields ih =>
    intro c h f hf
    obtain ⟨result, rest, hresult, hrest, rfl⟩ := collectItems_cons h
    rcases List.mem_append.mp hf with hf | hf
    · obtain ⟨value, hvalue, rfl⟩ := List.mem_map.mp hf
      exact ⟨g.2, result, List.mem_cons_self, hresult, Option.mem_toList.mp hvalue⟩
    · obtain ⟨item, result', hmem, hset⟩ := ih hrest f hf
      exact ⟨item, result', List.mem_cons_of_mem _ hmem, hset⟩

end N8n.NodeHelpers
