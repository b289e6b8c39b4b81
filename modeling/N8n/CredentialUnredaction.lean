/-
Redacted credentials on their way back.

The browser sends the data of a credential back with the sentinels in it.  Each of them is
replaced by what the saved data have at its place: the walk goes down both data at once, by the
keys of the fields and the positions of the items.  An object inherits some properties, which are
no values of the data; the walk is modelled with the own ones.

An edit of a value leaves it, puts a new value in its place, or goes on inside of it, where it may
remove items and fields and add new ones.

* **`keepsSecrets_iff`** — the data that were redacted come back, and edited data come back with the
  secrets of the saved ones iff the secrets have not moved, or moved to where there are equal ones.
-/
import N8n.AlikeValues
import N8n.DirectedGraph
import N8n.RedactionHides

namespace N8n

open JsValue (Step kids kids_induction)

/-- `value === CREDENTIAL_BLANKING_VALUE || value === CREDENTIAL_EMPTY_VALUE`. -/
def isSentinel : JsValue → Bool
  | .string s => s = CREDENTIAL_BLANKING_VALUE || s = CREDENTIAL_EMPTY_VALUE
  | _ => false

def JsValue.read (v : JsValue) (key : String) : JsValue := (v.property key).getD .undefined

mutual
/-- What becomes of a value when the other data have `saved` under its key. -/
def restoreValue : JsValue → JsValue → JsValue
  | .string s, saved => if isSentinel (.string s) then saved else .string s
  | .array items, saved =>
    if isContainer saved then .array (restoreItems 0 items saved) else .array items
  | .object fields, saved =>
    if isContainer saved then .object (restoreFields fields saved) else .object fields
  | value, _ => value

/-- The loop over the entries of an array, from a position on. -/
def restoreItems : ℕ → List JsValue → JsValue → List JsValue
  | _, [], _ => []
  | i, value :: items, replacement =>
    restoreValue value (replacement.read (toString i)) :: restoreItems (i + 1) items replacement

def restoreFields : List (String × JsValue) → JsValue → List (String × JsValue)
  | [], _ => []
  | (key, value) :: fields, replacement =>
    (key, restoreValue value (replacement.read key)) :: restoreFields fields replacement
end

def unredactRestoreValues : JsValue → JsValue → JsValue
  | .array items, replacement => .array (restoreItems 0 items replacement)
  | .object fields, replacement => .object (restoreFields fields replacement)
  | value, _ => value

/-- The saved data merged into the redacted ones.  The copy that is merged into is the tree itself
here. -/
def unredact (redactedData savedData : List (String × JsValue)) : JsValue :=
  unredactRestoreValues (.object redactedData) (.object savedData)

/-- One step down in the saved data; `none` where the walk does not go on. -/
def below (saved : Option JsValue) (s : Step) : Option JsValue :=
  saved.bind fun w => if isContainer w then some (w.read s.key) else none

/-- What the walk has found in the saved data when it comes to the end of a path. -/
def savedAt (saved : JsValue) (p : List Step) : Option JsValue := p.foldl below (some saved)

/-- A value after the walk, if the walk comes to it. -/
def restoreWith (value : JsValue) (saved : Option JsValue) : JsValue :=
  saved.elim value (restoreValue value)

variable {value : JsValue}

theorem restoreWith_sentinel (h : isSentinel value) (saved : Option JsValue) :
    restoreWith value saved = saved.getD value := by
  cases saved with
  | none => rfl
  | some w =>
    cases value with
    | string s => exact if_pos h
    | _ => cases h

theorem restoreItems_eq (i : ℕ) (items : List JsValue) (w : JsValue) :
    restoreItems i items w
      = items.mapIdx fun j v => restoreValue v (w.read (toString (i + j))) := by
  induction items generalizing i with
  | nil => rfl
  | cons v items ih =>
    rw [restoreItems, ih, List.mapIdx_cons]
    simp only [Nat.add_zero, Nat.add_assoc, Nat.add_comm 1]

theorem restoreFields_eq (fields : List (String × JsValue)) (w : JsValue) :
    restoreFields fields w = fields.map fun f => (f.1, restoreValue f.2 (w.read f.1)) := by
  induction fields with
  | nil => rfl
  | cons f fields ih => rw [restoreFields, ih, List.map_cons]

theorem restoreWith_eq (h : isSentinel value = false) (saved : Option JsValue) :
    value.mapKids (fun s x => some (restoreWith x (below saved s)))
      = some (restoreWith value saved) := by
  have hmap : ∀ f : Step → JsValue → JsValue, value.mapKids (fun s x => some (f s x))
      = some (value.withKids (value.kids.map fun k => f k.1 k.2)) := by
    intro f
    rw [JsValue.mapKids]
    exact congrArg (Option.map value.withKids) (List.mapM_pure)
  rw [hmap]
  refine congrArg some ?_
  rcases hsaved : saved.filter fun w => isContainer w with _ | w
  · have hbelow : ∀ s, below saved s = none := by
      intro s
      cases saved with
      | none => rfl
      | some w =>
        have hw : isContainer w = false := by simpa using hsaved
        simp [below, hw]
    have hvalue : restoreWith value saved = value := by
      cases saved with
      | none => rfl
      | some w =>
        have hw : isContainer w = false := by simpa using hsaved
        cases value <;> simp_all [restoreWith, restoreValue]
    simp only [hbelow, restoreWith, Option.elim_none]
    exact (JsValue.withKids_kids value).trans hvalue.symm
  · obtain ⟨rfl, hw⟩ := Option.filter_eq_some_iff.mp hsaved
    have hbelow : ∀ s, below (some w) s = some (w.read s.key) := by
      intro s
      simp [below, hw]
    simp only [hbelow, restoreWith, Option.elim_some]
    cases value with
    | array items =>
      rw [restoreValue, if_pos hw, restoreItems_eq]
      refine congrArg JsValue.array (List.ext_getElem (by simp [kids]) fun i hi hi' => ?_)
      simp [kids, Step.key]
    | object fields =>
      rw [restoreValue, if_pos hw, restoreFields_eq]
      refine congrArg JsValue.object (List.ext_getElem (by simp [kids]) fun i hi hi' => ?_)
      simp [kids, Step.key]
    | string s => exact (if_neg (by rw [h]; exact Bool.false_ne_true)).symm
    | _ => rfl

theorem restoreWith_eq_iff {v : JsValue} (h : isSentinel value = false)
    (hshape : value.shape = v.shape) (saved : Option JsValue) :
    restoreWith value saved = v ↔ ∀ (i : ℕ) s x y, value.kids[i]? = some (s, x) →
      v.kids[i]? = some (s, y) → restoreWith x (below saved s) = y := by
  rw [JsValue.mapKids_eq_iff (restoreWith_eq h saved) (JsValue.mapKids_some v),
    and_iff_right hshape]
  simp only [Option.some.injEq]

/-- A value that the user gives: there is no sentinel in it. -/
structure NewValue where
  value : JsValue
  visible : Everywhere (fun _ w => isSentinel w = false) value

/-- What the user does to a value. -/
inductive Edit where
  | keep
  | new (v : NewValue)
  /-- Remove some items or fields, edit the others, and add new ones; the names of new items
  do not matter. -/
  | inside (removed : Step → Bool) (edits : Step → Edit) (added : List (String × NewValue))

/-- An array or object of the kind of `v`, with other items or fields. -/
def JsValue.rebuild : JsValue → List (Step × JsValue) → JsValue
  | .array _, ks => .array (ks.map Prod.snd)
  | .object _, ks => .object (ks.map fun k => (k.1.key, k.2))
  | v, _ => v

/-- The step that leads to what stands at a position after rebuilding. -/
def JsValue.stepAt : JsValue → Step → ℕ → Step
  | .array _, _, i => .item i
  | _, s, _ => .field s.key

namespace Edit

def kept (removed : Step → Bool) (v : JsValue) : List (Step × JsValue) :=
  v.kids.filter fun k => !removed k.1

/-- The new items or fields. -/
def addedKids (added : List (String × NewValue)) : List (Step × JsValue) :=
  added.map fun a => (.field a.1, a.2.value)

def apply : Edit → JsValue → JsValue
  | keep, v => v
  | new x, _ => x.value
  | inside removed edits added, v =>
    v.rebuild ((kept removed v).map (fun k => (k.1, (edits k.1).apply k.2)) ++ addedKids added)

/-- The edit goes on inside of arrays and objects only. -/
def Fits : Edit → JsValue → Prop
  | inside removed edits _, v =>
    isContainer v = true ∧ ∀ k ∈ kept removed v, (edits k.1).Fits k.2
  | _, _ => True

/-- `e.Left v p q w`: the edit leaves the part `w`, which was at the path `q` of the value, and is
at the path `p` now. -/
inductive Left : Edit → JsValue → List Step → List Step → JsValue → Prop where
  | keep {v w : JsValue} {p : List Step} (h : At v p w) : Left keep v p p w
  | inside {removed : Step → Bool} {edits : Step → Edit} {added : List (String × NewValue)}
      {v x w : JsValue} {i : ℕ} {s : Step} {p q : List Step}
      (hk : (kept removed v)[i]? = some (s, x)) (h : Left (edits s) x p q w) :
      Left (inside removed edits added) v (v.stepAt s i :: p) (s :: q) w

end Edit

variable {v : JsValue}

theorem kids_rebuild (hv : isContainer v) (ks : List (Step × JsValue)) (i : ℕ) :
    (v.rebuild ks).kids[i]? = ks[i]?.map fun k => (v.stepAt k.1 i, k.2) := by
  cases v with
  | array items => simp [JsValue.rebuild, kids, JsValue.stepAt, Function.comp_def]
  | object fields => simp [JsValue.rebuild, kids, JsValue.stepAt, Function.comp_def]
  | _ => cases hv

theorem isSentinel_of_container (hv : isContainer v) : isSentinel v = false := by
  cases v <;> first | rfl | cases hv

theorem isContainer_rebuild (hv : isContainer v) (ks : List (Step × JsValue)) :
    isContainer (v.rebuild ks) := by
  cases v <;> first | rfl | cases hv

theorem shape_rebuild {v w : JsValue} (h : v.shape = w.shape) {ks ls : List (Step × JsValue)}
    (hsteps : ks.map Prod.fst = ls.map Prod.fst) :
    (v.rebuild ks).shape = (w.rebuild ls).shape := by
  have hlength : ks.length = ls.length := by simpa using congrArg List.length hsteps
  have hkeys := congrArg (List.map fun s => (Step.key s, JsValue.null)) hsteps
  cases v <;> cases w
  case array.array =>
    simp only [JsValue.rebuild, JsValue.shape, List.map_map, JsValue.array.injEq]
    exact List.ext_getElem (by simp [hlength]) fun i hi hi' => by simp
  case object.object =>
    simpa [JsValue.rebuild, JsValue.shape, Function.comp_def] using hkeys
  all_goals first | exact h | simp [JsValue.shape] at h

theorem isContainer_shape (v : JsValue) : isContainer v.shape = isContainer v := by
  cases v <;> rfl

theorem stepAt_of_shape_eq {v w : JsValue} (h : v.shape = w.shape) (s : Step) (i : ℕ) :
    v.stepAt s i = w.stepAt s i := by
  cases v <;> cases w <;> first | rfl | simp [JsValue.shape] at h

/-- In the second value, sentinels stand in the place of some parts of the first one. -/
def Blanked : JsValue → JsValue → Prop := N8n.Alike fun _ _ w => isSentinel w = true

theorem Blanked.kids {v r : JsValue} (h : Blanked v r) (hr : isSentinel r = false) :
    v.shape = r.shape ∧ ∀ (i : ℕ) s x y, v.kids[i]? = some (s, x) → r.kids[i]? = some (s, y) →
      Blanked x y := by
  cases h with
  | same => exact ⟨rfl, fun i s x y hx hy => by cases hx.symm.trans hy; exact .same x⟩
  | there h => exact absurd h (by simp [hr])
  | deeper hshape h => exact ⟨hshape, h⟩

variable {k : Step × JsValue}

theorem distinct_of_kid (h : v.Distinct) (hk : k ∈ v.kids) : k.2.Distinct := by
  cases v with
  | array items =>
    obtain ⟨i, hi, rfl⟩ := List.mem_mapIdx.mp hk
    exact JsValue.distinctItems_iff.mp h _ (List.getElem_mem hi)
  | object fields =>
    obtain ⟨f, hf, rfl⟩ := List.mem_map.mp hk
    exact JsValue.distinctFields_iff.mp h.2 f hf
  | _ => cases hk

theorem property_of_kid (h : v.Distinct) (hk : k ∈ v.kids) :
    v.property k.1.key = some k.2 := by
  cases v with
  | array items =>
    obtain ⟨i, hi, rfl⟩ := List.mem_mapIdx.mp hk
    have hname : toString i ≠ "length" := by
      intro heq
      have hdigit : 'l' ∈ Nat.toDigits 10 i := by
        rw [← toList_toString, heq]
        decide
      exact absurd (Nat.isDigit_of_mem_toDigits (by decide) (by decide) hdigit) (by decide)
    have hfind : items.zipIdx.find? (fun e => toString e.2 = toString i)
        = some (items[i], i) := by
      refine List.find?_eq_some_iff_getElem.mpr ⟨by simp, i, by simpa using hi, by simp, ?_⟩
      intro j hj
      have hne : j ≠ i := Nat.ne_of_lt hj
      simpa using fun heq => hne (toString_injective heq)
    show (if toString i = "length" then _ else (items.zipIdx.find? fun e =>
      toString e.2 = toString i).map Prod.fst) = some items[i]
    rw [if_neg hname, hfind, Option.map_some]
  | object fields =>
    obtain ⟨f, hf, rfl⟩ := List.mem_map.mp hk
    exact JsValue.property_object_eq_some_of_mem h.1 hf
  | _ => cases hk

theorem kid_unique (h : v.Distinct) {s : Step} {x y : JsValue}
    (hx : (s, x) ∈ v.kids) (hy : (s, y) ∈ v.kids) : x = y :=
  Option.some.inj ((property_of_kid h hx).symm.trans (property_of_kid h hy))

theorem exists_kid {v w : JsValue} (h : v.shape = w.shape) {i : ℕ} {s : Step} {x : JsValue}
    (hx : v.kids[i]? = some (s, x)) : ∃ y, w.kids[i]? = some (s, y) := by
  obtain ⟨hi, -⟩ := List.getElem?_eq_some_iff.mp hx
  rw [JsValue.length_of_shape_eq h] at hi
  have hw : w.kids[i]? = some w.kids[i] := List.getElem?_eq_getElem hi
  have hstep := JsValue.step_eq_of_shape_eq h hx hw
  exact ⟨w.kids[i].2, hw.trans (congrArg some (Prod.ext hstep.symm rfl))⟩

theorem Masking.blanked {σ : Type} (M : Masking σ)
    (hleaf : ∀ q v a, M.leaf q → M.mask q v = some a → a = v ∨ isSentinel a = true) (q : σ)
    {v a : JsValue} (h : M.mask q v = some a) : Blanked v a := by
  induction v using kids_induction generalizing q a with
  | h v ih =>
    cases hq : M.leaf q with
    | true =>
      rcases hleaf q v a hq h with rfl | hsentinel
      · exact .same a
      · exact .there hsentinel
    | false =>
      have hmap := M.mask_open hq h
      obtain ⟨hshape, hkids⟩ :=
        (JsValue.mapKids_eq_iff hmap (JsValue.mapKids_some a)).mp rfl
      exact .deeper hshape fun i s x y hx hy =>
        ih _ (List.mem_of_getElem? hx) (M.child q s) (hkids i s x y hx hy)

theorem isSentinel_blank {v a : JsValue} (h : blank v = some a) : isSentinel a = true := by
  rw [blank_eq, Option.map_eq_some_iff] at h
  obtain ⟨nonEmpty, -, rfl⟩ := h
  cases nonEmpty <;> simp [isSentinel]

theorem blankTimes_cases {n : ℕ} {v a : JsValue} (h : Place.blankTimes n v = some a) :
    a = v ∨ isSentinel a = true := by
  induction n generalizing v with
  | zero => exact .inl (Option.some.inj h).symm
  | succ n ih =>
    obtain ⟨b, hb, hrest⟩ := Option.bind_eq_some_iff.mp h
    rcases ih hrest with rfl | hsentinel
    · exact .inr (isSentinel_blank hb)
    · exact .inr hsentinel

theorem hidePasswords_cases (props : List Property) (s : String) :
    hidePasswords props s = s ∨ isSentinel (.string (hidePasswords props s)) = true := by
  induction props generalizing s with
  | nil => exact .inl rfl
  | cons p props ih =>
    rw [hidePasswords_cons]
    rcases ih (hidePassword p s) with heq | hsentinel
    · rw [heq, hidePassword]
      split
      · right
        split <;> simp [isSentinel]
      · exact .inl rfl
    · exact .inr hsentinel

theorem redaction_leaf (q : Place) (v a : JsValue) (hq : redaction.leaf q)
    (h : redaction.mask q v = some a) : a = v ∨ isSentinel a = true := by
  cases q with
  | text n => exact blankTimes_cases h
  | value props =>
    have hwants := (redaction.leaf_isSome (.value props) v hq).mp (Option.isSome_of_eq_some h)
    obtain ⟨s, rfl⟩ := hwants (List.any_eq_true.mp hq)
    cases (value_string props s).symm.trans h
    rcases hidePasswords_cases props s with heq | hsentinel
    · exact .inl (congrArg JsValue.string heq)
    · exact .inr hsentinel
  | _ => cases hq

/-- **What the redaction makes of the data.** -/
theorem redact_blanked {data : List (String × JsValue)} {credType : Option CredentialType}
    {redacted : JsValue} (h : redact data credType = some redacted) :
    Blanked (.object data) redacted ∧ ∃ fields, redacted = .object fields := by
  cases credType with
  | none =>
    cases h
    exact ⟨.same _, data, rfl⟩
  | some credType =>
    rw [redact_eq] at h
    have hblanked := redaction.blanked redaction_leaf (start credType) h
    have hmap := redaction.mask_open rfl h
    have hshape := JsValue.shape_mapKids hmap
    cases redacted with
    | object fields => exact ⟨hblanked, fields, rfl⟩
    | _ => simp [JsValue.shape] at hshape

theorem restoreWith_new (h : Everywhere (fun _ w => isSentinel w = false) v)
    (saved : Option JsValue) : restoreWith v saved = v := by
  induction v using kids_induction generalizing saved with
  | h v ih =>
    rw [everywhere_iff] at h
    refine (restoreWith_eq_iff h.1 rfl saved).mpr fun i s x y hx hy => ?_
    cases hx.symm.trans hy
    exact ih _ (List.mem_of_getElem? hx) (h.2 _ (List.mem_of_getElem? hx)) _

/-- The sentinels among the parts that an edit leaves are where the walk finds the values that
they stand for. -/
def Paired (e : Edit) (data redacted : JsValue) (saved : Option JsValue) : Prop :=
  ∀ p q sentinel value, e.Left redacted p q sentinel → isSentinel sentinel = true →
    At data q value → (p.foldl below saved).getD sentinel = value

theorem restoreWith_iff {data redacted : JsValue} (hdistinct : data.Distinct)
    (h : Blanked data redacted) (saved : Option JsValue) :
    restoreWith redacted saved = data ↔ Paired .keep data redacted saved := by
  induction redacted using kids_induction generalizing data saved with
  | h redacted ih =>
    cases hsentinel : isSentinel redacted with
    | true =>
      have hkids : redacted.kids = [] := by
        cases redacted <;> first | rfl | cases hsentinel
      rw [restoreWith_sentinel hsentinel]
      constructor
      · rintro rfl p q sentinel value hleft - hvalue
        obtain ⟨hat⟩ := hleft
        cases hat with
        | here =>
          cases hvalue
          rfl
        | deeper hk _ => simp [hkids] at hk
      · exact fun h => h [] [] redacted data (.keep (.here redacted)) hsentinel (.here data)
    | false =>
      obtain ⟨hshape, hkids⟩ := h.kids hsentinel
      rw [restoreWith_eq_iff hsentinel hshape.symm]
      constructor
      · intro hrestored p q sentinel value hleft hs hvalue
        obtain ⟨hat⟩ := hleft
        cases hat with
        | here => exact absurd hs (by simp [hsentinel])
        | @deeper _ y _ s p hk hat =>
          obtain ⟨i, hy⟩ := List.getElem?_of_mem hk
          obtain ⟨x, hx⟩ := exists_kid hshape.symm hy
          have hkid := hkids i s x y hx hy
          cases hvalue with
          | @deeper _ x' _ _ _ hk' hvalue =>
            cases kid_unique hdistinct (List.mem_of_getElem? hx) hk'
            exact (ih _ hk (distinct_of_kid hdistinct hk') hkid _).mp (hrestored i s y x hy hx) p p
              sentinel value (.keep hat) hs hvalue
      · intro hpaired i s y x hy hx
        have hmem := List.mem_of_getElem? hx
        refine (ih _ (List.mem_of_getElem? hy) (distinct_of_kid hdistinct hmem)
          (hkids i s x y hx hy) _).mpr fun p q sentinel value hleft hs hvalue => ?_
        obtain ⟨hat⟩ := hleft
        exact hpaired (s :: p) (s :: p) sentinel value
          (.keep (.deeper (List.mem_of_getElem? hy) hat)) hs (.deeper hmem hvalue)

namespace Edit

variable {removed : Step → Bool} {edits : Step → Edit} {added : List (String × NewValue)} {i : ℕ}
  {s : Step}

theorem apply_kid (hv : isContainer v) {x : JsValue}
    (hk : (kept removed v)[i]? = some (s, x)) :
    ((inside removed edits added).apply v).kids[i]?
      = some (v.stepAt s i, (edits s).apply x) := by
  have hi := (List.getElem?_eq_some_iff.mp hk).1
  rw [apply, kids_rebuild hv, List.getElem?_append_left (by simpa using hi), List.getElem?_map, hk]
  rfl

theorem apply_cases (hv : isContainer v) {k : Step × JsValue}
    (hk : ((inside removed edits added).apply v).kids[i]? = some k) :
    (∃ s x, (kept removed v)[i]? = some (s, x)) ∨
      ((kept removed v).length ≤ i ∧
        ∃ a, added[i - (kept removed v).length]? = some a ∧ k.2 = a.2.value) := by
  rcases Nat.lt_or_ge i (kept removed v).length with hi | hi
  · exact .inl ⟨_, _, List.getElem?_eq_getElem hi⟩
  · refine .inr ⟨hi, ?_⟩
    rw [apply, kids_rebuild hv, List.getElem?_append_right (by simpa using hi), List.length_map,
      addedKids, List.getElem?_map, Option.map_map, Option.map_eq_some_iff] at hk
    obtain ⟨a, ha, rfl⟩ := hk
    exact ⟨a, ha, rfl⟩

theorem steps_kept (removed : Step → Bool) {w : JsValue} (h : v.shape = w.shape) :
    (kept removed v).map Prod.fst = (kept removed w).map Prod.fst := by
  have hfilter : ∀ u : JsValue, (kept removed u).map Prod.fst
      = (u.kids.map Prod.fst).filter fun s => !removed s := by
    intro u
    rw [kept, List.filter_map]
    rfl
  rw [hfilter, hfilter, JsValue.steps_of_shape_eq h]

theorem exists_kept {w : JsValue} (h : v.shape = w.shape) {x : JsValue}
    (hx : (kept removed v)[i]? = some (s, x)) : ∃ y, (kept removed w)[i]? = some (s, y) := by
  have hsteps := congrArg (fun steps => steps[i]?) (steps_kept removed h)
  simp only [List.getElem?_map, hx, Option.map_some] at hsteps
  obtain ⟨k, hk, hs⟩ := Option.map_eq_some_iff.mp hsteps.symm
  exact ⟨k.2, hk.trans (congrArg some (Prod.ext hs rfl))⟩

theorem kid_of_kept {k : Step × JsValue}
    (hk : (kept removed v)[i]? = some k) : k ∈ v.kids :=
  List.mem_of_mem_filter (List.mem_of_getElem? hk)

theorem blanked_kept {data redacted : JsValue} (hdistinct : data.Distinct)
    (h : Blanked data redacted) (hredacted : isSentinel redacted = false)
    {x y : JsValue} (hx : (kept removed data)[i]? = some (s, x))
    (hy : (kept removed redacted)[i]? = some (s, y)) : Blanked x y := by
  obtain ⟨hshape, hkids⟩ := h.kids hredacted
  obtain ⟨j, hj⟩ := List.getElem?_of_mem (kid_of_kept hy)
  obtain ⟨x', hx'⟩ := exists_kid hshape.symm hj
  cases kid_unique hdistinct (kid_of_kept hx) (List.mem_of_getElem? hx')
  exact hkids j s x y hx' hj

end Edit

/-- **Edited values come back** iff the walk finds the values of the sentinels that are left. -/
theorem restoreWith_apply_iff {e : Edit} {data redacted : JsValue} (hdistinct : data.Distinct)
    (h : Blanked data redacted) (hfits : e.Fits redacted) (saved : Option JsValue) :
    restoreWith (e.apply redacted) saved = e.apply data ↔ Paired e data redacted saved := by
  induction e generalizing data redacted saved with
  | keep => exact restoreWith_iff hdistinct h saved
  | new x => exact iff_of_true (restoreWith_new x.visible saved) nofun
  | inside removed edits added ih =>
    obtain ⟨hredacted, hedits⟩ := hfits
    have hsentinel := isSentinel_of_container hredacted
    obtain ⟨hshape, -⟩ := h.kids hsentinel
    have hdata : isContainer data := by
      rwa [← isContainer_shape, hshape, isContainer_shape]
    have hedited : isSentinel ((Edit.inside removed edits added).apply redacted) = false :=
      isSentinel_of_container (isContainer_rebuild hredacted _)
    have hshapes : ((Edit.inside removed edits added).apply redacted).shape
        = ((Edit.inside removed edits added).apply data).shape :=
      shape_rebuild hshape.symm (by simpa [Function.comp_def] using Edit.steps_kept removed hshape.symm)
    rw [restoreWith_eq_iff hedited hshapes]
    constructor
    · intro hrestored p q sentinel value hleft hs hvalue
      cases hleft with
      | @inside _ _ _ _ y _ i s p q hy hleft =>
        obtain ⟨x, hx⟩ := Edit.exists_kept hshape.symm hy
        have hkid := Edit.blanked_kept hdistinct h hsentinel hx hy
        have hback := hrestored i _ _ _ (Edit.apply_kid hredacted hy)
          (stepAt_of_shape_eq hshape s i ▸ Edit.apply_kid hdata hx)
        cases hvalue with
        | @deeper _ x' _ _ _ hk' hvalue =>
          have hmem := Edit.kid_of_kept hx
          cases kid_unique hdistinct hmem hk'
          exact (ih s (distinct_of_kid hdistinct hmem) hkid
            (hedits _ (List.mem_of_getElem? hy)) _).mp hback p q sentinel value hleft hs hvalue
    · intro hpaired i t u v hu hv
      rcases Edit.apply_cases hredacted hu with ⟨s, y, hy⟩ | ⟨hi, a, ha, hnew⟩
      · obtain ⟨x, hx⟩ := Edit.exists_kept hshape.symm hy
        have hmem := Edit.kid_of_kept hx
        have hv' := hv.symm.trans (Edit.apply_kid hdata hx)
        rw [stepAt_of_shape_eq hshape] at hv'
        cases hu.symm.trans (Edit.apply_kid hredacted hy)
        cases hv'
        refine (ih s (distinct_of_kid hdistinct hmem)
          (Edit.blanked_kept hdistinct h hsentinel hx hy) (hedits _ (List.mem_of_getElem? hy))
          _).mpr fun p q sentinel value hleft hs hvalue => ?_
        exact hpaired _ _ sentinel value (.inside hy hleft) hs (.deeper hmem hvalue)
      · have hlength : (Edit.kept removed redacted).length = (Edit.kept removed data).length := by
          simpa using congrArg List.length (Edit.steps_kept removed hshape.symm)
        rcases Edit.apply_cases hdata hv with ⟨s, x, hx⟩ | ⟨-, b, hb, hnew'⟩
        · exact absurd (List.getElem?_eq_some_iff.mp hx).1 (by omega)
        · rw [← hlength, ha] at hb
          cases hb
          have hu' : u = a.2.value := hnew
          have hv' : v = a.2.value := hnew'
          rw [hu', hv']
          exact restoreWith_new a.2.visible _

theorem unredact_eq (redactedData savedData : List (String × JsValue)) :
    unredact redactedData savedData
      = restoreWith (.object redactedData) (some (.object savedData)) := by
  simp [unredact, unredactRestoreValues, restoreWith, restoreValue, isContainer]

theorem savedAt_of_at {v w : JsValue} (hdistinct : v.Distinct) {p : List Step} (h : At v p w) :
    p.foldl below (some v) = some w := by
  induction h with
  | here v => rfl
  | @deeper v x w s p hk h ih =>
    have hv : isContainer v := by
      cases v <;> first | rfl | cases hk
    have hbelow : below (some v) s = some x := by
      rw [below, Option.bind_some, if_pos hv, JsValue.read, property_of_kid hdistinct hk,
        Option.getD_some]
    rw [List.foldl_cons, hbelow]
    exact ih (distinct_of_kid hdistinct hk)

/-- Edited data keep the secrets: on their way back they become what the same edit makes of the
saved data, with the new values where there are some, and everywhere else with the value that
was there. -/
def KeepsSecrets (e : Edit) (savedData edited : List (String × JsValue)) : Prop :=
  unredact edited savedData = e.apply (.object savedData)

/-- Each sentinel that the edit leaves is now where the saved data have the value that it stands
for: at its old place, or at one where they have the same value. -/
def StandsForSame (e : Edit) (savedData : List (String × JsValue)) (redacted : JsValue) : Prop :=
  ∀ p q sentinel value, e.Left redacted p q sentinel → isSentinel sentinel = true →
    At (.object savedData) q value →
      (savedAt (.object savedData) p).getD sentinel = value

theorem standsForSame_of_unmoved {e : Edit} {savedData : List (String × JsValue)}
    {redacted : JsValue} (hdistinct : (JsValue.object savedData).Distinct)
    (h : ∀ p q w, e.Left redacted p q w → p = q) : StandsForSame e savedData redacted := by
  intro p q sentinel value hleft _ hvalue
  rw [h p q sentinel hleft, savedAt, savedAt_of_at hdistinct hvalue, Option.getD_some]

/-- **When saving a redacted credential keeps its secrets.**  The redacted data come back as they
were.  Edited data come back with the secrets of the saved ones iff each sentinel that the edit
leaves stands for the same value at its old and its new place. -/
theorem keepsSecrets_iff (credType : Option CredentialType) {data : List (String × JsValue)}
    (hdistinct : (JsValue.object data).Distinct) {redacted : JsValue}
    (hredact : redact data credType = some redacted) :
    (∃ fields, redacted = .object fields ∧ unredact fields data = .object data) ∧
      ∀ (e : Edit) (edited : List (String × JsValue)), e.Fits redacted →
        e.apply redacted = .object edited →
          (KeepsSecrets e data edited ↔ StandsForSame e data redacted) := by
  obtain ⟨hblanked, fields, rfl⟩ := redact_blanked hredact
  constructor
  · refine ⟨fields, rfl, ?_⟩
    rw [unredact_eq]
    refine (restoreWith_iff hdistinct hblanked _).mpr ?_
    exact standsForSame_of_unmoved (e := .keep) hdistinct fun p q w h => by
      cases h
      rfl
  · intro e edited hfits hedited
    rw [KeepsSecrets, unredact_eq, ← hedited]
    exact restoreWith_apply_iff hdistinct hblanked hfits _

def headersProperty : Property where
  name := "headers"
  type := .fixedCollection
  options := [.collection "values" [{ name := "name", type := .string },
    { name := "value", type := .string, password := true }]]

def multipleHeadersAuth : CredentialType where
  properties := [headersProperty]

def headerData (value : String × String) : JsValue :=
  .object [("name", .string value.1), ("value", .string value.2)]

def headersData (values : List (String × String)) : List (String × JsValue) :=
  [("headers", .object [("values", .array (values.map headerData))])]

def removeFirst : Edit :=
  .inside (fun _ => false) (fun _ => .inside (fun _ => false)
    (fun _ => .inside (fun s => s = .item 0) (fun _ => .keep) []) []) []

/-- The headers as the browser has them. -/
def redactedHeaders (names : List String) : List (String × JsValue) :=
  headersData (names.map fun name => (name, CREDENTIAL_BLANKING_VALUE))

theorem keepsSecrets_headers :
    (∃ fields, JsValue.object (redactedHeaders ["a", "b"]) = .object fields ∧
      unredact fields (headersData [("a", "x"), ("b", "y")])
        = .object (headersData [("a", "x"), ("b", "y")])) ∧
      ∀ (e : Edit) (edited : List (String × JsValue)),
        e.Fits (.object (redactedHeaders ["a", "b"])) →
        e.apply (.object (redactedHeaders ["a", "b"])) = .object edited →
          (KeepsSecrets e (headersData [("a", "x"), ("b", "y")]) edited ↔
            StandsForSame e (headersData [("a", "x"), ("b", "y")])
              (.object (redactedHeaders ["a", "b"]))) :=
  keepsSecrets_iff (some multipleHeadersAuth)
    (by simp [JsValue.Distinct, JsValue.DistinctFields, JsValue.DistinctItems, headersData,
      headerData])
    (by decide)

/-- The second header gets the secret of the first one, which is removed. -/
theorem not_keepsSecrets_removeFirst :
    redact (headersData [("a", "x"), ("b", "y")]) multipleHeadersAuth
        = some (.object (redactedHeaders ["a", "b"])) ∧
      removeFirst.Fits (.object (redactedHeaders ["a", "b"])) ∧
      removeFirst.apply (.object (redactedHeaders ["a", "b"])) = .object (redactedHeaders ["b"]) ∧
      unredact (redactedHeaders ["b"]) (headersData [("a", "x"), ("b", "y")])
        = .object (headersData [("b", "x")]) ∧
      ¬ KeepsSecrets removeFirst (headersData [("a", "x"), ("b", "y")])
        (redactedHeaders ["b"]) := by
  refine ⟨by decide, ?_, by decide, by decide, ?_⟩
  · simp [removeFirst, Edit.Fits, redactedHeaders, headersData, isContainer, Edit.kept, kids]
  · rw [KeepsSecrets]
    decide

end N8n
