/-
Paths and patterns of paths.

A path is a list of segments between slashes; a pattern is a path some of whose segments
are parameters, with a colon in front.  A request fits a pattern if it has as many segments
and each static segment of the pattern at the same place.

* **`fill_iff`** — the values that a pattern binds, put back into it, give the request iff
  equal parameters stand at equal segments and none of them has the forbidden name.
-/
import N8n.Dict
import Mathlib.Data.List.Forall2

namespace N8n

namespace Dict

variable {κ α : Type*} [DecidableEq κ]

def setAll (d : Dict κ α) (entries : List (κ × α)) : Dict κ α :=
  entries.foldl (fun d e => d.set e.1 e.2) d

theorem get?_setAll_of_not_mem {k : κ} : ∀ {entries : List (κ × α)} {d : Dict κ α},
    (∀ e ∈ entries, e.1 ≠ k) → (d.setAll entries).get? k = d.get? k
  | [], _, _ => rfl
  | e :: entries, d, h => by
    obtain ⟨he, hentries⟩ := List.forall_mem_cons.mp h
    have hrest : ((d.set e.1 e.2).setAll entries).get? k = (d.set e.1 e.2).get? k :=
      get?_setAll_of_not_mem hentries
    rw [setAll, List.foldl_cons, ← setAll, hrest, get?_set, if_neg (Ne.symm he)]

theorem get?_setAll_of_agree {k : κ} {v : α} : ∀ {entries : List (κ × α)} {d : Dict κ α},
    (∀ e ∈ entries, e.1 = k → e.2 = v) → d.get? k = some v ∨ (k, v) ∈ entries →
      (d.setAll entries).get? k = some v
  | [], _, _, hfirst => hfirst.resolve_right List.not_mem_nil
  | e :: entries, d, h, hfirst => by
    obtain ⟨he, hentries⟩ := List.forall_mem_cons.mp h
    rw [setAll, List.foldl_cons, ← setAll]
    refine get?_setAll_of_agree hentries ?_
    by_cases hk : e.1 = k
    · exact .inl (by rw [get?_set, if_pos hk.symm, he hk])
    · rw [get?_set, if_neg (Ne.symm hk)]
      refine hfirst.imp_right fun hmem => (List.mem_cons.mp hmem).resolve_left fun heq => hk ?_
      rw [← heq]

end Dict

namespace PathPattern

def segments (path : String) : List String := (path.toList.splitOn '/').map String.ofList

theorem segments_ne_nil (path : String) : segments path ≠ [] := by
  rw [segments, ne_eq, List.map_eq_nil_iff]
  exact List.splitOn_ne_nil '/' path.toList

theorem segments_append (front path : String) :
    segments (front ++ "/" ++ path) = segments front ++ segments path := by
  have hslash : (front ++ "/" ++ path).toList = front.toList ++ '/' :: path.toList := by
    rw [String.toList_append, String.toList_append, List.append_assoc]
    rfl
  rw [segments, hslash, List.splitOn_append_cons_self, List.map_append, segments, segments]

variable {segment : String}

theorem segments_join (h : '/' ∉ segment.toList) (path : String) :
    segments (segment ++ "/" ++ path) = segment :: segments path := by
  have hone : segments segment = [segment] := by
    rw [segments, List.splitOn_eq_singleton h, List.map_singleton, String.ofList_toList]
  rw [segments_append, hone, List.singleton_append]

theorem not_mem_of_mem_splitOn {α : Type*} [DecidableEq α] {a : α} {l part : List α}
    (h : part ∈ l.splitOn a) : a ∉ part := by
  induction l generalizing part with
  | nil =>
    rw [List.splitOn_nil, List.mem_singleton] at h
    rw [h]
    exact List.not_mem_nil
  | cons c l ih =>
    rw [List.splitOn_cons_eq_if_modifyHead] at h
    split at h
    · rcases List.mem_cons.mp h with rfl | h
      · exact List.not_mem_nil
      · exact ih h
    · rename_i hc
      cases hsplit : l.splitOn a with
      | nil =>
        rw [hsplit] at h
        cases h
      | cons first parts =>
        rw [hsplit] at h ih
        rcases List.mem_cons.mp h with rfl | h
        · have hca : a ≠ c := fun hac => hc (by simp [hac])
          exact List.not_mem_cons_of_ne_of_not_mem hca (ih List.mem_cons_self)
        · exact ih (List.mem_cons_of_mem first h)

theorem slash_not_mem (path : String) (h : segment ∈ segments path) :
    '/' ∉ segment.toList := by
  obtain ⟨chars, hchars, rfl⟩ := List.mem_map.mp h
  rw [String.toList_ofList]
  exact not_mem_of_mem_splitOn hchars

def isParam (segment : String) : Bool := segment.toList.head? = some ':'

def paramName (segment : String) : String := String.ofList (segment.toList.drop 1)

def statics (pattern : List String) : List String := pattern.filter fun segment => !isParam segment

/-- Each static segment of the pattern stands in the request at the same place. -/
def Fits (pattern request : List String) : Prop :=
  List.Forall₂ (fun p s => isParam p = false → p = s) pattern request

instance (pattern request : List String) : Decidable (Fits pattern request) :=
  inferInstanceAs (Decidable (List.Forall₂ _ pattern request))

theorem paramName_injective {p q : String} (hp : isParam p = true) (hq : isParam q = true)
    (h : paramName p = paramName q) : p = q := by
  have hchars : ∀ {s : String}, isParam s = true → s.toList = ':' :: (paramName s).toList := by
    intro s hs
    rw [paramName, String.toList_ofList]
    cases hl : s.toList with
    | nil => simp [isParam, hl] at hs
    | cons c l =>
      simp only [isParam, hl, List.head?_cons, Option.some.injEq, decide_eq_true_eq] at hs
      rw [hs, List.drop_one, List.tail_cons]
  rw [← String.toList_inj, hchars hp, hchars hq, h]

variable {pattern : List String} {request : List String}

theorem Fits.mem_of_mem_statics (h : Fits pattern request) (hmem : segment ∈ statics pattern) : segment ∈ request := by
  obtain ⟨hpattern, hstatic⟩ := List.mem_filter.mp hmem
  have hstatic : isParam segment = false := by simpa using hstatic
  clear hmem
  induction h with
  | nil => cases hpattern
  | @cons p s pattern request hp _ ih =>
    rcases List.mem_cons.mp hpattern with rfl | hpattern
    · rw [← hp hstatic]
      exact List.mem_cons_self
    · exact List.mem_cons_of_mem s (ih hpattern)

theorem Fits.length_statics_le (h : Fits pattern request) :
    (statics pattern).length ≤ (statics request).length := by
  induction h with
  | nil => exact Nat.le_refl 0
  | @cons p s pattern request hp _ ih =>
    cases hparam : isParam p with
    | true =>
      have hskip : statics (p :: pattern) = statics pattern := by simp [statics, hparam]
      have hsub : (statics request).Sublist (statics (s :: request)) :=
        (List.sublist_cons_self s request).filter _
      rw [hskip]
      exact ih.trans hsub.length_le
    | false =>
      have hkeep : ∀ l, statics (p :: l) = p :: statics l := by simp [statics, hparam]
      rw [← hp hparam, hkeep, hkeep]
      exact Nat.succ_le_succ ih

theorem Fits.refl (pattern : List String) : Fits pattern pattern :=
  List.forall₂_same.mpr fun _ _ _ => rfl

def positions (pattern elements : List String) : List (String × Option String) :=
  pattern.zipIdx.map fun p => (p.1, elements[p.2]?)

/-- What the parameters write, but for the parameter that cannot be written. -/
def bindings (forbidden : String) (positions : List (String × Option String)) :
    List (String × Option String) :=
  positions.filterMap fun p =>
    if isParam p.1 = true ∧ paramName p.1 ≠ forbidden then some (paramName p.1, p.2) else none

def fill (params : Dict String (Option String)) (segment : String) : Option String :=
  if isParam segment then (params.get? (paramName segment)).join else some segment

/-- No parameter is the one that cannot be written, and equal parameters stand at equal
segments. -/
def Bindable (forbidden : String) (pattern request : List String) : Prop :=
  (∀ p ∈ pattern, isParam p = true → paramName p ≠ forbidden) ∧
    ∀ e ∈ pattern.zip request, ∀ e' ∈ pattern.zip request,
      isParam e.1 = true → e.1 = e'.1 → e.2 = e'.2

theorem positions_eq_zip (h : pattern.length = request.length)
    (more : List String) :
    positions pattern (request ++ more) = pattern.zip (request.map some) := by
  refine List.ext_getElem (by simp [positions, h]) fun i hi _ => ?_
  have hpattern : i < pattern.length := by simpa [positions] using hi
  simp [positions, List.getElem?_append_left (h ▸ hpattern), h ▸ hpattern]

theorem bindings_cons (forbidden : String) (p : String × Option String)
    (positions : List (String × Option String)) : bindings forbidden (p :: positions)
      = if isParam p.1 = true ∧ paramName p.1 ≠ forbidden then
          (paramName p.1, p.2) :: bindings forbidden positions
        else bindings forbidden positions := by
  by_cases h : isParam p.1 = true ∧ paramName p.1 ≠ forbidden
  · simp only [bindings, List.filterMap_cons, if_pos h]
  · simp only [bindings, List.filterMap_cons, if_neg h]

variable {forbidden : String} {value : Option String}

theorem mem_bindings {name : String}
    {positions : List (String × Option String)} :
    (name, value) ∈ bindings forbidden positions ↔ ∃ p, (p, value) ∈ positions ∧
      isParam p = true ∧ paramName p = name ∧ name ≠ forbidden := by
  simp only [bindings, List.mem_filterMap, Prod.exists, Option.ite_none_right_eq_some,
    Option.some.injEq, Prod.mk.injEq]
  constructor
  · rintro ⟨p, v, hmem, ⟨hparam, hname⟩, rfl, rfl⟩
    exact ⟨p, hmem, hparam, rfl, hname⟩
  · rintro ⟨p, hmem, hparam, rfl, hname⟩
    exact ⟨p, value, hmem, ⟨hparam, hname⟩, rfl, rfl⟩

theorem get?_forbidden (forbidden : String) (positions : List (String × Option String)) :
    (Dict.empty.setAll (bindings forbidden positions)).get? forbidden = none := by
  rw [Dict.get?_setAll_of_not_mem]
  · rfl
  · rintro ⟨name, value⟩ he heq
    obtain ⟨_, _, _, _, hne⟩ := mem_bindings.mp he
    exact hne heq

theorem get?_bindings_of_agree {p : String}
    {positions : List (String × Option String)} (hparam : isParam p = true)
    (hforbidden : paramName p ≠ forbidden) (hmem : (p, value) ∈ positions)
    (hagree : ∀ value', (p, value') ∈ positions → value' = value) :
    (Dict.empty.setAll (bindings forbidden positions)).get? (paramName p) = some value := by
  refine Dict.get?_setAll_of_agree ?_ (.inr ?_)
  · -- the other entries of this name are of the same parameter
    rintro ⟨name, value'⟩ he rfl
    obtain ⟨q, hq, hqparam, hqname, -⟩ := mem_bindings.mp he
    rw [paramName_injective hqparam hparam hqname] at hq
    exact hagree value' hq
  · exact mem_bindings.mpr ⟨p, hmem, hparam, rfl, hforbidden⟩

/-- **When the parameters give the request back.**  Of a request that fits the pattern. -/
theorem fill_iff (h : Fits pattern request)
    (more : List String) :
    pattern.map (fill (Dict.empty.setAll (bindings forbidden (positions pattern
        (request ++ more))))) = request.map some
      ↔ Bindable forbidden pattern request := by
  rw [positions_eq_zip h.length_eq]
  have hmem : ∀ {p : String} {value : Option String},
      (p, value) ∈ pattern.zip (request.map some) ↔
        ∃ s, (p, s) ∈ pattern.zip request ∧ some s = value := by
    intro p value
    rw [List.zip_map_right, List.mem_map]
    constructor
    · rintro ⟨⟨p', s⟩, hps, heq⟩
      rw [Prod.map_apply, Prod.mk.injEq] at heq
      rw [← heq.1]
      exact ⟨s, hps, heq.2⟩
    · rintro ⟨s, hps, rfl⟩
      exact ⟨(p, s), hps, rfl⟩
  rw [← List.forall₂_eq_eq_eq, List.forall₂_map_left_iff, List.forall₂_map_right_iff,
    List.forall₂_iff_zip]
  constructor
  · rintro ⟨-, hfill⟩
    refine ⟨fun p hp hparam hname => ?_, fun e he e' he' _ heq => ?_⟩
    · rw [← List.map_fst_zip h.length_eq.le] at hp
      obtain ⟨⟨p, s⟩, hps, rfl⟩ := List.mem_map.mp hp
      have hp := hfill hps
      rw [fill, if_pos hparam, hname, get?_forbidden] at hp
      cases hp
    · have hs := hfill he
      rw [heq, hfill he', Option.some.injEq] at hs
      exact hs.symm
  · rintro ⟨hforbidden, hagree⟩
    refine ⟨h.length_eq, fun {p s} hps => ?_⟩
    cases hparam : isParam p with
    | false => rw [fill, hparam, if_neg Bool.false_ne_true, List.forall₂_zip h hps hparam]
    | true =>
      have hname := hforbidden p (List.of_mem_zip hps).1 hparam
      rw [fill, if_pos hparam, get?_bindings_of_agree hparam hname (hmem.mpr ⟨s, hps, rfl⟩),
        Option.join_some]
      intro value hvalue
      obtain ⟨s', hps', rfl⟩ := hmem.mp hvalue
      exact congrArg some (hagree (p, s') hps' (p, s) hps hparam rfl)

theorem exists_last_param (h : ∃ p ∈ pattern, isParam p = true) :
    ∃ before p after, pattern = before ++ p :: after ∧ isParam p = true ∧
      ∀ q ∈ after, isParam q = false := by
  induction pattern with
  | nil =>
    obtain ⟨p, hp, -⟩ := h
    cases hp
  | cons q pattern ih =>
    by_cases hrest : ∃ p ∈ pattern, isParam p = true
    · obtain ⟨before, p, after, rfl, hp, hafter⟩ := ih hrest
      exact ⟨q :: before, p, after, rfl, hp, hafter⟩
    · refine ⟨[], q, pattern, rfl, ?_, fun p hp => ?_⟩
      · obtain ⟨p, hp, hparam⟩ := h
        rcases List.mem_cons.mp hp with rfl | hp
        · exact hparam
        · exact absurd ⟨p, hp, hparam⟩ hrest
      · exact Bool.eq_false_iff.mpr fun hparam => hrest ⟨p, hp, hparam⟩

theorem bindings_eq_nil {positions : List (String × Option String)}
    (h : ∀ e ∈ positions, isParam e.1 = false) : bindings forbidden positions = [] := by
  refine List.filterMap_eq_nil_iff.mpr fun e he => if_neg fun hparam => ?_
  rw [h e he] at hparam
  cases hparam.1

theorem fill_shifted_ne {more : List String}
    (h : ∃ p ∈ pattern, isParam p = true) (hmore : ∀ q ∈ more, isParam q = false) :
    pattern.map (fill (Dict.empty.setAll (bindings forbidden (positions pattern
        ((pattern ++ more).drop 1))))) ≠ pattern.map some := by
  obtain ⟨before, p, after, hpattern, hp, hafter⟩ := exists_last_param h
  generalize hparams : Dict.empty.setAll (bindings forbidden (positions pattern
    ((pattern ++ more).drop 1))) = params
  intro heq
  have hfill : fill params p = some p :=
    List.map_inj_left.mp heq p (by simp [hpattern])
  rw [fill, if_pos hp] at hfill
  -- what stands one place after the last parameter
  have hnext : ∀ q, ((pattern ++ more).drop 1)[before.length]? = some q → isParam q = false := by
    intro q hq
    have hsplit : pattern ++ more = (before ++ [p]) ++ (after ++ more) := by simp [hpattern]
    have hlength : (before ++ [p]).length = 1 + before.length := by simp [Nat.add_comm]
    rw [List.getElem?_drop, hsplit, List.getElem?_append_right hlength.le] at hq
    rcases List.mem_append.mp (List.mem_of_getElem? hq) with hq | hq
    · exact hafter q hq
    · exact hmore q hq
  have hget : params.get? (paramName p) = none ∨
      params.get? (paramName p) = some ((pattern ++ more).drop 1)[before.length]? := by
    by_cases hname : paramName p = forbidden
    · refine .inl ?_
      rw [← hparams, hname, get?_forbidden]
    · refine .inr ?_
      generalize (pattern ++ more).drop 1 = elements at hparams ⊢
      have hrest : bindings forbidden ((after.zipIdx (before.length + 1)).map
          fun q => (q.1, elements[q.2]?)) = [] := by
        refine bindings_eq_nil fun e he => ?_
        obtain ⟨q, hq, rfl⟩ := List.mem_map.mp he
        exact hafter q.1 (List.fst_mem_of_mem_zipIdx hq)
      have hlast : bindings forbidden (positions pattern elements)
          = bindings forbidden (positions before elements)
            ++ [(paramName p, elements[before.length]?)] := by
        rw [hpattern, positions, List.zipIdx_append, List.zipIdx_cons, List.map_append,
          List.map_cons, bindings, List.filterMap_append, List.filterMap_cons,
          if_pos ⟨hp, hname⟩, ← bindings, ← bindings, Nat.zero_add, hrest, positions]
      rw [← hparams, hlast, Dict.setAll, List.foldl_append, List.foldl_cons, List.foldl_nil,
        Dict.get?_set, if_pos rfl]
  rcases hget with hget | hget
  · rw [hget] at hfill
    cases hfill
  · rw [hget, Option.join_some] at hfill
    rw [hnext p hfill] at hp
    cases hp

end PathPattern

end N8n
