/-
Text in which brackets of several kinds take turns.

A bracket is a letter written twice, and another letter in front of it escapes it.  The parts
of a text are what stands between its brackets: the first part ends at the first bracket of
its kind that is not escaped, the next at the first such bracket of the next kind, and so on.

* `unescape_escape`, **`escape_unescape_iff`** — escaping the first bracket of a part undoes
  unescaping it iff the letter of the bracket does not stand in front of the escape.
-/
import Mathlib.Data.List.Infix

namespace N8n.BracketParts

section

variable {α : Type*} [DecidableEq α]

def replaceFirst (pattern replacement : List α) : List α → List α
  | [] => []
  | c :: s =>
    if pattern.isPrefixOf (c :: s) then replacement ++ (c :: s).drop pattern.length
    else c :: replaceFirst pattern replacement s

variable {pattern replacement : List α}

theorem replaceFirst_of_absent {s : List α} (h : ¬ pattern <:+: s) :
    replaceFirst pattern replacement s = s := by
  induction s with
  | nil => rfl
  | cons c s ih =>
    rw [List.infix_cons_iff, not_or] at h
    rw [replaceFirst, if_neg fun hp => h.1 (List.isPrefixOf_iff_prefix.mp hp), ih h.2]

/-- The pattern stands behind `u`, and nowhere before. -/
def FirstAt (pattern u v : List α) : Prop :=
  ∀ w, w <:+ u → w ≠ [] → ¬ pattern <+: w ++ (pattern ++ v)

theorem replaceFirst_append (hne : pattern ≠ []) {u v : List α} (h : FirstAt pattern u v) :
    replaceFirst pattern replacement (u ++ (pattern ++ v)) = u ++ (replacement ++ v) := by
  induction u with
  | nil =>
    rcases hp : pattern with _ | ⟨c, p⟩
    · exact absurd hp hne
    · have hprefix : (c :: p).isPrefixOf (c :: (p ++ v)) = true :=
        List.isPrefixOf_iff_prefix.mpr (List.prefix_append (c :: p) v)
      rw [List.nil_append, List.cons_append, replaceFirst, if_pos hprefix, ← List.cons_append,
        List.drop_left, List.nil_append]
  | cons c u ih =>
    have hfirst := h (c :: u) (List.suffix_refl _) (List.cons_ne_nil _ _)
    rw [List.cons_append] at hfirst ⊢
    rw [replaceFirst, if_neg fun hp => hfirst (List.isPrefixOf_iff_prefix.mp hp),
      ih fun w hw => h w (hw.trans (List.suffix_cons c u)), List.cons_append]

omit [DecidableEq α] in
theorem FirstAt.eq {u v u' v' : List α} (h : FirstAt pattern u v) (h' : FirstAt pattern u' v')
    (heq : u ++ (pattern ++ v) = u' ++ (pattern ++ v')) : u = u' := by
  rcases List.append_eq_append_iff.mp heq with ⟨w, rfl, hw⟩ | ⟨w, rfl, hw⟩
  · by_contra hne
    exact h' w (List.suffix_append u w) (fun hnil => hne (by rw [hnil, List.append_nil]))
      (hw ▸ List.prefix_append pattern v)
  · by_contra hne
    exact h w (List.suffix_append u' w) (fun hnil => hne (by rw [hnil, List.append_nil]))
      (hw ▸ List.prefix_append pattern v')

omit [DecidableEq α] in
theorem FirstAt.absent (hne : pattern ≠ []) {u v : List α} (h : FirstAt pattern u v) :
    ¬ pattern <:+: u := by
  rintro ⟨a, c, rfl⟩
  refine h (pattern ++ c) ⟨a, (List.append_assoc _ _ _).symm⟩ ?_ ?_
  · exact fun hnil => hne (List.append_eq_nil_iff.mp hnil).1
  · exact ⟨c ++ (pattern ++ v), (List.append_assoc _ _ _).symm⟩

theorem exists_firstAt {s : List α} (h : pattern <:+: s) :
    ∃ u v, s = u ++ (pattern ++ v) ∧ FirstAt pattern u v := by
  induction s with
  | nil =>
    refine ⟨[], [], ?_, fun w hw hne => absurd (List.suffix_nil.mp hw) hne⟩
    rw [List.infix_nil.mp h]
    rfl
  | cons c s ih =>
    by_cases hp : pattern <+: c :: s
    · obtain ⟨v, hv⟩ := hp
      exact ⟨[], v, hv.symm, fun w hw hne => absurd (List.suffix_nil.mp hw) hne⟩
    · obtain ⟨u, v, rfl, hfirst⟩ := ih ((List.infix_cons_iff.mp h).resolve_left hp)
      refine ⟨c :: u, v, rfl, fun w hw hne => ?_⟩
      rcases List.suffix_cons_iff.mp hw with rfl | hw
      · exact hp
      · exact hfirst w hw hne

end

section

variable {α M : Type*} [DecidableEq α] (e : α) (b : M → α) (n : M → M)

def consHead (as : List α) : List (List α) → List (List α)
  | [] => [as]
  | p :: ps => (as ++ p) :: ps

/-- The parts of a text; the first one ends at a bracket of the given kind. -/
def parts : M → List α → List (List α)
  | _, [] => [[]]
  | _, [x] => [[x]]
  | m, [x, y] => if x = b m ∧ y = b m then [[], []] else consHead [x] (parts m [y])
  | m, x :: y :: z :: s =>
    if x = e ∧ y = b m ∧ z = b m then consHead [x, y, z] (parts m s)
    else if x = b m ∧ y = b m then [] :: parts (n m) (z :: s)
    else consHead [x] (parts m (y :: z :: s))

def glue : M → List (List α) → List α
  | _, [] => []
  | _, [p] => p
  | m, p :: q :: ps => p ++ b m :: b m :: glue (n m) (q :: ps)

/-- A part that ends where a bracket is put behind it. -/
def Inner (m : M) (p : List α) : Prop := parts e b n m (p ++ [b m, b m]) = [p, []]

/-- A text without a bracket that is not escaped. -/
def Unsplit (m : M) (p : List α) : Prop := parts e b n m p = [p]

end

section

variable {α M : Type*} [DecidableEq α] {e : α} {b : M → α} {n : M → M} {m : M}
  {p q s t : List α} {ps : List (List α)}

omit [DecidableEq α] in
theorem consHead_eq_cons {as : List α} {qs : List (List α)} (hne : ps ≠ []) :
    consHead as ps = q :: qs ↔ ∃ p, ps = p :: qs ∧ q = as ++ p := by
  rcases ps with _ | ⟨p, ps⟩
  · exact absurd rfl hne
  · rw [consHead, List.cons.injEq]
    constructor
    · rintro ⟨rfl, rfl⟩
      exact ⟨p, rfl, rfl⟩
    · rintro ⟨p', h, rfl⟩
      cases h
      exact ⟨rfl, rfl⟩

omit [DecidableEq α] in
theorem consHead_ne_nil (as : List α) (ps : List (List α)) : consHead as ps ≠ [] := by
  cases ps <;> exact List.cons_ne_nil _ _

omit [DecidableEq α] in
theorem consHead_consHead (as as' : List α) (ps : List (List α)) :
    consHead as (consHead as' ps) = consHead (as ++ as') ps := by
  cases ps with
  | nil => rfl
  | cons p ps => rw [consHead, consHead, consHead, List.append_assoc]

omit [DecidableEq α] in
theorem consHead_nil (hne : ps ≠ []) : consHead [] ps = ps := by
  cases ps with
  | nil => exact absurd rfl hne
  | cons p ps => rfl

theorem parts_pair (x y : α) : parts e b n m [x, y] =
    if x = b m ∧ y = b m then [[], []] else consHead [x] [[y]] := rfl

theorem parts_escape : parts e b n m (e :: b m :: b m :: t) =
    consHead [e, b m, b m] (parts e b n m t) := by
  rw [parts, if_pos ⟨rfl, rfl, rfl⟩]

theorem parts_bracket (he : b m ≠ e) :
    parts e b n m (b m :: b m :: t) = [] :: parts e b n (n m) t := by
  rcases t with _ | ⟨z, t⟩
  · rw [parts_pair, if_pos ⟨rfl, rfl⟩, parts]
  · rw [parts, if_neg fun h => he h.1, if_pos ⟨rfl, rfl⟩]

/-- No bracket starts at the letter, and none is escaped by it. -/
structure Plain (e : α) (b : M → α) (m : M) (x : α) (s : List α) : Prop where
  escape : x = e → ∀ t, s ≠ b m :: b m :: t
  bracket : x = b m → ∀ t, s ≠ b m :: t

variable {x : α}

theorem parts_plain (h : Plain e b m x s) :
    parts e b n m (x :: s) = consHead [x] (parts e b n m s) := by
  rcases s with _ | ⟨y, _ | ⟨z, s⟩⟩
  · rw [parts, parts]
    rfl
  · rw [parts_pair, if_neg]
    · rfl
    · rintro ⟨hx, rfl⟩
      exact h.bracket hx [] rfl
  · rw [parts, if_neg, if_neg]
    · rintro ⟨hx, rfl⟩
      exact h.bracket hx _ rfl
    · rintro ⟨hx, rfl, rfl⟩
      exact h.escape hx _ rfl

/-- **The ways in which a text goes on**: with an escaped bracket, a bracket, or a letter. -/
theorem parts_induction {P : M → List α → Prop} (nil : ∀ m, P m [])
    (escape : ∀ m t, P m t → P m (e :: b m :: b m :: t))
    (bracket : ∀ m t, P (n m) t → P m (b m :: b m :: t))
    (plain : ∀ m x s, Plain e b m x s → P m s → P m (x :: s)) (m : M) (s : List α) : P m s := by
  induction hlen : s.length using Nat.strong_induction_on generalizing m s with
  | _ n ih =>
    subst hlen
    rcases s with _ | ⟨x, s⟩
    · exact nil m
    · by_cases hplain : Plain e b m x s
      · exact plain m x s hplain (ih s.length (Nat.lt_succ_self _) m s rfl)
      · by_cases hescape : x = e ∧ ∃ t, s = b m :: b m :: t
        · obtain ⟨rfl, t, rfl⟩ := hescape
          exact escape m t (ih t.length (by simp only [List.length_cons]; omega) m t rfl)
        · have hbracket : x = b m ∧ ∃ t, s = b m :: t := by
            by_contra hnot
            refine hplain ⟨fun hx t ht => hescape ⟨hx, t, ht⟩, fun hx t ht => hnot ⟨hx, t, ht⟩⟩
          obtain ⟨rfl, t, rfl⟩ := hbracket
          exact bracket m t (ih t.length (by simp only [List.length_cons]; omega) (n m) t rfl)

theorem parts_ne_nil (m : M) (s : List α) : parts e b n m s ≠ [] := by
  rcases s with _ | ⟨x, _ | ⟨y, _ | ⟨z, s⟩⟩⟩
  · exact List.cons_ne_nil _ _
  · exact List.cons_ne_nil _ _
  · rw [parts_pair]
    split
    · exact List.cons_ne_nil _ _
    · exact consHead_ne_nil _ _
  · rw [parts]
    split
    · exact consHead_ne_nil _ _
    · split
      · exact List.cons_ne_nil _ _
      · exact consHead_ne_nil _ _

omit [DecidableEq α] in
theorem glue_consHead (as : List α) : glue b n m (consHead as ps) = as ++ glue b n m ps := by
  rcases ps with _ | ⟨p, _ | ⟨q, ps⟩⟩
  · simp [consHead, glue]
  · rfl
  · simp [consHead, glue]

/-- **The parts make up the text.** -/
theorem glue_parts (he : ∀ m, b m ≠ e) (m : M) (s : List α) : glue b n m (parts e b n m s) = s := by
  induction m, s using parts_induction (e := e) (b := b) (n := n) with
  | nil m => rfl
  | escape m t ih => rw [parts_escape, glue_consHead, ih]; rfl
  | bracket m t ih =>
    rw [parts_bracket (he m)]
    rcases hp : parts e b n (n m) t with _ | ⟨q, ps⟩
    · exact absurd hp (parts_ne_nil _ _)
    · rw [hp] at ih
      rw [glue, ih]
      rfl
  | plain m x s hplain ih => rw [parts_plain hplain, glue_consHead, ih]; rfl

theorem eq_of_parts_eq_singleton (he : ∀ m, b m ≠ e) (h : parts e b n m s = [p]) : s = p := by
  have hglue := glue_parts (n := n) he m s
  rw [h] at hglue
  exact hglue.symm

theorem inner_nil (he : ∀ m, b m ≠ e) : Inner e b n m [] := parts_bracket (he m)

omit [DecidableEq α] in
theorem plain_append_iff : Plain e b m x (p ++ b m :: b m :: t) ↔
    Plain e b m x (p ++ [b m, b m]) := by
  have hcond : ∀ {p t u : List α}, (∀ v, p ++ b m :: b m :: t ≠ b m :: b m :: v) →
      ∀ v, p ++ b m :: b m :: u ≠ b m :: b m :: v := by
    intro p t u h v hv
    rcases p with _ | ⟨y, _ | ⟨z, p⟩⟩
    · exact h t rfl
    · have hy : y = b m := (List.cons.inj hv).1
      exact h (b m :: t) (by rw [hy]; rfl)
    · have hy : y = b m := (List.cons.inj hv).1
      have hz : z = b m := (List.cons.inj (List.cons.inj hv).2).1
      exact h (p ++ b m :: b m :: t) (by rw [hy, hz]; rfl)
  have hcond' : ∀ {p t u : List α}, (∀ v, p ++ b m :: b m :: t ≠ b m :: v) →
      ∀ v, p ++ b m :: b m :: u ≠ b m :: v := by
    intro p t u h v hv
    rcases p with _ | ⟨y, p⟩
    · exact h (b m :: t) rfl
    · have hy : y = b m := (List.cons.inj hv).1
      exact h (p ++ b m :: b m :: t) (by rw [hy]; rfl)
  exact ⟨fun h => ⟨fun hx => hcond (h.escape hx), fun hx => hcond' (h.bracket hx)⟩,
    fun h => ⟨fun hx => hcond (h.escape hx), fun hx => hcond' (h.bracket hx)⟩⟩

theorem plain_of_inner_cons (he : ∀ m, b m ≠ e) (hx : Plain e b m x p)
    (h : Inner e b n m (x :: p)) : Plain e b m x (p ++ [b m, b m]) := by
  rcases p with _ | ⟨y, _ | ⟨z, p⟩⟩
  · -- an escape or a bracket would take the bracket behind it away
    refine ⟨?_, ?_⟩
    · rintro rfl t -
      have hnot : parts x b n m [x, b m, b m] = [[x, b m, b m]] := parts_escape
      rw [Inner, List.singleton_append, hnot] at h
      simp at h
    · rintro rfl t -
      have hnot : parts e b n m [b m, b m, b m] = [] :: parts e b n (n m) [b m] :=
        parts_bracket (he m)
      rw [Inner, List.singleton_append, hnot] at h
      simp at h
  · refine ⟨?_, ?_⟩
    · rintro rfl t ht
      have hy : y = b m := (List.cons.inj ht).1
      rw [hy] at h
      have hnot : parts x b n m [x, b m, b m, b m] = [[x, b m, b m, b m]] := parts_escape
      rw [Inner, List.cons_append, List.singleton_append, hnot] at h
      simp at h
    · rintro rfl t ht
      exact hx.bracket rfl [] (by rw [(List.cons.inj ht).1])
  · refine ⟨?_, ?_⟩
    · rintro rfl t ht
      obtain ⟨hy, hrest⟩ := List.cons.inj ht
      exact hx.escape rfl p (by rw [hy, (List.cons.inj hrest).1])
    · rintro rfl t ht
      exact hx.bracket rfl (z :: p) (by rw [(List.cons.inj ht).1])

theorem inner_cons_iff (hx : Plain e b m x (p ++ [b m, b m])) :
    Inner e b n m (x :: p) ↔ Inner e b n m p := by
  rw [Inner, List.cons_append, parts_plain hx, consHead_eq_cons (parts_ne_nil _ _), Inner]
  constructor
  · rintro ⟨q, hq, heq⟩
    rw [List.singleton_append, List.cons.injEq] at heq
    rw [hq, heq.2]
  · exact fun h => ⟨p, h, rfl⟩

theorem inner_escape_iff : Inner e b n m (e :: b m :: b m :: p) ↔ Inner e b n m p := by
  rw [Inner, List.cons_append, List.cons_append, List.cons_append, parts_escape,
    consHead_eq_cons (parts_ne_nil _ _), Inner]
  constructor
  · rintro ⟨q, hq, heq⟩
    simp only [List.cons_append, List.nil_append, List.cons.injEq, true_and] at heq
    rw [hq, heq]
  · exact fun h => ⟨p, h, rfl⟩

theorem not_inner_bracket (he : ∀ m, b m ≠ e) : ¬ Inner e b n m (b m :: b m :: p) := by
  intro h
  rw [Inner, List.cons_append, List.cons_append, parts_bracket (he m)] at h
  simp at h

/-- **A part that ends at the bracket behind it** does so in every text. -/
theorem parts_append_of_inner (he : ∀ m, b m ≠ e) (h : Inner e b n m p) (t : List α) :
    parts e b n m (p ++ b m :: b m :: t) = p :: parts e b n (n m) t := by
  induction m, p using parts_induction (e := e) (b := b) (n := n) with
  | nil m => exact parts_bracket (he m)
  | escape m p ih =>
    rw [List.cons_append, List.cons_append, List.cons_append, parts_escape,
      ih (inner_escape_iff.mp h)]
    rfl
  | bracket m p _ => exact absurd h (not_inner_bracket he)
  | plain m x p hx ih =>
    have hplain := plain_of_inner_cons he hx h
    rw [List.cons_append, parts_plain (plain_append_iff.mpr hplain),
      ih ((inner_cons_iff hplain).mp h)]
    rfl

theorem exists_of_parts_eq_cons_cons (he : ∀ m, b m ≠ e) (h : parts e b n m s = p :: q :: ps) :
    ∃ t, s = p ++ b m :: b m :: t ∧ parts e b n (n m) t = q :: ps ∧ Inner e b n m p := by
  induction m, s using parts_induction (e := e) (b := b) (n := n) generalizing p with
  | nil m => cases h
  | escape m s ih =>
    rw [parts_escape] at h
    obtain ⟨p', hp, rfl⟩ := (consHead_eq_cons (parts_ne_nil _ _)).mp h
    obtain ⟨t, rfl, ht, hinner⟩ := ih hp
    exact ⟨t, rfl, ht, inner_escape_iff.mpr hinner⟩
  | bracket m s ih =>
    rw [parts_bracket (he m), List.cons.injEq] at h
    obtain ⟨rfl, h⟩ := h
    exact ⟨s, rfl, h, inner_nil he⟩
  | plain m x s hx ih =>
    rw [parts_plain hx] at h
    obtain ⟨p', hp, rfl⟩ := (consHead_eq_cons (parts_ne_nil _ _)).mp h
    obtain ⟨t, rfl, ht, hinner⟩ := ih hp
    exact ⟨t, rfl, ht, (inner_cons_iff (plain_append_iff.mp hx)).mpr hinner⟩

theorem unsplit_of_inner (he : ∀ m, b m ≠ e) (h : Inner e b n m p) : Unsplit e b n m p := by
  induction m, p using parts_induction (e := e) (b := b) (n := n) with
  | nil m => rfl
  | escape m p ih => rw [Unsplit, parts_escape, ih (inner_escape_iff.mp h)]; rfl
  | bracket m p _ => exact absurd h (not_inner_bracket he)
  | plain m x p hx ih =>
    rw [Unsplit, parts_plain hx, ih ((inner_cons_iff (plain_of_inner_cons he hx h)).mp h)]
    rfl

def unescapeFirst (e : α) (b : M → α) (m : M) : List α → List α :=
  replaceFirst [e, b m, b m] [b m, b m]

def escapeFirst (e : α) (b : M → α) (m : M) : List α → List α :=
  replaceFirst [b m, b m] [e, b m, b m]

/-- The letter of the bracket does not stand in front of the first escape. -/
def Clear (e : α) (b : M → α) (m : M) (p : List α) : Prop :=
  ∀ u v, p = u ++ ([e, b m, b m] ++ v) → FirstAt [e, b m, b m] u v → u.getLast? ≠ some (b m)

theorem not_infix_of_unsplit (he : ∀ m, b m ≠ e) (h : Unsplit e b n m p) :
    ∀ u v, p = u ++ v → ¬ [e, b m, b m] <:+: u → ¬ [b m, b m] <:+: u := by
  induction m, p using parts_induction (e := e) (b := b) (n := n) with
  | nil m =>
    intro u v huv _
    rw [(List.append_eq_nil_iff.mp huv.symm).1]
    simp
  | escape m p _ =>
    intro u v huv hu
    rcases u with _ | ⟨x, _ | ⟨y, _ | ⟨z, u⟩⟩⟩
    · simp
    · simp [List.infix_cons_iff]
    · obtain ⟨rfl, -⟩ := List.cons.inj huv
      simp [List.infix_cons_iff, List.cons_prefix_cons, he]
    · obtain ⟨rfl, hy⟩ := List.cons.inj huv
      obtain ⟨rfl, hz⟩ := List.cons.inj hy
      obtain ⟨rfl, -⟩ := List.cons.inj hz
      exact absurd ⟨[], u, rfl⟩ hu
  | bracket m p _ =>
    rw [Unsplit, parts_bracket (he m)] at h
    simp at h
  | plain m x p hx ih =>
    intro u v huv hu
    rw [Unsplit, parts_plain hx, consHead_eq_cons (parts_ne_nil _ _)] at h
    obtain ⟨p', hp, hxp⟩ := h
    rw [List.singleton_append, List.cons.injEq] at hxp
    rcases u with _ | ⟨y, u⟩
    · simp
    · obtain ⟨rfl, hrest⟩ := List.cons.inj huv
      rw [List.infix_cons_iff, not_or] at hu ⊢
      refine ⟨?_, ih (hxp.2 ▸ hp) u v hrest hu.2⟩
      rw [List.cons_prefix_cons]
      rintro ⟨rfl, u', rfl⟩
      exact hx.bracket rfl (u' ++ v) hrest

/-- **Escaping can always be undone.** -/
theorem unescape_escape (he : ∀ m, b m ≠ e) (m : M) (p : List α) :
    unescapeFirst e b m (escapeFirst e b m p) = p := by
  rw [unescapeFirst, escapeFirst]
  by_cases h : [b m, b m] <:+: p
  · obtain ⟨u, v, rfl, hfirst⟩ := exists_firstAt h
    rw [replaceFirst_append (List.cons_ne_nil _ _) hfirst,
      replaceFirst_append (List.cons_ne_nil _ _)]
    -- an escape before this one would have a bracket behind it
    rintro w hw hne ⟨t, ht⟩
    rcases w with _ | ⟨x, _ | ⟨y, _ | ⟨z, w⟩⟩⟩
    · exact hne rfl
    · simp [he] at ht
    · simp [he] at ht
    · simp only [List.cons_append, List.nil_append, List.cons.injEq] at ht
      obtain ⟨-, rfl, rfl, -⟩ := ht
      exact hfirst (b m :: b m :: w) ((List.suffix_cons _ _).trans hw) (List.cons_ne_nil _ _)
        ⟨w ++ ([b m, b m] ++ v), rfl⟩
  · have hnot : ¬ [e, b m, b m] <:+: p := fun hin =>
      h (List.IsInfix.trans ⟨[e], [], rfl⟩ hin)
    rw [replaceFirst_of_absent h, replaceFirst_of_absent hnot]

omit [DecidableEq α] in
theorem firstAt_of_no_bracket {u v : List α} (hu : ¬ [b m, b m] <:+: u)
    (hlast : u.getLast? ≠ some (b m)) : FirstAt [b m, b m] u v := by
  rintro w ⟨a, rfl⟩ hne ⟨t, ht⟩
  rcases w with _ | ⟨x, _ | ⟨y, w⟩⟩
  · exact hne rfl
  · simp only [List.cons_append, List.nil_append, List.cons.injEq] at ht
    exact hlast (by rw [← ht.1, List.getLast?_concat])
  · simp only [List.cons_append, List.nil_append, List.cons.injEq] at ht
    obtain ⟨rfl, rfl, -⟩ := ht
    exact hu ⟨a, w, by simp⟩

/-- **What escaping makes of a part whose first escape was taken away.** -/
theorem escape_unescape_iff (he : ∀ m, b m ≠ e) (h : Unsplit e b n m p) :
    (escapeFirst e b m (unescapeFirst e b m p)).length = p.length ∧
      (escapeFirst e b m (unescapeFirst e b m p) = p ↔ Clear e b m p) := by
  by_cases hin : [e, b m, b m] <:+: p
  · obtain ⟨u, v, rfl, hfirst⟩ := exists_firstAt hin
    have hu := not_infix_of_unsplit he h u _ rfl (hfirst.absent (List.cons_ne_nil _ _))
    rw [unescapeFirst, replaceFirst_append (List.cons_ne_nil _ _) hfirst, escapeFirst]
    have hclear : Clear e b m (u ++ ([e, b m, b m] ++ v)) ↔ u.getLast? ≠ some (b m) := by
      refine ⟨fun hc => hc u v rfl hfirst, fun hlast u' v' heq hfirst' => ?_⟩
      rwa [← hfirst.eq hfirst' heq]
    rw [hclear]
    by_cases hlast : u.getLast? = some (b m)
    · -- the first bracket starts one letter early
      obtain ⟨u', rfl⟩ := List.getLast?_eq_some_iff.mp hlast
      have hearly : u' ++ [b m] ++ ([b m, b m] ++ v) = u' ++ ([b m, b m] ++ b m :: v) := by simp
      have hu' : ¬ [b m, b m] <:+: u' := fun hi => hu (hi.trans (List.prefix_append _ _).isInfix)
      have hlast' : u'.getLast? ≠ some (b m) := by
        intro heq
        obtain ⟨u'', rfl⟩ := List.getLast?_eq_some_iff.mp heq
        exact hu ⟨u'', [], by simp⟩
      rw [hearly, replaceFirst_append (List.cons_ne_nil _ _) (firstAt_of_no_bracket hu' hlast')]
      refine ⟨by simp, iff_of_false ?_ (not_not.mpr hlast)⟩
      intro heq
      rw [List.append_assoc, List.append_cancel_left_eq] at heq
      exact he m (List.cons.inj heq).1.symm
    · rw [replaceFirst_append (List.cons_ne_nil _ _) (firstAt_of_no_bracket hu hlast)]
      exact ⟨rfl, iff_of_true rfl hlast⟩
  · have hnot : ¬ [b m, b m] <:+: p :=
      not_infix_of_unsplit he h p [] (List.append_nil p).symm hin
    rw [unescapeFirst, replaceFirst_of_absent hin, escapeFirst, replaceFirst_of_absent hnot]
    refine ⟨rfl, iff_of_true rfl fun u v heq _ => absurd ?_ hin⟩
    exact ⟨u, v, by rw [heq, List.append_assoc]⟩

end

end N8n.BracketParts
