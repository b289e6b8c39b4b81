/-
Runs of a machine that takes one input at a time and may throw.

`step s i` is the state after input `i`, or what was thrown.  A run feeds the
machine a list of inputs and ends early where a step throws.

* `Along step R s is` — every step the run takes satisfies `R`, a relation
  between the state before, the input and the state after;
* `Along.of_step`, `Along.iff_of_step` — the induction over a run, once and
  for all: an invariant and a lemma about one step give the statement about
  every run.
-/
import Mathlib.Data.List.Basic

namespace N8n

variable {σ ι ε : Type*}

/-- Every step of the run of `step` from `s` on the inputs satisfies `R`. -/
def Along (step : σ → ι → Except ε σ) (R : σ → ι → σ → Prop) : σ → List ι → Prop
  | _, [] => True
  | s, i :: is => ∀ s', step s i = .ok s' → R s i s' ∧ Along step R s' is

def runInputs (step : σ → ι → Except ε σ) : σ → List ι → Except ε σ
  | s, [] => .ok s
  | s, i :: is => match step s i with
    | .ok s' => runInputs step s' is
    | .error e => .error e

theorem runInputs_append {step : σ → ι → Except ε σ} {is js : List ι} {s t : σ}
    (h : runInputs step s is = .ok t) : runInputs step s (is ++ js) = runInputs step t js := by
  induction is generalizing s with
  | nil =>
    cases h
    rfl
  | cons i is ih =>
    rw [List.cons_append, runInputs]
    rw [runInputs] at h
    rcases hstep : step s i with e | s'
    · rw [hstep] at h
      cases h
    · rw [hstep] at h
      exact ih h

namespace Along

variable {step : σ → ι → Except ε σ} {R C V : σ → ι → σ → Prop}

theorem cons_iff {s s' : σ} {i : ι} {is : List ι} (h : step s i = .ok s') :
    Along step R s (i :: is) ↔ R s i s' ∧ Along step R s' is := by
  constructor
  · intro ha
    exact ha s' h
  · intro ha s'' h'
    rw [h, Except.ok.injEq] at h'
    exact h' ▸ ha

/-- A run on concrete inputs can be checked step by step. -/
instance decidable [∀ s i s', Decidable (R s i s')] :
    ∀ (s : σ) (is : List ι), Decidable (Along step R s is)
  | _, [] => isTrue trivial
  | s, i :: is => match h : step s i with
    | .ok s' =>
      have := decidable s' is
      decidable_of_iff _ (cons_iff h).symm
    | .error _ => isTrue fun s' h' => by
      rw [h] at h'
      cases h'

theorem mono (h : ∀ s i s', R s i s' → C s i s') :
    ∀ {is : List ι} {s : σ}, Along step R s is → Along step C s is := by
  intro is
  induction is with
  | nil => exact fun _ => trivial
  | cons i is ih =>
    intro s ha s' hstep
    obtain ⟨hr, hrun⟩ := ha s' hstep
    exact ⟨h s i s' hr, ih hrun⟩

theorem always (h : ∀ s i s', R s i s') : ∀ (is : List ι) (s : σ), Along step R s is
  | [], _ => trivial
  | i :: is, s => fun s' _ => ⟨h s i s', always h is s'⟩

theorem of_forall_mem {P : ι → Prop} : ∀ {is : List ι} {s : σ}, (∀ i ∈ is, P i) →
    Along step (fun _ i _ => P i) s is
  | [], _, _ => trivial
  | i :: _, _, h => fun _ _ => ⟨h i List.mem_cons_self,
    of_forall_mem fun j hj => h j (List.mem_cons_of_mem i hj)⟩

theorem last {P : σ → Prop} : ∀ {is : List ι} {s s' : σ}, P s →
    Along step (fun _ _ t => P t) s is → runInputs step s is = .ok s' → P s' := by
  intro is
  induction is with
  | nil =>
    intro s s' hs _ hrun
    cases hrun
    exact hs
  | cons i is ih =>
    intro s s' _ ha hrun
    rw [runInputs] at hrun
    rcases hstep : step s i with e | t
    · rw [hstep] at hrun
      cases hrun
    · rw [hstep] at hrun
      obtain ⟨ht, hrest⟩ := ha t hstep
      exact ih ht hrest hrun

/-- Run lemma: what holds of every step from a state with the invariant, and
keeps the invariant, holds along every run. -/
theorem of_step {I : σ → Prop}
    (h : ∀ s i s', I s → step s i = .ok s' → V s i s' → R s i s' ∧ I s') :
    ∀ {is : List ι} {s : σ}, I s → Along step V s is → Along step R s is := by
  intro is
  induction is with
  | nil => exact fun _ _ => trivial
  | cons i is ih =>
    intro s hs hv s' hstep
    obtain ⟨hvs, hvrun⟩ := hv s' hstep
    obtain ⟨hr, hs'⟩ := h s i s' hs hstep hvs
    exact ⟨hr, ih hs' hvrun⟩

/-- Run lemma, both ways: where `R` and `C` agree on every step from a state
with the invariant, and `R` keeps it, they agree on every run. -/
theorem iff_of_step {I : σ → Prop}
    (h : ∀ s i s', I s → step s i = .ok s' → V s i s' → (R s i s' ↔ C s i s'))
    (hI : ∀ s i s', I s → step s i = .ok s' → V s i s' → R s i s' → I s') :
    ∀ {is : List ι} {s : σ}, I s → Along step V s is →
      (Along step R s is ↔ Along step C s is) := by
  intro is
  induction is with
  | nil => exact fun _ _ => Iff.rfl
  | cons i is ih =>
    intro s hs hv
    constructor
    · intro ha s' hstep
      obtain ⟨hvs, hvrun⟩ := hv s' hstep
      obtain ⟨hr, hrun⟩ := ha s' hstep
      exact ⟨(h s i s' hs hstep hvs).mp hr, (ih (hI s i s' hs hstep hvs hr) hvrun).mp hrun⟩
    · intro ha s' hstep
      obtain ⟨hvs, hvrun⟩ := hv s' hstep
      obtain ⟨hc, hrun⟩ := ha s' hstep
      have hr := (h s i s' hs hstep hvs).mpr hc
      exact ⟨hr, (ih (hI s i s' hs hstep hvs hr) hvrun).mpr hrun⟩

end Along

/-- Every step of a run is taken in a state in which `P` allows it, up to the first that throws. -/
def Guarded (step : σ → ι → Except ε σ) (P : σ → ι → Prop) : σ → List ι → Prop
  | _, [] => True
  | s, i :: is => P s i ∧ ∀ s', step s i = .ok s' → Guarded step P s' is

/-- Run lemma for machines that throw: where no step that `P` allows throws, and these keep the
invariant, no guarded run throws. -/
theorem Guarded.exists_run {step : σ → ι → Except ε σ} {P : σ → ι → Prop} {I : σ → Prop}
    (h : ∀ s i, I s → P s i → ∃ s', step s i = .ok s' ∧ I s') :
    ∀ {is : List ι} {s : σ}, I s → Guarded step P s is →
      ∃ s', runInputs step s is = .ok s' ∧ I s' := by
  intro is
  induction is with
  | nil => exact fun hs _ => ⟨_, rfl, hs⟩
  | cons i is ih =>
    intro s hs hrun
    obtain ⟨t, hstep, ht⟩ := h s i hs hrun.1
    obtain ⟨s', hrest, hs'⟩ := ih ht (hrun.2 t hstep)
    exact ⟨s', by rw [runInputs, hstep]; exact hrest, hs'⟩

/-- The state after an input that can only come when `c` holds. -/
def onlyIf (c : Prop) [Decidable c] (s : σ) : Except Unit σ :=
  if c then .ok s else .error ()

@[simp] theorem onlyIf_eq_ok {c : Prop} [Decidable c] {s s' : σ} :
    onlyIf c s = .ok s' ↔ c ∧ s = s' := by
  rw [onlyIf]
  split
  · rename_i h
    simp [h]
  · rename_i h
    simp [h]

theorem exists_of_bind_eq_ok {ε : Type} {α β : Type} {x : Except ε α} {f : α → Except ε β}
    {b : β} (h : x >>= f = .ok b) : ∃ a, x = .ok a ∧ f a = .ok b := by
  cases x with
  | error e => cases h
  | ok a => exact ⟨a, rfl, h⟩

section

variable {ε σ α : Type} {body : σ → α → Except ε σ} {I : σ → Prop}

theorem foldlM_invariant_of_mem :
    ∀ {as : List α} {s s' : σ}, (∀ a ∈ as, ∀ s s', I s → body s a = .ok s' → I s') → I s →
      as.foldlM body s = .ok s' → I s' := by
  intro as
  induction as with
  | nil =>
    intro s s' _ hs hfold
    cases hfold
    exact hs
  | cons a as ih =>
    intro s s' h hs hfold
    rw [List.foldlM_cons] at hfold
    obtain ⟨t, ht, hrest⟩ := exists_of_bind_eq_ok hfold
    obtain ⟨ha, has⟩ := List.forall_mem_cons.mp h
    exact ih has (ha s t hs ht) hrest

theorem foldlM_invariant
    (h : ∀ s a s', I s → body s a = .ok s' → I s') {as : List α} {s s' : σ} (hs : I s)
    (hfold : as.foldlM body s = .ok s') : I s' :=
  foldlM_invariant_of_mem (fun a _ s s' => h s a s') hs hfold

/-- A loop whose body does not throw and keeps the invariant does not throw either. -/
theorem exists_foldlM_eq_ok {as : List α} (h : ∀ a ∈ as, ∀ s, I s → ∃ s', body s a = .ok s' ∧ I s')
    {s : σ} (hs : I s) : ∃ s', as.foldlM body s = .ok s' ∧ I s' := by
  induction as generalizing s with
  | nil => exact ⟨s, rfl, hs⟩
  | cons a as ih =>
    obtain ⟨ha, has⟩ := List.forall_mem_cons.mp h
    obtain ⟨t, ht, hit⟩ := ha s hs
    obtain ⟨s', hs', hinv⟩ := ih has hit
    exact ⟨s', by rw [List.foldlM_cons, ht]; exact hs', hinv⟩

theorem foldlM_eq_ok {f : σ → α → σ} :
    ∀ {as : List α} {s : σ}, (∀ s, I s → ∀ a ∈ as, body s a = .ok (f s a) ∧ I (f s a)) → I s →
      as.foldlM body s = .ok (as.foldl f s) := by
  intro as
  induction as with
  | nil => exact fun _ _ => rfl
  | cons a as ih =>
    intro s h hs
    obtain ⟨hbody, hnext⟩ := h s hs a List.mem_cons_self
    rw [List.foldlM_cons, hbody]
    exact ih (fun s hs a' ha' => h s hs a' (List.mem_cons_of_mem _ ha')) hnext

theorem eq_foldl_of_foldlM_eq_ok {f : σ → α → σ}
    (h : ∀ s a s', body s a = .ok s' → s' = f s a) {as : List α} {s s' : σ}
    (hfold : as.foldlM body s = .ok s') : s' = as.foldl f s := by
  induction as generalizing s with
  | nil =>
    cases hfold
    rfl
  | cons a as ih =>
    rw [List.foldlM_cons] at hfold
    obtain ⟨t, ht, hrest⟩ := exists_of_bind_eq_ok hfold
    rw [ih hrest, h s a t ht, List.foldl_cons]

end

theorem mapM_isOk_iff {ε α β : Type} {f : α → Except ε β} {as : List α} :
    (∃ bs, as.mapM f = .ok bs) ↔ ∀ a ∈ as, ∃ b, f a = .ok b := by
  induction as with
  | nil => exact iff_of_true ⟨[], rfl⟩ fun a ha => by cases ha
  | cons a as ih =>
    rw [List.forall_mem_cons, ← ih, List.mapM_cons]
    constructor
    · rintro ⟨bs, h⟩
      obtain ⟨b, hb, h⟩ := exists_of_bind_eq_ok h
      obtain ⟨cs, hcs, -⟩ := exists_of_bind_eq_ok h
      exact ⟨⟨b, hb⟩, cs, hcs⟩
    · rintro ⟨⟨b, hb⟩, bs, hbs⟩
      rw [hb]
      exact ⟨b :: bs, by rw [hbs]; rfl⟩

theorem mapM_cons_eq_ok_iff {ε α β : Type} {f : α → Except ε β} {a : α} {as : List α} {b : β}
    {bs : List β} :
    (a :: as).mapM f = .ok (b :: bs) ↔ f a = .ok b ∧ as.mapM f = .ok bs := by
  rw [List.mapM_cons]
  constructor
  · intro h
    obtain ⟨b', hb, h⟩ := exists_of_bind_eq_ok h
    obtain ⟨bs', hbs, h⟩ := exists_of_bind_eq_ok h
    cases h
    exact ⟨hb, hbs⟩
  · rintro ⟨hb, hbs⟩
    rw [hb, hbs]
    rfl

theorem length_of_mapM_eq_ok {ε α β : Type} {f : α → Except ε β} {as : List α} {bs : List β}
    (h : as.mapM f = .ok bs) : bs.length = as.length := by
  induction as generalizing bs with
  | nil =>
    cases h
    rfl
  | cons a as ih =>
    rw [List.mapM_cons] at h
    obtain ⟨b, -, h⟩ := exists_of_bind_eq_ok h
    obtain ⟨cs, hcs, h⟩ := exists_of_bind_eq_ok h
    cases h
    rw [List.length_cons, List.length_cons, ih hcs]

theorem length_flatMap_le {ι α β : Type} {as : ι → List α} {bs : ι → List β} {is : List ι}
    (hlen : ∀ i ∈ is, (as i).length ≤ (bs i).length) :
    (is.flatMap as).length ≤ (is.flatMap bs).length := by
  induction is with
  | nil => exact Nat.le_refl _
  | cons i is ih =>
    obtain ⟨hi, his⟩ := List.forall_mem_cons.mp hlen
    rw [List.flatMap_cons, List.flatMap_cons, List.length_append, List.length_append]
    exact Nat.add_le_add hi (ih his)

theorem mapM_flatMap_eq_ok_iff {ε ι α β : Type} {f : α → Except ε β} {as : ι → List α}
    {bs : ι → List β} {is : List ι} (hlen : ∀ i ∈ is, (as i).length ≤ (bs i).length) :
    (is.flatMap as).mapM f = .ok (is.flatMap bs) ↔ ∀ i ∈ is, (as i).mapM f = .ok (bs i) := by
  induction is with
  | nil => exact iff_of_true rfl fun i hi => by cases hi
  | cons i is ih =>
    obtain ⟨hi, his⟩ := List.forall_mem_cons.mp hlen
    rw [List.forall_mem_cons, ← ih his, List.flatMap_cons, List.flatMap_cons, List.mapM_append]
    constructor
    · intro h
      obtain ⟨cs, hcs, h⟩ := exists_of_bind_eq_ok h
      obtain ⟨ds, hds, h⟩ := exists_of_bind_eq_ok h
      have happend : cs ++ ds = bs i ++ is.flatMap bs := Except.ok.inj h
      have hrest := length_flatMap_le his
      have htotal := congrArg List.length happend
      rw [List.length_append, List.length_append, length_of_mapM_eq_ok hcs,
        length_of_mapM_eq_ok hds] at htotal
      have hhead : cs.length = (bs i).length := by
        rw [length_of_mapM_eq_ok hcs]
        omega
      obtain ⟨rfl, rfl⟩ := List.append_inj happend hhead
      exact ⟨hcs, hds⟩
    · rintro ⟨hcs, hds⟩
      rw [hcs, hds]
      rfl

/-- Why a search has no result: it met the bound on its rounds or on the depth of its
calls, which says nothing about the search without a bound, or it threw. -/
inductive Stopped (ε : Type*) where
  | unfinished
  | threw (e : ε)
  deriving DecidableEq

/-- How a call ended, with the state it left. -/
inductive Outcome (ε σ : Type*) where
  | returned (s : σ)
  | threw (e : ε) (s : σ)
  deriving DecidableEq

namespace Outcome

/-- What the call left behind, whether it returned or threw. -/
def state : Outcome ε σ → σ
  | returned s => s
  | threw _ s => s

/-- Go on with the state a call returned. -/
def andThen : Outcome ε σ → (σ → Outcome ε σ) → Outcome ε σ
  | returned s, f => f s
  | threw e s, _ => threw e s

def mapError {ε' : Type*} (f : ε → ε') : Outcome ε σ → Outcome ε' σ
  | returned s => returned s
  | threw e s => threw (f e) s

@[simp] theorem state_mapError {ε' : Type*} (f : ε → ε') (x : Outcome ε σ) :
    (x.mapError f).state = x.state := by
  cases x <;> rfl

@[simp] theorem state_returned (s : σ) : (returned s : Outcome ε σ).state = s := rfl

@[simp] theorem state_threw (e : ε) (s : σ) : (threw e s).state = s := rfl

@[simp] theorem returned_andThen (s : σ) (f : σ → Outcome ε σ) :
    (returned s).andThen f = f s := rfl

@[simp] theorem threw_andThen (e : ε) (s : σ) (f : σ → Outcome ε σ) :
    (threw e s).andThen f = threw e s := rfl

/-- A loop whose body either returns the next state or throws before it changes
anything. -/
def forEach {α : Type*} (body : σ → α → Except ε σ) : σ → List α → Outcome ε σ
  | s, [] => returned s
  | s, a :: as => match body s a with
    | .ok s' => forEach body s' as
    | .error e => threw e s

theorem forEach_invariant {α : Type*} {body : σ → α → Except ε σ} {I : σ → Prop}
    (h : ∀ s a s', I s → body s a = .ok s' → I s') :
    ∀ {as : List α} {s : σ}, I s → I (forEach body s as).state := by
  intro as
  induction as with
  | nil => exact fun hs => hs
  | cons a as ih =>
    intro s hs
    rw [forEach]
    rcases hbody : body s a with e | s'
    · exact hs
    · exact ih (h s a s' hs hbody)

/-- A loop whose body may throw in the middle of its changes. -/
def each {α : Type*} (body : σ → α → Outcome ε σ) : σ → List α → Outcome ε σ
  | s, [] => returned s
  | s, a :: as => (body s a).andThen fun s => each body s as

theorem each_invariant {α : Type*} {body : σ → α → Outcome ε σ} {I : σ → Prop} :
    ∀ {as : List α} {s : σ}, (∀ a ∈ as, ∀ s, I s → I (body s a).state) → I s →
      I (each body s as).state := by
  intro as
  induction as with
  | nil => exact fun _ hs => hs
  | cons a as ih =>
    intro s h hs
    obtain ⟨ha, has⟩ := List.forall_mem_cons.mp h
    have hbody := ha s hs
    rw [each]
    rcases hcall : body s a with s' | ⟨e, s'⟩
    · rw [hcall] at hbody
      exact ih has hbody
    · rw [hcall] at hbody
      exact hbody

theorem exists_of_each_eq_threw {α : Type*} {body : σ → α → Outcome ε σ} {e : ε} {s' : σ} :
    ∀ {as : List α} {s : σ}, each body s as = threw e s' →
      ∃ a ∈ as, ∃ t, body t a = threw e s' := by
  intro as
  induction as with
  | nil =>
    intro s h
    cases h
  | cons a as ih =>
    intro s h
    rw [each] at h
    rcases hcall : body s a with t | ⟨e', t⟩
    · rw [hcall] at h
      obtain ⟨b, hb, u, hthrew⟩ := ih h
      exact ⟨b, List.mem_cons_of_mem _ hb, u, hthrew⟩
    · rw [hcall] at h
      exact ⟨a, List.mem_cons_self, s, hcall.trans h⟩

end Outcome

end N8n
