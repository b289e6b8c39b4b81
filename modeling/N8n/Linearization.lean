/-
Calls that overlap, and sequential orders of them.

A call begins, works, has its result and ends; it comes after the calls that had ended when
it began.  The calls that have their results are linearizable if some order of them, in
which each comes after those, gives the same results one at a time.

* `Saw` — a state of the order that a call has looked at while it worked, and
  **`History.read`**: a call that changes nothing may be put right there.
-/
import Mathlib.Data.List.Permutation
import Mathlib.Data.List.Nodup

namespace N8n

variable {M C R W : Type*}

/-- How far a call is. -/
inductive Stage (R W : Type*) where
  | working (progress : W)
  | returning (result : R)
  | ended (result : R)
  deriving DecidableEq

namespace Stage

def result : Stage R W → Option R
  | working _ => none
  | returning r => some r
  | ended r => some r

def isEnded : Stage R W → Bool
  | ended _ => true
  | _ => false

theorem result_isSome_of_isEnded {stage : Stage R W} (h : stage.isEnded = true) :
    stage.result.isSome = true := by
  cases stage with
  | working p => cases h
  | returning r => cases h
  | ended r => rfl

end Stage

/-- A call with the calls that had ended when it began. -/
structure Invocation (C R W : Type*) where
  call : C
  after : List ℕ
  stage : Stage R W
  deriving DecidableEq

abbrev Invocations (C R W : Type*) := List (Invocation C R W)

namespace Invocations

def endedCalls (cs : Invocations C R W) : List ℕ :=
  (List.range cs.length).filter fun i => (cs[i]?).any fun c => c.stage.isEnded

def begin (cs : Invocations C R W) (call : C) (progress : W) : Invocations C R W :=
  cs ++ [{ call, after := cs.endedCalls, stage := .working progress }]

def setStage (cs : Invocations C R W) (i : ℕ) (stage : Stage R W) : Invocations C R W :=
  cs.modify i fun c => { c with stage }

variable {cs : Invocations C R W} {c : Invocation C R W} {i j : ℕ}

theorem mem_endedCalls : i ∈ cs.endedCalls ↔ ∃ c, cs[i]? = some c ∧ c.stage.isEnded = true := by
  rw [endedCalls, List.mem_filter, List.mem_range, Option.any_eq_true]
  constructor
  · rintro ⟨-, h⟩
    exact h
  · rintro ⟨c, hc, hended⟩
    exact ⟨(List.getElem?_eq_some_iff.mp hc).1, c, hc, hended⟩

theorem getElem?_begin {call : C} {progress : W} (h : (cs.begin call progress)[i]? = some c) :
    cs[i]? = some c ∨ i = cs.length ∧
      c = { call, after := cs.endedCalls, stage := .working progress } := by
  rw [begin, List.getElem?_append] at h
  split at h
  · exact Or.inl h
  · rename_i hlt
    obtain ⟨hi, rfl⟩ := List.getElem?_eq_some_iff.mp h
    rw [List.length_singleton] at hi
    exact Or.inr ⟨by omega, by simp [show i - cs.length = 0 by omega]⟩

theorem getElem?_begin_of_some {call : C} {progress : W} (h : cs[i]? = some c) :
    (cs.begin call progress)[i]? = some c := by
  rw [begin, List.getElem?_append_left (List.getElem?_eq_some_iff.mp h).1]
  exact h

variable (cs) in
@[simp] theorem getElem?_begin_length (call : C) (progress : W) :
    (cs.begin call progress)[cs.length]? =
      some { call, after := cs.endedCalls, stage := .working progress } := by
  rw [begin, List.getElem?_append_right (Nat.le_refl _), Nat.sub_self]
  rfl

theorem getElem?_setStage_self {stage : Stage R W} (h : cs[i]? = some c) :
    (cs.setStage i stage)[i]? = some { c with stage } := by
  rw [setStage, List.getElem?_modify_eq, h]
  rfl

theorem getElem?_setStage_of_ne {stage : Stage R W} (h : j ≠ i) :
    (cs.setStage i stage)[j]? = cs[j]? :=
  List.getElem?_modify_ne _ cs (Ne.symm h)

end Invocations

section Orders

variable (apply : M → C → M × R)

/-- The state after the calls of an order, one at a time. -/
def stateAfter (cs : Invocations C R W) : M → List ℕ → M
  | m, [] => m
  | m, i :: order => match cs[i]? with
    | none => stateAfter cs m order
    | some c => stateAfter cs (apply m c.call).1 order

/-- One at a time the calls of the order give the results they have. -/
def Explains (cs : Invocations C R W) : M → List ℕ → Prop
  | _, [] => True
  | m, i :: order => match cs[i]? with
    | none => False
    | some c => (∀ r ∈ c.stage.result, (apply m c.call).2 = r) ∧
      Explains cs (apply m c.call).1 order

instance explainsDecidable [DecidableEq R] (cs : Invocations C R W) :
    ∀ (m : M) (order : List ℕ), Decidable (Explains apply cs m order)
  | _, [] => isTrue trivial
  | m, i :: order => by
    unfold Explains
    split
    · infer_instance
    · have := explainsDecidable cs (apply m (by assumption : Invocation C R W).call).1 order
      infer_instance

/-- An order of the calls that have their results, none before a call that had ended when
it began, and what it gives. -/
structure Linearizes (m : M) (cs : Invocations C R W) (order : List ℕ) : Prop where
  mem_iff : ∀ i, i ∈ order ↔ ∃ c, cs[i]? = some c ∧ c.stage.result.isSome = true
  nodup : order.Nodup
  realTime : order.Pairwise fun i j => ∀ c ∈ cs[i]?, j ∉ c.after
  explains : Explains apply cs m order

def Linearizable (m : M) (cs : Invocations C R W) : Prop :=
  ∃ order, Linearizes apply m cs order

end Orders

section

variable {apply : M → C → M × R} {cs cs' : Invocations C R W} {m m₀ : M} {order a b : List ℕ}
  {i : ℕ} {c : Invocation C R W}

theorem stateAfter_append : ∀ {a b : List ℕ} {m : M},
    stateAfter apply cs m (a ++ b) = stateAfter apply cs (stateAfter apply cs m a) b
  | [], _, _ => rfl
  | i :: a, b, m => by
    rw [List.cons_append, stateAfter, stateAfter]
    split
    · exact stateAfter_append
    · exact stateAfter_append

theorem explains_append : ∀ {a b : List ℕ} {m : M}, Explains apply cs m (a ++ b) ↔
    Explains apply cs m a ∧ Explains apply cs (stateAfter apply cs m a) b
  | [], b, m => by simp [Explains, stateAfter]
  | i :: a, b, m => by
    rw [List.cons_append, Explains, Explains, stateAfter]
    split
    · simp
    · rw [explains_append, and_assoc]

theorem stateAfter_congr : ∀ {order : List ℕ} {m : M},
    (∀ i ∈ order, (cs'[i]?).map (·.call) = (cs[i]?).map (·.call)) →
      stateAfter apply cs' m order = stateAfter apply cs m order
  | [], _, _ => rfl
  | i :: order, m, h => by
    obtain ⟨hi, horder⟩ := List.forall_mem_cons.mp h
    rw [stateAfter, stateAfter]
    rcases hc : cs[i]? with _ | c
    · rw [hc, Option.map_none, Option.map_eq_none_iff] at hi
      rw [hi]
      exact stateAfter_congr horder
    · rw [hc, Option.map_some, Option.map_eq_some_iff] at hi
      obtain ⟨c', hc', hcall⟩ := hi
      rw [hc']
      simp only
      rw [hcall]
      exact stateAfter_congr horder

/-- What an order must account for in a call. -/
def Invocation.view (c : Invocation C R W) : C × List ℕ × Option R :=
  (c.call, c.after, c.stage.result)

theorem explains_congr : ∀ {order : List ℕ} {m : M},
    (∀ i ∈ order, (cs'[i]?).map (·.view) = (cs[i]?).map (·.view)) →
      (Explains apply cs' m order ↔ Explains apply cs m order)
  | [], _, _ => Iff.rfl
  | i :: order, m, h => by
    obtain ⟨hi, horder⟩ := List.forall_mem_cons.mp h
    rw [Explains, Explains]
    rcases hc : cs[i]? with _ | c
    · rw [hc, Option.map_none, Option.map_eq_none_iff] at hi
      rw [hi]
    · rw [hc, Option.map_some, Option.map_eq_some_iff] at hi
      obtain ⟨c', hc', hview⟩ := hi
      simp only [Invocation.view, Prod.mk.injEq] at hview
      obtain ⟨hcall, -, hresult⟩ := hview
      rw [hc']
      simp only
      rw [hcall, hresult, explains_congr horder]

theorem Linearizes.congr (h : Linearizes apply m cs order)
    (hview : ∀ i ∈ order, (cs'[i]?).map (·.view) = (cs[i]?).map (·.view))
    (hother : ∀ i ∉ order, ∀ c, cs'[i]? = some c → c.stage.result = none) :
    Linearizes apply m cs' order where
  mem_iff := by
    intro i
    constructor
    · intro hi
      obtain ⟨c, hc, hresult⟩ := (h.mem_iff i).mp hi
      have hi' := hview i hi
      rw [hc, Option.map_some, Option.map_eq_some_iff] at hi'
      obtain ⟨c', hc', hview'⟩ := hi'
      simp only [Invocation.view, Prod.mk.injEq] at hview'
      exact ⟨c', hc', by rw [hview'.2.2]; exact hresult⟩
    · rintro ⟨c, hc, hresult⟩
      by_contra hi
      rw [hother i hi c hc] at hresult
      cases hresult
  nodup := h.nodup
  realTime := by
    refine List.Pairwise.imp_of_mem ?_ h.realTime
    intro i j hi _ hij c' hc'
    have hi' := hview i hi
    rw [hc', Option.map_some] at hi'
    obtain ⟨c, hc, hview'⟩ := Option.map_eq_some_iff.mp hi'.symm
    simp only [Invocation.view, Prod.mk.injEq] at hview'
    rw [← hview'.2.1]
    exact hij c hc
  explains := (explains_congr hview).mpr h.explains

end

/-- An order of the calls so far with the state at its end. -/
structure History (apply : M → C → M × R) (m₀ : M) (cs : Invocations C R W) (order : List ℕ)
    (m : M) : Prop where
  linearizes : Linearizes apply m₀ cs order
  after : ∀ (i : ℕ) (c : Invocation C R W), cs[i]? = some c → ∀ k ∈ c.after, k ∈ cs.endedCalls
  state : stateAfter apply cs m₀ order = m

/-- At some place of the order, after all that had ended when the call began, the state was
as `P` says. -/
def Saw (apply : M → C → M × R) (m₀ : M) (cs : Invocations C R W) (order : List ℕ) (i : ℕ)
    (P : M → Prop) : Prop :=
  ∀ c, cs[i]? = some c → ∃ a b, order = a ++ b ∧ c.after ⊆ a ∧ P (stateAfter apply cs m₀ a)

section

variable {apply : M → C → M × R} {cs cs' : Invocations C R W} {m m₀ : M} {order a b : List ℕ}
  {i k : ℕ} {c : Invocation C R W} {stage : Stage R W} {call : C} {w : W} {r : R}
  {P : M → Prop}

theorem Linearizes.exists_of_mem (h : Linearizes apply m cs order) (hi : i ∈ order) :
    ∃ c, cs[i]? = some c := by
  obtain ⟨c, hc, -⟩ := (h.mem_iff i).mp hi
  exact ⟨c, hc⟩

theorem map_call_setStage (j : ℕ) :
    ((cs.setStage i stage)[j]?).map (·.call) = (cs[j]?).map (·.call) := by
  rw [Invocations.setStage, List.getElem?_modify, Option.map_eq_map, Option.map_map]
  congr 1
  funext d
  simp only [Function.comp_apply]
  split <;> rfl

theorem exists_of_getElem?_setStage {j : ℕ} {c' : Invocation C R W}
    (h : (cs.setStage i stage)[j]? = some c') :
    ∃ d, cs[j]? = some d ∧ d.after = c'.after ∧ d.call = c'.call := by
  rw [Invocations.setStage, List.getElem?_modify, Option.map_eq_map, Option.map_eq_some_iff] at h
  obtain ⟨d, hd, rfl⟩ := h
  exact ⟨d, hd, by split <;> rfl, by split <;> rfl⟩

theorem map_view_setStage (hc : cs[i]? = some c) (hresult : stage.result = c.stage.result)
    (j : ℕ) : ((cs.setStage i stage)[j]?).map (·.view) = (cs[j]?).map (·.view) := by
  by_cases hj : j = i
  · subst hj
    rw [Invocations.getElem?_setStage_self hc, hc, Option.map_some, Option.map_some,
      Invocation.view, Invocation.view]
    simp only
    rw [hresult]
  · rw [Invocations.getElem?_setStage_of_ne hj]

theorem mem_endedCalls_setStage (hc : cs[i]? = some c) (hended : c.stage.isEnded = false)
    (hk : k ∈ cs.endedCalls) : k ∈ (cs.setStage i stage).endedCalls := by
  obtain ⟨d, hd, hdended⟩ := Invocations.mem_endedCalls.mp hk
  refine Invocations.mem_endedCalls.mpr ⟨d, ?_, hdended⟩
  rw [Invocations.getElem?_setStage_of_ne]
  · exact hd
  · rintro rfl
    rw [hc, Option.some.injEq] at hd
    rw [hd, hdended] at hended
    cases hended

theorem isEnded_eq_false_of_result (h : c.stage.result = none) : c.stage.isEnded = false := by
  rw [← Bool.not_eq_true]
  intro hended
  have hsome := Stage.result_isSome_of_isEnded hended
  rw [h] at hsome
  cases hsome

namespace History

theorem init : History apply m₀ ([] : Invocations C R W) [] m₀ where
  linearizes :=
    { mem_iff := fun i => by simp
      nodup := List.nodup_nil
      realTime := List.Pairwise.nil
      explains := trivial }
  after := fun i c h => by simp at h
  state := rfl

section

variable (h : History apply m₀ cs order m)
include h

theorem after_subset (hc : cs[i]? = some c) :
    c.after ⊆ order := by
  intro j hj
  obtain ⟨d, hd, hended⟩ := Invocations.mem_endedCalls.mp (h.after i c hc j hj)
  exact (h.linearizes.mem_iff j).mpr ⟨d, hd, Stage.result_isSome_of_isEnded hended⟩

theorem not_mem (hc : cs[i]? = some c)
    (hnone : c.stage.result = none) : i ∉ order := by
  intro hi
  obtain ⟨d, hd, hsome⟩ := (h.linearizes.mem_iff i).mp hi
  rw [hc, Option.some.injEq] at hd
  rw [← hd, hnone] at hsome
  cases hsome

/-- **A call begins.** -/
theorem begin :
    History apply m₀ (cs.begin call w) order m where
  linearizes := by
    refine h.linearizes.congr ?_ ?_
    · intro i hi
      obtain ⟨c, hc⟩ := h.linearizes.exists_of_mem hi
      rw [Invocations.getElem?_begin_of_some hc, hc]
    · intro i hi c hc
      rcases Invocations.getElem?_begin hc with hold | ⟨-, rfl⟩
      · rw [h.linearizes.mem_iff, not_exists] at hi
        rw [← Option.not_isSome_iff_eq_none]
        exact fun hsome => hi c ⟨hold, hsome⟩
      · rfl
  after := by
    intro i c hc k hk
    have hended : k ∈ cs.endedCalls := by
      rcases Invocations.getElem?_begin hc with hold | ⟨-, rfl⟩
      · exact h.after i c hold k hk
      · exact hk
    obtain ⟨d, hd, hdended⟩ := Invocations.mem_endedCalls.mp hended
    exact Invocations.mem_endedCalls.mpr
      ⟨d, Invocations.getElem?_begin_of_some hd, hdended⟩
  state := by
    rw [← h.state]
    refine stateAfter_congr fun i hi => ?_
    obtain ⟨c, hc⟩ := h.linearizes.exists_of_mem hi
    rw [Invocations.getElem?_begin_of_some hc, hc]

theorem setStage (hc : cs[i]? = some c)
    (hresult : stage.result = c.stage.result) (hended : c.stage.isEnded = false) :
    History apply m₀ (cs.setStage i stage) order m where
  linearizes := by
    refine h.linearizes.congr (fun j _ => map_view_setStage hc hresult j) ?_
    intro j hj d hd
    have hview := map_view_setStage hc hresult j
    rw [hd, Option.map_some] at hview
    obtain ⟨e, he, hview⟩ := Option.map_eq_some_iff.mp hview.symm
    simp only [Invocation.view, Prod.mk.injEq] at hview
    rw [← hview.2.2, ← Option.not_isSome_iff_eq_none]
    exact fun hsome => hj ((h.linearizes.mem_iff j).mpr ⟨e, he, hsome⟩)
  after := by
    intro j d hd k hk
    obtain ⟨e, he, hafter, -⟩ := exists_of_getElem?_setStage hd
    exact mem_endedCalls_setStage hc hended (h.after j e he k (hafter ▸ hk))
  state := by
    rw [← h.state]
    exact stateAfter_congr fun j _ => map_call_setStage j

/-- **A call goes on working.** -/
theorem progress (hc : cs[i]? = some c)
    (hnone : c.stage.result = none) :
    History apply m₀ (cs.setStage i (.working w)) order m :=
  h.setStage hc hnone.symm (isEnded_eq_false_of_result hnone)

/-- **A call ends.** -/
theorem finish (hc : cs[i]? = some c)
    (hstage : c.stage = .returning r) :
    History apply m₀ (cs.setStage i (.ended r)) order m :=
  h.setStage hc (by rw [hstage]; rfl) (by rw [hstage]; rfl)

end

theorem insert (h : History apply m₀ cs (a ++ b) m) (hc : cs[i]? = some c)
    (hnone : c.stage.result = none) (hafter : c.after ⊆ a)
    (hr : (apply (stateAfter apply cs m₀ a) c.call).2 = r)
    (hb : b = [] ∨ (apply (stateAfter apply cs m₀ a) c.call).1 = stateAfter apply cs m₀ a) :
    History apply m₀ (cs.setStage i (.returning r)) (a ++ i :: b)
      (stateAfter apply cs (apply (stateAfter apply cs m₀ a) c.call).1 b) where
  linearizes := by
    have hi : i ∉ a ++ b := h.not_mem hc hnone
    have hself := @Invocations.getElem?_setStage_self _ _ _ _ _ _ (.returning r) hc
    have hcall : ∀ (order : List ℕ) (m : M),
        stateAfter apply (cs.setStage i (.returning r)) m order = stateAfter apply cs m order :=
      fun order m => stateAfter_congr fun j _ => map_call_setStage j
    have hview : ∀ j ∈ a ++ b, ((cs.setStage i (.returning r))[j]?).map (·.view)
        = (cs[j]?).map (·.view) := by
      intro j hj
      rw [Invocations.getElem?_setStage_of_ne]
      rintro rfl
      exact hi hj
    obtain ⟨hexpa, hexpb⟩ := explains_append.mp h.linearizes.explains
    refine ⟨?_, ?_, ?_, ?_⟩
    · intro j
      rw [List.mem_append, List.mem_cons]
      by_cases hj : j = i
      · subst hj
        exact iff_of_true (Or.inr (Or.inl rfl)) ⟨_, hself, rfl⟩
      · rw [Invocations.getElem?_setStage_of_ne hj, ← h.linearizes.mem_iff, List.mem_append]
        simp [hj]
    · exact List.nodup_middle.mpr (List.nodup_cons.mpr ⟨hi, h.linearizes.nodup⟩)
    · have hsame : (a ++ b).Pairwise fun j k =>
          ∀ d ∈ (cs.setStage i (.returning r))[j]?, k ∉ d.after := by
        refine h.linearizes.realTime.imp ?_
        intro j k hjk d hd
        obtain ⟨e, he, heq, -⟩ := exists_of_getElem?_setStage hd
        exact heq ▸ hjk e he
      obtain ⟨hpa, hpb, hpab⟩ := List.pairwise_append.mp hsame
      refine List.pairwise_append.mpr ⟨hpa, List.pairwise_cons.mpr ⟨?_, hpb⟩, ?_⟩
      · -- what the call comes after stands before it
        intro j hj d hd hmem
        rw [hself, Option.mem_some_iff] at hd
        subst hd
        exact (List.nodup_append.mp h.linearizes.nodup).2.2 j (hafter hmem) j hj rfl
      · intro j hj k hk
        rcases List.mem_cons.mp hk with rfl | hk
        · -- the call has not ended, so nothing had to come after it
          intro d hd hmem
          obtain ⟨e, he, heq, -⟩ := exists_of_getElem?_setStage hd
          obtain ⟨c', hc', hended⟩ := Invocations.mem_endedCalls.mp
            (h.after j e he k (heq ▸ hmem))
          rw [hc, Option.some.injEq] at hc'
          rw [← hc', isEnded_eq_false_of_result hnone] at hended
          cases hended
        · exact hpab j hj k hk
    · refine explains_append.mpr ⟨?_, ?_⟩
      · exact (explains_congr fun j hj => hview j (List.mem_append_left b hj)).mpr hexpa
      · rw [hcall, Explains, hself]
        refine ⟨?_, ?_⟩
        · intro r' hr'
          cases hr'
          exact hr
        · refine (explains_congr fun j hj => hview j (List.mem_append_right a hj)).mpr ?_
          rcases hb with rfl | hb
          · trivial
          · rw [hb]
            exact hexpb
  after := by
    intro j d hd k hk
    obtain ⟨e, he, heq, -⟩ := exists_of_getElem?_setStage hd
    exact mem_endedCalls_setStage hc (isEnded_eq_false_of_result hnone)
      (h.after j e he k (heq ▸ hk))
  state := by
    rw [stateAfter_congr fun j _ => map_call_setStage j, stateAfter_append, stateAfter, hc]

/-- **A call takes effect now.** -/
theorem commit (h : History apply m₀ cs order m) (hc : cs[i]? = some c)
    (hnone : c.stage.result = none) (hr : (apply m c.call).2 = r) :
    History apply m₀ (cs.setStage i (.returning r)) (order ++ [i]) (apply m c.call).1 := by
  have h' : History apply m₀ cs (order ++ []) m := by
    rw [List.append_nil]
    exact h
  have hins := h'.insert hc hnone (h.after_subset hc) (h.state.symm ▸ hr) (Or.inl rfl)
  rw [h.state] at hins
  exact hins

/-- **A call that changes nothing takes its result from a state that it saw.** -/
theorem read (h : History apply m₀ cs order m) (hc : cs[i]? = some c)
    (hnone : c.stage.result = none)
    (hsaw : Saw apply m₀ cs order i fun m => apply m c.call = (m, r)) :
    ∃ a b, order = a ++ b ∧
      (apply (stateAfter apply cs m₀ a) c.call).1 = stateAfter apply cs m₀ a ∧
      History apply m₀ (cs.setStage i (.returning r)) (a ++ i :: b) m := by
  obtain ⟨a, b, rfl, hafter, happly⟩ := hsaw c hc
  have hkeep : (apply (stateAfter apply cs m₀ a) c.call).1 = stateAfter apply cs m₀ a := by
    rw [happly]
  have hins := h.insert hc hnone hafter (by rw [happly]) (Or.inr hkeep)
  rw [hkeep, ← stateAfter_append, h.state] at hins
  exact ⟨a, b, rfl, hkeep, hins⟩

end History

namespace Saw

theorem mono {Q : M → Prop} (hs : Saw apply m₀ cs order i P) (h : ∀ m, P m → Q m) :
    Saw apply m₀ cs order i Q := by
  intro c hc
  obtain ⟨a, b, horder, hafter, hP⟩ := hs c hc
  exact ⟨a, b, horder, hafter, h _ hP⟩

theorem now (h : History apply m₀ cs order m) (hP : P m) : Saw apply m₀ cs order i P := by
  intro c hc
  exact ⟨order, [], (List.append_nil order).symm, h.after_subset hc, by rw [h.state]; exact hP⟩

theorem begin (h : History apply m₀ cs order m) (hs : Saw apply m₀ cs order i P)
    (hi : i < cs.length) : Saw apply m₀ (cs.begin call w) order i P := by
  intro c hc
  rcases Invocations.getElem?_begin hc with hold | ⟨rfl, -⟩
  · obtain ⟨a, b, rfl, hafter, hP⟩ := hs c hold
    refine ⟨a, b, rfl, hafter, ?_⟩
    have hsame : stateAfter apply (cs.begin call w) m₀ a = stateAfter apply cs m₀ a := by
      refine stateAfter_congr fun j hj => ?_
      obtain ⟨d, hd⟩ := h.linearizes.exists_of_mem (List.mem_append_left b hj)
      rw [Invocations.getElem?_begin_of_some hd, hd]
    rw [hsame]
    exact hP
  · exact absurd hi (Nat.lt_irrefl _)

theorem setStage (hs : Saw apply m₀ cs order i P) :
    Saw apply m₀ (cs.setStage k stage) order i P := by
  intro c hc
  obtain ⟨d, hd, heq, -⟩ := exists_of_getElem?_setStage hc
  obtain ⟨a, b, horder, hafter, hP⟩ := hs d hd
  refine ⟨a, b, horder, heq ▸ hafter, ?_⟩
  rw [stateAfter_congr fun j _ => map_call_setStage j]
  exact hP

theorem snoc (hs : Saw apply m₀ cs order i P) : Saw apply m₀ cs (order ++ [k]) i P := by
  intro c hc
  obtain ⟨a, b, rfl, hafter, hP⟩ := hs c hc
  exact ⟨a, b ++ [k], List.append_assoc a b [k], hafter, hP⟩

theorem read (hs : Saw apply m₀ cs (a ++ b) i P) (hc : cs[k]? = some c)
    (hkeep : (apply (stateAfter apply cs m₀ a) c.call).1 = stateAfter apply cs m₀ a) :
    Saw apply m₀ cs (a ++ k :: b) i P := by
  intro d hd
  obtain ⟨a', b', heq, hafter, hP⟩ := hs d hd
  rcases List.append_eq_append_iff.mp heq with ⟨e, rfl, rfl⟩ | ⟨e, rfl, rfl⟩
  · -- what the call saw comes after the new place
    refine ⟨a ++ k :: e, b', by simp, fun j hj => ?_, ?_⟩
    · rcases List.mem_append.mp (hafter hj) with hj | hj
      · exact List.mem_append_left _ hj
      · exact List.mem_append_right _ (List.mem_cons_of_mem k hj)
    · rw [stateAfter_append, stateAfter, hc]
      simp only
      rw [hkeep, ← stateAfter_append]
      exact hP
  · exact ⟨a', e ++ k :: b, by simp, hafter, hP⟩

end Saw

theorem not_linearizable (hall : ∀ i < cs.length, ∃ c, cs[i]? = some c ∧ c.stage.result.isSome)
    (hno : ∀ order ∈ (List.range cs.length).permutations',
      ¬ ((order.Pairwise fun i j => ∀ c ∈ cs[i]?, j ∉ c.after) ∧ Explains apply cs m order)) :
    ¬ Linearizable apply m cs := by
  rintro ⟨order, h⟩
  refine hno order ?_ ⟨h.realTime, h.explains⟩
  rw [List.mem_permutations']
  refine (List.perm_ext_iff_of_nodup h.nodup List.nodup_range).mpr fun i => ?_
  rw [h.mem_iff, List.mem_range]
  constructor
  · rintro ⟨c, hc, -⟩
    exact (List.getElem?_eq_some_iff.mp hc).1
  · exact hall i

end

end N8n
