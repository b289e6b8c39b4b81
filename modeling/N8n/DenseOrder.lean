/-
Lists kept in order by a number on each element.

A table may keep the order of its rows as a place on each row, the places being
`0, …, n - 1`.  A row is put in at a place by moving every place from there on up, and
taken out by moving every place behind it down.

* `Dense` — the places are `0, …, n - 1`, each taken once;
* `dense_cons_shift_iff` — putting one in keeps them dense iff its place is at most the
  number of the others.
-/
import Mathlib.Data.List.Sort
import Mathlib.Data.Int.Order.Basic

namespace N8n

/-- The places of `n` elements are `0, …, n - 1`, each taken once. -/
def Dense (places : List ℤ) : Prop :=
  places.Perm ((List.range places.length).map Int.ofNat)

instance (places : List ℤ) : Decidable (Dense places) :=
  inferInstanceAs (Decidable (List.Perm _ _))

def shift (lowest delta : ℤ) (place : ℤ) : ℤ := if lowest ≤ place then place + delta else place

variable {places : List ℤ}

theorem Dense.nodup (h : Dense places) : places.Nodup := by
  refine h.nodup_iff.mpr ?_
  exact List.nodup_range.map fun _ _ h => Int.ofNat.inj h

theorem mem_range_map_ofNat {n : ℕ} {i : ℤ} :
    i ∈ (List.range n).map Int.ofNat ↔ 0 ≤ i ∧ i < n := by
  rw [List.mem_map]
  constructor
  · rintro ⟨m, hm, rfl⟩
    rw [List.mem_range] at hm
    exact ⟨Int.natCast_nonneg m, Int.ofNat_lt.mpr hm⟩
  · rintro ⟨h0, hlt⟩
    exact ⟨i.toNat, List.mem_range.mpr (by omega), Int.toNat_of_nonneg h0⟩

theorem Dense.mem_iff (h : Dense places) {i : ℤ} : i ∈ places ↔ 0 ≤ i ∧ i < places.length :=
  (List.Perm.mem_iff h).trans mem_range_map_ofNat

theorem dense_of_nodup (hnodup : places.Nodup)
    (h : ∀ i ∈ places, 0 ≤ i ∧ i < places.length) : Dense places := by
  refine (List.subperm_of_subset hnodup fun i hi => ?_).perm_of_length_le (by simp)
  exact mem_range_map_ofNat.mpr (h i hi)

theorem Dense.perm {places' : List ℤ} (h : Dense places) (hp : places'.Perm places) :
    Dense places' := by
  have hlen : places'.length = places.length := hp.length_eq
  rw [Dense, hlen]
  exact hp.trans h

theorem shift_one_le_iff {lowest a b : ℤ} : shift lowest 1 a ≤ shift lowest 1 b ↔ a ≤ b := by
  unfold shift
  split <;> split <;> omega

theorem shift_one_ne {lowest a : ℤ} : shift lowest 1 a ≠ lowest := by
  unfold shift
  split <;> omega

theorem shift_neg_one_le_iff {lowest a b : ℤ} (ha : a ≠ lowest) (hb : b ≠ lowest) :
    shift lowest (-1) a ≤ shift lowest (-1) b ↔ a ≤ b := by
  unfold shift
  split <;> split <;> omega

theorem shift_one_injective (lowest : ℤ) : Function.Injective (shift lowest 1) := by
  intro a b h
  have hab : a ≤ b := shift_one_le_iff.mp h.le
  have hba : b ≤ a := shift_one_le_iff.mp h.ge
  omega

/-- **Putting one in.**  The places stay dense iff the new one leaves no gap. -/
theorem dense_cons_shift_iff (h : Dense places) {place : ℤ} :
    Dense (place :: places.map (shift place 1)) ↔ 0 ≤ place ∧ place ≤ places.length := by
  constructor
  · intro hd
    have hmem := hd.mem_iff.mp List.mem_cons_self
    rw [List.length_cons, List.length_map] at hmem
    omega
  · rintro ⟨h0, hle⟩
    refine dense_of_nodup (List.nodup_cons.mpr ⟨fun hmem => ?_, ?_⟩) fun i hi => ?_
    · obtain ⟨a, -, ha⟩ := List.mem_map.mp hmem
      exact shift_one_ne ha
    · exact h.nodup.map (shift_one_injective place)
    · rw [List.length_cons, List.length_map]
      rcases List.mem_cons.mp hi with rfl | hi
      · omega
      · obtain ⟨a, ha, rfl⟩ := List.mem_map.mp hi
        have hbound := h.mem_iff.mp ha
        unfold shift
        split <;> omega

theorem Dense.append_length (h : Dense places) : Dense (places ++ [(places.length : ℤ)]) := by
  rw [Dense, List.length_append, List.length_singleton, List.range_succ, List.map_append]
  exact h.append_right _

/-- **Taking one out.** -/
theorem Dense.of_cons {place : ℤ} (h : Dense (place :: places)) :
    Dense (places.map (shift place (-1))) := by
  obtain ⟨hplace, hnodup⟩ := List.nodup_cons.mp h.nodup
  have hne : ∀ a ∈ places, a ≠ place := fun a ha heq => hplace (heq ▸ ha)
  have hp := h.mem_iff.mp List.mem_cons_self
  refine dense_of_nodup (hnodup.map_on fun a ha b hb hab => ?_) fun i hi => ?_
  · have hle := (shift_neg_one_le_iff (hne a ha) (hne b hb)).mp hab.le
    have hge := (shift_neg_one_le_iff (hne b hb) (hne a ha)).mp hab.ge
    omega
  · obtain ⟨a, ha, rfl⟩ := List.mem_map.mp hi
    have hbound := h.mem_iff.mp (List.mem_cons_of_mem place ha)
    have hane := hne a ha
    rw [List.length_cons] at hp hbound
    rw [List.length_map]
    unfold shift
    split <;> omega

section Sorting

variable {α : Type*} (place : α → ℤ)

def byPlace (as : List α) : List α := as.insertionSort fun a b => place a ≤ place b

theorem perm_byPlace (as : List α) : (byPlace place as).Perm as := List.perm_insertionSort _ as

theorem pairwise_byPlace (as : List α) :
    (byPlace place as).Pairwise fun a b => place a ≤ place b := by
  have : IsTrans α fun a b => place a ≤ place b := ⟨fun _ _ _ => le_trans⟩
  have : Std.Total fun a b => place a ≤ place b := ⟨fun a b => le_total (place a) (place b)⟩
  exact List.pairwise_insertionSort _ as

theorem eq_byPlace {as bs : List α} (hnodup : (as.map place).Nodup) (hp : bs.Perm as)
    (hbs : bs.Pairwise fun a b => place a ≤ place b) : bs = byPlace place as := by
  refine (hp.trans (perm_byPlace place as).symm).eq_of_pairwise ?_ hbs (pairwise_byPlace place as)
  intro a b ha hb hab hba
  exact List.inj_on_of_nodup_map hnodup (hp.subset ha)
    ((perm_byPlace place as).subset hb) (le_antisymm hab hba)

theorem filter_byPlace {as : List α} (hnodup : (as.map place).Nodup) (p : α → Bool) :
    (byPlace place as).filter p = byPlace place (as.filter p) := by
  refine eq_byPlace place ?_ ((perm_byPlace place as).filter p)
    ((pairwise_byPlace place as).filter p)
  exact hnodup.sublist ((List.filter_sublist).map place)

theorem map_byPlace {as : List α} {f : α → α}
    (h : ∀ a ∈ as, ∀ b ∈ as, place a ≤ place b ↔ place (f a) ≤ place (f b)) :
    (byPlace place as).map f = byPlace place (as.map f) :=
  List.map_insertionSort _ _ f as h

end Sorting

end N8n
