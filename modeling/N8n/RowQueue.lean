/-
A table of partly filled rows, as one queue for each column.

The rows have numbers as indexes.  New data of a column goes to the first row that misses it, or
to a new row at the end, and the first row is taken out.  In a staggered table a row has no data
in a column that an earlier row misses, so each column is a queue.

* `column_assign`, `column_set_last`, `column_erase_first` — **what the three operations do to
  the columns**.
-/
import N8n.Dict
import N8n.Slots

namespace N8n

namespace Dict

variable {α : Type*} {t : Dict ℕ α}

theorem pairwise_indexKeys (t : Dict ℕ α) : t.indexKeys.Pairwise (· < ·) := by
  have hle : t.indexKeys.Pairwise (· ≤ ·) := List.pairwise_insertionSort (· ≤ ·) t.keys
  have hne : t.indexKeys.Nodup := (List.perm_insertionSort (· ≤ ·) t.keys).nodup_iff.mpr t.nodup
  exact (hle.and hne).imp fun h => lt_of_le_of_ne h.1 h.2

theorem indexKeys_eq {l : List ℕ} (hl : l.Pairwise (· < ·)) (hmem : ∀ k, k ∈ l ↔ k ∈ t.keys) :
    t.indexKeys = l := by
  have hperm : t.indexKeys.Perm l := by
    refine (List.perm_ext_iff_of_nodup ?_ (hl.imp fun h => h.ne)).mpr fun k => ?_
    · exact (pairwise_indexKeys t).imp fun h => h.ne
    · rw [mem_indexKeys, hmem]
  exact hperm.eq_of_pairwise (fun a b _ _ hab hba => absurd hab (lt_asymm hba))
    (pairwise_indexKeys t) hl

theorem indexKeys_eq_append {k : ℕ} (hk : k ∈ t.keys) :
    ∃ before after, t.indexKeys = before ++ k :: after ∧ (∀ i ∈ before, i < k) ∧
      ∀ i ∈ after, k < i := by
  obtain ⟨before, after, h⟩ := List.append_of_mem (mem_indexKeys.mpr hk)
  have hsorted := pairwise_indexKeys t
  rw [h, List.pairwise_append, List.pairwise_cons] at hsorted
  exact ⟨before, after, h, fun i hi => hsorted.2.2 i hi k List.mem_cons_self, hsorted.2.1.1⟩

end Dict

namespace RowQueue

variable {α : Type} {t : Dict ℕ (List (Slot α))} {i j k index : ℕ} {a : α}

def cell (t : Dict ℕ (List (Slot α))) (i j : ℕ) : Option α :=
  (Slot.read ((t.get? i).getD []) j).toOption

def column (t : Dict ℕ (List (Slot α))) (j : ℕ) : List α := t.indexKeys.filterMap fun i => cell t i j

/-- What a row has, every row before it has. -/
def Staggered (t : Dict ℕ (List (Slot α))) : Prop :=
  ∀ i ∈ t.keys, ∀ k ∈ t.keys, i < k → ∀ j, cell t k j ≠ none → cell t i j ≠ none

theorem cell_set (row : List (Slot α)) : cell (t.set index row) i j =
    if i = index then (Slot.read row j).toOption else cell t i j := by
  rw [cell, Dict.get?_set]
  split <;> rfl

theorem cell_assign : cell (t.set index (Slot.assign ((t.get? index).getD []) j (.data a))) i k =
    if i = index ∧ k = j then some a else cell t i k := by
  rw [cell_set, Slot.read_assign]
  by_cases hi : i = index
  · rw [if_pos hi, hi]
    by_cases hk : k = j
    · rw [if_pos hk, if_pos ⟨rfl, hk⟩]
      rfl
    · rw [if_neg hk, if_neg fun h => hk h.2]
      rfl
  · rw [if_neg hi, if_neg fun h => hi h.1]

theorem indexKeys_set_of_mem (row : List (Slot α)) (h : index ∈ t.keys) :
    (t.set index row).indexKeys = t.indexKeys := by
  refine Dict.indexKeys_eq (Dict.pairwise_indexKeys t) fun k => ?_
  rw [Dict.mem_indexKeys, Dict.mem_keys_set]
  exact ⟨.inr, fun hk => hk.elim (fun heq => heq ▸ h) id⟩

theorem column_assign (ht : Staggered t) (h : index ∈ t.keys) (hmiss : cell t index j = none) :
    column (t.set index (Slot.assign ((t.get? index).getD []) j (.data a))) j = column t j ++ [a] ∧
      ∀ k, k ≠ j →
        column (t.set index (Slot.assign ((t.get? index).getD []) j (.data a))) k = column t k := by
  have hkeys := indexKeys_set_of_mem (Slot.assign ((t.get? index).getD []) j (.data a)) h
  refine ⟨?_, fun k hk => ?_⟩
  · obtain ⟨before, after, hsplit, hbefore, hafter⟩ := Dict.indexKeys_eq_append h
    have hsame : ∀ i, i ≠ index →
        cell (t.set index (Slot.assign ((t.get? index).getD []) j (.data a))) i j = cell t i j :=
      fun i hi => by rw [cell_assign, if_neg fun h => hi h.1]
    have hnone : after.filterMap (fun i => cell t i j) = [] := by
      refine List.filterMap_eq_nil_iff.mpr fun i hi => ?_
      have hmem : i ∈ t.keys := by
        rw [← Dict.mem_indexKeys, hsplit]
        exact List.mem_append_right _ (List.mem_cons_of_mem _ hi)
      by_contra hsome
      exact ht index h i hmem (hafter i hi) j hsome hmiss
    rw [column, column, hkeys, hsplit, List.filterMap_append, List.filterMap_append,
      List.filterMap_cons, List.filterMap_cons, hmiss, cell_assign, if_pos ⟨rfl, rfl⟩,
      List.filterMap_congr fun i hi => hsame i (hbefore i hi).ne,
      List.filterMap_congr fun i hi => hsame i (hafter i hi).ne', hnone, List.append_nil]
  · rw [column, column, hkeys]
    refine List.filterMap_congr fun i _ => ?_
    rw [cell_assign, if_neg fun h => hk h.2]

theorem Staggered.assign (ht : Staggered t) (h : index ∈ t.keys)
    (hfirst : ∀ i ∈ t.keys, i < index → cell t i j ≠ none) :
    Staggered (t.set index (Slot.assign ((t.get? index).getD []) j (.data a))) := by
  intro i hi k hk hlt col hcol
  have hin : ∀ n ∈ (t.set index (Slot.assign ((t.get? index).getD []) j (.data a))).keys,
      n ∈ t.keys := fun n hn => (Dict.mem_keys_set.mp hn).elim (fun heq => heq ▸ h) id
  rw [cell_assign] at hcol ⊢
  split
  · exact Option.some_ne_none a
  · split at hcol
    · next heq =>
      rw [heq.2]
      exact hfirst i (hin i hi) (heq.1 ▸ hlt)
    · exact ht i (hin i hi) k (hin k hk) hlt col hcol

variable {row : List (Slot α)}

theorem indexKeys_set_last (h : ∀ i ∈ t.keys, i ≤ index) :
    (t.set index row).indexKeys = t.indexKeys.filter (· < index) ++ [index] := by
  refine Dict.indexKeys_eq ?_ fun k => ?_
  · rw [List.pairwise_append]
    refine ⟨(Dict.pairwise_indexKeys t).filter _, List.pairwise_singleton _ _, fun i hi k hk => ?_⟩
    rw [List.mem_singleton.mp hk]
    exact of_decide_eq_true (List.mem_filter.mp hi).2
  · rw [List.mem_append, List.mem_filter, Dict.mem_indexKeys, List.mem_singleton, Dict.mem_keys_set,
      decide_eq_true_eq]
    constructor
    · exact fun hk => hk.elim (fun hk => .inr hk.1) .inl
    · rintro (rfl | hk)
      · exact .inr rfl
      · rcases (h k hk).lt_or_eq with hlt | rfl
        · exact .inl ⟨hk, hlt⟩
        · exact .inr rfl

theorem column_set_last (h : ∀ i ∈ t.keys, i ≤ index)
    (hrow : ∀ k, (Slot.read row k).toOption = if k = j then some a else none) (k : ℕ) :
    ∃ l, l.Sublist (column t k) ∧
      column (t.set index row) k = l ++ if k = j then [a] else [] := by
  refine ⟨(t.indexKeys.filter (· < index)).filterMap fun i => cell t i k,
    List.filter_sublist.filterMap _, ?_⟩
  rw [column, indexKeys_set_last h, List.filterMap_append]
  have hsame : ∀ i ∈ t.indexKeys.filter (· < index), cell (t.set index row) i k = cell t i k := by
    intro i hi
    rw [cell_set, if_neg (of_decide_eq_true (List.mem_filter.mp hi).2).ne]
  rw [List.filterMap_congr hsame, List.filterMap_cons, cell_set, if_pos rfl, hrow]
  by_cases hk : k = j
  · rw [if_pos hk, if_pos hk]
    rfl
  · rw [if_neg hk, if_neg hk]
    rfl

theorem Staggered.set_last (ht : Staggered t) (h : ∀ i ∈ t.keys, i ≤ index)
    (hrow : ∀ k, (Slot.read row k).toOption = if k = j then some a else none)
    (hall : ∀ i ∈ t.keys, cell t i j ≠ none) : Staggered (t.set index row) := by
  intro i hi k hk hlt col hcol
  have hle : k ≤ index := (Dict.mem_keys_set.mp hk).elim le_of_eq (h k)
  have hne : i ≠ index := by omega
  have hmem : i ∈ t.keys := (Dict.mem_keys_set.mp hi).resolve_left hne
  rw [cell_set, if_neg hne]
  rw [cell_set] at hcol
  split at hcol
  · rw [hrow] at hcol
    split at hcol
    · next heq => exact heq ▸ hall i hmem
    · exact absurd rfl hcol
  · next hk' => exact ht i hmem k ((Dict.mem_keys_set.mp hk).resolve_left hk') hlt col hcol

theorem cell_erase (h : i ≠ index) : cell (t.erase index) i j = cell t i j := by
  rw [cell, Dict.get?_erase_of_ne _ h, cell]

theorem column_erase_first (hmem : index ∈ t.keys) (h : ∀ i ∈ t.keys, index ≤ i) (j : ℕ) :
    column t j = (cell t index j).toList ++ column (t.erase index) j := by
  obtain ⟨before, after, hsplit, hbefore, hafter⟩ := Dict.indexKeys_eq_append hmem
  have hnil : before = [] := by
    refine List.eq_nil_iff_forall_not_mem.mpr fun i hi => ?_
    have hi' : i ∈ t.keys := by
      rw [← Dict.mem_indexKeys, hsplit]
      exact List.mem_append_left _ hi
    exact absurd (hbefore i hi) (not_lt.mpr (h i hi'))
  rw [hnil, List.nil_append] at hsplit
  have hrest : (t.erase index).indexKeys = after := by
    have hsorted := Dict.pairwise_indexKeys t
    rw [hsplit, List.pairwise_cons] at hsorted
    refine Dict.indexKeys_eq hsorted.2 fun k => ?_
    rw [Dict.mem_keys_erase, ← Dict.mem_indexKeys (d := t), hsplit, List.mem_cons]
    exact ⟨fun hk => ⟨(hafter k hk).ne', .inr hk⟩, fun hk => hk.2.resolve_left hk.1⟩
  rw [column, column, hsplit, hrest, List.filterMap_cons,
    List.filterMap_congr fun i hi => (cell_erase (hafter i hi).ne').symm]
  cases cell t index j <;> rfl

theorem Staggered.erase (ht : Staggered t) : Staggered (t.erase index) := by
  intro i hi k hk hlt col hcol
  obtain ⟨hine, hi⟩ := Dict.mem_keys_erase.mp hi
  obtain ⟨hkne, hk⟩ := Dict.mem_keys_erase.mp hk
  rw [cell_erase hkne] at hcol
  rw [cell_erase hine]
  exact ht i hi k hk hlt col hcol

end RowQueue

end N8n
