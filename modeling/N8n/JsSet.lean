/-
A `Set`: its elements in the order in which they were added, none of them twice.

* `JsSet.ofList` — the set made from an array, `new Set(array)`;
* `mem_union`, `mem_intersection`, `mem_difference` — the operations, by their elements.
-/
import Mathlib.Data.List.Basic
import Mathlib.Data.List.Nodup

namespace N8n

structure JsSet (α : Type*) where
  elems : List α
  nodup : elems.Nodup
  deriving DecidableEq

namespace JsSet

variable {α : Type*}

instance : Membership α (JsSet α) := ⟨fun s a => a ∈ s.elems⟩

variable {s : JsSet α} {a : α}

theorem mem_def : a ∈ s ↔ a ∈ s.elems := Iff.rfl

def empty : JsSet α := ⟨[], List.nodup_nil⟩

@[simp] theorem not_mem_empty (a : α) : a ∉ (empty : JsSet α) := List.not_mem_nil

def size (s : JsSet α) : ℕ := s.elems.length

def first? (s : JsSet α) : Option α := s.elems.head?

def filter (s : JsSet α) (p : α → Bool) : JsSet α := ⟨s.elems.filter p, s.nodup.filter p⟩

@[simp] theorem mem_filter {p : α → Bool} :
    a ∈ s.filter p ↔ a ∈ s ∧ p a = true := List.mem_filter

theorem size_filter_le (s : JsSet α) (p : α → Bool) : (s.filter p).size ≤ s.size :=
  List.length_filter_le p s.elems

theorem size_eq_zero_iff : s.size = 0 ↔ ∀ a, a ∉ s := by
  rw [size, List.length_eq_zero_iff, List.eq_nil_iff_forall_not_mem]
  rfl

theorem size_le_one_iff : s.size ≤ 1 ↔ ∀ a ∈ s, ∀ b ∈ s, a = b := by
  obtain ⟨elems, hnodup⟩ := s
  show elems.length ≤ 1 ↔ ∀ a ∈ elems, ∀ b ∈ elems, a = b
  rcases elems with _ | ⟨a, _ | ⟨b, elems⟩⟩
  · simp
  · simp
  · refine ⟨fun h => by simp at h, fun h => ?_⟩
    have hab : a = b := h a (by simp) b (by simp)
    rw [hab, List.nodup_cons] at hnodup
    exact absurd List.mem_cons_self hnodup.1

theorem first?_mem (h : s.first? = some a) : a ∈ s :=
  List.mem_of_head? h

theorem first?_eq_none_iff : s.first? = none ↔ ∀ a, a ∉ s := by
  rw [first?, List.head?_eq_none_iff, List.eq_nil_iff_forall_not_mem]
  rfl

theorem first?_eq_some (ha : a ∈ s) (h : ∀ b ∈ s, b = a) :
    s.first? = some a := by
  rcases hf : s.first? with _ | b
  · exact absurd ha (first?_eq_none_iff.mp hf a)
  · rw [h b (first?_mem hf)]

variable [DecidableEq α]

instance (s : JsSet α) (a : α) : Decidable (a ∈ s) := inferInstanceAs (Decidable (a ∈ s.elems))

def add (s : JsSet α) (a : α) : JsSet α :=
  if h : a ∈ s.elems then s else ⟨s.elems ++ [a], List.nodup_append'.mpr
    ⟨s.nodup, List.nodup_singleton a, fun _ hb hba => h (List.mem_singleton.mp hba ▸ hb)⟩⟩

def addAll (s : JsSet α) (as : List α) : JsSet α := as.foldl add s

def ofList (as : List α) : JsSet α := empty.addAll as

def union (s t : JsSet α) : JsSet α := (empty.addAll s.elems).addAll t.elems

def intersection (s t : JsSet α) : JsSet α := s.filter (· ∈ t)

def difference (s t : JsSet α) : JsSet α := s.filter (· ∉ t)

variable {b : α}

@[simp] theorem mem_add : b ∈ s.add a ↔ b ∈ s ∨ b = a := by
  rw [add]
  split
  · next h => exact ⟨.inl, fun hb => hb.elim id fun heq => heq ▸ h⟩
  · rw [mem_def, List.mem_append, List.mem_singleton, mem_def]

variable {as : List α}

@[simp] theorem mem_addAll :
    b ∈ s.addAll as ↔ b ∈ s ∨ b ∈ as := by
  induction as generalizing s with
  | nil => simp [addAll]
  | cons a as ih =>
    show b ∈ (s.add a).addAll as ↔ _
    rw [ih, mem_add, List.mem_cons, or_assoc]

@[simp] theorem mem_ofList : b ∈ ofList as ↔ b ∈ as := by
  simp [ofList]

theorem size_ofList_le (as : List α) : (ofList as).size ≤ as.length := by
  have key : ∀ (as : List α) (s : JsSet α), (s.addAll as).size ≤ s.size + as.length := by
    intro as
    induction as with
    | nil => exact fun s => Nat.le_refl _
    | cons a as ih =>
      intro s
      have hadd : (s.add a).size ≤ s.size + 1 := by
        rw [add]
        split
        · exact Nat.le_succ _
        · simp [size]
      have hrest := ih (s.add a)
      rw [List.length_cons]
      exact Nat.le_trans hrest (by omega)
  simpa [ofList, empty, size] using key as empty

theorem elems_addAll (h : as.Nodup) (s : JsSet α) :
    (s.addAll as).elems = s.elems ++ as.filter (· ∉ s) := by
  induction as generalizing s with
  | nil => simp [addAll]
  | cons a as ih =>
    obtain ⟨ha, has⟩ := List.nodup_cons.mp h
    show ((s.add a).addAll as).elems = _
    have hrest : as.filter (· ∉ s.add a) = as.filter (· ∉ s) :=
      List.filter_congr fun b hb => by
        have hne : b ≠ a := fun heq => ha (heq ▸ hb)
        simp [hne]
    rw [ih has, hrest, add]
    by_cases hmem : a ∈ s.elems
    · rw [dif_pos hmem, List.filter_cons, if_neg (by simpa [mem_def] using hmem)]
    · rw [dif_neg hmem, List.filter_cons, if_pos (by simpa [mem_def] using hmem),
        List.append_assoc]
      rfl

theorem elems_ofList_append {bs : List α} (has : as.Nodup) (hbs : bs.Nodup) :
    (ofList (as ++ bs)).elems = as ++ bs.filter (· ∉ as) := by
  have hsplit : ofList (as ++ bs) = (ofList as).addAll bs := List.foldl_append
  have hfirst : (ofList as).elems = as := by
    rw [ofList, elems_addAll has, List.filter_eq_self.mpr fun a _ => by simp]
    rfl
  rw [hsplit, elems_addAll hbs, hfirst]
  congr 1
  exact List.filter_congr fun b _ => by simp

variable {t : JsSet α}

@[simp] theorem mem_union : b ∈ s.union t ↔ b ∈ s ∨ b ∈ t := by
  simp [union, mem_def (s := s), mem_def (s := t)]

@[simp] theorem mem_intersection :
    b ∈ s.intersection t ↔ b ∈ s ∧ b ∈ t := by
  simp [intersection]

@[simp] theorem mem_difference :
    b ∈ s.difference t ↔ b ∈ s ∧ b ∉ t := by
  simp [difference]

end JsSet

end N8n
