/-
Arrays with holes.

An array of the host language can be longer than what was written to it: the
positions in between read as `undefined`, which is not `null`.  `Slot` tells
the three apart, and `assign` is the write `a[i] = v`.

The positions that hold data are listed by `filled`; a write to a position
without data adds exactly one entry to that list (`filled_assign`).
-/
import Mathlib.Data.List.Perm.Basic

namespace N8n

/-- One position of an array of values that may be `null` or missing. -/
inductive Slot (α : Type*) where
  | undefined
  | null
  | data (a : α)
  deriving DecidableEq, Repr

namespace Slot

variable {α : Type*}

instance : Inhabited (Slot α) := ⟨undefined⟩

/-- `slot ?? null`, the data of a slot if it holds any. -/
def toOption : Slot α → Option α
  | undefined => none
  | null => none
  | data a => some a

def isFalsy (s : Slot α) : Bool := s.toOption.isNone

@[simp] theorem toOption_undefined : (undefined : Slot α).toOption = none := rfl

@[simp] theorem toOption_null : (null : Slot α).toOption = none := rfl

@[simp] theorem toOption_data (a : α) : (data a).toOption = some a := rfl

@[simp] theorem isFalsy_undefined : (undefined : Slot α).isFalsy = true := rfl

@[simp] theorem isFalsy_null : (null : Slot α).isFalsy = true := rfl

@[simp] theorem isFalsy_data (a : α) : (data a).isFalsy = false := rfl

variable (l : List (Slot α))

/-- `a[i]`. -/
def read (i : ℕ) : Slot α := (l[i]?).getD undefined

/-- `a[i] = v`. -/
def assign (i : ℕ) (v : Slot α) : List (Slot α) :=
  if i < l.length then l.set i v
  else l ++ List.replicate (i - l.length) undefined ++ [v]

theorem read_replicate_null {n i : ℕ} (h : i < n) :
    read (List.replicate n (null : Slot α)) i = null := by
  rw [read, List.getElem?_replicate, if_pos h, Option.getD_some]

theorem assign_of_lt {l : List (Slot α)} {i : ℕ} (h : i < l.length) (v : Slot α) :
    assign l i v = l.set i v := if_pos h

theorem length_assign (i : ℕ) (v : Slot α) : (assign l i v).length = max l.length (i + 1) := by
  rw [assign]
  split
  · rw [List.length_set]
    omega
  · simp only [List.length_append, List.length_replicate, List.length_singleton]
    omega

theorem read_assign (i j : ℕ) (v : Slot α) :
    read (assign l i v) j = if j = i then v else read l j := by
  rw [assign, read, read]
  split
  · next h =>
    rw [List.getElem?_set]
    by_cases hj : j = i
    · subst hj
      simp [h]
    · simp [hj, Ne.symm hj]
  · next h =>
    by_cases hj : j < l.length
    · have hne : j ≠ i := by omega
      rw [if_neg hne, List.append_assoc, List.getElem?_append_left hj]
    · rw [List.append_assoc, List.getElem?_append_right (by omega)]
      by_cases hji : j < i
      · have hne : j ≠ i := by omega
        rw [if_neg hne, List.getElem?_append_left (by rw [List.length_replicate]; omega),
          List.getElem?_replicate, if_pos (by omega), List.getElem?_eq_none (by omega)]
        rfl
      · rw [List.getElem?_append_right (by rw [List.length_replicate]; omega),
          List.length_replicate]
        by_cases hj' : j = i
        · subst hj'
          rw [if_pos rfl, Nat.sub_self]
          rfl
        · rw [if_neg hj', List.getElem?_eq_none (by simp; omega),
            List.getElem?_eq_none (by omega)]

@[simp] theorem read_assign_self (i : ℕ) (v : Slot α) : read (assign l i v) i = v := by
  rw [read_assign, if_pos rfl]

theorem assign_assign (i : ℕ) (v w : Slot α) : assign (assign l i v) i w = assign l i w := by
  apply List.ext_getElem?
  intro j
  have hlen : (assign (assign l i v) i w).length = (assign l i w).length := by
    simp only [length_assign]
    omega
  by_cases hj : j < (assign l i w).length
  · have h1 := read_assign (assign l i v) i j w
    have h2 := read_assign l i j w
    rw [read_assign l i j v] at h1
    have hread : read (assign (assign l i v) i w) j = read (assign l i w) j := by
      rw [h1, h2]
      split <;> rfl
    rw [read, read, List.getElem?_eq_getElem hj,
      List.getElem?_eq_getElem (by rw [hlen]; exact hj), Option.getD_some,
      Option.getD_some] at hread
    rw [List.getElem?_eq_getElem hj, List.getElem?_eq_getElem (by rw [hlen]; exact hj), hread]
  · rw [List.getElem?_eq_none (by omega), List.getElem?_eq_none (by omega)]

/-- The pairs of a position and the data it holds, from position `k` on. -/
def filledFrom (k : ℕ) : List (Slot α) → List (ℕ × α)
  | [] => []
  | s :: l => (s.toOption.map (fun a => (k, a))).toList ++ filledFrom (k + 1) l

def filled : List (ℕ × α) := filledFrom 0 l

theorem filledFrom_append (k : ℕ) (l m : List (Slot α)) :
    filledFrom k (l ++ m) = filledFrom k l ++ filledFrom (k + l.length) m := by
  induction l generalizing k with
  | nil => simp [filledFrom]
  | cons s l ih =>
    rw [List.cons_append, filledFrom, filledFrom, ih, List.append_assoc, List.length_cons,
      show k + 1 + l.length = k + (l.length + 1) by omega]

theorem filledFrom_replicate_of_none {s : Slot α} (h : s.toOption = none) (k n : ℕ) :
    filledFrom k (List.replicate n s) = [] := by
  induction n generalizing k with
  | zero => rfl
  | succ n ih => simp [List.replicate_succ, filledFrom, h, ih]

@[simp] theorem filled_replicate_null (n : ℕ) :
    filled (List.replicate n (null : Slot α)) = [] :=
  filledFrom_replicate_of_none rfl 0 n

theorem filledFrom_set {l : List (Slot α)} {i : ℕ} (hi : i < l.length)
    (h : (read l i).toOption = none) (k : ℕ) (a : α) :
    (filledFrom k (l.set i (data a))).Perm ((k + i, a) :: filledFrom k l) := by
  induction l generalizing i k with
  | nil => simp at hi
  | cons s l ih =>
    rcases i with _ | i
    · have hs : s.toOption = none := by simpa [read] using h
      simp [filledFrom, hs]
    · rw [List.set_cons_succ, filledFrom, filledFrom]
      have hi' : i < l.length := by simpa using hi
      have hp := ih hi' (by simpa [read] using h) (k + 1)
      rw [show k + 1 + i = k + (i + 1) by omega] at hp
      exact (hp.append_left _).trans List.perm_middle

theorem filled_assign {l : List (Slot α)} {i : ℕ} (h : (read l i).toOption = none) (a : α) :
    (filled (assign l i (data a))).Perm ((i, a) :: filled l) := by
  rw [assign, filled, filled]
  split
  · next hi => simpa using filledFrom_set hi h 0 a
  · next hi =>
    rw [filledFrom_append, filledFrom_append, filledFrom_replicate_of_none rfl,
      List.append_nil]
    simp only [List.length_append, List.length_replicate, filledFrom, toOption_data,
      Option.map_some, Option.toList_some, List.append_nil]
    rw [show 0 + (l.length + (i - l.length)) = i by omega]
    exact List.perm_append_comm

theorem mem_filledFrom {l : List (Slot α)} {k j : ℕ} {a : α} :
    (j, a) ∈ filledFrom k l ↔ ∃ i, j = k + i ∧ read l i = data a := by
  induction l generalizing k with
  | nil => simp [filledFrom, read]
  | cons s l ih =>
    rw [filledFrom, List.mem_append, ih]
    constructor
    · rintro (h | ⟨i, rfl, hi⟩)
      · cases s with
        | data b =>
          simp only [toOption_data, Option.map_some, Option.toList_some, List.mem_singleton,
            Prod.mk.injEq] at h
          exact ⟨0, by omega, by rw [h.2]; rfl⟩
        | undefined => simp at h
        | null => simp at h
      · exact ⟨i + 1, by omega, by simpa [read] using hi⟩
    · rintro ⟨i, rfl, hi⟩
      rcases i with _ | i
      · have hs : s = data a := by simpa [read] using hi
        exact Or.inl (by simp [hs])
      · exact Or.inr ⟨i, by omega, by simpa [read] using hi⟩

theorem mem_filled {l : List (Slot α)} {j : ℕ} {a : α} :
    (j, a) ∈ filled l ↔ read l j = data a := by
  rw [filled, mem_filledFrom]
  constructor
  · rintro ⟨i, hj, hi⟩
    rwa [hj, Nat.zero_add]
  · intro h
    exact ⟨j, (Nat.zero_add j).symm, h⟩

end Slot

end N8n
