/-
Arrays that are held in several places.

A place holds no array, an array of the heap, which other places may hold as well, or an array
of its own.  Taking the entries off the array of one place takes them off the array of every
place that holds it.

* `put_put`, `put_content` — writing the array of a place;
* `emptied_concat` — the arrays of a list of places are emptied one by one.
-/
import Mathlib.Logic.Function.Basic
import Mathlib.Data.List.Basic

namespace N8n.SharedArrays

/-- The arrays, by number. -/
abbrev Heap (α : Type*) := ℕ → List α

inductive ArrayPlace (α : Type*) where
  | missing
  | held (array : ℕ)
  | own (entries : List α)

variable {α : Type*}

def content (heap : Heap α) : ArrayPlace α → List α
  | .missing => []
  | .held array => heap array
  | .own entries => entries

def arrays : ArrayPlace α → List ℕ
  | .held array => [array]
  | _ => []

def put (heap : Heap α) (place : ArrayPlace α) (entries : List α) : Heap α :=
  match place with
  | .held array => Function.update heap array entries
  | _ => heap

def emptied (heap : Heap α) (emptiedArrays : List ℕ) : Heap α :=
  fun array => if array ∈ emptiedArrays then [] else heap array

variable {heap : Heap α} {place : ArrayPlace α}

@[simp] theorem put_put (entries entries' : List α) :
    put (put heap place entries) place entries' = put heap place entries' := by
  cases place with
  | missing => rfl
  | held array => exact Function.update_idem _ _ _
  | own own => rfl

@[simp] theorem put_content : put heap place (content heap place) = heap := by
  cases place with
  | missing => rfl
  | held array => exact Function.update_eq_self _ _
  | own own => rfl

@[simp] theorem emptied_nil : emptied heap [] = heap := by
  funext array
  exact if_neg List.not_mem_nil

theorem emptied_concat (emptiedArrays : List ℕ) :
    put (emptied heap emptiedArrays) place [] =
      emptied heap (emptiedArrays ++ arrays place) := by
  cases place with
  | missing => simp [arrays, put]
  | own own => simp [arrays, put]
  | held array =>
    funext other
    by_cases h : other = array
    · subst h
      simp [put, emptied, arrays]
    · simp [put, emptied, arrays, h]

variable {emptiedArrays : List ℕ}

theorem content_emptied_of_disjoint
    (h : ∀ array ∈ arrays place, array ∉ emptiedArrays) :
    content (emptied heap emptiedArrays) place = content heap place := by
  cases place with
  | missing => rfl
  | own own => rfl
  | held array => exact if_neg (h array List.mem_cons_self)

theorem content_emptied_of_mem {array : ℕ} (h : array ∈ emptiedArrays)
    (hplace : array ∈ arrays place) : content (emptied heap emptiedArrays) place = [] := by
  cases place with
  | missing => cases hplace
  | own own => cases hplace
  | held other =>
    rw [List.mem_singleton.mp hplace] at h
    exact if_pos h

theorem content_of_mem_arrays {array : ℕ} (h : array ∈ arrays place) :
    content heap place = heap array := by
  cases place with
  | missing => cases h
  | own own => cases h
  | held other =>
    rw [List.mem_singleton.mp h]
    rfl

end N8n.SharedArrays
