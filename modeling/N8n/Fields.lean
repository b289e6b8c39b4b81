/-
The properties of an object as a list of keys and values, for trees of objects.

* `get_set`, `get_erase`, `get_append` — what is read after a change;
* `set_eq_append` — a new key comes last.
-/
import Mathlib.Data.List.Basic

namespace N8n.Fields

variable {α : Type*} (slots : List (String × α))

def get (key : String) : Option α :=
  (slots.find? fun s => s.1 = key).map Prod.snd

/-- In place, or at the end. -/
def set (key : String) (value : α) : List (String × α) :=
  if (get slots key).isSome then slots.map fun s => if s.1 = key then (key, value) else s
  else slots ++ [(key, value)]

def erase (key : String) : List (String × α) :=
  slots.filter fun s => s.1 ≠ key

@[simp] theorem get_nil (key : String) : get ([] : List (String × α)) key = none := rfl

theorem get_cons (slot : String × α) (slots : List (String × α)) (key : String) :
    get (slot :: slots) key = if slot.1 = key then some slot.2 else get slots key := by
  rw [get, List.find?_cons]
  by_cases h : slot.1 = key
  · simp only [h, decide_true, Option.map_some, if_true]
  · simp only [h, decide_false, if_false]
    rfl

theorem get_append (slots more : List (String × α)) (key : String) :
    get (slots ++ more) key = (get slots key).or (get more key) := by
  induction slots with
  | nil => rfl
  | cons slot slots ih =>
    rw [List.cons_append, get_cons, get_cons, ih]
    split
    · rfl
    · rfl

theorem set_eq_append {slots : List (String × α)} {key : String} (h : get slots key = none)
    (value : α) : set slots key value = slots ++ [(key, value)] := by
  rw [set, h]
  rfl

theorem get_map (key key' : String) (value : α) :
    get (slots.map fun s => if s.1 = key then (key, value) else s) key' =
      if key' = key then (get slots key').map fun _ => value else get slots key' := by
  induction slots with
  | nil => simp
  | cons slot slots ih =>
    rw [List.map_cons, get_cons, get_cons, ih]
    by_cases hkey : key' = key
    · subst hkey
      by_cases hslot : slot.1 = key'
      · simp [hslot]
      · simp [hslot]
    · by_cases hslot : slot.1 = key
      · simp [hslot, Ne.symm hkey, hkey]
      · simp [hslot, hkey]

theorem get_set (key key' : String) (value : α) :
    get (set slots key value) key' = if key' = key then some value else get slots key' := by
  rcases hget : get slots key with _ | old
  · rw [set_eq_append hget, get_append, get_cons]
    by_cases hkey : key' = key
    · subst hkey
      simp [hget]
    · simp [hkey, Ne.symm hkey]
  · rw [set, hget, Option.isSome_some, if_pos rfl, get_map]
    by_cases hkey : key' = key
    · subst hkey
      simp [hget]
    · simp [hkey]

theorem get_erase (key key' : String) :
    get (erase slots key) key' = if key' = key then none else get slots key' := by
  induction slots with
  | nil => simp [erase]
  | cons slot slots ih =>
    rw [erase, List.filter_cons, get_cons]
    by_cases hslot : slot.1 = key
    · simp only [hslot, ne_eq, not_true_eq_false, decide_false, Bool.false_eq_true, if_false]
      rw [← erase, ih]
      by_cases hkey : key' = key
      · simp [hkey]
      · simp [hkey, Ne.symm hkey]
    · simp only [hslot, ne_eq, not_false_eq_true, decide_true, if_true, get_cons]
      rw [← erase, ih]
      by_cases hkey : key' = key
      · subst hkey
        simp [hslot]
      · simp [hkey]

end N8n.Fields
