/-
Dictionaries with insertion order.

The host language keeps its tables in two shapes, `Map` and plain objects used
as dictionaries.  Both are a finite map whose entries are listed in the order
in which their keys were first written, and a second write to a key keeps the
key's place.  `Dict κ α` is that list, with the fact that no key occurs twice.

* `get?_set`, `get?_erase` — reading after a write or a deletion;
* `mem_entries_iff` — an entry is in the list iff it is what a read returns.
-/
import Mathlib.Algebra.Ring.Nat
import Mathlib.Data.List.Sort
import Mathlib.Data.List.Nodup
import Mathlib.Data.List.Perm.Basic

namespace N8n

theorem perm_cons_eraseP {α : Type*} {p : α → Bool} {as : List α} {a : α}
    (h : as.find? p = some a) : as.Perm (a :: as.eraseP p) := by
  obtain ⟨hp, before, after, rfl, hbefore⟩ := List.find?_eq_some_iff_append.mp h
  rw [List.eraseP_append_right _ (fun b hb => by simpa using hbefore b hb),
    List.eraseP_cons_of_pos hp]
  exact List.perm_middle

/-- A finite map as the list of its entries, in insertion order. -/
structure Dict (κ α : Type*) where
  entries : List (κ × α)
  nodup : (entries.map Prod.fst).Nodup
  deriving DecidableEq

namespace Dict

variable {κ α : Type*}

def empty : Dict κ α := ⟨[], List.nodup_nil⟩

instance : Inhabited (Dict κ α) := ⟨empty⟩

def keys (d : Dict κ α) : List κ := d.entries.map Prod.fst

def values (d : Dict κ α) : List α := d.entries.map Prod.snd

theorem ext_entries {d e : Dict κ α} (h : d.entries = e.entries) : d = e := by
  cases d
  cases e
  simp_all

theorem nodup_keys (d : Dict κ α) : d.keys.Nodup := d.nodup

@[simp] theorem entries_empty : (empty : Dict κ α).entries = [] := rfl

@[simp] theorem keys_empty : (empty : Dict κ α).keys = [] := rfl

def mapValues {β : Type*} (f : α → β) (d : Dict κ α) : Dict κ β where
  entries := d.entries.map (fun e => (e.1, f e.2))
  nodup := by
    rw [List.map_map]
    exact d.nodup

variable {β : Type*}

theorem entries_mapValues (f : α → β) (d : Dict κ α) :
    (d.mapValues f).entries = d.entries.map (fun e => (e.1, f e.2)) := rfl

variable [DecidableEq κ]

def get? (d : Dict κ α) (k : κ) : Option α :=
  (d.entries.find? (fun e => e.1 = k)).map Prod.snd

def has (d : Dict κ α) (k : κ) : Bool := (d.get? k).isSome

private def setEntries (k : κ) (v : α) : List (κ × α) → List (κ × α)
  | [] => [(k, v)]
  | e :: es => if e.1 = k then (k, v) :: es else e :: setEntries k v es

private theorem keys_setEntries (k : κ) (v : α) :
    ∀ es : List (κ × α), (setEntries k v es).map Prod.fst
      = if k ∈ es.map Prod.fst then es.map Prod.fst else es.map Prod.fst ++ [k] := by
  intro es
  induction es with
  | nil => simp [setEntries]
  | cons e es ih =>
    by_cases h : e.1 = k
    · simp [setEntries, h]
    · have hk : ¬ k = e.1 := fun hk => h hk.symm
      simp only [setEntries, h, if_false, List.map_cons, ih, List.mem_cons, hk, false_or]
      split <;> simp

/-- `o[k] = v`, `m.set(k, v)`: a key that is there keeps its place. -/
def set (d : Dict κ α) (k : κ) (v : α) : Dict κ α where
  entries := setEntries k v d.entries
  nodup := by
    rw [keys_setEntries]
    by_cases h : k ∈ d.entries.map Prod.fst
    · rw [if_pos h]
      exact d.nodup
    · rw [if_neg h, List.nodup_append]
      refine ⟨d.nodup, List.nodup_singleton k, fun a ha b hb hab => h ?_⟩
      rw [← List.mem_singleton.mp hb, ← hab]
      exact ha

def erase (d : Dict κ α) (k : κ) : Dict κ α where
  entries := d.entries.filter (fun e => e.1 ≠ k)
  nodup := d.nodup.sublist (List.Sublist.map _ List.filter_sublist)

theorem entries_erase (d : Dict κ α) (k : κ) :
    (d.erase k).entries = d.entries.filter (fun e => e.1 ≠ k) := rfl

variable {d : Dict κ α} {k : κ} {v : α}

theorem mem_entries_iff : (k, v) ∈ d.entries ↔ d.get? k = some v := by
  obtain ⟨es, hnd⟩ := d
  simp only [get?]
  induction es with
  | nil => simp
  | cons e es ih =>
    rw [List.map_cons, List.nodup_cons] at hnd
    by_cases h : e.1 = k
    · have hnot : (k, v) ∉ es := fun hm => hnd.1 (h ▸ List.mem_map_of_mem (f := Prod.fst) hm)
      simp only [List.mem_cons, hnot, or_false, List.find?_cons, h, decide_true,
        Option.map_some, Option.some_inj]
      constructor
      · rintro rfl
        rfl
      · intro hv
        rw [← h, ← hv]
    · have hne : (k, v) ≠ e := fun he => h (by rw [← he])
      simp only [List.mem_cons, hne, false_or, List.find?_cons, h, decide_false]
      exact ih hnd.2

theorem mem_keys_iff : k ∈ d.keys ↔ ∃ v, d.get? k = some v := by
  simp only [keys, List.mem_map, Prod.exists, exists_and_right, exists_eq_right,
    mem_entries_iff]

theorem has_iff : d.has k = true ↔ k ∈ d.keys := by
  rw [has, Option.isSome_iff_exists, mem_keys_iff]

theorem not_mem_keys_of_has (h : d.has k = false) : k ∉ d.keys := by
  rw [← has_iff, h]
  exact Bool.false_ne_true

theorem get?_eq_none_iff : d.get? k = none ↔ k ∉ d.keys := by
  rw [← has_iff, has, Bool.not_eq_true, Option.isSome_eq_false_iff, Option.isNone_iff_eq_none]

theorem mem_values_of_get? (h : d.get? k = some v) : v ∈ d.values :=
  List.mem_map_of_mem (f := Prod.snd) (mem_entries_iff.mpr h)

theorem mem_values_iff : v ∈ d.values ↔ ∃ k, d.get? k = some v := by
  simp only [values, List.mem_map, Prod.exists, exists_eq_right, mem_entries_iff]

theorem get?_mapValues (f : α → β) (d : Dict κ α) (k : κ) :
    (d.mapValues f).get? k = (d.get? k).map f := by
  simp only [get?, mapValues, List.find?_map, Option.map_map]
  rfl

@[simp] theorem get?_empty (k : κ) : (empty : Dict κ α).get? k = none := rfl

theorem keys_set (d : Dict κ α) (k : κ) (v : α) :
    (d.set k v).keys = if k ∈ d.keys then d.keys else d.keys ++ [k] :=
  keys_setEntries k v d.entries

variable {j : κ}

theorem mem_keys_set : j ∈ (d.set k v).keys ↔ j = k ∨ j ∈ d.keys := by
  rw [keys_set]
  split
  · next h =>
    constructor
    · exact Or.inr
    · rintro (rfl | hj)
      · exact h
      · exact hj
  · rw [List.mem_append, List.mem_singleton, or_comm]

theorem get?_set (d : Dict κ α) (k j : κ) (v : α) :
    (d.set k v).get? j = if j = k then some v else d.get? j := by
  have key : ∀ es : List (κ × α),
      ((setEntries k v es).find? (fun e => e.1 = j)).map Prod.snd
        = if j = k then some v else (es.find? (fun e => e.1 = j)).map Prod.snd := by
    intro es
    induction es with
    | nil => by_cases h : j = k <;> simp [setEntries, h, Ne.symm]
    | cons e es ih =>
      by_cases he : e.1 = k
      · by_cases h : j = k
        · simp [setEntries, he, h]
        · have hk : ¬ k = j := fun hk => h hk.symm
          simp [setEntries, he, h, hk]
      · by_cases hj : e.1 = j
        · have h : ¬ j = k := fun h => he (hj.trans h)
          simp [setEntries, hj, h]
        · simpa [setEntries, he, hj] using ih
  exact key d.entries

@[simp] theorem get?_set_self (d : Dict κ α) (k : κ) (v : α) : (d.set k v).get? k = some v := by
  rw [get?_set, if_pos rfl]

theorem has_set (d : Dict κ α) (k j : κ) (v : α) :
    (d.set k v).has j = true ↔ j = k ∨ d.has j = true := by
  rw [has, get?_set]
  split
  · rename_i h
    simp [h]
  · rename_i h
    simp [h, has]

theorem get?_set_of_ne (d : Dict κ α) (h : j ≠ k) (v : α) :
    (d.set k v).get? j = d.get? j := by
  rw [get?_set, if_neg h]

theorem get?_erase (d : Dict κ α) (k j : κ) :
    (d.erase k).get? j = if j = k then none else d.get? j := by
  by_cases h : j = k
  · rw [if_pos h, get?_eq_none_iff]
    simp [keys, erase, h]
  · rw [if_neg h]
    have hp : (fun e : κ × α => decide (decide (e.1 ≠ k) = true ∧ decide (e.1 = j) = true))
        = fun e => decide (e.1 = j) := by
      funext e
      by_cases he : e.1 = j
      · simp [he, h]
      · simp [he]
    simp only [get?, erase, List.find?_filter, hp]

@[simp] theorem get?_erase_self (d : Dict κ α) (k : κ) : (d.erase k).get? k = none := by
  rw [get?_erase, if_pos rfl]

theorem get?_erase_of_ne (d : Dict κ α) (h : j ≠ k) :
    (d.erase k).get? j = d.get? j := by
  rw [get?_erase, if_neg h]

theorem get?_of_get?_erase (h : (d.erase k).get? j = some v) :
    d.get? j = some v := by
  rw [get?_erase] at h
  split at h
  · cases h
  · exact h

theorem mem_keys_erase : j ∈ (d.erase k).keys ↔ j ≠ k ∧ j ∈ d.keys := by
  simp only [mem_keys_iff, get?_erase]
  by_cases h : j = k <;> simp [h]

theorem entries_set_of_not_mem (h : k ∉ d.keys) (v : α) :
    (d.set k v).entries = d.entries ++ [(k, v)] := by
  have key : ∀ es : List (κ × α), k ∉ es.map Prod.fst → setEntries k v es = es ++ [(k, v)] := by
    intro es
    induction es with
    | nil => simp [setEntries]
    | cons e es ih =>
      intro hk
      rw [List.map_cons, List.mem_cons, not_or] at hk
      rw [setEntries, if_neg (Ne.symm hk.1), ih hk.2, List.cons_append]
  exact key d.entries h

theorem entries_foldl_set {es : List (κ × α)} {d : Dict κ α}
    (h : ((d.entries ++ es).map Prod.fst).Nodup) :
    (es.foldl (fun d e => d.set e.1 e.2) d).entries = d.entries ++ es := by
  induction es generalizing d with
  | nil => exact (List.append_nil _).symm
  | cons e es ih =>
    have hnew : e.1 ∉ d.keys := by
      rw [List.map_append, List.map_cons, List.nodup_append] at h
      exact fun hmem => h.2.2 e.1 hmem e.1 List.mem_cons_self rfl
    have hset := entries_set_of_not_mem hnew e.2
    rw [List.foldl_cons, ih (by rw [hset, List.append_assoc]; exact h), hset, List.append_assoc]
    rfl

theorem erase_of_not_mem (h : k ∉ d.keys) : d.erase k = d := by
  apply ext_entries
  rw [erase, List.filter_eq_self]
  intro e he
  simp only [decide_eq_true_eq]
  rintro rfl
  exact h (List.mem_map_of_mem (f := Prod.fst) he)

theorem perm_cons_erase (h : d.get? k = some v) :
    d.entries.Perm ((k, v) :: (d.erase k).entries) := by
  have key : ∀ es : List (κ × α), (es.map Prod.fst).Nodup → (k, v) ∈ es →
      es.Perm ((k, v) :: es.filter (fun e => e.1 ≠ k)) := by
    intro es
    induction es with
    | nil => simp
    | cons e es ih =>
      intro hnd hm
      rw [List.map_cons, List.nodup_cons] at hnd
      by_cases he : e.1 = k
      · have hkeep : es.filter (fun e => e.1 ≠ k) = es := by
          rw [List.filter_eq_self]
          intro e' he'
          simp only [decide_eq_true_eq]
          intro hk
          exact hnd.1 (he ▸ hk ▸ List.mem_map_of_mem (f := Prod.fst) he')
        have hev : e = (k, v) := by
          rcases List.mem_cons.mp hm with hm | hm
          · exact hm.symm
          · exact absurd (he ▸ List.mem_map_of_mem (f := Prod.fst) hm) hnd.1
        rw [List.filter_cons_of_neg (by simpa using he), hkeep, hev]
      · have hes : (k, v) ∈ es := by
          rcases List.mem_cons.mp hm with hm | hm
          · exact absurd (by rw [← hm]) he
          · exact hm
        rw [List.filter_cons_of_pos (by simpa using he)]
        exact ((ih hnd.2 hes).cons e).trans (List.Perm.swap _ _ _)
  exact key d.entries d.nodup (mem_entries_iff.mpr h)

theorem erase_set (d : Dict κ α) (k : κ) (v : α) : (d.set k v).erase k = d.erase k := by
  apply ext_entries
  have key : ∀ es : List (κ × α), (setEntries k v es).filter (fun e => e.1 ≠ k)
      = es.filter (fun e => e.1 ≠ k) := by
    intro es
    induction es with
    | nil => simp [setEntries]
    | cons e es ih =>
      by_cases he : e.1 = k
      · simp [setEntries, he]
      · rw [setEntries, if_neg he, List.filter_cons, List.filter_cons, ih]
  exact key d.entries

theorem set_set (d : Dict κ α) (k : κ) (v v' : α) : (d.set k v).set k v' = d.set k v' := by
  apply ext_entries
  have key : ∀ es : List (κ × α), setEntries k v' (setEntries k v es) = setEntries k v' es := by
    intro es
    induction es with
    | nil => simp [setEntries]
    | cons e es ih =>
      by_cases he : e.1 = k
      · simp [setEntries, he]
      · rw [setEntries, if_neg he, setEntries, if_neg he, setEntries, if_neg he, ih]
  exact key d.entries

theorem perm_set (d : Dict κ α) (k : κ) (v : α) :
    (d.set k v).entries.Perm ((k, v) :: (d.erase k).entries) := by
  have h := perm_cons_erase (get?_set_self d k v)
  rwa [erase_set] at h

theorem flatMap_perm_erase (f : κ → α → List β) (d : Dict κ α) (k : κ) :
    (d.entries.flatMap fun e => f e.1 e.2).Perm
      (((d.get? k).map (f k)).getD [] ++ (d.erase k).entries.flatMap fun e => f e.1 e.2) := by
  rcases h : d.get? k with _ | v
  · rw [erase_of_not_mem (get?_eq_none_iff.mp h)]
    exact List.Perm.refl _
  · exact (perm_cons_erase h).flatMap_right _

theorem flatMap_set_perm_cons (f : κ → α → List β) (d : Dict κ α)
    {b : β} (h : (f k v).Perm (b :: ((d.get? k).map (f k)).getD [])) :
    ((d.set k v).entries.flatMap fun e => f e.1 e.2).Perm
      (b :: d.entries.flatMap fun e => f e.1 e.2) := by
  have h1 := (perm_set d k v).flatMap_right (fun e => f e.1 e.2)
  have h2 := (flatMap_perm_erase f d k).cons b
  exact (h1.trans (h.append_right _)).trans h2.symm

theorem length_keys_erase (h : k ∈ d.keys) : (d.erase k).keys.length + 1 = d.keys.length := by
  obtain ⟨v, hv⟩ := mem_keys_iff.mp h
  have hp := (perm_cons_erase hv).length_eq
  rw [List.length_cons] at hp
  simp only [keys, List.length_map]
  exact hp.symm

/-- `Object.keys(o)` of an object whose keys are numbers: ascending. -/
def indexKeys (d : Dict ℕ α) : List ℕ := d.keys.insertionSort (· ≤ ·)

@[simp] theorem mem_indexKeys {d : Dict ℕ α} {k : ℕ} : k ∈ d.indexKeys ↔ k ∈ d.keys := by
  rw [indexKeys, List.mem_insertionSort]

/-- The number a key stands for when it is an array index: digits without a
leading zero, below `2 ^ 32 - 1`. -/
def arrayIndex? (key : String) : Option ℕ :=
  let value := key.toList.foldl (fun n c => 10 * n + (c.toNat - '0'.toNat)) 0
  if key ≠ "" ∧ key.toList.all Char.isDigit ∧ (key = "0" ∨ key.toList.head? ≠ some '0')
      ∧ value < 2 ^ 32 - 1 then some value else none

/-- The order in which an object lists string keys written in the given order:
the array indexes ascending, then the others. -/
def propertyOrder (keys : List String) : List String :=
  (keys.filter (fun k => (arrayIndex? k).isSome)).insertionSort
      (fun a b => (arrayIndex? a).getD 0 ≤ (arrayIndex? b).getD 0)
    ++ keys.filter (fun k => (arrayIndex? k).isNone)

/-- `Object.keys(o)` of an object with string keys. -/
def objectKeys (d : Dict String α) : List String := propertyOrder d.keys

theorem perm_objectKeys (d : Dict String α) : d.objectKeys.Perm d.keys := by
  have hnot : (fun k => (arrayIndex? k).isNone) = fun k => !(arrayIndex? k).isSome := by
    funext k
    exact (Option.not_isSome _).symm
  rw [objectKeys, propertyOrder, hnot]
  exact ((List.perm_insertionSort _ _).append_right _).trans (List.filter_append_perm _ _)

@[simp] theorem mem_objectKeys {d : Dict String α} {k : String} :
    k ∈ d.objectKeys ↔ k ∈ d.keys :=
  (perm_objectKeys d).mem_iff

theorem nodup_objectKeys (d : Dict String α) : d.objectKeys.Nodup :=
  (perm_objectKeys d).nodup_iff.mpr d.nodup_keys

/-- An array index comes before a name that was written first. -/
example : (((empty.set "Merge" 0).set "10" 1).set "9" 2 : Dict String ℕ).objectKeys
    = ["9", "10", "Merge"] := by decide

end Dict

end N8n
