/-
The properties of an object in the order in which they are listed: the array indexes ascending,
then the other names as they were created.

* `Fields.put` — an assignment, which creates a property in its place in that order;
* `get_put` — what is read afterwards.
-/
import N8n.Dict
import N8n.Fields

namespace N8n

/-- A property that is there is listed before one that is created now. -/
def comesBefore (old new : String) : Bool :=
  match Dict.arrayIndex? old, Dict.arrayIndex? new with
  | some i, some j => i < j
  | none, some _ => false
  | _, none => true

/-- Where both are there, the one may be listed before the other. -/
def listedBefore (a b : String) : Bool :=
  match Dict.arrayIndex? a, Dict.arrayIndex? b with
  | some i, some j => i ≤ j
  | none, some _ => false
  | _, none => true

theorem listedBefore_of_comesBefore {a b : String} (h : comesBefore a b = true) :
    listedBefore a b = true := by
  unfold comesBefore at h
  unfold listedBefore
  cases ha : Dict.arrayIndex? a <;> cases hb : Dict.arrayIndex? b <;> simp_all
  omega

theorem listedBefore_of_not_comesBefore {a b : String} (h : comesBefore a b = false) :
    listedBefore b a = true := by
  unfold comesBefore at h
  unfold listedBefore
  cases ha : Dict.arrayIndex? a <;> cases hb : Dict.arrayIndex? b <;> simp_all

theorem listedBefore_trans {a b c : String} (hab : listedBefore a b = true)
    (hbc : listedBefore b c = true) : listedBefore a c = true := by
  unfold listedBefore at *
  cases ha : Dict.arrayIndex? a <;> cases hb : Dict.arrayIndex? b <;>
    cases hc : Dict.arrayIndex? c <;> simp_all
  omega

theorem comesBefore_of_listedBefore {a b c : String} (hab : listedBefore a b = true)
    (hbc : comesBefore b c = true) : comesBefore a c = true := by
  unfold listedBefore at hab
  unfold comesBefore at *
  cases ha : Dict.arrayIndex? a <;> cases hb : Dict.arrayIndex? b <;>
    cases hc : Dict.arrayIndex? c <;> simp_all
  omega

namespace Fields

variable {α β : Type*}

/-- In place, or where the new property is listed. -/
def put (slots : List (String × α)) (key : String) (value : α) : List (String × α) :=
  if (get slots key).isSome then slots.map fun s => if s.1 = key then (key, value) else s
  else (slots.filter fun s => comesBefore s.1 key)
    ++ (key, value) :: slots.filter fun s => ¬ comesBefore s.1 key

def keys (slots : List (String × α)) : List String := slots.map Prod.fst

def mapValues (f : α → β) (slots : List (String × α)) : List (String × β) :=
  slots.map fun s => (s.1, f s.2)

variable {slots : List (String × α)} {key : String}

theorem get_isSome : (get slots key).isSome ↔ key ∈ keys slots := by
  simp [get, keys]

theorem get_eq_none : get slots key = none ↔ key ∉ keys slots := by
  rw [← get_isSome, Bool.not_eq_true, Option.isSome_eq_false_iff, Option.isNone_iff_eq_none]

variable {value : α}

theorem mem_of_get (h : get slots key = some value) : (key, value) ∈ slots := by
  obtain ⟨slot, hslot, rfl⟩ := Option.map_eq_some_iff.mp h
  have hkey : slot.1 = key := by simpa using List.find?_some hslot
  exact hkey ▸ List.mem_of_find?_eq_some hslot

theorem get_of_mem (hnodup : (keys slots).Nodup) (h : (key, value) ∈ slots) : get slots key = some value := by
  induction slots with
  | nil => cases h
  | cons slot slots ih =>
    rw [keys, List.map_cons, List.nodup_cons] at hnodup
    rw [get_cons]
    rcases List.mem_cons.mp h with rfl | h
    · exact if_pos rfl
    · have hkey : slot.1 ≠ key := fun heq => hnodup.1 (heq ▸ List.mem_map_of_mem h)
      rw [if_neg hkey]
      exact ih hnodup.2 h

theorem get_filter (p : String → Bool) (slots : List (String × α)) (key : String) :
    get (slots.filter fun s => p s.1) key = if p key then get slots key else none := by
  induction slots with
  | nil => exact (ite_self none).symm
  | cons slot slots ih =>
    rw [get_cons, List.filter_cons]
    by_cases hslot : slot.1 = key
    · subst hslot
      rw [if_pos rfl]
      split
      · rw [get_cons, if_pos rfl]
      · rw [ih, if_neg ‹_›]
    · rw [if_neg hslot, ← ih]
      split
      · rw [get_cons, if_neg hslot]
      · rfl

theorem get_put (slots : List (String × α)) (key key' : String) (value : α) :
    get (put slots key value) key' = if key' = key then some value else get slots key' := by
  rcases hget : get slots key with _ | old
  · rw [put, hget, Option.isSome_none, if_neg Bool.false_ne_true, get_append, get_cons,
      get_filter (fun name => comesBefore name key),
      get_filter (fun name => ¬ comesBefore name key)]
    by_cases hkey : key' = key
    · rw [hkey, hget, if_pos rfl, if_pos rfl, ite_self, Option.none_or]
    · rw [if_neg (Ne.symm hkey), if_neg hkey]
      by_cases hplace : comesBefore key' key = true
      · simp [hplace]
      · simp [hplace]
  · rw [put, hget, Option.isSome_some, if_pos rfl, get_map]
    by_cases hkey : key' = key
    · rw [if_pos hkey, if_pos hkey, hkey, hget]
      rfl
    · rw [if_neg hkey, if_neg hkey]

theorem get_mapValues (f : α → β) (slots : List (String × α)) (key : String) :
    get (mapValues f slots) key = (get slots key).map f := by
  induction slots with
  | nil => rfl
  | cons slot slots ih =>
    rw [mapValues, List.map_cons, get_cons, get_cons, ← mapValues, ih]
    split
    · rfl
    · rfl

@[simp] theorem keys_mapValues (f : α → β) (slots : List (String × α)) :
    keys (mapValues f slots) = keys slots := by
  rw [keys, mapValues, List.map_map]
  rfl

theorem keys_filter (p : String → Bool) (slots : List (String × α)) :
    keys (slots.filter fun s => p s.1) = (keys slots).filter p := by
  rw [keys, keys, List.filter_map]
  rfl

theorem keys_erase (slots : List (String × α)) (key : String) :
    keys (erase slots key) = (keys slots).filter fun k => k ≠ key :=
  keys_filter (fun k => k ≠ key) slots

theorem mem_keys_put {key' : String} :
    key' ∈ keys (put slots key value) ↔ key' = key ∨ key' ∈ keys slots := by
  rw [← get_isSome, ← get_isSome, get_put]
  split
  · simp [*]
  · simp [*]

theorem put_of_mem (h : key ∈ keys slots) (value : α) :
    put slots key value = slots.map fun s => if s.1 = key then (key, value) else s :=
  if_pos (get_isSome.mpr h)

theorem keys_put_of_mem (h : key ∈ keys slots)
    (value : α) : keys (put slots key value) = keys slots := by
  rw [put_of_mem h, keys, keys, List.map_map]
  refine List.map_congr_left fun s _ => ?_
  show (if s.1 = key then (key, value) else s).1 = s.1
  split
  · next hkey => exact hkey.symm
  · rfl

theorem put_of_not_mem (h : key ∉ keys slots)
    (value : α) : put slots key value = (slots.filter fun s => comesBefore s.1 key)
      ++ (key, value) :: slots.filter fun s => ¬ comesBefore s.1 key := by
  rw [put, get_eq_none.mpr h]
  rfl

theorem nodup_put (h : (keys slots).Nodup) (key : String)
    (value : α) : (keys (put slots key value)).Nodup := by
  by_cases hkey : key ∈ keys slots
  · rw [keys_put_of_mem hkey]
    exact h
  · have hperm : (put slots key value).Perm ((key, value) :: slots) := by
      rw [put_of_not_mem hkey]
      refine List.perm_middle.trans (List.Perm.cons _ ?_)
      simpa using List.filter_append_perm (fun s : String × α => comesBefore s.1 key) slots
    exact (hperm.map Prod.fst).nodup_iff.mpr (List.nodup_cons.mpr ⟨hkey, h⟩)

theorem nodup_erase (h : (keys slots).Nodup) (key : String) :
    (keys (erase slots key)).Nodup := h.sublist (List.filter_sublist.map _)

theorem keys_put_of_not_mem (h : key ∉ keys slots)
    (value : α) : keys (put slots key value) = ((keys slots).filter fun k => comesBefore k key)
      ++ key :: (keys slots).filter fun k => ¬ comesBefore k key := by
  rw [put_of_not_mem h, ← keys_filter (fun k => comesBefore k key),
    ← keys_filter (fun k => ¬ comesBefore k key)]
  exact List.map_append

/-- The names are in the order in which an object lists them. -/
def Ordered (names : List String) : Prop := names.Pairwise fun a b => listedBefore a b = true

theorem filter_append_filter {names : List String} (h : Ordered names) (key : String) :
    (names.filter fun k => comesBefore k key) ++ (names.filter fun k => ¬ comesBefore k key)
      = names := by
  induction names with
  | nil => rfl
  | cons name names ih =>
    obtain ⟨hname, hrest⟩ := List.pairwise_cons.mp h
    by_cases hbefore : comesBefore name key = true
    · rw [List.filter_cons, if_pos hbefore, List.filter_cons, if_neg (by simpa using hbefore),
        List.cons_append, ih hrest]
    · have hnone : names.filter (fun k => comesBefore k key) = [] :=
        List.filter_eq_nil_iff.mpr fun k hk hkey =>
          hbefore (comesBefore_of_listedBefore (hname k hk) hkey)
      have hall : names.filter (fun k => ¬ comesBefore k key) = names :=
        List.filter_eq_self.mpr fun k hk => by
          simpa using fun hkey => hbefore (comesBefore_of_listedBefore (hname k hk) hkey)
      rw [List.filter_cons, if_neg hbefore, List.filter_cons, if_pos (by simpa using hbefore),
        hnone, hall]
      rfl

theorem ordered_put (h : Ordered (keys slots)) (key : String)
    (value : α) : Ordered (keys (put slots key value)) := by
  by_cases hkey : key ∈ keys slots
  · rw [keys_put_of_mem hkey]
    exact h
  · rw [keys_put_of_not_mem hkey, Ordered, List.pairwise_append, List.pairwise_cons]
    have hafter : ∀ b ∈ (keys slots).filter (fun k => ¬ comesBefore k key),
        listedBefore key b = true := fun b hb =>
      listedBefore_of_not_comesBefore (by simpa using (List.mem_filter.mp hb).2)
    refine ⟨h.filter _, ⟨hafter, h.filter _⟩, fun a ha b hb => ?_⟩
    have hbefore : listedBefore a key = true :=
      listedBefore_of_comesBefore (List.mem_filter.mp ha).2
    rcases List.mem_cons.mp hb with rfl | hb
    · exact hbefore
    · exact listedBefore_trans hbefore (hafter b hb)

theorem ordered_erase (h : Ordered (keys slots)) (key : String) :
    Ordered (keys (erase slots key)) := h.sublist (List.filter_sublist.map _)

theorem filter_keys_put (h : Ordered (keys slots)) {p : String → Bool} (hp : p key = false) (value : α) :
    (keys (put slots key value)).filter p = (keys slots).filter p := by
  by_cases hkey : key ∈ keys slots
  · rw [keys_put_of_mem hkey]
  · rw [keys_put_of_not_mem hkey, List.filter_append, List.filter_cons,
      if_neg (by simp [hp]), ← List.filter_append, filter_append_filter h]

theorem put_mapValues (f : α → β) (slots : List (String × α)) (key : String) (value : α) :
    put (mapValues f slots) key (f value) = mapValues f (put slots key value) := by
  have hfilter : ∀ p : String → Bool, (mapValues f slots).filter (fun s => p s.1)
      = mapValues f (slots.filter fun s => p s.1) := by
    intro p
    rw [mapValues, List.filter_map]
    rfl
  by_cases hkey : key ∈ keys slots
  · rw [put_of_mem hkey, put_of_mem (by rwa [keys_mapValues]), mapValues, mapValues, List.map_map,
      List.map_map]
    refine List.map_congr_left fun s _ => ?_
    show (if s.1 = key then (key, f value) else (s.1, f s.2)) =
      ((if s.1 = key then (key, value) else s).1, f (if s.1 = key then (key, value) else s).2)
    split
    · rfl
    · rfl
  · rw [put_of_not_mem hkey, put_of_not_mem (by rwa [keys_mapValues]),
      hfilter (fun name => comesBefore name key), hfilter (fun name => ¬ comesBefore name key)]
    simp [mapValues]

theorem erase_mapValues (f : α → β) (slots : List (String × α)) (key : String) :
    erase (mapValues f slots) key = mapValues f (erase slots key) := by
  rw [erase, mapValues, List.filter_map]
  rfl

theorem map_get (h : (keys slots).Nodup) (other : α) :
    (keys slots).map (fun key => (key, (get slots key).getD other)) = slots := by
  rw [keys, List.map_map]
  refine (List.map_congr_left fun s hs => ?_).trans (List.map_id slots)
  show (s.1, (get slots s.1).getD other) = s
  rw [get_of_mem h hs]
  rfl

theorem ext_get {slots slots' : List (String × α)} (h : (keys slots).Nodup)
    (hkeys : keys slots = keys slots') (hget : ∀ key, get slots key = get slots' key) :
    slots = slots' := by
  rcases slots with _ | ⟨slot, slots⟩
  · exact (List.map_eq_nil_iff.mp hkeys.symm).symm
  · refine (map_get h slot.2).symm.trans (Eq.trans ?_ (map_get (hkeys ▸ h) slot.2))
    rw [hkeys]
    exact List.map_congr_left fun key _ => by rw [hget key]

theorem put_get (h : (keys slots).Nodup)
    (hget : get slots key = some value) : put slots key value = slots := by
  have hkey : key ∈ keys slots := get_isSome.mp (by rw [hget]; rfl)
  refine ext_get (nodup_put h key value) (keys_put_of_mem hkey value) fun key' => ?_
  rw [get_put]
  split
  · next heq => rw [heq, hget]
  · rfl

end Fields

end N8n
