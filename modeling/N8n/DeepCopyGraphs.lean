/-
When a deep copy has the graph of what it copies.

A graph is tame if no array of it is held twice, and no object has a property `__proto__`.

* **`isomorphic_of_whole`** — a copy of a tame graph is isomorphic to it.
-/
import N8n.DeepCopy
import Mathlib.Data.List.Induction

namespace N8n.DeepCopy

variable {π : Type}

def lookup (heap : Heap π) : Value π → List String → Option (Value π)
  | v, [] => some v
  | .prim _, _ :: _ => none
  | .ref i, key :: path => match child heap i key with
    | some v => lookup heap v path
    | none => none

def Reachable (heap : Heap π) (v : Value π) (i : ℕ) : Prop :=
  ∃ path, lookup heap v path = some (.ref i)

def IsArray (heap : Heap π) (i : ℕ) : Prop := ∃ node, heap[i]? = some node ∧ node.kind = .array

/-- Equal primitives, or two nodes of one kind with the same keys. -/
def SameShape (heap : Heap π) : Value π → Value π → Prop
  | .prim p, .prim q => p = q
  | .ref i, .ref j => ∃ node clone, heap[i]? = some node ∧ heap[j]? = some clone ∧
      clone.kind = node.kind ∧ clone.slots.map Prod.fst = node.slots.map Prod.fst
  | _, _ => False

/-- One graph twice: the same values on the same paths, to one node in one iff in the other, and
none of the first `n` nodes in the second. -/
structure Isomorphic (heap : Heap π) (n : ℕ) (v v' : Value π) : Prop where
  values : ∀ path, Option.Rel (SameShape heap) (lookup heap v path) (lookup heap v' path)
  nodes : ∀ p q i i' j j', lookup heap v p = some (.ref i) → lookup heap v q = some (.ref i') →
    lookup heap v' p = some (.ref j) → lookup heap v' q = some (.ref j') → (i = i' ↔ j = j')
  apart : ∀ path j, lookup heap v' path = some (.ref j) → n ≤ j

/-- The copy returns an isomorphic graph of nodes of its own. -/
def Copies (g : Graph π) (v : Value π) : Prop :=
  ∃ depth v' st', deepCopy depth v ⟨g.nodes, Dict.empty⟩ = some (v', st') ∧
    (∀ i < g.nodes.length, st'.heap[i]? = g.nodes[i]?) ∧ Isomorphic st'.heap g.nodes.length v v'

/-- Of what can be reached, no array is held by two slots, an array at the root by none, and no
object has a property `__proto__`. -/
structure Tame (g : Graph π) (v : Value π) : Prop where
  unshared : ∀ a c c' key key', IsArray g.nodes a → Reachable g.nodes v c →
    Reachable g.nodes v c' → child g.nodes c key = some (.ref a) →
    child g.nodes c' key' = some (.ref a) → c = c' ∧ key = key'
  root : ∀ a c key, IsArray g.nodes a → v = .ref a → Reachable g.nodes v c →
    child g.nodes c key ≠ some (.ref a)
  keys : ∀ c node, Reachable g.nodes v c → g.nodes[c]? = some node → node.kind = .object →
    "__proto__" ∉ node.slots.map Prod.fst

variable {g : Graph π} {st st' : CopyState π} {origins origins' : List ℕ} {n i j : ℕ}
  {v v' : Value π} {heap : Heap π}

theorem lookup_append {p q : List String} : lookup heap v (p ++ q) =
    (lookup heap v p).bind fun w => lookup heap w q := by
  induction p generalizing v with
  | nil => rfl
  | cons key p ih =>
    cases v with
    | prim p => rfl
    | ref i =>
      rw [List.cons_append, lookup, lookup]
      rcases child heap i key with _ | w
      · rfl
      · exact ih

theorem lookup_concat {p : List String} {key : String} {w : Value π} :
    lookup heap v (p ++ [key]) = some w ↔
      ∃ c, lookup heap v p = some (.ref c) ∧ child heap c key = some w := by
  rw [lookup_append, Option.bind_eq_some_iff]
  constructor
  · rintro ⟨u, hu, hw⟩
    cases u with
    | prim p => cases hw
    | ref c =>
      refine ⟨c, hu, ?_⟩
      rw [lookup] at hw
      rcases hchild : child heap c key with _ | x
      · rw [hchild] at hw
        cases hw
      · rw [hchild] at hw
        exact hw
  · rintro ⟨c, hc, hchild⟩
    refine ⟨.ref c, hc, ?_⟩
    rw [lookup, hchild]
    rfl

theorem mem_of_child {c : ℕ} {key : String} {w : Value π} (h : child heap c key = some w) :
    ∃ node, heap[c]? = some node ∧ (key, w) ∈ node.slots := by
  obtain ⟨node, hnode, hat⟩ := Option.bind_eq_some_iff.mp h
  obtain ⟨s, hs, rfl⟩ := Option.map_eq_some_iff.mp hat
  have hkey : s.1 = key := by simpa using List.find?_some hs
  exact ⟨node, hnode, hkey ▸ List.mem_of_find?_eq_some hs⟩

theorem lookup_source (hheap : ∀ i < g.nodes.length, heap[i]? = g.nodes[i]?) (hv : g.Has v)
    (path : List String) : lookup heap v path = lookup g.nodes v path ∧
      ∀ w ∈ lookup g.nodes v path, g.Has w := by
  induction path generalizing v with
  | nil => exact ⟨by cases v <;> rfl, fun w hw => by cases v <;> cases hw <;> exact hv⟩
  | cons key path ih =>
    cases v with
    | prim p => exact ⟨rfl, fun w hw => by cases hw⟩
    | ref i =>
      have hchild : child heap i key = child g.nodes i key := by
        rw [child, child, hheap i (hv i rfl)]
      rw [lookup, lookup, hchild]
      rcases hvalue : child g.nodes i key with _ | w
      · exact ⟨rfl, fun w hw => by cases hw⟩
      · refine ih fun i' hi' => ?_
        obtain ⟨node, hnode, hmem⟩ := mem_of_child hvalue
        exact g.closed node (List.mem_of_getElem? hnode) _ hmem i' hi'

theorem rel_find {slots slots' : List (String × Value π)} (h : RelatedSlots n origins slots slots')
    (key : String) : Option.Rel (Related n origins)
      ((slots.find? fun s => s.1 = key).map Prod.snd)
      ((slots'.find? fun s => s.1 = key).map Prod.snd) := by
  induction h with
  | nil => exact .none
  | @cons s t slots slots' hst _ ih =>
    by_cases hkey : s.1 = key
    · have hkey' : t.1 = key := hst.1.symm.trans hkey
      simpa [hkey, hkey'] using Option.Rel.some hst.2
    · have hkey' : t.1 ≠ key := fun h => hkey (hst.1.trans h)
      simpa [hkey, hkey'] using ih

theorem keys_eq {slots slots' : List (String × Value π)} (h : RelatedSlots n origins slots slots') :
    slots'.map Prod.fst = slots.map Prod.fst := by
  induction h with
  | nil => rfl
  | cons hst _ ih => rw [List.map_cons, List.map_cons, ih, hst.1]

theorem clonedSlots_eq_self {node : Node π}
    (h : node.kind = .object → "__proto__" ∉ node.slots.map Prod.fst) :
    clonedSlots node.kind node.slots = node.slots := by
  refine List.filter_eq_self.mpr fun s hs => decide_eq_true ?_
  rintro ⟨hkind, hkey⟩
  exact h hkind (List.mem_map.mpr ⟨s, hs, hkey⟩)

/-- All is copied: the heap has complete clones only. -/
structure Whole (g : Graph π) (st : CopyState π) (origins : List ℕ) : Prop extends
    Sound g st origins where
  complete : ∀ j i, Origin g.nodes.length origins j i → Complete g st.heap origins j i

/-- No object at a place has a property `__proto__`. -/
def Plain (g : Graph π) (c : ℕ) : Prop :=
  ∀ node, g.nodes[c]? = some node → node.kind = .object → "__proto__" ∉ node.slots.map Prod.fst

theorem Whole.child (h : Whole g st origins) (horigin : Origin g.nodes.length origins j i)
    (hplain : Plain g i) (key : String) :
    Option.Rel (Related g.nodes.length origins) (child g.nodes i key) (child st.heap j key) := by
  obtain ⟨node, clone, hnode, hclone, -, hslots⟩ := h.complete j i horigin
  rw [clonedSlots_eq_self (hplain node hnode)] at hslots
  rw [DeepCopy.child, DeepCopy.child, hnode, hclone]
  exact rel_find hslots key

theorem Whole.sameShape (h : Whole g st origins) (horigin : Origin g.nodes.length origins j i)
    (hplain : Plain g i) : SameShape st.heap (.ref i : Value π) (.ref j) := by
  obtain ⟨node, clone, hnode, hclone, hkind, hslots⟩ := h.complete j i horigin
  rw [clonedSlots_eq_self (hplain node hnode)] at hslots
  exact ⟨node, clone, (h.source i (h.origin_lt horigin)).trans hnode, hclone, hkind, keys_eq hslots⟩

/-- **Each path** leads to a value of the source and to its clone. -/
theorem related_lookup (h : Whole g st origins) :
    ∀ (path : List String) {v v' : Value π}, Related g.nodes.length origins v v' →
      (∀ c, Reachable g.nodes v c → Plain g c) →
      Option.Rel (Related g.nodes.length origins) (lookup g.nodes v path)
        (lookup st.heap v' path) := by
  intro path
  induction path with
  | nil =>
    intro v v' hrelated _
    cases v <;> cases v' <;> exact .some hrelated
  | cons key path ih =>
    intro v v' hrelated hplain
    cases v with
    | prim p =>
      cases v' with
      | prim q => exact .none
      | ref j => cases hrelated
    | ref i =>
      cases v' with
      | prim q => cases hrelated
      | ref j =>
        have hchild := h.child hrelated (hplain i ⟨[], rfl⟩) key
        rw [lookup, lookup]
        rcases hsource : child g.nodes i key with _ | w
        · rcases hclone : child st.heap j key with _ | w'
          · exact .none
          · rw [hsource, hclone] at hchild
            cases hchild
        · rcases hclone : child st.heap j key with _ | w'
          · rw [hsource, hclone] at hchild
            cases hchild
          · rw [hsource, hclone] at hchild
            cases hchild with
            | some hww' =>
              refine ih hww' fun c hc => hplain c ?_
              obtain ⟨rest, hrest⟩ := hc
              exact ⟨key :: rest, by rw [lookup, hsource]; exact hrest⟩

theorem lookup_eq_of_related (h : Whole g st origins)
    (hrelated : Related g.nodes.length origins v v')
    (hplain : ∀ c, Reachable g.nodes v c → Plain g c) {path : List String}
    (hpath : lookup g.nodes v path = some (.ref i)) :
    ∃ j, lookup st.heap v' path = some (.ref j) ∧ Origin g.nodes.length origins j i := by
  have hrel := related_lookup h path hrelated hplain
  rw [hpath] at hrel
  rcases hclone : lookup st.heap v' path with _ | (p | j)
  · rw [hclone] at hrel
    cases hrel
  · rw [hclone] at hrel
    cases hrel with
    | some hrel => cases hrel
  · rw [hclone] at hrel
    cases hrel with
    | some hrel => exact ⟨j, rfl, hrel⟩

theorem Sound.clone_unique (h : Sound g st origins) {node : Node π}
    (hnode : g.nodes[i]? = some node) (hkind : node.kind = .object) {j j' : ℕ}
    (hj : Origin g.nodes.length origins j i) (hj' : Origin g.nodes.length origins j' i) :
    j = j' := by
  have hget := (h.hash i j).mpr ⟨hj, node, hnode, hkind⟩
  rw [(h.hash i j').mpr ⟨hj', node, hnode, hkind⟩] at hget
  exact (Option.some.inj hget).symm

theorem lookup_eq_lookup (h : Whole g st origins) (htame : Tame g v)
    (hrelated : Related g.nodes.length origins v v') :
    ∀ {p q : List String} {i : ℕ}, lookup g.nodes v p = some (.ref i) →
      lookup g.nodes v q = some (.ref i) → lookup st.heap v' p = lookup st.heap v' q := by
  have hplain : ∀ c, Reachable g.nodes v c → Plain g c := fun c hc node => htame.keys c node hc
  have hobject : ∀ {p q : List String} {i : ℕ}, lookup g.nodes v p = some (.ref i) →
      lookup g.nodes v q = some (.ref i) → ¬ IsArray g.nodes i →
      lookup st.heap v' p = lookup st.heap v' q := by
    intro p q i hp hq hnot
    obtain ⟨j, hj, horigin⟩ := lookup_eq_of_related h hrelated hplain hp
    obtain ⟨j', hj', horigin'⟩ := lookup_eq_of_related h hrelated hplain hq
    obtain ⟨node, -, hnode, -⟩ := h.clone j i horigin
    rcases hkind : node.kind with _ | _
    · rw [hj, hj', h.clone_unique hnode hkind horigin horigin']
    · exact absurd ⟨node, hnode, hkind⟩ hnot
  intro p
  induction p using List.reverseRecOn with
  | nil =>
    intro q i hp hq
    by_cases harray : IsArray g.nodes i
    · rcases List.eq_nil_or_concat q with rfl | ⟨q, key, rfl⟩
      · rfl
      · rw [List.concat_eq_append] at hq
        obtain ⟨c, hc, hchild⟩ := lookup_concat.mp hq
        have hroot : v = .ref i := by cases v <;> exact Option.some.inj hp
        exact absurd hchild (htame.root i c key harray hroot ⟨q, hc⟩)
    · exact hobject hp hq harray
  | append_singleton p key ih =>
    intro q i hp hq
    by_cases harray : IsArray g.nodes i
    · obtain ⟨c, hc, hchild⟩ := lookup_concat.mp hp
      rcases List.eq_nil_or_concat q with rfl | ⟨q, key', rfl⟩
      · have hroot : v = .ref i := by cases v <;> exact Option.some.inj hq
        exact absurd hchild (htame.root i c key harray hroot ⟨p, hc⟩)
      · rw [List.concat_eq_append] at hq ⊢
        obtain ⟨c', hc', hchild'⟩ := lookup_concat.mp hq
        obtain ⟨rfl, rfl⟩ := htame.unshared i c c' key key' harray ⟨p, hc⟩ ⟨q, hc'⟩ hchild hchild'
        rw [lookup_append, lookup_append, ih hc hc']
    · exact hobject hp hq harray

/-- **A copy of a tame graph** is isomorphic to it. -/
theorem isomorphic_of_whole (h : Whole g st origins) (htame : Tame g v) (hv : g.Has v)
    (hrelated : Related g.nodes.length origins v v') :
    Isomorphic st.heap g.nodes.length v v' := by
  have hplain : ∀ c, Reachable g.nodes v c → Plain g c := fun c hc node => htame.keys c node hc
  have hsource := fun path => (lookup_source h.source hv path).1
  refine ⟨fun path => ?_, fun p q i i' j j' hp hq hj hj' => ?_, fun path j hj => ?_⟩
  · have hrel := related_lookup h path hrelated hplain
    rw [hsource]
    rcases hpath : lookup g.nodes v path with _ | w
    · rw [hpath] at hrel
      rcases hclone : lookup st.heap v' path with _ | w'
      · exact .none
      · rw [hclone] at hrel
        cases hrel
    · rw [hpath] at hrel
      rcases hclone : lookup st.heap v' path with _ | w'
      · rw [hclone] at hrel
        cases hrel
      · rw [hclone] at hrel
        cases hrel with
        | some hrel =>
          refine .some ?_
          cases w with
          | prim p =>
            cases w' with
            | prim q => exact hrel
            | ref j => cases hrel
          | ref i =>
            cases w' with
            | prim q => cases hrel
            | ref j => exact h.sameShape hrel (hplain i ⟨path, hpath⟩)
  · rw [hsource] at hp hq
    obtain ⟨k, hk, horigin⟩ := lookup_eq_of_related h hrelated hplain hp
    obtain ⟨k', hk', horigin'⟩ := lookup_eq_of_related h hrelated hplain hq
    obtain rfl : k = j := by simpa [hk] using hj
    obtain rfl : k' = j' := by simpa [hk'] using hj'
    constructor
    · rintro rfl
      have heq := lookup_eq_lookup h htame hrelated hp hq
      simpa [hk, hk'] using heq
    · rintro rfl
      exact Option.some.inj (horigin.2.symm.trans horigin'.2)
  · have hrel := related_lookup h path hrelated hplain
    rw [hj] at hrel
    rcases hpath : lookup g.nodes v path with _ | (p | i)
    · rw [hpath] at hrel
      cases hrel
    · rw [hpath] at hrel
      cases hrel with
      | some hrel => cases hrel
    · rw [hpath] at hrel
      cases hrel with
      | some hrel => exact hrel.1

end N8n.DeepCopy
