/-
A deep copy of a graph of objects and arrays: `deepCopy`.

The nodes of the graph lie in a heap, and clones are put behind them.  A table from the objects to
their clones is consulted before a node is copied; arrays are not entered in it.

* **`deepCopy_spec`** — every call that returns leaves complete clones behind the heap as it was.
-/
import N8n.Dict
import N8n.Runs

namespace N8n.DeepCopy

variable {π : Type}

/-- A primitive, or the object or array at a place of the heap. -/
inductive Value (π : Type) where
  | prim (p : π)
  | ref (i : ℕ)
  deriving DecidableEq

inductive Kind where
  | object
  | array
  deriving DecidableEq, Repr

/-- An object, or an array with its items under their indexes. -/
structure Node (π : Type) where
  kind : Kind
  slots : List (String × Value π)
  deriving DecidableEq

abbrev Heap (π : Type) := List (Node π)

def Node.at (node : Node π) (key : String) : Option (Value π) :=
  (node.slots.find? fun s => s.1 = key).map Prod.snd

def child (heap : Heap π) (i : ℕ) (key : String) : Option (Value π) := heap[i]?.bind (·.at key)

/-- The nodes of a graph: no key is there twice, and no value is of another heap. -/
structure Graph (π : Type) where
  nodes : Heap π
  nodup : ∀ node ∈ nodes, (node.slots.map Prod.fst).Nodup
  closed : ∀ node ∈ nodes, ∀ s ∈ node.slots, ∀ i, s.2 = .ref i → i < nodes.length

/-- A value of the graph. -/
def Graph.Has (g : Graph π) (v : Value π) : Prop := ∀ i, v = .ref i → i < g.nodes.length

structure CopyState (π : Type) where
  heap : Heap π
  hash : Dict ℕ ℕ

/-- `clone[key] = value`, for a new key.  On an object `__proto__` sets the prototype, which gives
it no property; that it throws where prototypes would form a cycle is left out. -/
def Node.assign (clone : Node π) (key : String) (value : Value π) : Node π :=
  if clone.kind = .object ∧ key = "__proto__" then clone
  else { clone with slots := clone.slots ++ [(key, value)] }

def CopyState.assign (st : CopyState π) (clone : ℕ) (key : String) (value : Value π) :
    CopyState π :=
  { st with heap := st.heap.modify clone fun node => node.assign key value }

def copySlots (copy : Value π → CopyState π → Option (Value π × CopyState π)) (clone : ℕ) :
    List (String × Value π) → CopyState π → Option (CopyState π)
  | [], st => some st
  | (key, value) :: slots, st => do
    let (copied, st) ← copy value st
    copySlots copy clone slots (st.assign clone key copied)

/-- Calls at most so many deep. -/
def deepCopy : ℕ → Value π → CopyState π → Option (Value π × CopyState π)
  | 0, _, _ => none
  | _ + 1, .prim p, st => some (.prim p, st)
  | depth + 1, .ref source, st =>
    match st.hash.get? source with
    | some clone => some (.ref clone, st)
    | none => do
      let node ← st.heap[source]?
      let clone := st.heap.length
      match node.kind with
      | .array =>
        let st := { st with heap := st.heap ++ [⟨.array, []⟩] }
        let st ← copySlots (deepCopy depth) clone node.slots st
        return (.ref clone, st)
      | .object =>
        let st := { heap := st.heap ++ [⟨.object, []⟩], hash := st.hash.set source clone }
        let st ← copySlots (deepCopy depth) clone node.slots st
        return (.ref clone, st)

/-- The node that the node at place `j` is a clone of, if the clones behind the first `n` nodes are
those of `origins`. -/
def Origin (n : ℕ) (origins : List ℕ) (j i : ℕ) : Prop := n ≤ j ∧ origins[j - n]? = some i

/-- The same primitive, or a node and a clone of it. -/
def Related (n : ℕ) (origins : List ℕ) : Value π → Value π → Prop
  | .prim p, .prim q => p = q
  | .ref i, .ref j => Origin n origins j i
  | _, _ => False

def clonedSlots (kind : Kind) (slots : List (String × Value π)) : List (String × Value π) :=
  slots.filter fun s => ¬ (kind = .object ∧ s.1 = "__proto__")

def RelatedSlots (n : ℕ) (origins : List ℕ) : List (String × Value π) → List (String × Value π) →
    Prop :=
  List.Forall₂ fun s t => s.1 = t.1 ∧ Related n origins s.2 t.2

def Complete (g : Graph π) (heap : Heap π) (origins : List ℕ) (j i : ℕ) : Prop :=
  ∃ node clone, g.nodes[i]? = some node ∧ heap[j]? = some clone ∧ clone.kind = node.kind ∧
    RelatedSlots g.nodes.length origins (clonedSlots node.kind node.slots) clone.slots

/-- Between the calls: the clones lie behind the nodes of the graph, and the table has the objects
among their origins, each once. -/
structure Sound (g : Graph π) (st : CopyState π) (origins : List ℕ) : Prop where
  source : ∀ i < g.nodes.length, st.heap[i]? = g.nodes[i]?
  length : st.heap.length = g.nodes.length + origins.length
  clone : ∀ j i, Origin g.nodes.length origins j i →
    ∃ node clone, g.nodes[i]? = some node ∧ st.heap[j]? = some clone ∧ clone.kind = node.kind
  hash : ∀ i j, st.hash.get? i = some j ↔ Origin g.nodes.length origins j i ∧
    ∃ node, g.nodes[i]? = some node ∧ node.kind = .object

/-- What a call leaves. -/
structure Copied (g : Graph π) (st : CopyState π) (origins : List ℕ) (v v' : Value π)
    (st' : CopyState π) (origins' : List ℕ) : Prop where
  more : origins <+: origins'
  sound : Sound g st' origins'
  old : ∀ c < st.heap.length, st'.heap[c]? = st.heap[c]?
  related : Related g.nodes.length origins' v v'
  complete : ∀ j i, st.heap.length ≤ j → Origin g.nodes.length origins' j i →
    Complete g st'.heap origins' j i

/-- What the loop over the slots of a node leaves. -/
structure Filled (g : Graph π) (clone : ℕ) (kind : Kind) (slots : List (String × Value π))
    (st : CopyState π) (origins : List ℕ) (st' : CopyState π) (origins' : List ℕ) : Prop where
  more : origins <+: origins'
  sound : Sound g st' origins'
  old : ∀ c < st.heap.length, c ≠ clone → st'.heap[c]? = st.heap[c]?
  slots : ∀ done, st.heap[clone]? = some ⟨kind, done⟩ → ∃ added,
    st'.heap[clone]? = some ⟨kind, done ++ added⟩ ∧
    RelatedSlots g.nodes.length origins' (clonedSlots kind slots) added
  complete : ∀ j i, st.heap.length ≤ j → Origin g.nodes.length origins' j i →
    Complete g st'.heap origins' j i

variable {g : Graph π} {st st' : CopyState π} {origins origins' : List ℕ} {n i j : ℕ}
  {v v' : Value π}

theorem Origin.mono (h : Origin n origins j i) (hle : origins <+: origins') :
    Origin n origins' j i := by
  obtain ⟨hn, hget⟩ := h
  obtain ⟨more, rfl⟩ := hle
  obtain ⟨hlt, -⟩ := List.getElem?_eq_some_iff.mp hget
  exact ⟨hn, by rw [List.getElem?_append_left hlt, hget]⟩

theorem Related.mono (h : Related n origins v v') (hle : origins <+: origins') :
    Related n origins' v v' := by
  cases v with
  | prim p =>
    cases v' with
    | prim q => exact h
    | ref j => exact h
  | ref i =>
    cases v' with
    | prim q => exact h
    | ref j => exact Origin.mono h hle

theorem RelatedSlots.mono {slots slots' : List (String × Value π)}
    (h : RelatedSlots n origins slots slots') (hle : origins <+: origins') :
    RelatedSlots n origins' slots slots' :=
  List.Forall₂.imp (fun _ _ hst => ⟨hst.1, hst.2.mono hle⟩) h

theorem Complete.mono {heap heap' : Heap π} (h : Complete g heap origins j i)
    (hheap : heap'[j]? = heap[j]?) (hle : origins <+: origins') :
    Complete g heap' origins' j i := by
  obtain ⟨node, clone, hnode, hclone, hkind, hslots⟩ := h
  exact ⟨node, clone, hnode, hheap.trans hclone, hkind, hslots.mono hle⟩

theorem Sound.lt_length (h : Sound g st origins) (horigin : Origin g.nodes.length origins j i) :
    j < st.heap.length := by
  obtain ⟨hn, hget⟩ := horigin
  obtain ⟨hlt, -⟩ := List.getElem?_eq_some_iff.mp hget
  rw [h.length]
  omega

theorem Sound.origin_lt (h : Sound g st origins) (horigin : Origin g.nodes.length origins j i) :
    i < g.nodes.length := by
  obtain ⟨node, -, hnode, -⟩ := h.clone j i horigin
  exact (List.getElem?_eq_some_iff.mp hnode).1

theorem origin_concat {i' : ℕ} : Origin n (origins ++ [i']) j i ↔
    Origin n origins j i ∨ (j = n + origins.length ∧ i = i') := by
  rw [Origin, Origin, List.getElem?_append]
  constructor
  · rintro ⟨hn, hget⟩
    split at hget
    · exact .inl ⟨hn, hget⟩
    · next hlt =>
      obtain ⟨hzero, heq⟩ := List.getElem?_eq_some_iff.mp hget
      rw [List.length_singleton] at hzero
      simp only [List.getElem_singleton] at heq
      exact .inr ⟨by omega, heq.symm⟩
  · rintro (⟨hn, hget⟩ | ⟨rfl, rfl⟩)
    · obtain ⟨hlt, -⟩ := List.getElem?_eq_some_iff.mp hget
      exact ⟨hn, by rw [if_pos hlt, hget]⟩
    · exact ⟨Nat.le_add_right _ _, by rw [if_neg (by omega)]; simp⟩

theorem Sound.alloc (h : Sound g st origins) {node : Node π} {hash : Dict ℕ ℕ}
    (hnode : g.nodes[i]? = some node) (hnone : st.hash.get? i = none)
    (hhash : hash = if node.kind = .object then st.hash.set i st.heap.length else st.hash) :
    Sound g ⟨st.heap ++ [⟨node.kind, []⟩], hash⟩ (origins ++ [i]) := by
  have hlength := h.length
  refine ⟨fun c hc => ?_, ?_, fun j' i' horigin => ?_, fun i' j' => ?_⟩
  · show (st.heap ++ [_])[c]? = _
    rw [List.getElem?_append_left (by omega)]
    exact h.source c hc
  · show (st.heap ++ [_]).length = _
    rw [List.length_append, List.length_append, hlength]
    simp only [List.length_singleton]
    omega
  · rcases origin_concat.mp horigin with horigin | ⟨rfl, rfl⟩
    · obtain ⟨node', clone, hnode', hclone, hkind⟩ := h.clone j' i' horigin
      refine ⟨node', clone, hnode', ?_, hkind⟩
      show (st.heap ++ [_])[j']? = _
      rw [List.getElem?_append_left (h.lt_length horigin), hclone]
    · refine ⟨node, ⟨node.kind, []⟩, hnode, ?_, rfl⟩
      show (st.heap ++ [_])[_]? = _
      rw [← hlength, List.getElem?_concat_length]
  · rw [origin_concat]
    show hash.get? i' = some j' ↔ _
    by_cases hobject : node.kind = .object
    · rw [hhash, if_pos hobject, Dict.get?_set]
      split
      · next heq =>
        subst heq
        constructor
        · intro hj
          exact ⟨.inr ⟨by rw [← Option.some.inj hj, hlength], rfl⟩, node, hnode, hobject⟩
        · rintro ⟨hold | ⟨rfl, -⟩, hkind⟩
          · have hget := (h.hash i' j').mpr ⟨hold, hkind⟩
            rw [hnone] at hget
            cases hget
          · rw [hlength]
      · next hne =>
        rw [h.hash]
        simp [hne]
    · rw [hhash, if_neg hobject, h.hash]
      refine ⟨fun hold => ⟨.inl hold.1, hold.2⟩, ?_⟩
      rintro ⟨hold | ⟨-, rfl⟩, hkind⟩
      · exact ⟨hold, hkind⟩
      · obtain ⟨node', hnode', hkind'⟩ := hkind
        rw [hnode] at hnode'
        exact absurd (Option.some.inj hnode' ▸ hkind') hobject

theorem getElem?_assign (st : CopyState π) (clone : ℕ) (key : String) (value : Value π) (c : ℕ) :
    (st.assign clone key value).heap[c]? =
      if c = clone then st.heap[c]?.map (·.assign key value) else st.heap[c]? := by
  rw [CopyState.assign, List.getElem?_modify]
  by_cases h : c = clone
  · simp [h]
  · simp [h, Ne.symm h]

theorem kind_assign (clone : Node π) (key : String) (value : Value π) :
    (clone.assign key value).kind = clone.kind := by
  rw [Node.assign]
  split
  · rfl
  · rfl

theorem Sound.assign (h : Sound g st origins) {clone : ℕ} (hclone : g.nodes.length ≤ clone)
    (key : String) (value : Value π) : Sound g (st.assign clone key value) origins := by
  refine ⟨fun c hc => ?_, ?_, fun j i horigin => ?_, h.hash⟩
  · rw [getElem?_assign, if_neg (by omega)]
    exact h.source c hc
  · rw [CopyState.assign, List.length_modify]
    exact h.length
  · obtain ⟨node, cloned, hnode, hcloned, hkind⟩ := h.clone j i horigin
    rw [getElem?_assign, hcloned]
    split
    · exact ⟨node, cloned.assign key value, hnode, rfl, (kind_assign _ _ _).trans hkind⟩
    · exact ⟨node, cloned, hnode, rfl, hkind⟩

theorem clonedSlots_singleton (kind : Kind) (key : String) (value : Value π) :
    clonedSlots kind [(key, value)] =
      if kind = .object ∧ key = "__proto__" then [] else [(key, value)] := by
  rw [clonedSlots, List.filter_cons, List.filter_nil]
  by_cases h : kind = .object ∧ key = "__proto__"
  · simp [h]
  · simp only [h, not_false_eq_true, decide_true, if_true, if_false]

variable {kind : Kind}

theorem assign_eq {done : List (String × Value π)} {key : String} {value : Value π} :
    (⟨kind, done⟩ : Node π).assign key value =
      ⟨kind, done ++ clonedSlots kind [(key, value)]⟩ := by
  rw [Node.assign, clonedSlots_singleton]
  split
  · rw [List.append_nil]
  · rfl

theorem Origin.of_lt (h : Origin n origins' j i) (hle : origins <+: origins')
    (hlt : j < n + origins.length) : Origin n origins j i := by
  obtain ⟨hn, hget⟩ := h
  obtain ⟨more, rfl⟩ := hle
  rw [List.getElem?_append_left (by omega)] at hget
  exact ⟨hn, hget⟩

theorem length_assign (st : CopyState π) (clone : ℕ) (key : String) (value : Value π) :
    (st.assign clone key value).heap.length = st.heap.length :=
  List.length_modify ..

theorem Copied.length_le (h : Copied g st origins v v' st' origins') (hsound : Sound g st origins) :
    st.heap.length ≤ st'.heap.length := by
  rw [hsound.length, h.sound.length]
  exact Nat.add_le_add_left h.more.length_le _

theorem clonedSlots_cons (kind : Kind) (slot : String × Value π) (slots : List (String × Value π)) :
    clonedSlots kind (slot :: slots) = clonedSlots kind [slot] ++ clonedSlots kind slots := by
  rw [clonedSlots, ← List.singleton_append, List.filter_append]
  rfl

/-- **The loop over the slots**, if the calls for their values do what they should. -/
theorem copySlots_spec {copy : Value π → CopyState π → Option (Value π × CopyState π)}
    (hcopy : ∀ v st origins v' st', copy v st = some (v', st') → Sound g st origins → g.Has v →
      ∃ origins', Copied g st origins v v' st' origins') {clone : ℕ} :
    ∀ {slots : List (String × Value π)} {st : CopyState π} {origins : List ℕ},
      copySlots copy clone slots st = some st' → Sound g st origins → g.nodes.length ≤ clone →
      clone < st.heap.length → (∀ s ∈ slots, g.Has s.2) →
      ∃ origins', Filled g clone kind slots st origins st' origins' := by
  intro slots
  induction slots with
  | nil =>
    intro st origins h hsound _ _ _
    cases h
    refine ⟨origins, List.prefix_refl _, hsound, fun _ _ _ => rfl, fun done hdone => ?_,
      fun j i hj horigin => ?_⟩
    · exact ⟨[], by rw [hdone, List.append_nil], .nil⟩
    · exact absurd (hsound.lt_length horigin) (Nat.not_lt.mpr hj)
  | cons slot slots ih =>
    obtain ⟨key, value⟩ := slot
    intro st origins h hsound hclone hlt hslots
    obtain ⟨hvalue, hslots⟩ := List.forall_mem_cons.mp hslots
    rw [copySlots] at h
    obtain ⟨⟨copied, st₁⟩, hcall, hrest⟩ := Option.bind_eq_some_iff.mp h
    obtain ⟨origins₁, hcopied⟩ := hcopy value st origins copied st₁ hcall hsound hvalue
    have hle := hcopied.length_le hsound
    obtain ⟨origins₂, hfilled⟩ := ih hrest (hcopied.sound.assign hclone key copied) hclone
      (by rw [length_assign]; omega) hslots
    have hold : ∀ c < st₁.heap.length, c ≠ clone → st'.heap[c]? = st₁.heap[c]? := by
      intro c hc hne
      rw [hfilled.old c (by rwa [length_assign]) hne, getElem?_assign, if_neg hne]
    refine ⟨origins₂, hcopied.more.trans hfilled.more, hfilled.sound, fun c hc hne => ?_,
      fun done hdone => ?_, fun j i hj horigin => ?_⟩
    · rw [hold c (by omega) hne, hcopied.old c hc]
    · have hcell : (st₁.assign clone key copied).heap[clone]? =
          some ⟨kind, done ++ clonedSlots kind [(key, copied)]⟩ := by
        rw [getElem?_assign, if_pos rfl, hcopied.old clone hlt, hdone, Option.map_some, assign_eq]
      obtain ⟨added, hadded, hrelated⟩ := hfilled.slots _ hcell
      refine ⟨clonedSlots kind [(key, copied)] ++ added, by rw [hadded, List.append_assoc], ?_⟩
      rw [clonedSlots_cons]
      refine List.rel_append ?_ hrelated
      have hone : Related g.nodes.length origins₂ value copied :=
        hcopied.related.mono hfilled.more
      rw [clonedSlots_singleton, clonedSlots_singleton]
      split
      · exact .nil
      · exact .cons ⟨rfl, hone⟩ .nil
    · by_cases hnew : (st₁.assign clone key copied).heap.length ≤ j
      · exact hfilled.complete j i hnew horigin
      · rw [length_assign, not_le] at hnew
        have horigin₁ := horigin.of_lt hfilled.more (by rwa [← hcopied.sound.length])
        exact (hcopied.complete j i hj horigin₁).mono (hold j hnew (by omega)) hfilled.more

theorem copied_of_filled (hsound : Sound g st origins) {node : Node π} {hash : Dict ℕ ℕ} (hnode : g.nodes[i]? = some node) (hkind : kind = node.kind)
    (hfilled : Filled g st.heap.length kind node.slots
      ⟨st.heap ++ [⟨kind, []⟩], hash⟩ (origins ++ [i]) st' origins') :
    Copied g st origins (.ref i) (.ref st.heap.length) st' origins' := by
  subst hkind
  have hlength := hsound.length
  have horigin : Origin g.nodes.length origins' st.heap.length i :=
    (origin_concat.mpr (.inr ⟨hlength, rfl⟩)).mono hfilled.more
  refine ⟨(List.prefix_append _ _).trans hfilled.more, hfilled.sound, fun c hc => ?_, horigin,
    fun j i' hj horigin' => ?_⟩
  · rw [hfilled.old c (by simp only [List.length_append, List.length_singleton]; omega) (by omega)]
    exact List.getElem?_append_left hc
  · rcases Nat.eq_or_lt_of_le hj with rfl | hlt
    · obtain ⟨added, hcell, hrelated⟩ := hfilled.slots [] List.getElem?_concat_length
      obtain rfl : i' = i := by
        have hsame := horigin'.2.symm.trans horigin.2
        exact Option.some.inj hsame
      exact ⟨node, ⟨node.kind, added⟩, hnode, hcell, rfl, hrelated⟩
    · exact hfilled.complete j i' (by simpa using Nat.succ_le_of_lt hlt) horigin'

/-- **Every call that returns** leaves complete clones behind the heap, and returns a clone. -/
theorem deepCopy_spec : ∀ {depth : ℕ} {v v' : Value π} {st st' : CopyState π} {origins : List ℕ},
    deepCopy depth v st = some (v', st') → Sound g st origins → g.Has v →
      ∃ origins', Copied g st origins v v' st' origins' := by
  intro depth
  induction depth with
  | zero =>
    intro v v' st st' origins h
    cases h
  | succ depth ih =>
    intro v v' st st' origins h hsound hv
    have hnothing : ∀ {v v' : Value π}, Related g.nodes.length origins v v' →
        Copied g st origins v v' st origins := fun hrelated =>
      ⟨List.prefix_refl _, hsound, fun _ _ => rfl, hrelated, fun j i hj horigin =>
        absurd (hsound.lt_length horigin) (Nat.not_lt.mpr hj)⟩
    cases v with
    | prim p =>
      cases h
      exact ⟨origins, hnothing rfl⟩
    | ref source =>
      have hlt := hv source rfl
      have hcells := hsound.source source hlt
      obtain ⟨node, hnode⟩ : ∃ node, g.nodes[source]? = some node :=
        ⟨_, List.getElem?_eq_getElem hlt⟩
      have hmem := List.mem_of_getElem? hnode
      rw [deepCopy] at h
      rcases hhash : st.hash.get? source with _ | clone
      · simp only [hhash, hcells, hnode, Option.bind_eq_bind, Option.bind_some] at h
        have hclosed : ∀ s ∈ node.slots, g.Has s.2 := fun s hs => g.closed node hmem s hs
        have hlen := hsound.length
        rcases hkind : node.kind with _ | _
        · simp only [hkind] at h
          obtain ⟨st₂, hloop, hreturn⟩ := Option.bind_eq_some_iff.mp h
          cases hreturn
          have halloc := hsound.alloc hnode hhash (if_pos hkind).symm
          rw [hkind] at halloc
          obtain ⟨origins', hfilled⟩ : ∃ origins', Filled g st.heap.length .object node.slots _ _
              st' origins' :=
            copySlots_spec (fun v st origins v' st' => ih) hloop halloc (by omega) (by simp) hclosed
          exact ⟨origins', copied_of_filled hsound hnode hkind.symm hfilled⟩
        · simp only [hkind] at h
          obtain ⟨st₂, hloop, hreturn⟩ := Option.bind_eq_some_iff.mp h
          cases hreturn
          have halloc := hsound.alloc hnode hhash (if_neg (by simp [hkind])).symm
          rw [hkind] at halloc
          obtain ⟨origins', hfilled⟩ : ∃ origins', Filled g st.heap.length .array node.slots _ _
              st' origins' :=
            copySlots_spec (fun v st origins v' st' => ih) hloop halloc (by omega) (by simp) hclosed
          exact ⟨origins', copied_of_filled hsound hnode hkind.symm hfilled⟩
      · simp only [hhash] at h
        cases h
        exact ⟨origins, hnothing ((hsound.hash source clone).mp hhash).1⟩

end N8n.DeepCopy
