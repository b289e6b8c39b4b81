/-
The graphs that `deepCopy` copies.

* **`copies_iff`** — the copy ends with an isomorphic graph iff the graph is tame.
-/
import N8n.DeepCopyGraphs
import Mathlib.Data.Finset.Lattice.Fold
import Mathlib.Order.Lattice.Nat

namespace N8n.DeepCopy

variable {π : Type} {g : Graph π} {st st' : CopyState π} {origins origins' : List ℕ} {n i j : ℕ}
  {v v' : Value π} {heap : Heap π}

def uncopied (g : Graph π) (hash : Dict ℕ ℕ) : Finset ℕ :=
  {i ∈ Finset.range g.nodes.length | g.nodes[i]?.map Node.kind = some .object ∧
    hash.get? i = none}

/-- The length of a shortest path to a node. -/
noncomputable def distance (g : Graph π) (v : Value π) (i : ℕ) : ℕ :=
  sInf {k | ∃ path, path.length = k ∧ lookup g.nodes v path = some (.ref i)}

noncomputable def farthest (g : Graph π) (v : Value π) : ℕ :=
  (Finset.range g.nodes.length).sup (distance g v)

/-- A bound of the depth of the calls below the call for a value: above all there are the objects
that are not copied, and then the arrays on the way to the next object. -/
noncomputable def callsBelow (g : Graph π) (v : Value π) (hash : Dict ℕ ℕ) : Value π → ℕ
  | .prim _ => 0
  | .ref i => (uncopied g hash).card * (farthest g v + 2) +
      if g.nodes[i]?.map Node.kind = some .array then farthest g v - distance g v i + 1 else 0

variable {hash : Dict ℕ ℕ} {hash' : Dict ℕ ℕ}

theorem uncopied_subset
    (h : ∀ i, hash.get? i ≠ none → hash'.get? i ≠ none) : uncopied g hash' ⊆ uncopied g hash := by
  intro i hi
  obtain ⟨hlt, hkind, hnone⟩ := Finset.mem_filter.mp hi
  refine Finset.mem_filter.mpr ⟨hlt, hkind, ?_⟩
  by_contra hsome
  exact h i hsome hnone

variable {node : Node π}

theorem card_uncopied_set (hnode : g.nodes[i]? = some node)
    (hkind : node.kind = .object) (hnone : hash.get? i = none) (clone : ℕ) :
    (uncopied g (hash.set i clone)).card < (uncopied g hash).card := by
  have hsubset : uncopied g (hash.set i clone) ⊆ uncopied g hash := by
    refine uncopied_subset fun i' hi' => ?_
    rw [Dict.get?_set]
    split
    · exact Option.some_ne_none _
    · exact hi'
  refine Finset.card_lt_card ?_
  rw [Finset.ssubset_iff_of_subset hsubset]
  refine ⟨i, ?_, fun hi => ?_⟩
  · have hlt := (List.getElem?_eq_some_iff.mp hnode).1
    exact Finset.mem_filter.mpr ⟨Finset.mem_range.mpr hlt, by rw [hnode, Option.map_some, hkind],
      hnone⟩
  · have hget := (Finset.mem_filter.mp hi).2.2
    rw [Dict.get?_set, if_pos rfl] at hget
    cases hget

variable {path : List String}

theorem distance_le (h : lookup g.nodes v path = some (.ref i)) :
    distance g v i ≤ path.length :=
  Nat.sInf_le ⟨path, rfl, h⟩

theorem exists_distance (h : Reachable g.nodes v i) :
    ∃ path, path.length = distance g v i ∧ lookup g.nodes v path = some (.ref i) := by
  obtain ⟨path, hpath⟩ := h
  have hmem : path.length ∈ {k | ∃ path, path.length = k ∧ lookup g.nodes v path = some (.ref i)} :=
    ⟨path, rfl, hpath⟩
  exact Nat.sInf_mem ⟨_, hmem⟩

theorem distance_le_farthest (h : i < g.nodes.length) : distance g v i ≤ farthest g v :=
  Finset.le_sup (f := distance g v) (Finset.mem_range.mpr h)

variable {key : String}

theorem Reachable.child (h : Reachable g.nodes v i)
    (hchild : child g.nodes i key = some (.ref j)) : Reachable g.nodes v j := by
  obtain ⟨path, hpath⟩ := h
  exact ⟨path ++ [key], lookup_concat.mpr ⟨i, hpath, hchild⟩⟩

theorem Tame.distance_lt (htame : Tame g v) (hi : Reachable g.nodes v i)
    (hchild : child g.nodes i key = some (.ref j)) (harray : IsArray g.nodes j) :
    distance g v i < distance g v j := by
  obtain ⟨path, hlength, hpath⟩ := exists_distance (hi.child hchild)
  rcases List.eq_nil_or_concat path with rfl | ⟨path, key', rfl⟩
  · have hroot : v = .ref j := by cases v <;> exact Option.some.inj hpath
    exact absurd hchild (htame.root j i key harray hroot hi)
  · rw [List.concat_eq_append] at hlength hpath
    obtain ⟨c, hc, hchild'⟩ := lookup_concat.mp hpath
    obtain ⟨rfl, -⟩ := htame.unshared j i c key key' harray hi ⟨path, hc⟩ hchild hchild'
    have hle := distance_le hc
    rw [List.length_append, List.length_singleton] at hlength
    omega

theorem at_of_mem (hnodup : (node.slots.map Prod.fst).Nodup)
    {value : Value π} (h : (key, value) ∈ node.slots) : node.at key = some value := by
  rw [Node.at]
  rcases hfind : node.slots.find? (fun s => s.1 = key) with _ | s
  · have hnone := List.find?_eq_none.mp hfind _ h
    simp at hnone
  · have hkey : s.1 = key := by simpa using List.find?_some hfind
    have hsame := List.inj_on_of_nodup_map hnodup (List.mem_of_find?_eq_some hfind) h hkey
    simp only [hfind, hsame, Option.map_some]

variable {clone : ℕ} {copy : Value π → CopyState π → Option (Value π × CopyState π)}

theorem exists_copySlots
    {P : CopyState π → Prop} {slots : List (String × Value π)}
    (hcopy : ∀ s ∈ slots, ∀ st, P st → ∃ copied st', copy s.2 st = some (copied, st') ∧
      P (st'.assign clone s.1 copied)) (hst : P st) :
    ∃ st', copySlots copy clone slots st = some st' := by
  induction slots generalizing st with
  | nil => exact ⟨st, rfl⟩
  | cons slot slots ih =>
    obtain ⟨hslot, hslots⟩ := List.forall_mem_cons.mp hcopy
    obtain ⟨copied, st₁, hcall, hst₁⟩ := hslot st hst
    obtain ⟨st₂, hloop⟩ := ih hslots hst₁
    exact ⟨st₂, Option.bind_eq_some_iff.mpr ⟨(copied, st₁), hcall, hloop⟩⟩

theorem Copied.hash_mono (h : Copied g st origins v v' st' origins') (hsound : Sound g st origins)
    (hget : st.hash.get? i ≠ none) : st'.hash.get? i ≠ none := by
  obtain ⟨j, hj⟩ := Option.ne_none_iff_exists'.mp hget
  obtain ⟨horigin, hkind⟩ := (hsound.hash i j).mp hj
  rw [(h.sound.hash i j).mpr ⟨horigin.mono h.more, hkind⟩]
  exact Option.some_ne_none _

theorem callsBelow_object (hv : g.Has v')
    (hnode : g.nodes[i]? = some node) (hkind : node.kind = .object)
    (hcard : (uncopied g hash').card < (uncopied g hash).card) :
    callsBelow g v hash' v' < callsBelow g v hash (.ref i) := by
  have hmul := Nat.mul_le_mul_right (farthest g v + 2) hcard
  rw [Nat.succ_mul] at hmul
  cases v' with
  | prim p =>
    simp only [callsBelow]
    omega
  | ref j =>
    simp only [callsBelow, hnode, Option.map_some, hkind]
    split
    · omega
    · omega

theorem callsBelow_array (htame : Tame g v)
    (hi : Reachable g.nodes v i) (hv : g.Has v') (hnode : g.nodes[i]? = some node)
    (hkind : node.kind = .array) (hchild : child g.nodes i key = some v')
    (hsubset : uncopied g hash' ⊆ uncopied g hash) :
    callsBelow g v hash' v' < callsBelow g v hash (.ref i) := by
  have hmul := Nat.mul_le_mul_right (farthest g v + 2) (Finset.card_le_card hsubset)
  cases v' with
  | prim p =>
    simp only [callsBelow, hnode, Option.map_some, hkind, if_true]
    omega
  | ref j =>
    simp only [callsBelow, hnode, Option.map_some, hkind, if_true]
    split
    · next harray =>
      obtain ⟨node', hnode', hkind'⟩ := Option.map_eq_some_iff.mp harray
      have hlt := htame.distance_lt hi hchild ⟨node', hnode', hkind'⟩
      have hle := distance_le_farthest (v := v) (hv j rfl)
      omega
    · omega

/-- **The copy of a tame graph ends**, by the number of calls that are left below. -/
theorem exists_deepCopy (htame : Tame g v) (hv : g.Has v) :
    ∀ {depth : ℕ} {w : Value π} {st : CopyState π} {origins : List ℕ}, Sound g st origins →
      (∀ i, w = .ref i → Reachable g.nodes v i) → callsBelow g v st.hash w < depth →
      ∃ r, deepCopy depth w st = some r := by
  intro depth
  induction depth with
  | zero =>
    intro w st origins _ _ hdepth
    exact absurd hdepth (Nat.not_lt_zero _)
  | succ depth ih =>
    intro w st origins hsound hw hdepth
    cases w with
    | prim p => exact ⟨_, rfl⟩
    | ref source =>
      have hreach := hw source rfl
      obtain ⟨path, hpath⟩ := hreach
      have hlt := (lookup_source hsound.source hv path).2 _ hpath source rfl
      obtain ⟨node, hnode⟩ : ∃ node, g.nodes[source]? = some node :=
        ⟨_, List.getElem?_eq_getElem hlt⟩
      have hmem := List.mem_of_getElem? hnode
      have hchild : ∀ s ∈ node.slots, child g.nodes source s.1 = some s.2 := fun s hs => by
        rw [child, hnode]
        exact at_of_mem (g.nodup node hmem) hs
      rw [deepCopy]
      rcases hhash : st.hash.get? source with _ | clone
      · simp only [hsound.source source hlt, hnode, Option.bind_eq_bind, Option.bind_some]
        -- The loop ends from a state in which the calls for the slots need less depth.
        have hloop : ∀ {start : CopyState π} {origins : List ℕ}, Sound g start origins →
            (∀ s ∈ node.slots, ∀ hash : Dict ℕ ℕ, (∀ i, start.hash.get? i ≠ none →
              hash.get? i ≠ none) → callsBelow g v hash s.2 < depth) →
            ∃ st', copySlots (deepCopy depth) st.heap.length node.slots start = some st' := by
          intro start origins hstart hcalls
          refine exists_copySlots (P := fun st => (∃ origins, Sound g st origins) ∧
            ∀ i, start.hash.get? i ≠ none → st.hash.get? i ≠ none) ?_
            ⟨⟨origins, hstart⟩, fun _ => id⟩
          rintro s hs st₁ ⟨⟨origins₁, hst₁⟩, hmore⟩
          have hreach' : ∀ i, s.2 = .ref i → Reachable g.nodes v i := fun i hi =>
            Reachable.child ⟨path, hpath⟩ (hi ▸ hchild s hs)
          obtain ⟨⟨copied, st₂⟩, hcall⟩ := ih hst₁ hreach' (hcalls s hs _ hmore)
          obtain ⟨origins₂, hcopied⟩ := deepCopy_spec hcall hst₁ (g.closed node hmem s hs)
          exact ⟨copied, st₂, hcall,
            ⟨origins₂, hcopied.sound.assign (by have := hsound.length; omega) _ _⟩,
            fun i hi => hcopied.hash_mono hst₁ (hmore i hi)⟩
        rcases hkind : node.kind with _ | _
        · have halloc := hsound.alloc hnode hhash (if_pos hkind).symm
          rw [hkind] at halloc
          obtain ⟨st', hst'⟩ := hloop halloc fun s hs hash hmore => by
            have hcard := card_uncopied_set hnode hkind hhash st.heap.length
            have hless := Finset.card_le_card (uncopied_subset (g := g) hmore)
            have hbelow := callsBelow_object (v := v) (g.closed node hmem s hs) hnode hkind
              (hless.trans_lt hcard)
            omega
          exact ⟨_, Option.bind_eq_some_iff.mpr ⟨st', hst', rfl⟩⟩
        · have halloc := hsound.alloc hnode hhash (if_neg (by simp [hkind])).symm
          rw [hkind] at halloc
          obtain ⟨st', hst'⟩ := hloop halloc fun s hs hash hmore => by
            have hbelow : callsBelow g v hash s.2 < callsBelow g v st.hash (.ref source) :=
              callsBelow_array htame ⟨path, hpath⟩ (g.closed node hmem s hs) hnode hkind
                (hchild s hs) (uncopied_subset hmore)
            omega
          exact ⟨_, Option.bind_eq_some_iff.mpr ⟨st', hst', rfl⟩⟩
      · exact ⟨_, rfl⟩

/-- Clones hold values of the heap, and each array at most once. -/
structure Once (n : ℕ) (heap : Heap π) : Prop where
  held : ∀ c key j, n ≤ c → child heap c key = some (.ref j) → j < heap.length
  once : ∀ c c' key key' j, n ≤ c → n ≤ c' → IsArray heap j → child heap c key = some (.ref j) →
    child heap c' key' = some (.ref j) → c = c' ∧ key = key'

/-- No clone holds an array that did not hold it before. -/
structure Fresh (n : ℕ) (st st' : CopyState π) : Prop where
  once : Once n st'.heap
  frame : ∀ j < st.heap.length, IsArray st'.heap j → ∀ c key, n ≤ c →
    child st'.heap c key = some (.ref j) → child st.heap c key = some (.ref j)

/-- An array that a call returns is new, and no clone holds it. -/
def Unheld (n : ℕ) (st : CopyState π) (v' : Value π) (st' : CopyState π) : Prop :=
  ∀ j, v' = .ref j → IsArray st'.heap j → st.heap.length ≤ j ∧
    ∀ c key, n ≤ c → child st'.heap c key ≠ some (.ref j)

theorem Sound.isArray_iff (h : Sound g st origins) (horigin : Origin g.nodes.length origins j i) :
    IsArray st.heap j ↔ IsArray g.nodes i := by
  obtain ⟨node, clone, hnode, hclone, hkind⟩ := h.clone j i horigin
  constructor
  · rintro ⟨clone', hclone', harray⟩
    obtain rfl : clone = clone' := Option.some.inj (hclone.symm.trans hclone')
    exact ⟨node, hnode, hkind.symm.trans harray⟩
  · rintro ⟨node', hnode', harray⟩
    obtain rfl : node = node' := Option.some.inj (hnode.symm.trans hnode')
    exact ⟨clone, hclone, hkind.trans harray⟩

theorem Sound.exists_origin (h : Sound g st origins) (hn : g.nodes.length ≤ j)
    (hlt : j < st.heap.length) : ∃ i, Origin g.nodes.length origins j i := by
  rw [h.length] at hlt
  exact ⟨_, hn, List.getElem?_eq_getElem (by omega)⟩

theorem Sound.isArray_of (h : Sound g st origins) (h' : Sound g st' origins')
    (hle : origins <+: origins') (hlt : j < st.heap.length) (harray : IsArray st'.heap j) :
    IsArray st.heap j := by
  by_cases hn : g.nodes.length ≤ j
  · obtain ⟨i, hi⟩ := h.exists_origin hn hlt
    exact (h.isArray_iff hi).mpr ((h'.isArray_iff (hi.mono hle)).mp harray)
  · obtain ⟨node, hnode, hkind⟩ := harray
    rw [h'.source j (by omega), ← h.source j (by omega)] at hnode
    exact ⟨node, hnode, hkind⟩

theorem at_assign {key' : String} {value w : Value π}
    (h : (node.assign key value).at key' = some w) :
    node.at key' = some w ∨ (key' = key ∧ value = w) := by
  rw [Node.assign] at h
  split at h
  · exact .inl h
  · rw [Node.at, List.find?_append] at h
    rcases hfind : node.slots.find? (fun s => s.1 = key') with _ | s
    · rw [hfind, Option.none_or] at h
      by_cases hkey : key = key'
      · subst hkey
        simp only [List.find?_cons, decide_true, Option.map_some, Option.some.injEq] at h
        exact .inr ⟨rfl, h⟩
      · simp [hkey] at h
    · rw [hfind, Option.some_or] at h
      exact .inl (by rw [Node.at, hfind]; exact h)

theorem child_assign {c : ℕ} {key' : String} {value w : Value π}
    (h : child (st.assign clone key value).heap c key' = some w) :
    child st.heap c key' = some w ∨ (c = clone ∧ key' = key ∧ value = w) := by
  rw [child, getElem?_assign] at h
  split at h
  · next heq =>
    obtain ⟨node', hnode', hat⟩ := Option.bind_eq_some_iff.mp h
    obtain ⟨node, hnode, rfl⟩ := Option.map_eq_some_iff.mp hnode'
    rcases at_assign hat with hold | ⟨hkey, hvalue⟩
    · exact .inl (Option.bind_eq_some_iff.mpr ⟨node, hnode, hold⟩)
    · exact .inr ⟨heq, hkey, hvalue⟩
  · exact .inl h

variable {st₁ : CopyState π}

theorem Fresh.assign {copied : Value π}
    (h : Fresh n st st₁) (hunheld : Unheld n st copied st₁)
    (hcopied : ∀ j, copied = .ref j → j < st₁.heap.length)
    (harray : ∀ j, IsArray (st₁.assign clone key copied).heap j → IsArray st₁.heap j) :
    Fresh n st (st₁.assign clone key copied) := by
  refine ⟨⟨fun c key' j hc hj => ?_, fun c c' k k' j hc hc' hj hk hk' => ?_⟩,
    fun j hlt hj c key' hc hk => ?_⟩
  · rw [length_assign]
    rcases child_assign hj with hold | ⟨-, -, hvalue⟩
    · exact h.once.held c key' j hc hold
    · exact hcopied j hvalue
  · rcases child_assign hk with hold | ⟨rfl, rfl, hvalue⟩
    · rcases child_assign hk' with hold' | ⟨-, -, hvalue'⟩
      · exact h.once.once c c' k k' j hc hc' (harray j hj) hold hold'
      · exact absurd hold ((hunheld j hvalue' (harray j hj)).2 c k hc)
    · rcases child_assign hk' with hold' | ⟨rfl, rfl, -⟩
      · exact absurd hold' ((hunheld j hvalue (harray j hj)).2 c' k' hc')
      · exact ⟨rfl, rfl⟩
  · rcases child_assign hk with hold | ⟨-, -, hvalue⟩
    · exact h.frame j hlt (harray j hj) c key' hc hold
    · exact absurd hlt (Nat.not_lt.mpr (hunheld j hvalue (harray j hj)).1)

theorem Fresh.trans (h : Fresh n st st₁) (h' : Fresh n st₁ st')
    (hle : st.heap.length ≤ st₁.heap.length)
    (harray : ∀ j < st₁.heap.length, IsArray st'.heap j → IsArray st₁.heap j) : Fresh n st st' := by
  refine ⟨h'.once, fun j hlt hj c key hc hk => ?_⟩
  have hlt' := hlt.trans_le hle
  exact h.frame j hlt (harray j hlt' hj) c key hc (h'.frame j hlt' hj c key hc hk)

theorem Copied.lt_length (h : Copied g st origins v v' st' origins') (hv' : v' = .ref j) :
    j < st'.heap.length := by
  subst hv'
  cases v with
  | prim p => exact h.related.elim
  | ref i => exact h.sound.lt_length h.related

theorem copySlots_fresh
    (hcopy : ∀ v st origins v' st', copy v st = some (v', st') → Sound g st origins → g.Has v →
      ∃ origins', Copied g st origins v v' st' origins')
    (hfresh : ∀ v st origins v' st', copy v st = some (v', st') → Sound g st origins → g.Has v →
      Once g.nodes.length st.heap → Fresh g.nodes.length st st' ∧ Unheld g.nodes.length st v' st') (hclone : g.nodes.length ≤ clone) :
    ∀ {slots : List (String × Value π)} {st : CopyState π} {origins : List ℕ},
      copySlots copy clone slots st = some st' → Sound g st origins → clone < st.heap.length →
      (∀ s ∈ slots, g.Has s.2) → Once g.nodes.length st.heap → Fresh g.nodes.length st st' := by
  intro slots
  induction slots with
  | nil =>
    intro st origins h _ _ _ honce
    cases h
    exact ⟨honce, fun _ _ _ _ _ _ hk => hk⟩
  | cons slot slots ih =>
    obtain ⟨key, value⟩ := slot
    intro st origins h hsound hlt hslots honce
    obtain ⟨hvalue, hslots⟩ := List.forall_mem_cons.mp hslots
    obtain ⟨⟨copied, st₁⟩, hcall, hrest⟩ := Option.bind_eq_some_iff.mp h
    obtain ⟨origins₁, hcopied⟩ := hcopy value st origins copied st₁ hcall hsound hvalue
    obtain ⟨hnew, hunheld⟩ := hfresh value st origins copied st₁ hcall hsound hvalue honce
    have hassign := hcopied.sound.assign hclone key copied
    have hlength := length_assign st₁ clone key copied
    have hle := hcopied.length_le hsound
    have hone : Fresh g.nodes.length st (st₁.assign clone key copied) := by
      refine hnew.assign hunheld (fun j hj => hcopied.lt_length hj) fun j hj => ?_
      refine hcopied.sound.isArray_of hassign (List.prefix_refl _) ?_ hj
      obtain ⟨node, hnode, -⟩ := hj
      exact hlength ▸ (List.getElem?_eq_some_iff.mp hnode).1
    obtain ⟨origins₂, hfilled⟩ : ∃ origins₂, Filled g clone .array slots _ _ st' origins₂ :=
      copySlots_spec hcopy hrest hassign hclone (by omega) hslots
    have hloop := ih hrest hassign (by omega) hslots hone.once
    refine hone.trans hloop (by omega) fun j hj harray => ?_
    exact hassign.isArray_of hfilled.sound hfilled.more hj harray

variable {kind : Kind}

theorem child_concat {c : ℕ} :
    child (heap ++ [⟨kind, []⟩]) c key = child heap c key := by
  rw [child, child, List.getElem?_append]
  split
  · rfl
  · next hlt =>
    rw [List.getElem?_eq_none (Nat.not_lt.mp hlt)]
    rcases Nat.eq_zero_or_pos (c - heap.length) with hzero | hpos
    · rw [hzero]
      rfl
    · have hnone : ([⟨kind, []⟩] : Heap π)[c - heap.length]? = none := List.getElem?_eq_none hpos
      rw [hnone]

theorem Once.concat (h : Once n heap) : Once n (heap ++ [⟨kind, []⟩]) := by
  refine ⟨fun c key j hc hj => ?_, fun c c' key key' j hc hc' harray hj hj' => ?_⟩
  · rw [child_concat] at hj
    rw [List.length_append]
    exact Nat.lt_add_right _ (h.held c key j hc hj)
  · rw [child_concat] at hj hj'
    obtain ⟨node, hnode, hkind⟩ := harray
    rw [List.getElem?_append_left (h.held c key j hc hj)] at hnode
    exact h.once c c' key key' j hc hc' ⟨node, hnode, hkind⟩ hj hj'

theorem Fresh.of_concat (honce : Once n st.heap)
    (h : Fresh n ⟨st.heap ++ [⟨kind, []⟩], hash⟩ st') :
    Fresh n st st' ∧ Unheld n st (.ref st.heap.length) st' := by
  have hframe := h.frame
  simp only [List.length_append, List.length_singleton, child_concat] at hframe
  refine ⟨⟨h.once, fun j hj => hframe j (by omega)⟩, ?_⟩
  rintro j hj harray
  cases hj
  refine ⟨Nat.le_refl _, fun c key hc hk => ?_⟩
  have hlt := honce.held c key _ hc (hframe _ (Nat.lt_succ_self _) harray c key hc hk)
  exact absurd hlt (Nat.lt_irrefl _)

/-- **Each call for an array** makes one, which nothing holds yet. -/
theorem deepCopy_fresh : ∀ {depth : ℕ} {v v' : Value π} {st st' : CopyState π} {origins : List ℕ},
    deepCopy depth v st = some (v', st') → Sound g st origins → g.Has v →
      Once g.nodes.length st.heap →
      Fresh g.nodes.length st st' ∧ Unheld g.nodes.length st v' st' := by
  intro depth
  induction depth with
  | zero =>
    intro v v' st st' origins h
    cases h
  | succ depth ih =>
    intro v v' st st' origins h hsound hv honce
    have hnothing : Fresh g.nodes.length st st := ⟨honce, fun _ _ _ _ _ _ hk => hk⟩
    cases v with
    | prim p =>
      cases h
      exact ⟨hnothing, fun j hj => by cases hj⟩
    | ref source =>
      have hlt := hv source rfl
      obtain ⟨node, hnode⟩ : ∃ node, g.nodes[source]? = some node :=
        ⟨_, List.getElem?_eq_getElem hlt⟩
      have hmem := List.mem_of_getElem? hnode
      have hclosed : ∀ s ∈ node.slots, g.Has s.2 := fun s hs => g.closed node hmem s hs
      have hlen := hsound.length
      rw [deepCopy] at h
      rcases hhash : st.hash.get? source with _ | clone
      · simp only [hhash, hsound.source source hlt, hnode, Option.bind_eq_bind,
          Option.bind_some] at h
        rcases hkind : node.kind with _ | _
        · simp only [hkind] at h
          obtain ⟨st₂, hloop, hreturn⟩ := Option.bind_eq_some_iff.mp h
          cases hreturn
          have halloc := hsound.alloc hnode hhash (if_pos hkind).symm
          rw [hkind] at halloc
          exact Fresh.of_concat honce (copySlots_fresh (fun _ _ _ _ _ => deepCopy_spec)
            (fun _ _ _ _ _ => ih) (by omega) hloop halloc (by simp) hclosed honce.concat)
        · simp only [hkind] at h
          obtain ⟨st₂, hloop, hreturn⟩ := Option.bind_eq_some_iff.mp h
          cases hreturn
          have halloc := hsound.alloc hnode hhash (if_neg (by simp [hkind])).symm
          rw [hkind] at halloc
          exact Fresh.of_concat honce (copySlots_fresh (fun _ _ _ _ _ => deepCopy_spec)
            (fun _ _ _ _ _ => ih) (by omega) hloop halloc (by simp) hclosed honce.concat)
      · simp only [hhash] at h
        cases h
        refine ⟨hnothing, ?_⟩
        rintro j hj harray
        cases hj
        obtain ⟨horigin, node', hnode', hobject⟩ := (hsound.hash source clone).mp hhash
        obtain ⟨node'', hnode'', harray⟩ := (hsound.isArray_iff horigin).mp harray
        obtain rfl : node' = node'' := Option.some.inj (hnode'.symm.trans hnode'')
        rw [hobject] at harray
        cases harray

theorem sound_start (g : Graph π) : Sound g ⟨g.nodes, Dict.empty⟩ [] := by
  have hnone : ∀ j i, ¬ Origin g.nodes.length [] j i := by
    rintro j i ⟨-, hget⟩
    cases hget
  refine ⟨fun _ _ => rfl, rfl, fun j i h => absurd h (hnone j i), fun i j => ?_⟩
  constructor
  · intro hget
    cases hget
  · exact fun h => absurd h.1 (hnone j i)

theorem once_start (g : Graph π) : Once g.nodes.length g.nodes := by
  have hnone : ∀ c key, g.nodes.length ≤ c → child g.nodes c key = none := fun c key hc => by
    rw [child, List.getElem?_eq_none hc]
    rfl
  refine ⟨fun c key j hc h => ?_, fun c c' key key' j hc _ _ h _ => ?_⟩
  · rw [hnone c key hc] at h
    cases h
  · rw [hnone c key hc] at h
    cases h

theorem whole_of_deepCopy {depth : ℕ} (hv : g.Has v)
    (h : deepCopy depth v ⟨g.nodes, Dict.empty⟩ = some (v', st')) :
    ∃ origins, Whole g st' origins ∧ Related g.nodes.length origins v v' := by
  obtain ⟨origins, hcopied⟩ := deepCopy_spec h (sound_start g) hv
  exact ⟨origins, ⟨hcopied.sound, fun j i horigin => hcopied.complete j i horigin.1 horigin⟩,
    hcopied.related⟩

theorem Isomorphic.exists_ref (h : Isomorphic heap n v v') (path : List String)
    (hpath : lookup heap v path = some (.ref i)) :
    ∃ j, lookup heap v' path = some (.ref j) ∧ n ≤ j ∧
      SameShape heap (.ref i : Value π) (.ref j) := by
  have hshape := h.values path
  rw [hpath] at hshape
  rcases hclone : lookup heap v' path with _ | (p | j)
  · rw [hclone] at hshape
    cases hshape
  · rw [hclone] at hshape
    cases hshape with
    | some hshape => cases hshape
  · rw [hclone] at hshape
    cases hshape with
    | some hshape => exact ⟨j, rfl, h.apart path j hclone, hshape⟩

theorem Isomorphic.exists_child (h : Isomorphic heap n v v') {c a : ℕ} (hpath : lookup heap v path = some (.ref c))
    (hchild : child heap c key = some (.ref a)) (harray : IsArray heap a) :
    ∃ d j, lookup heap v' path = some (.ref d) ∧ lookup heap v' (path ++ [key]) = some (.ref j) ∧
      n ≤ d ∧ child heap d key = some (.ref j) ∧ IsArray heap j := by
  obtain ⟨j, hj, -, node, clone, hnode, hclone, hkind, -⟩ :=
    h.exists_ref _ (lookup_concat.mpr ⟨c, hpath, hchild⟩)
  obtain ⟨d, hd, hheld⟩ := lookup_concat.mp hj
  obtain ⟨node', hnode', harray⟩ := harray
  obtain rfl : node = node' := Option.some.inj (hnode.symm.trans hnode')
  exact ⟨d, j, hd, hj, h.apart path d hd, hheld, clone, hclone, hkind.trans harray⟩

theorem tame_of_copies (hv : g.Has v) (h : Copies g v) : Tame g v := by
  obtain ⟨depth, v', st', hcall, hsource, hiso⟩ := h
  obtain ⟨origins, hwhole, -⟩ := whole_of_deepCopy hv hcall
  obtain ⟨⟨honce, -⟩, hunheld⟩ := deepCopy_fresh hcall (sound_start g) hv (once_start g)
  have hlookup := fun path => (lookup_source hsource hv path).1
  have hlt : ∀ {c key w}, child g.nodes c key = some w → c < g.nodes.length := fun h => by
    obtain ⟨node, hnode, -⟩ := mem_of_child h
    exact (List.getElem?_eq_some_iff.mp hnode).1
  have hchild : ∀ {c key w}, child g.nodes c key = some w → child st'.heap c key = some w :=
    fun {c key w} h => by rw [child, hsource c (hlt h)]; exact h
  have harray' : ∀ {a}, IsArray g.nodes a → IsArray st'.heap a := by
    rintro a ⟨node, hnode, hkind⟩
    exact ⟨node, (hsource a (List.getElem?_eq_some_iff.mp hnode).1).trans hnode, hkind⟩
  refine ⟨?_, ?_, ?_⟩
  · rintro a c c' key key' harray ⟨p, hp⟩ ⟨q, hq⟩ hc hc'
    rw [← hlookup] at hp hq
    obtain ⟨d, j, hd, hj, hnd, hheld, hclone⟩ := hiso.exists_child hp (hchild hc) (harray' harray)
    obtain ⟨d', j', hd', hj', hnd', hheld', -⟩ :=
      hiso.exists_child hq (hchild hc') (harray' harray)
    obtain rfl : j = j' := (hiso.nodes _ _ a a j j' (lookup_concat.mpr ⟨c, hp, hchild hc⟩)
      (lookup_concat.mpr ⟨c', hq, hchild hc'⟩) hj hj').mp rfl
    obtain ⟨rfl, rfl⟩ := honce.once d d' key key' j hnd hnd' hclone hheld hheld'
    exact ⟨(hiso.nodes p q c c' d d hp hq hd hd').mpr rfl, rfl⟩
  · rintro a c key harray rfl ⟨p, hp⟩ hc
    rw [← hlookup] at hp
    obtain ⟨d, j, hd, hj, hnd, hheld, hclone⟩ := hiso.exists_child hp (hchild hc) (harray' harray)
    obtain ⟨j', hj', -, -⟩ := hiso.exists_ref [] rfl
    obtain rfl : j = j' := (hiso.nodes _ [] a a j j' (lookup_concat.mpr ⟨c, hp, hchild hc⟩) rfl hj
      hj').mp rfl
    have hroot : v' = .ref j := by cases v' <;> exact Option.some.inj hj'
    exact (hunheld j hroot hclone).2 d key hnd hheld
  · rintro c node ⟨p, hp⟩ hnode hkind hkey
    rw [← hlookup] at hp
    obtain ⟨j, hj, hn, node', clone, hnode', hclone, hkind', hkeys⟩ := hiso.exists_ref p hp
    rw [hsource c (List.getElem?_eq_some_iff.mp hnode).1, hnode] at hnode'
    obtain rfl : node = node' := Option.some.inj hnode'
    obtain ⟨i, hi⟩ := hwhole.toSound.exists_origin hn (List.getElem?_eq_some_iff.mp hclone).1
    obtain ⟨node'', clone', -, hclone', hkind'', hslots⟩ := hwhole.complete j i hi
    obtain rfl : clone = clone' := Option.some.inj (hclone.symm.trans hclone')
    rw [← hkeys, keys_eq hslots] at hkey
    obtain ⟨s, hs, hproto⟩ := List.mem_map.mp hkey
    have hfilter := (List.mem_filter.mp hs).2
    rw [← hkind'', hkind', hkind, hproto] at hfilter
    simp at hfilter

/-- **`deepCopy` copies a graph iff it is tame.** -/
theorem copies_iff (g : Graph π) (v : Value π) (hv : g.Has v) : Copies g v ↔ Tame g v := by
  refine ⟨tame_of_copies hv, fun htame => ?_⟩
  have hreach : ∀ i, v = .ref i → Reachable g.nodes v i := by
    rintro i rfl
    exact ⟨[], rfl⟩
  obtain ⟨⟨v', st'⟩, hcall⟩ :=
    exists_deepCopy htame hv (sound_start g) hreach (Nat.lt_succ_self _)
  obtain ⟨origins, hwhole, hrelated⟩ := whole_of_deepCopy hv hcall
  exact ⟨_, v', st', hcall, hwhole.source, isomorphic_of_whole hwhole htame hv hrelated⟩

/-- `{ children: [child, child] }` with `child.parent` the root: an object held twice, and a cycle
through an array. -/
def siblings : Graph Unit where
  nodes := [⟨.object, [("children", .ref 1)]⟩, ⟨.array, [("0", .ref 2), ("1", .ref 2)]⟩,
    ⟨.object, [("parent", .ref 0)]⟩]
  nodup := by decide
  closed := by grind

theorem siblings_child {c j : ℕ} (h : child siblings.nodes c key = some (.ref j))
    (harray : IsArray siblings.nodes j) : c = 0 ∧ key = "children" := by
  obtain ⟨list, hlist, hkind⟩ := harray
  obtain ⟨node, hnode, hmem⟩ := mem_of_child h
  match c with
  | 0 =>
    cases hnode
    exact ⟨rfl, (Prod.mk.inj (List.mem_singleton.mp hmem)).1⟩
  | 1 =>
    cases hnode
    obtain rfl : j = 2 := by grind
    cases hlist
    cases hkind
  | 2 =>
    cases hnode
    obtain rfl : j = 0 := by grind
    cases hlist
    cases hkind
  | c + 3 => cases hnode

theorem copies_siblings : Copies siblings (.ref 0) := by
  refine (copies_iff siblings (.ref 0) fun i hi => ?_).mpr
    ⟨fun a c c' key key' harray _ _ hc hc' => ?_, fun a c key harray ha _ hc => ?_,
      fun c node _ hnode _ => ?_⟩
  · cases hi
    decide
  · obtain ⟨rfl, rfl⟩ := siblings_child hc harray
    obtain ⟨rfl, rfl⟩ := siblings_child hc' harray
    exact ⟨rfl, rfl⟩
  · obtain ⟨node, hnode, hkind⟩ := harray
    cases ha
    cases hnode
    cases hkind
  · have hkeys : ∀ node ∈ siblings.nodes, "__proto__" ∉ node.slots.map Prod.fst := by decide
    exact hkeys node (List.mem_of_getElem? hnode)

def sharedList : Graph Unit where
  nodes := [⟨.object, [("x", .ref 1), ("y", .ref 1)]⟩, ⟨.array, []⟩]
  nodup := by decide
  closed := by grind

theorem not_copies_sharedList : ¬ Copies sharedList (.ref 0) := by
  intro h
  have hv : sharedList.Has (.ref 0) := fun i hi => by
    cases hi
    decide
  have hkeys := (tame_of_copies hv h).unshared 1 0 0 "x" "y" ⟨_, rfl, rfl⟩ ⟨[], rfl⟩ ⟨[], rfl⟩
    rfl rfl
  exact absurd hkeys.2 (by decide)

end N8n.DeepCopy
