/-
References to seen objects are replaced in place: `removeCircularRefs`.

The objects that are met are entered in one set, in the order of the search, and a reference to one
of them is replaced by a new object.  A reference in a slot of an object, or of an array in a slot of
it, is what the search sees; it does not look into arrays in arrays.

* **`Kept.advance`** — one reference that is seen keeps it, where each component of the graph is
  entered by one reference.
-/
import N8n.ReplaceCircularReferences

namespace N8n.CircularReferences

open DeepCopy (Value)
open ObjectMemory (Node)
open Relation (ReflTransGen)

structure RemovalState where
  heap : Heap
  seen : List ℕ

def cutMarker : Node (Value Primitive) := ⟨none, [("circularReference", .prim (.boolean true))]⟩

def slotAt (heap : Heap) (p : ℕ × String) : Option (Value Primitive) :=
  heap[p.1]?.bind fun node => Fields.get node.slots p.2

def isTraversableObject (heap : Heap) (i : ℕ) : Bool :=
  heap[i]?.any fun node => node.length.isNone && !node.slots.isEmpty

def isArray (heap : Heap) (i : ℕ) : Bool := heap[i]?.any fun node => node.length.isSome

/-- `obj[key] = { circularReference: true }`, for a key that is there. -/
def RemovalState.cut (st : RemovalState) (p : ℕ × String) : RemovalState :=
  { st with heap := st.heap.modify p.1 (fun node =>
      { node with slots := Fields.put node.slots p.2 (.ref st.heap.length) }) ++ [cutMarker] }

def RemovalState.see (st : RemovalState) (i : ℕ) : RemovalState := { st with seen := st.seen ++ [i] }

section

variable (remove : ℕ → RemovalState → Option RemovalState)

/-- An item of an array, read when it is its turn. -/
def removeInItem (array : ℕ) (st : RemovalState) (index : String) : Option RemovalState :=
  match slotAt st.heap (array, index) with
  | some (.ref i) =>
    if i ∈ st.seen then some (st.cut (array, index))
    else if isTraversableObject st.heap i then remove i st
    else some st
  | _ => some st

/-- An entry of an object; the entries are those at the beginning. -/
def removeInEntry (obj : ℕ) (st : RemovalState) (entry : String × Value Primitive) :
    Option RemovalState :=
  match entry.2 with
  | .prim _ => some st
  | .ref i =>
    if isTraversableObject st.heap i then
      if i ∈ st.seen then some (st.cut (obj, entry.1)) else remove i st
    else if isArray st.heap i then
      ((st.heap[i]?.map Node.keys).getD []).foldlM (removeInItem remove i) st
    else some st

def removeInEntries (obj : ℕ) (st : RemovalState) : Option RemovalState :=
  ((st.heap[obj]?.map Node.slots).getD []).foldlM (removeInEntry remove obj) st

end

/-- Calls at most so many deep. -/
def removeCircularRefs : ℕ → ℕ → RemovalState → Option RemovalState
  | 0, _, _ => none
  | depth + 1, obj, st => removeInEntries (removeCircularRefs depth) obj (st.see obj)

/-- A slot of an object, or an item of an array in a slot of it. -/
structure Sight where
  holder : ℕ
  key : String
  index : Option String
  deriving DecidableEq

def Sight.place (nodes : Heap) (s : Sight) : Option (ℕ × String) :=
  match s.index with
  | none => some (s.holder, s.key)
  | some index => match slotAt nodes (s.holder, s.key) with
    | some (.ref a) => if isArray nodes a then some (a, index) else none
    | _ => none

section

variable (nodes : Heap)

structure Target (s : Sight) (p : ℕ × String) (x : ℕ) : Prop where
  place : s.place nodes = some p
  ref : slotAt nodes p = some (.ref x)
  traversable : isTraversableObject nodes x = true

def Sees (c x : ℕ) : Prop := ∃ s p, s.holder = c ∧ Target nodes s p x

/-- There is a path of references, through objects and arrays. -/
def Leads : ℕ → ℕ → Prop := ReflTransGen fun i j => j ∈ refs nodes i

/-- Both are seen from each other. -/
def Mutual (x y : ℕ) : Prop := ReflTransGen (Sees nodes) x y ∧ ReflTransGen (Sees nodes) y x

/-- The reference comes to the component of `y` from another one. -/
def Enters (s : Sight) (y : ℕ) : Prop :=
  ∃ p x, Target nodes s p x ∧ Mutual nodes x y ∧ ¬ ReflTransGen (Sees nodes) x s.holder

/-- Each component is entered by one reference of the objects that are seen from the root. -/
def EnteredOnce (root : ℕ) : Prop :=
  ∀ s s' y, ReflTransGen (Sees nodes) root s.holder → ReflTransGen (Sees nodes) root s'.holder →
    Enters nodes s y → Enters nodes s' y → s = s'

/-- The reference was replaced, and it closed a cycle. -/
def WasCut (st : RemovalState) (p : ℕ × String) (v : Value Primitive) : Prop :=
  ∃ j m, v = .ref j ∧ slotAt st.heap p = some (.ref m) ∧ nodes.length ≤ m ∧ m < st.heap.length ∧
    j ∈ st.seen ∧ isTraversableObject nodes j = true ∧ Leads nodes j p.1

/-- Between the references that are seen; `log` has those before. -/
structure Kept (root : ℕ) (st : RemovalState) (log : List Sight) : Prop where
  length : nodes.length ≤ st.heap.length
  marker : ∀ i, nodes.length ≤ i → i < st.heap.length → st.heap[i]? = some cutMarker
  node : ∀ i < nodes.length, st.heap[i]?.map (fun node => (node.length, node.keys)) =
    nodes[i]?.map fun node => (node.length, node.keys)
  value : ∀ p v, slotAt nodes p = some v → slotAt st.heap p = some v ∨ WasCut nodes st p v
  direct : ∀ p, p.1 < nodes.length → isArray nodes p.1 = false →
    slotAt st.heap p ≠ slotAt nodes p → ⟨p.1, p.2, none⟩ ∈ log
  once : st.seen.Nodup
  bound : ∀ c ∈ st.seen, c < st.heap.length
  seen : ∀ c ∈ st.seen, c < nodes.length → isTraversableObject nodes c = true ∧
    ReflTransGen (Sees nodes) root c
  entered : ∀ c ∈ st.seen, c < nodes.length → ReflTransGen (Sees nodes) c root ∨
    ∃ s ∈ log, Enters nodes s c
  holder : ∀ s ∈ log, s.holder ∈ st.seen
  target : ∀ s ∈ log, ∀ p x, Target nodes s p x → x ∈ st.seen ∧
    (slotAt st.heap p = some (.ref x) → st.seen.idxOf s.holder < st.seen.idxOf x)

end

variable {nodes : Heap} {root : ℕ} {st : RemovalState} {log : List Sight} {s : Sight}
  {p q : ℕ × String} {x y c : ℕ}

variable {heap : Heap} {v : Value Primitive}

theorem lt_of_slotAt (h : slotAt heap p = some v) :
    p.1 < heap.length := by
  obtain ⟨node, hnode, -⟩ := Option.bind_eq_some_iff.mp h
  exact (List.getElem?_eq_some_iff.mp hnode).1

theorem mem_refs_of_slotAt (h : slotAt nodes p = some (.ref x)) : x ∈ refs nodes p.1 := by
  obtain ⟨node, hnode, hget⟩ := Option.bind_eq_some_iff.mp h
  exact (mem_refs hnode).mpr ⟨_, Fields.mem_of_get hget, rfl⟩

theorem length_cut : (st.cut p).heap.length = st.heap.length + 1 := by
  rw [RemovalState.cut, List.length_append, List.length_modify, List.length_singleton]

theorem getElem?_cut {i : ℕ} (hi : i < st.heap.length) : (st.cut p).heap[i]? =
    if i = p.1 then st.heap[i]?.map (fun node =>
      { node with slots := Fields.put node.slots p.2 (.ref st.heap.length) }) else st.heap[i]? := by
  rw [RemovalState.cut, List.getElem?_append_left (by rwa [List.length_modify]),
    List.getElem?_modify]
  by_cases h : i = p.1
  · simp [h]
  · simp [h, Ne.symm h]

theorem slotAt_cut (hq : q.1 < st.heap.length) : slotAt (st.cut p).heap q =
    if q = p then (st.heap[q.1]?.map fun _ => .ref st.heap.length) else slotAt st.heap q := by
  rw [slotAt, getElem?_cut hq, slotAt]
  obtain ⟨i, key⟩ := q
  by_cases hi : i = p.1
  · subst hi
    rcases st.heap[p.1]? with _ | node
    · simp
    · simp only [if_true, Option.map_some, Option.bind_some, Fields.get_put, true_and, Prod.ext_iff]
  · simp [hi, Prod.ext_iff]

theorem isTraversableObject_eq {heap' : Heap} {i : ℕ}
    (h : heap[i]?.map (fun node => (node.length, node.keys)) =
      heap'[i]?.map fun node => (node.length, node.keys)) :
    isTraversableObject heap i = isTraversableObject heap' i ∧ isArray heap i = isArray heap' i := by
  have hmap : ∀ heap : Heap, isTraversableObject heap i = ((heap[i]?.map fun node =>
        (node.length, node.keys)).any fun k => k.1.isNone && !k.2.isEmpty) ∧
      isArray heap i = ((heap[i]?.map fun node => (node.length, node.keys)).any fun k =>
        k.1.isSome) := fun heap => by
    rw [isTraversableObject, isArray, Option.any_map, Option.any_map]
    refine ⟨congrFun (congrArg _ (funext fun node => ?_)) _, rfl⟩
    simp only [Node.keys, Fields.keys, List.isEmpty_map]
  rw [(hmap heap).1, (hmap heap').1, (hmap heap).2, (hmap heap').2, h]
  exact ⟨rfl, rfl⟩

theorem lt_of_isTraversableObject (h : isTraversableObject heap x = true) :
    x < heap.length := by
  by_contra hge
  rw [isTraversableObject, List.getElem?_eq_none (Nat.not_lt.mp hge)] at h
  cases h

theorem Sight.place_cases (h : s.place nodes = some p) :
    (s.index = none ∧ p = (s.holder, s.key)) ∨ ∃ index a, s.index = some index ∧
      slotAt nodes (s.holder, s.key) = some (.ref a) ∧ isArray nodes a = true ∧ p = (a, index) := by
  rw [Sight.place] at h
  split at h
  · next hindex => exact .inl ⟨hindex, (Option.some.inj h).symm⟩
  · next index hindex =>
    split at h
    · next a hslot =>
      split at h
      · next harray => exact .inr ⟨index, a, hindex, hslot, harray, (Option.some.inj h).symm⟩
      · cases h
    · cases h

theorem Sight.place_direct (h : s.place nodes = some p) (harray : isArray nodes p.1 = false) :
    s = ⟨p.1, p.2, none⟩ := by
  obtain ⟨holder, key, index⟩ := s
  rcases Sight.place_cases h with ⟨rfl, rfl⟩ | ⟨index, a, -, -, hisArray, rfl⟩
  · rfl
  · rw [harray] at hisArray
    cases hisArray

theorem Sight.leads_place (h : s.place nodes = some p) : Leads nodes s.holder p.1 := by
  rcases Sight.place_cases h with ⟨-, rfl⟩ | ⟨index, a, -, hslot, -, rfl⟩
  · exact .refl
  · exact .single (mem_refs_of_slotAt hslot)

theorem Leads.of_sees (h : ReflTransGen (Sees nodes) x y) : Leads nodes x y := by
  induction h with
  | refl => exact .refl
  | tail _ hstep ih =>
    obtain ⟨s, p, rfl, htarget⟩ := hstep
    exact (ih.trans (s.leads_place htarget.place)).tail (mem_refs_of_slotAt htarget.ref)

theorem Target.unique (h : Target nodes s p x) (h' : Target nodes s q y) : p = q ∧ x = y := by
  obtain rfl := Option.some.inj (h.place.symm.trans h'.place)
  obtain ⟨⟩ := Option.some.inj (h.ref.symm.trans h'.ref)
  exact ⟨rfl, rfl⟩

theorem idxOf_concat {seen : List ℕ} (hx : x ∉ seen) (hc : c ∈ seen) :
    (seen ++ [x]).idxOf c < (seen ++ [x]).idxOf x := by
  rw [List.idxOf_append_of_mem hc, List.idxOf_append_of_notMem hx]
  exact lt_of_lt_of_le (List.idxOf_lt_length_of_mem hc) (Nat.le_add_right _ _)

theorem WasCut.see (h : WasCut nodes st p v) : WasCut nodes (st.see y) p v := by
  obtain ⟨j, m, hv, hslot, hle, hlt, hseen, rest⟩ := h
  exact ⟨j, m, hv, hslot, hle, hlt, List.mem_append_left _ hseen, rest⟩

theorem Kept.mono_entered (h : Kept nodes root st log) (hc : c ∈ st.seen) (hlt : c < nodes.length) :
    ReflTransGen (Sees nodes) c root ∨ ∃ s' ∈ log ++ [s], Enters nodes s' c :=
  (h.entered c hc hlt).imp_right fun ⟨s', hs', henters⟩ =>
    ⟨s', List.mem_append_left _ hs', henters⟩

theorem Kept.see (h : Kept nodes root st log) (hs : s.holder ∈ st.seen) (hy : y ∉ st.seen)
    (hbound : y < st.heap.length)
    (hseen : y < nodes.length → isTraversableObject nodes y = true ∧
      ReflTransGen (Sees nodes) root y)
    (hentered : y < nodes.length → ReflTransGen (Sees nodes) y root ∨
      ∃ s' ∈ log ++ [s], Enters nodes s' y)
    (htarget : ∀ p x, Target nodes s p x → x ∈ (st.see y).seen ∧
      (slotAt st.heap p = some (.ref x) → x = y)) :
    Kept nodes root (st.see y) (log ++ [s]) where
  length := h.length
  marker := h.marker
  node := h.node
  value p v hv := (h.value p v hv).imp_right WasCut.see
  direct p hp harray hne := List.mem_append_left _ (h.direct p hp harray hne)
  once := List.nodup_append.mpr ⟨h.once, List.nodup_singleton y, fun a ha b hb => by
    rw [List.mem_singleton.mp hb]
    exact fun heq => hy (heq ▸ ha)⟩
  bound c hc := by
    rcases List.mem_append.mp hc with hc | hc
    · exact h.bound c hc
    · rwa [List.mem_singleton.mp hc]
  seen c hc hlt := by
    rcases List.mem_append.mp hc with hc | hc
    · exact h.seen c hc hlt
    · rw [List.mem_singleton.mp hc] at hlt ⊢
      exact hseen hlt
  entered c hc hlt := by
    rcases List.mem_append.mp hc with hc | hc
    · exact h.mono_entered hc hlt
    · rw [List.mem_singleton.mp hc] at hlt ⊢
      exact hentered hlt
  holder s' hs' := by
    rcases List.mem_append.mp hs' with hs' | hs'
    · exact List.mem_append_left _ (h.holder s' hs')
    · rw [List.mem_singleton.mp hs']
      exact List.mem_append_left _ hs
  target s' hs' p x ht := by
    rcases List.mem_append.mp hs' with hs' | hs'
    · obtain ⟨hx, hless⟩ := h.target s' hs' p x ht
      refine ⟨List.mem_append_left _ hx, fun hslot => ?_⟩
      show (st.seen ++ [y]).idxOf _ < (st.seen ++ [y]).idxOf _
      rw [List.idxOf_append_of_mem (h.holder s' hs'), List.idxOf_append_of_mem hx]
      exact hless hslot
    · rw [List.mem_singleton.mp hs'] at ht ⊢
      obtain ⟨hx, heq⟩ := htarget p x ht
      refine ⟨hx, fun hslot => ?_⟩
      rw [heq hslot]
      exact idxOf_concat hy hs

theorem Kept.cut (h : Kept nodes root st log) (hs : s.holder ∈ st.seen)
    (htarget : Target nodes s p x) (hx : x ∈ st.seen) (hleads : Leads nodes x p.1) :
    Kept nodes root (st.cut p) (log ++ [s]) := by
  have hp : p.1 < nodes.length := lt_of_slotAt htarget.ref
  have hpheap : p.1 < st.heap.length := lt_of_lt_of_le hp h.length
  have hslot : slotAt (st.cut p).heap p = some (.ref st.heap.length) := by
    rw [slotAt_cut hpheap, if_pos rfl, List.getElem?_eq_getElem hpheap]
    rfl
  have hother : ∀ q v, q ≠ p → slotAt nodes q = some v →
      slotAt (st.cut p).heap q = slotAt st.heap q := fun q v hne hq => by
    rw [slotAt_cut (lt_of_lt_of_le (lt_of_slotAt hq) h.length), if_neg hne]
  refine ⟨?_, fun i hi hlt => ?_, fun i hi => ?_, fun q v hv => ?_, fun q hq harray hne => ?_, h.once,
    fun c hc => ?_, h.seen, fun c hc => h.mono_entered hc, fun s' hs' => ?_, fun s' hs' q y ht => ?_⟩
  · rw [length_cut]
    exact Nat.le_succ_of_le h.length
  · rw [length_cut] at hlt
    rcases Nat.lt_succ_iff_lt_or_eq.mp hlt with hlt | rfl
    · rw [getElem?_cut hlt, if_neg (by omega), h.marker i hi hlt]
    · rw [RemovalState.cut, List.getElem?_append_right (by rw [List.length_modify]),
        List.length_modify, Nat.sub_self]
      rfl
  · rw [getElem?_cut (lt_of_lt_of_le hi h.length), ← h.node i hi]
    split
    · next heq =>
      subst heq
      obtain ⟨node, hnode, hget⟩ := Option.bind_eq_some_iff.mp htarget.ref
      have hsame := h.node p.1 hp
      rcases hheap : st.heap[p.1]? with _ | node'
      · rfl
      · rw [hheap, hnode] at hsame
        obtain ⟨-, hkeys⟩ := Prod.mk.inj (Option.some.inj hsame)
        have hmem : p.2 ∈ node'.keys := by
          rw [hkeys]
          exact Fields.get_isSome.mp (by rw [hget]; rfl)
        rw [Option.map_some, Option.map_some, Option.map_some]
        refine congrArg some (Prod.ext rfl ?_)
        exact Fields.keys_put_of_mem hmem _
    · rfl
  · by_cases hqp : q = p
    · subst hqp
      obtain rfl := Option.some.inj (htarget.ref.symm.trans hv)
      exact .inr ⟨x, _, rfl, hslot, h.length, by rw [length_cut]; exact Nat.lt_succ_self _, hx,
        htarget.traversable, hleads⟩
    · rw [WasCut, hother q v hqp hv, length_cut]
      refine (h.value q v hv).imp_right fun ⟨j, m, hvj, hslotm, hle, hlt, rest⟩ => ?_
      exact ⟨j, m, hvj, hslotm, hle, Nat.lt_succ_of_lt hlt, rest⟩
  · by_cases hqp : q = p
    · subst hqp
      exact List.mem_append_right _
        (List.mem_singleton.mpr (Sight.place_direct htarget.place harray).symm)
    · refine List.mem_append_left _ (h.direct q hq harray fun heq => hne ?_)
      rw [slotAt_cut (lt_of_lt_of_le hq h.length), if_neg hqp, heq]
  · rw [length_cut]
    exact Nat.lt_succ_of_lt (h.bound c hc)
  · rcases List.mem_append.mp hs' with hs' | hs'
    · exact h.holder s' hs'
    · rwa [List.mem_singleton.mp hs']
  · have hfinal : slotAt (st.cut p).heap q = some (.ref y) → slotAt st.heap q = some (.ref y) := by
      intro hq
      by_cases hqp : q = p
      · subst hqp
        rw [hslot] at hq
        cases hq
        exact absurd (lt_of_isTraversableObject ht.traversable) (Nat.not_lt.mpr h.length)
      · rwa [hother q _ hqp ht.ref] at hq
    rcases List.mem_append.mp hs' with hs' | hs'
    · obtain ⟨hy, hless⟩ := h.target s' hs' q y ht
      exact ⟨hy, fun hq => hless (hfinal hq)⟩
    · obtain rfl := List.mem_singleton.mp hs'
      obtain ⟨rfl, rfl⟩ := htarget.unique ht
      refine ⟨hx, fun hq => ?_⟩
      rw [hslot] at hq
      cases hq
      exact absurd (lt_of_isTraversableObject ht.traversable) (Nat.not_lt.mpr h.length)

/-- What becomes of a reference that is seen: it is replaced, or its object is met. -/
def advance (st : RemovalState) (p : ℕ × String) : RemovalState :=
  match slotAt st.heap p with
  | some (.ref i) => if i ∈ st.seen then st.cut p else st.see i
  | _ => st

theorem Target.holder_lt (h : Target nodes s p x) : s.holder < nodes.length := by
  rcases Sight.place_cases h.place with ⟨-, rfl⟩ | ⟨index, a, -, hslot, -, -⟩
  · exact lt_of_slotAt h.ref
  · exact lt_of_slotAt hslot

theorem Enters.trans (h : Enters nodes s x) (hxy : Mutual nodes x y) : Enters nodes s y := by
  obtain ⟨p, z, ht, hz, hnot⟩ := h
  exact ⟨p, z, ht, ⟨hz.1.trans hxy.1, hxy.2.trans hz.2⟩, hnot⟩

theorem Kept.sees_holder (h : Kept nodes root st log) (hentered : EnteredOnce nodes root)
    (hs : s.holder ∈ st.seen) (hnew : s ∉ log) (ht : Target nodes s p x) (hx : x ∈ st.seen) :
    ReflTransGen (Sees nodes) x s.holder := by
  by_contra hnot
  have henters : Enters nodes s x := ⟨p, x, ht, ⟨.refl, .refl⟩, hnot⟩
  have hroot := (h.seen s.holder hs ht.holder_lt).2
  rcases h.entered x hx (lt_of_isTraversableObject ht.traversable) with hback | ⟨s', hs', henters'⟩
  · exact hnot (hback.trans hroot)
  · have hlt : s'.holder < nodes.length := by
      obtain ⟨_, _, ht', -⟩ := henters'
      exact ht'.holder_lt
    have hroot' := (h.seen s'.holder (h.holder s' hs') hlt).2
    exact hnew (hentered s s' x hroot hroot' henters henters' ▸ hs')

/-- **One reference that is seen** keeps the invariant. -/
theorem Kept.advance (h : Kept nodes root st log) (hentered : EnteredOnce nodes root)
    (hs : s.holder ∈ st.seen) (hnew : s ∉ log) (ht : Target nodes s p x) :
    Kept nodes root (advance st p) (log ++ [s]) := by
  have hlt := lt_of_isTraversableObject ht.traversable
  have hsees : Sees nodes s.holder x := ⟨s, p, rfl, ht⟩
  rcases h.value p _ ht.ref with hslot | ⟨j, m, hj, hslot, hle, hm, hseen, -, hleads⟩
  · rw [CircularReferences.advance, hslot]
    dsimp only
    split
    · next hx =>
      refine h.cut hs ht hx ?_
      exact (Leads.of_sees (h.sees_holder hentered hs hnew ht hx)).trans (s.leads_place ht.place)
    · next hx =>
      refine h.see hs hx (lt_of_lt_of_le hlt h.length) (fun _ => ⟨ht.traversable, ?_⟩) (fun _ => ?_)
        fun p' x' ht' => ?_
      · exact (h.seen s.holder hs ht.holder_lt).2.tail hsees
      · by_cases hback : ReflTransGen (Sees nodes) x s.holder
        · refine (h.mono_entered (s := s) hs ht.holder_lt).imp hback.trans fun ⟨s', hs', henters⟩ => ?_
          exact ⟨s', hs', henters.trans ⟨.single hsees, hback⟩⟩
        · exact .inr ⟨s, List.mem_append_right _ List.mem_cons_self, p, x, ht, ⟨.refl, .refl⟩, hback⟩
      · obtain ⟨-, rfl⟩ := ht.unique ht'
        exact ⟨List.mem_append_right _ List.mem_cons_self, fun _ => rfl⟩
  · cases hj
    rw [CircularReferences.advance, hslot]
    dsimp only
    split
    · exact h.cut hs ht hseen hleads
    · next hnot =>
      refine h.see hs hnot hm (fun hn => absurd hle (Nat.not_le.mpr hn))
        (fun hn => absurd hle (Nat.not_le.mpr hn)) fun p' x' ht' => ?_
      obtain ⟨rfl, rfl⟩ := ht.unique ht'
      refine ⟨List.mem_append_left _ hseen, fun heq => ?_⟩
      rw [hslot] at heq
      cases heq
      rfl

end N8n.CircularReferences
