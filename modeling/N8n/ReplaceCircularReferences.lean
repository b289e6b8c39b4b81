/-
The unfolding of a graph of objects and arrays: `replaceCircularReferences`.

Objects are entered in a set when their copy begins and are taken out of it when it is complete, so
that the set has the nodes on the path from the root.

* **`replacesCircular_iff`** — the copy is the unfolding, and can be serialised, iff no object that
  is reached has a property `__proto__`, no array that is reached ends with a hole, and no value
  that is reached is a BigInt.
-/
import N8n.DeepCopy
import N8n.ObjectMemory
import N8n.PathSearch

namespace N8n.CircularReferences

open DeepCopy (Value)
open ObjectMemory (Node)
open PathSearch

inductive Primitive where
  | undefined
  | null
  | boolean (b : Bool)
  | number (text : String)
  | string (s : String)
  | bigint (n : ℤ)
  deriving DecidableEq, Repr

abbrev Heap := List (Node (Value Primitive))

/-- Plain objects and arrays: no key is there twice, an array has nothing but items below its
length, and no value is of another heap. -/
structure Graph where
  nodes : Heap
  root : Value Primitive
  nodup : ∀ node ∈ nodes, node.keys.Nodup
  items : ∀ node ∈ nodes, ∀ n ∈ node.length, ∀ s ∈ node.slots,
    ∃ i < n, Dict.arrayIndex? s.1 = some i
  closed : ∀ node ∈ nodes, ∀ s ∈ node.slots, ∀ i, s.2 = .ref i → i < nodes.length
  rooted : ∀ i, root = .ref i → i < nodes.length

def refs (nodes : Heap) (i : ℕ) : List ℕ :=
  ((nodes[i]?.map Node.slots).getD []).filterMap fun s => match s.2 with
    | .ref j => some j
    | .prim _ => none

/-- A value that `JSON.stringify` does not refuse by itself. -/
def Writable (v : Value Primitive) : Prop := ∀ n, v ≠ .prim (.bigint n)

/-- A copy, of which each object and array is a new one. -/
inductive Tree where
  | leaf (p : Primitive)
  | node (length : Option ℕ) (slots : List (String × Tree))

def circularReference : Primitive := .string "[Circular Reference]"

/-- The length of an array that gets an item. -/
def grown (length : ℕ) (key : String) : ℕ :=
  match Dict.arrayIndex? key with
  | some i => max length (i + 1)
  | none => length

/-- `copy[key] = value`, for a new key.  On an object `__proto__` sets the prototype, which gives
it no property. -/
def assign (copy : Node Tree) (key : String) (value : Tree) : Node Tree :=
  match copy.length with
  | none => if key = "__proto__" then copy else ⟨none, copy.slots ++ [(key, value)]⟩
  | some n => ⟨some (grown n key), copy.slots ++ [(key, value)]⟩

def copySlots (replace : Value Primitive → List ℕ → Option (Tree × List ℕ)) :
    List (String × Value Primitive) → Node Tree → List ℕ → Option (Node Tree × List ℕ)
  | [], copy, knownObjects => some (copy, knownObjects)
  | (key, value) :: slots, copy, knownObjects => do
    let (value, knownObjects) ← replace value knownObjects
    copySlots replace slots (assign copy key value) knownObjects

/-- Calls at most so many deep, with the set of known objects.  A value with a method `toJSON` is
no plain object, and assignments to new objects and arrays do not throw. -/
def replaceCircularReferences (nodes : Heap) :
    ℕ → Value Primitive → List ℕ → Option (Tree × List ℕ)
  | 0, _, _ => none
  | _ + 1, .prim p, knownObjects => some (.leaf p, knownObjects)
  | depth + 1, .ref i, knownObjects =>
    if i ∈ knownObjects then some (.leaf circularReference, knownObjects)
    else do
      let value ← nodes[i]?
      let (copy, knownObjects) ← copySlots (replaceCircularReferences nodes depth) value.slots
        ⟨value.length.map fun _ => 0, []⟩ (i :: knownObjects)
      return (.node copy.length copy.slots, knownObjects.erase i)

section

variable (nodes : Heap)

mutual
/-- The tree of a value that is reached on a path of nodes. -/
def Unfolds (path : List ℕ) (v : Value Primitive) : Tree → Prop
  | .leaf p => v = .prim p ∨ (p = circularReference ∧ ∃ i ∈ path, v = .ref i)
  | .node length slots => ∃ i node, v = .ref i ∧ i ∉ path ∧ nodes[i]? = some node ∧
      length = node.length ∧ UnfoldsSlots (i :: path) node.slots slots

def UnfoldsSlots (path : List ℕ) (slots : List (String × Value Primitive)) :
    List (String × Tree) → Prop
  | [] => slots = []
  | (key, t) :: trees => ∃ v rest, slots = (key, v) :: rest ∧ Unfolds path v t ∧
      UnfoldsSlots path rest trees
end

end

mutual
/-- `JSON.stringify` throws for a BigInt, and for a cycle, which no tree has. -/
def serialises : Tree → Bool
  | .leaf (.bigint _) => false
  | .leaf _ => true
  | .node _ slots => serialisesSlots slots

def serialisesSlots : List (String × Tree) → Bool
  | [] => true
  | (_, t) :: trees => serialises t && serialisesSlots trees
end

/-- The copy is the unfolding of the graph, and it can be serialised. -/
def ReplacesCircular (g : Graph) : Prop :=
  ∃ t, replaceCircularReferences g.nodes (g.nodes.length + 1) g.root [] = some (t, []) ∧
    Unfolds g.nodes [] g.root t ∧ serialises t = true

/-- The length that an array has when its items are assigned to it. -/
def filledLength {V : Type} (slots : List (String × V)) : ℕ :=
  slots.foldl (fun n s => grown n s.1) 0

/-- No `__proto__` in an object, no hole at the end of an array, and no BigInt. -/
structure Faithful (node : Node (Value Primitive)) : Prop where
  keys : node.length = none → "__proto__" ∉ node.keys
  last : ∀ n ∈ node.length, filledLength node.slots = n
  writable : ∀ s ∈ node.slots, Writable s.2

variable {nodes : Heap} {path known known' : List ℕ} {v : Value Primitive} {t : Tree}
  {depth i : ℕ} {node : Node (Value Primitive)} {slots : List (String × Value Primitive)}
  {trees : List (String × Tree)}

/-- What the assignments make of a new object or array. -/
def clonedNode (length : Option ℕ) (trees : List (String × Tree)) : Node Tree :=
  match length with
  | none => ⟨none, trees.filter fun r => r.1 ≠ "__proto__"⟩
  | some _ => ⟨some (filledLength trees), trees⟩

theorem foldl_assign_object (done : List (String × Tree)) :
    trees.foldl (fun copy r => assign copy r.1 r.2) ⟨none, done⟩ =
      ⟨none, done ++ trees.filter fun r => r.1 ≠ "__proto__"⟩ := by
  induction trees generalizing done with
  | nil => rw [List.filter_nil, List.append_nil]; rfl
  | cons r trees ih =>
    rw [List.foldl_cons]
    by_cases hkey : r.1 = "__proto__"
    · rw [show assign ⟨none, done⟩ r.1 r.2 = ⟨none, done⟩ from if_pos hkey, ih,
        List.filter_cons_of_neg (by simpa using hkey)]
    · rw [show assign ⟨none, done⟩ r.1 r.2 = ⟨none, done ++ [r]⟩ from if_neg hkey, ih,
        List.filter_cons_of_pos (by simpa using hkey), List.append_assoc, List.singleton_append]

theorem foldl_assign_array (n : ℕ) (done : List (String × Tree)) :
    trees.foldl (fun copy r => assign copy r.1 r.2) ⟨some n, done⟩ =
      ⟨some (trees.foldl (fun n r => grown n r.1) n), done ++ trees⟩ := by
  induction trees generalizing n done with
  | nil => rw [List.append_nil]; rfl
  | cons r trees ih =>
    rw [List.foldl_cons, List.foldl_cons, assign]
    simp only [ih, List.append_assoc, List.singleton_append]

theorem foldl_assign (length : Option ℕ) :
    trees.foldl (fun copy r => assign copy r.1 r.2) ⟨length.map fun _ => 0, []⟩ =
      clonedNode length trees := by
  cases length with
  | none => exact foldl_assign_object []
  | some n => exact foldl_assign_array 0 []

variable {replace : Value Primitive → List ℕ → Option (Tree × List ℕ)}

theorem exists_of_copySlots
    (hkeep : ∀ v t known', replace v known = some (t, known') → known' = known)
    {copy copy' : Node Tree} (h : copySlots replace slots copy known = some (copy', known')) :
    known' = known ∧ ∃ trees : List (String × Tree),
      List.Forall₂ (fun s r => r.1 = s.1 ∧ replace s.2 known = some (r.2, known)) slots trees ∧
      copy' = trees.foldl (fun copy r => assign copy r.1 r.2) copy := by
  induction slots generalizing copy with
  | nil =>
    cases h
    exact ⟨rfl, [], .nil, rfl⟩
  | cons s slots ih =>
    obtain ⟨⟨t, known₁⟩, ht, hloop⟩ := Option.bind_eq_some_iff.mp h
    have hknown := hkeep _ _ _ ht
    dsimp only at hknown hloop
    rw [hknown] at ht hloop
    obtain ⟨hsame, trees, htrees, hcopy⟩ := ih hloop
    exact ⟨hsame, (s.1, t) :: trees, .cons ⟨rfl, ht⟩ htrees, hcopy⟩

theorem keys_eq_of_forall₂ {R : String × Value Primitive → String × Tree → Prop}
    (h : List.Forall₂ (fun s r => r.1 = s.1 ∧ R s r) slots trees) :
    trees.map Prod.fst = slots.map Prod.fst := by
  induction h with
  | nil => rfl
  | cons hst _ ih => rw [List.map_cons, List.map_cons, hst.1, ih]

theorem filledLength_eq {V V' : Type} {slots : List (String × V)} {slots' : List (String × V')}
    (h : slots'.map Prod.fst = slots.map Prod.fst) : filledLength slots' = filledLength slots := by
  have hfold : ∀ {W : Type} (slots : List (String × W)),
      filledLength slots = (slots.map Prod.fst).foldl grown 0 := fun slots => by
    rw [filledLength, List.foldl_map]
  rw [hfold, hfold, h]

theorem keys_eq_of_unfoldsSlots (h : UnfoldsSlots nodes path slots trees) :
    trees.map Prod.fst = slots.map Prod.fst := by
  induction trees generalizing slots with
  | nil => rw [show slots = [] from h]; rfl
  | cons r trees ih =>
    obtain ⟨v, rest, rfl, -, hrest⟩ := h
    rw [List.map_cons, List.map_cons, ih hrest]

theorem replaceCircularReferences_known
    (h : replaceCircularReferences nodes depth v known = some (t, known')) : known' = known := by
  induction depth generalizing v t known known' with
  | zero => cases h
  | succ depth ih =>
    cases v with
    | prim p =>
      cases h
      rfl
    | ref i =>
      rw [replaceCircularReferences] at h
      split at h
      · cases h
        rfl
      · obtain ⟨node, -, h⟩ := Option.bind_eq_some_iff.mp h
        obtain ⟨⟨copy, known₁⟩, hloop, h⟩ := Option.bind_eq_some_iff.mp h
        cases h
        obtain ⟨rfl, -⟩ := exists_of_copySlots (fun _ _ _ => ih) hloop
        exact List.erase_cons_head ..

theorem exists_of_replace_ref (hi : i ∉ known) (hnode : nodes[i]? = some node)
    (h : replaceCircularReferences nodes (depth + 1) (.ref i) known = some (t, known')) :
    ∃ trees : List (String × Tree),
      List.Forall₂ (fun s r => r.1 = s.1 ∧ replaceCircularReferences nodes depth s.2 (i :: known)
        = some (r.2, i :: known)) node.slots trees ∧
      t = .node (clonedNode node.length trees).length (clonedNode node.length trees).slots := by
  rw [replaceCircularReferences, if_neg hi, hnode] at h
  obtain ⟨_, hsome, h⟩ := Option.bind_eq_some_iff.mp h
  cases hsome
  obtain ⟨⟨copy, known₁⟩, hloop, h⟩ := Option.bind_eq_some_iff.mp h
  cases h
  obtain ⟨-, trees, htrees, rfl⟩ :=
    exists_of_copySlots (fun _ _ _ => replaceCircularReferences_known) hloop
  rw [foldl_assign]
  exact ⟨trees, htrees, rfl⟩

theorem exists_copySlots
    (h : ∀ s ∈ slots, ∃ t, replace s.2 known = some (t, known)) (copy : Node Tree) :
    ∃ copy', copySlots replace slots copy known = some (copy', known) := by
  induction slots generalizing copy with
  | nil => exact ⟨copy, rfl⟩
  | cons s slots ih =>
    obtain ⟨⟨t, ht⟩, hslots⟩ := List.forall_mem_cons.mp h
    obtain ⟨copy', hloop⟩ := ih hslots (assign copy s.1 t)
    exact ⟨copy', Option.bind_eq_some_iff.mpr ⟨(t, known), ht, hloop⟩⟩

/-- **Every call returns**: one object less is left that is not on the path. -/
theorem exists_replaceCircularReferences
    (hclosed : ∀ node ∈ nodes, ∀ s ∈ node.slots, ∀ i, s.2 = .ref i → i < nodes.length)
    (hv : ∀ i, v = .ref i → i < nodes.length)
    (hdepth : ((List.range nodes.length).filter (· ∉ known)).length ≤ depth) :
    ∃ t, replaceCircularReferences nodes (depth + 1) v known = some (t, known) := by
  induction depth generalizing v known with
  | zero =>
    cases v with
    | prim p => exact ⟨_, rfl⟩
    | ref i =>
      by_cases hi : i ∈ known
      · exact ⟨_, if_pos hi⟩
      · have hless := length_filter_lt (List.mem_range.mpr (hv i rfl)) hi
        omega
  | succ depth ih =>
    cases v with
    | prim p => exact ⟨_, rfl⟩
    | ref i =>
      by_cases hi : i ∈ known
      · exact ⟨_, if_pos hi⟩
      · have hless := length_filter_lt (List.mem_range.mpr (hv i rfl)) hi
        obtain ⟨node, hnode⟩ : ∃ node, nodes[i]? = some node :=
          ⟨_, List.getElem?_eq_getElem (hv i rfl)⟩
        have hslots : ∀ s ∈ node.slots, ∃ t,
            replaceCircularReferences nodes (depth + 1) s.2 (i :: known) = some (t, i :: known) :=
          fun s hs => ih (hclosed _ (List.mem_of_getElem? hnode) s hs) (by omega)
        obtain ⟨copy, hloop⟩ := exists_copySlots hslots ⟨node.length.map fun _ => 0, []⟩
        refine ⟨.node copy.length copy.slots, ?_⟩
        rw [replaceCircularReferences, if_neg hi, hnode]
        refine Option.bind_eq_some_iff.mpr ⟨node, rfl, ?_⟩
        refine Option.bind_eq_some_iff.mpr ⟨(copy, i :: known), hloop, ?_⟩
        show some (Tree.node copy.length copy.slots, (i :: known).erase i) = _
        rw [List.erase_cons_head]

variable (nodes) in
/-- All that is reached around a path is copied faithfully, and can be serialised. -/
def FaithfulAround (path : List ℕ) (v : Value Primitive) : Prop :=
  Writable v ∧ ∀ i, v = .ref i → i ∉ path → ∀ j, Relation.ReflTransGen (Around (refs nodes) path) i j →
    ∀ node, nodes[j]? = some node → Faithful node

theorem mem_refs (hnode : nodes[i]? = some node) {j : ℕ} :
    j ∈ refs nodes i ↔ ∃ s ∈ node.slots, s.2 = .ref j := by
  rw [refs, hnode, Option.map_some, Option.getD_some, List.mem_filterMap]
  refine exists_congr fun s => and_congr_right fun _ => ?_
  cases s.2 with
  | prim p => simp
  | ref k => simp

theorem faithfulAround_ref_iff (hi : i ∉ path) (hnode : nodes[i]? = some node) :
    FaithfulAround nodes path (.ref i) ↔
      Faithful node ∧ ∀ s ∈ node.slots, FaithfulAround nodes (i :: path) s.2 := by
  constructor
  · rintro ⟨-, hall⟩
    have hfaithful := hall i rfl hi i .refl node hnode
    refine ⟨hfaithful, fun s hs => ⟨hfaithful.writable s hs, fun k hk hkpath j hj => ?_⟩⟩
    rw [List.mem_cons, not_or] at hkpath
    have haround : ∀ x y, Around (refs nodes) (i :: path) x y → Around (refs nodes) path x y :=
      fun x y hxy => ⟨hxy.1, fun hy => hxy.2 (List.mem_cons_of_mem _ hy)⟩
    exact hall i rfl hi j
      (.head ⟨(mem_refs hnode).mpr ⟨s, hs, hk⟩, hkpath.2⟩ (Relation.ReflTransGen.mono haround _ _ hj))
  · rintro ⟨hfaithful, hslots⟩
    refine ⟨fun n => by rintro ⟨⟩, fun k hk _ j hj node' hnode' => ?_⟩
    cases hk
    by_cases hji : j = i
    · subst hji
      rw [Option.some.inj (hnode'.symm.trans hnode)]
      exact hfaithful
    · obtain ⟨k, hk, hkpath, hkj⟩ := exists_last_visit hj hji
      obtain ⟨s, hs, hsk⟩ := (mem_refs hnode).mp hk
      exact (hslots s hs).2 k hsk hkpath j hkj node' hnode'

theorem unfoldsSlots_and_serialises_iff {P : Value Primitive → Prop}
    (h : List.Forall₂ (fun s r => r.1 = s.1 ∧
      (Unfolds nodes path s.2 r.2 ∧ serialises r.2 = true ↔ P s.2)) slots trees) :
    UnfoldsSlots nodes path slots trees ∧ serialisesSlots trees = true ↔ ∀ s ∈ slots, P s.2 := by
  induction h with
  | nil => simp [UnfoldsSlots, serialisesSlots]
  | @cons s r slots trees hsr _ ih =>
    obtain ⟨hkey, hiff⟩ := hsr
    rw [List.forall_mem_cons, ← hiff, ← ih, serialisesSlots, Bool.and_eq_true, UnfoldsSlots]
    constructor
    · rintro ⟨⟨v, rest, heq, hunfolds, hrest⟩, hserialises, hserialisesRest⟩
      obtain ⟨rfl, rfl⟩ := List.cons.inj heq
      exact ⟨⟨hunfolds, hserialises⟩, hrest, hserialisesRest⟩
    · rintro ⟨⟨hunfolds, hserialises⟩, hrest, hserialisesRest⟩
      exact ⟨⟨s.2, slots, by rw [hkey], hunfolds, hrest⟩, hserialises, hserialisesRest⟩

theorem keys_filter_iff (hkeys : trees.map Prod.fst = slots.map Prod.fst) :
    (trees.filter fun r => r.1 ≠ "__proto__").map Prod.fst = slots.map Prod.fst ↔
      "__proto__" ∉ slots.map Prod.fst := by
  rw [← hkeys]
  constructor
  · intro heq hmem
    rw [← heq] at hmem
    obtain ⟨r, hr, hproto⟩ := List.mem_map.mp hmem
    exact of_decide_eq_true (List.mem_filter.mp hr).2 hproto
  · intro hproto
    refine congrArg _ (List.filter_eq_self.mpr fun r hr => decide_eq_true fun heq => hproto ?_)
    exact List.mem_map.mpr ⟨r, hr, heq⟩

theorem slots_clonedNode (hkeys : trees.map Prod.fst = slots.map Prod.fst) {length : Option ℕ}
    (h : (clonedNode length trees).slots.map Prod.fst = slots.map Prod.fst) :
    (clonedNode length trees).slots = trees := by
  cases length with
  | none =>
    refine List.filter_eq_self.mpr fun r hr => decide_eq_true fun hproto => ?_
    exact (keys_filter_iff hkeys).mp h (hkeys ▸ List.mem_map.mpr ⟨r, hr, hproto⟩)
  | some n => rfl

theorem clonedNode_iff (hkeys : trees.map Prod.fst = node.slots.map Prod.fst)
    (hwritable : ∀ s ∈ node.slots, Writable s.2) :
    (clonedNode node.length trees).length = node.length ∧
      (clonedNode node.length trees).slots.map Prod.fst = node.slots.map Prod.fst ↔
    Faithful node := by
  cases hlength : node.length with
  | none =>
    refine (and_iff_right rfl).trans ((keys_filter_iff hkeys).trans ⟨fun hproto => ?_, fun h => ?_⟩)
    · exact ⟨fun _ => hproto, fun n hn => (by rw [hlength] at hn; cases hn), hwritable⟩
    · exact h.keys hlength
  | some n =>
    refine (and_iff_left hkeys).trans ⟨fun hn => ?_, fun h => ?_⟩
    · refine ⟨fun hnone => (by rw [hlength] at hnone; cases hnone), fun m hm => ?_, hwritable⟩
      rw [← filledLength_eq hkeys]
      exact Option.some.inj (hn.trans (hlength.symm.trans hm))
    · exact congrArg some ((filledLength_eq hkeys).trans (h.last n hlength))

theorem replaceCircularReferences_iff
    (h : replaceCircularReferences nodes depth v known = some (t, known')) :
    Unfolds nodes known v t ∧ serialises t = true ↔ FaithfulAround nodes known v := by
  induction depth generalizing v t known known' with
  | zero => cases h
  | succ depth ih =>
    cases v with
    | prim p =>
      cases h
      rw [Unfolds, FaithfulAround, Writable]
      cases p <;> simp [serialises]
    | ref i =>
      by_cases hi : i ∈ known
      · rw [replaceCircularReferences, if_pos hi] at h
        cases h
        refine iff_of_true ⟨?_, rfl⟩ ⟨fun n => (by rintro ⟨⟩), fun k hk hnot => ?_⟩
        · rw [Unfolds]
          exact .inr ⟨rfl, i, hi, rfl⟩
        · cases hk
          exact absurd hi hnot
      · obtain ⟨node, hnode⟩ : ∃ node, nodes[i]? = some node := by
          rw [replaceCircularReferences, if_neg hi] at h
          obtain ⟨node, hnode, -⟩ := Option.bind_eq_some_iff.mp h
          exact ⟨node, hnode⟩
        obtain ⟨trees, htrees, rfl⟩ := exists_of_replace_ref hi hnode h
        have hkeys := keys_eq_of_forall₂ htrees
        have hslots := unfoldsSlots_and_serialises_iff (htrees.imp fun s r hsr => ⟨hsr.1, ih hsr.2⟩)
        rw [faithfulAround_ref_iff hi hnode, ← hslots, Unfolds, serialises]
        constructor
        · rintro ⟨⟨_, _, heq, -, hnode', hlength, hunfolds⟩, hserialises⟩
          cases heq
          obtain rfl := Option.some.inj (hnode.symm.trans hnode')
          have hcloned := keys_eq_of_unfoldsSlots hunfolds
          rw [slots_clonedNode hkeys hcloned] at hunfolds hserialises
          have hwritable : ∀ s ∈ node.slots, Writable s.2 := fun s hs =>
            (hslots.mp ⟨hunfolds, hserialises⟩ s hs).1
          exact ⟨(clonedNode_iff hkeys hwritable).mp ⟨hlength, hcloned⟩, hunfolds, hserialises⟩
        · rintro ⟨hfaithful, hunfolds, hserialises⟩
          obtain ⟨hlength, hcloned⟩ := (clonedNode_iff hkeys hfaithful.writable).mpr hfaithful
          rw [slots_clonedNode hkeys hcloned]
          exact ⟨⟨i, node, rfl, hi, hnode, hlength, hunfolds⟩, hserialises⟩

def Graph.Reaches (g : Graph) (i : ℕ) : Prop :=
  ∃ r, g.root = .ref r ∧ Relation.ReflTransGen (fun a b => b ∈ refs g.nodes a) r i

/-- **The copy is the unfolding**, and can be serialised, iff no object that is reached has a
property `__proto__`, no array ends with a hole, and nothing is a BigInt. -/
theorem replacesCircular_iff (g : Graph) : ReplacesCircular g ↔
    Writable g.root ∧ ∀ i, g.Reaches i → ∀ node, g.nodes[i]? = some node → Faithful node := by
  have hdepth : ((List.range g.nodes.length).filter (· ∉ ([] : List ℕ))).length ≤ g.nodes.length :=
    (List.length_filter_le _ _).trans (List.length_range ..).le
  obtain ⟨t, ht⟩ := exists_replaceCircularReferences g.closed g.rooted hdepth
  have hiff := replaceCircularReferences_iff ht
  have haround : FaithfulAround g.nodes [] g.root ↔
      Writable g.root ∧ ∀ i, g.Reaches i → ∀ node, g.nodes[i]? = some node → Faithful node := by
    have hstep : Around (refs g.nodes) [] = fun a b => b ∈ refs g.nodes a := by
      funext a b
      exact propext (and_iff_left List.not_mem_nil)
    rw [FaithfulAround, hstep]
    refine and_congr_right fun _ => ⟨fun h i hi => ?_, fun h r hr _ i hi => h i ⟨r, hr, hi⟩⟩
    obtain ⟨r, hr, hi⟩ := hi
    exact h r hr List.not_mem_nil i hi
  rw [← haround, ← hiff]
  constructor
  · rintro ⟨t', ht', h⟩
    obtain ⟨rfl, -⟩ := Prod.mk.inj (Option.some.inj (ht.symm.trans ht'))
    exact h
  · exact fun h => ⟨t, ht, h⟩

/-- `JSON.parse('{"__proto__": {"a": 1}}')`. -/
def prototypeGraph : Graph where
  nodes := [⟨none, [("__proto__", .ref 1)]⟩, ⟨none, [("a", .prim (.number "1"))]⟩]
  root := .ref 0
  nodup := by decide
  items := by decide
  closed := by simp
  rooted := by simp

theorem not_replacesCircular_prototypeGraph : ¬ ReplacesCircular prototypeGraph := by
  rintro ⟨t, ht, hunfolds, -⟩
  cases ht
  rw [Unfolds] at hunfolds
  obtain ⟨i, node, hi, -, hnode, -, hslots⟩ := hunfolds
  cases hi
  cases hnode
  cases hslots

end N8n.CircularReferences
