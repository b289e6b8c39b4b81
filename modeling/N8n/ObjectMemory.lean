/-
Programs that read and change objects and arrays.

A program keeps what it was handed in registers and gets, sets, deletes, looks up and lists the
properties of the objects in them.  What an object is, a memory says: `Memory` is its interface.

* `Node` — an object or array, its properties in the order in which they are listed;
* `run` — a program over a memory, and what it sees.
-/
import N8n.MemoryCacheService
import N8n.PropertyOrder
import Mathlib.Data.List.GetD

namespace N8n.ObjectMemory

variable {π ρ ρ' V V' μ μ' : Type}

inductive Kind where
  | object
  | array
  deriving DecidableEq, Repr

/-- `builtin` is what a name of a prototype stands for. -/
inductive Value (π ρ : Type) where
  | undefined
  | prim (p : π)
  | builtin (kind : Kind) (name : String)
  | ref (r : ρ)
  deriving DecidableEq, Repr

def Value.map (f : ρ → ρ') : Value π ρ → Value π ρ'
  | .undefined => .undefined
  | .prim p => .prim p
  | .builtin kind name => .builtin kind name
  | .ref r => .ref (f r)

/-- An object, or an array of a length with its items under their indexes. -/
structure Node (V : Type) where
  length : Option ℕ
  slots : List (String × V)
  deriving DecidableEq

def Node.map (f : V → V') (node : Node V) : Node V' :=
  ⟨node.length, Fields.mapValues f node.slots⟩

def Node.kind (node : Node V) : Kind := if node.length.isSome then .array else .object

/-- What the language does with primitives: the number of a length, and the length that a
primitive converts to, if it converts to one. -/
structure Lengths (π : Type) where
  number : ℕ → π
  toLength : π → Option ℕ

/-- The names that objects of a kind have from their prototypes. -/
def Kind.inherits : Kind → String → Bool
  | .object, key => key ∈ DirectedGraph.inheritedNames
  | .array, key => key ∈ arrayNames || key ∈ DirectedGraph.inheritedNames

section

variable (L : Lengths π)

def Node.get (node : Node (Value π ρ)) (key : String) : Value π ρ :=
  match (if key = "length" then node.length else none) with
  | some n => .prim (L.number n)
  | none => match Fields.get node.slots key with
    | some v => v
    | none => if node.kind.inherits key then .builtin node.kind key else .undefined

def Node.hasOwn (node : Node V) (key : String) : Bool :=
  (node.length.isSome && key = "length") || (Fields.get node.slots key).isSome

def Node.has (node : Node V) (key : String) : Bool := node.hasOwn key || node.kind.inherits key

def truncate (length : ℕ) (slots : List (String × V)) : List (String × V) :=
  slots.filter fun s => ∀ i ∈ Dict.arrayIndex? s.1, i < length

def Value.toLength : Value π ρ → Option ℕ
  | .prim p => L.toLength p
  | _ => none

def Node.set (node : Node (Value π ρ)) (key : String) (v : Value π ρ) :
    Option (Node (Value π ρ)) :=
  match node.length with
  | none => some ⟨none, Fields.put node.slots key v⟩
  | some n =>
    if key = "length" then (v.toLength L).map fun m => ⟨some m, truncate m node.slots⟩
    else
      let n := match Dict.arrayIndex? key with
        | some i => max n (i + 1)
        | none => n
      some ⟨some n, Fields.put node.slots key v⟩

/-- `Reflect.deleteProperty`; it refuses the length of an array. -/
def Node.delete (node : Node V) (key : String) : Option (Node V) :=
  if node.length.isSome ∧ key = "length" then none
  else some { node with slots := Fields.erase node.slots key }

end

def Node.keys (node : Node V) : List String := Fields.keys node.slots

/-- What a slot of a tree holds: a primitive, another node of the tree, or something that was
there before. -/
inductive Item (π ρ : Type) where
  | prim (p : π)
  | node (i : ℕ)
  | held (r : ρ)
  deriving DecidableEq, Repr

/-- An array has all its items and no other properties. -/
def Node.Dense (node : Node V) : Prop :=
  ∀ n ∈ node.length, node.keys = (List.range n).map fun i => toString i

/-- A tree: its root, which no slot holds, and the other objects and arrays in it, each of which
one slot holds at most. -/
structure Json (π ρ : Type) where
  nodes : List (Node (Item π ρ))
  ne_nil : nodes ≠ []
  nodup : ∀ node ∈ nodes, node.keys.Nodup
  dense : ∀ node ∈ nodes, node.Dense
  closed : ∀ node ∈ nodes, ∀ (key : String) (k : ℕ),
    Fields.get node.slots key = some (.node k) → k ≠ 0 ∧ k < nodes.length
  once : ∀ (i j : ℕ) (a b : Node (Item π ρ)) (key key' : String) (k : ℕ),
    nodes[i]? = some a → nodes[j]? = some b → Fields.get a.slots key = some (.node k) →
    Fields.get b.slots key' = some (.node k) → i = j ∧ key = key'

/-- What the slot holds when the node `i` of the tree is at `node i`. -/
def Item.plant (node : ℕ → ρ') (held : ρ → Value π ρ') : Item π ρ → Value π ρ'
  | .prim p => .prim p
  | .node i => .ref (node i)
  | .held r => held r

def Json.plant (tree : Json π ρ) (node : ℕ → ρ') (held : ρ → Value π ρ') :
    List (Node (Value π ρ')) :=
  tree.nodes.map (Node.map (Item.plant node held))

/-- A name of a property.  Under `__proto__` there is the prototype, not a property. -/
abbrev Key := { key : String // key ≠ "__proto__" }

/-- What is assigned: a value, where `ref r` is what register `r` has, or a new tree, in which
such values may be. -/
inductive Operand (π : Type) where
  | value (v : Value π ℕ)
  | json (tree : Json π ℕ)

inductive Op (π : Type) where
  | get (register : ℕ) (key : Key)
  | set (register : ℕ) (key : Key) (operand : Operand π)
  | delete (register : ℕ) (key : Key)
  | has (register : ℕ) (key : Key)
  | keys (register : ℕ)

/-- What an operation shows: of an object or array, its kind. -/
inductive Seen (π : Type) where
  | value (v : Value π Kind)
  | bool (b : Bool)
  | keys (names : List String)
  | done
  | thrown
  | impossible
  deriving DecidableEq, Repr

/-- Objects at references `ρ` in a memory `μ`.  A `set` or `delete` that returns `false` throws. -/
structure Memory (π ρ μ : Type) where
  kind : μ → ρ → Kind
  get : μ → ρ → String → Value π ρ × μ
  set : μ → ρ → String → Value π ρ → Bool × μ
  delete : μ → ρ → String → Bool × μ
  has : μ → ρ → String → Bool
  keys : μ → ρ → List String
  /-- The reference to the new object number `i`, and the memory with new objects. -/
  fresh : μ → ℕ → ρ
  allocate : μ → List (Node (Value π ρ)) → μ

structure State (π ρ μ : Type) where
  memory : μ
  registers : List (Value π ρ)

/-- The object or array in a register. -/
def objectIn (registers : List (Value π ρ)) (r : ℕ) : Option ρ :=
  match registers[r]? with
  | some (.ref o) => some o
  | _ => none

/-- What is in a register, if data can hold it: functions are no data. -/
def dataIn (registers : List (Value π ρ)) (r : ℕ) : Option (Value π ρ) :=
  match registers[r]? with
  | some (.builtin _ _) => none
  | v => v

/-- The registers that a slot of a tree needs. -/
def Item.registers : Item π ℕ → List ℕ
  | .held r => [r]
  | _ => []

/-- The registers that an operand needs. -/
def Operand.registers : Operand π → List ℕ
  | .value (.ref r) => [r]
  | .value _ => []
  | .json tree => tree.nodes.flatMap fun node => node.slots.flatMap fun s => s.2.registers

section

variable (M : Memory π ρ μ)

def Operand.eval (st : State π ρ μ) : Operand π → Option (Value π ρ × μ)
  | .value .undefined => some (.undefined, st.memory)
  | .value (.prim p) => some (.prim p, st.memory)
  | .value (.builtin _ _) => none
  | .value (.ref r) => (dataIn st.registers r).map fun v => (v, st.memory)
  | .json tree =>
    if ∀ r ∈ (json tree).registers, (dataIn st.registers r).isSome then
      some (.ref (M.fresh st.memory 0), M.allocate st.memory
        (tree.plant (M.fresh st.memory) fun r => (dataIn st.registers r).getD .undefined))
    else none

/-- One operation, on the object in a register; what is got goes to the next register. -/
def step (st : State π ρ μ) : Op π → State π ρ μ × Seen π
  | .get r key => match objectIn st.registers r with
    | some o =>
      let (v, memory) := M.get st.memory o key
      (⟨memory, st.registers ++ [v]⟩, .value (v.map (M.kind memory)))
    | none => (st, .impossible)
  | .set r key operand => match objectIn st.registers r, operand.eval M st with
    | some o, some (v, memory) =>
      let (ok, memory) := M.set memory o key v
      (⟨memory, st.registers⟩, if ok then .done else .thrown)
    | _, _ => (st, .impossible)
  | .delete r key => match objectIn st.registers r with
    | some o =>
      let (ok, memory) := M.delete st.memory o key
      (⟨memory, st.registers⟩, if ok then .done else .thrown)
    | none => (st, .impossible)
  | .has r key => match objectIn st.registers r with
    | some o => (st, .bool (M.has st.memory o key))
    | none => (st, .impossible)
  | .keys r => match objectIn st.registers r with
    | some o => (st, .keys (M.keys st.memory o))
    | none => (st, .impossible)

def run (st : State π ρ μ) (ops : List (Op π)) : State π ρ μ :=
  ops.foldl (fun st op => (step M st op).1) st

def sees : State π ρ μ → List (Op π) → List (Seen π)
  | _, [] => []
  | st, op :: ops => (step M st op).2 :: sees (step M st op).1 ops

/-- Every operation is one that `P` allows in the state in which it comes. -/
def Allowed (P : State π ρ μ → Op π → Prop) : State π ρ μ → List (Op π) → Prop
  | _, [] => True
  | st, op :: ops => P st op ∧ Allowed P (step M st op).1 ops

end

abbrev Heap (π ρ : Type) := List (Node (Value π ρ))

def Heap.at (heap : Heap π ρ) (i : ℕ) : Node (Value π ρ) := heap.getD i ⟨none, []⟩

def Heap.change (heap : Heap π ρ) (i : ℕ) : Option (Node (Value π ρ)) → Bool × Heap π ρ
  | some node => (true, heap.set i node)
  | none => (false, heap)

variable (L : Lengths π)

/-- To set a property of an object to `undefined` counts as deleting it. -/
def Node.setOrDelete (node : Node (Value π ρ)) (key : String) :
    Value π ρ → Option (Node (Value π ρ))
  | .undefined => if node.kind = .object then node.delete key else node.set L key .undefined
  | v => node.set L key v

def copyMemory : Memory π ℕ (Heap π ℕ) where
  kind heap i := (heap.at i).kind
  get heap i key := ((heap.at i).get L key, heap)
  set heap i key v := heap.change i ((heap.at i).setOrDelete L key v)
  delete heap i key := heap.change i ((heap.at i).delete key)
  has heap i key := (heap.at i).has key
  keys heap i := (heap.at i).keys
  fresh heap i := heap.length + i
  allocate heap nodes := heap ++ nodes

def deepCopy (tree : Json π Empty) : State π ℕ (Heap π ℕ) :=
  ⟨tree.plant id fun r => r.elim, [.ref 0]⟩

variable {st : State π ρ μ}

/-- Run lemma: what every operation keeps, a program keeps. -/
theorem run_invariant {M : Memory π ρ μ} {I : State π ρ μ → Prop}
    (h : ∀ st op, I st → I (step M st op).1) (hst : I st) (ops : List (Op π)) :
    I (run M st ops) := by
  induction ops generalizing st with
  | nil => exact hst
  | cons op ops ih => exact ih (h st op hst)

theorem sees_eq_of_simulation {M : Memory π ρ μ} {M' : Memory π ρ' μ'}
    {P : State π ρ μ → Op π → Prop} {R : State π ρ μ → State π ρ' μ' → Prop}
    (h : ∀ st st' op, R st st' → P st op →
      (step M st op).2 = (step M' st' op).2 ∧ R (step M st op).1 (step M' st' op).1) {st' : State π ρ' μ'} (hst : R st st') {ops : List (Op π)}
    (hops : Allowed M P st ops) : sees M st ops = sees M' st' ops := by
  induction ops generalizing st st' with
  | nil => rfl
  | cons op ops ih =>
    obtain ⟨hseen, hnext⟩ := h st st' op hst hops.1
    rw [sees, sees, hseen, ih hnext hops.2]

variable {v : Value π ρ} {r : ℕ} {operand : Operand π}

theorem step_set_eq (M : Memory π ρ μ) {key : Key} {o : ρ} {memory : μ}
    (ho : objectIn st.registers r = some o) (hv : operand.eval M st = some (v, memory)) :
    step M st (.set r key operand) = (⟨(M.set memory o key v).2, st.registers⟩,
      if (M.set memory o key v).1 then .done else .thrown) := by
  rw [step, ho, hv]

theorem step_set_eq_impossible (M : Memory π ρ μ)
    {key : Key} (h : operand.eval M st = none) :
    step M st (.set r key operand) = (st, .impossible) := by
  rw [step, h]
  split
  · next heq => cases heq
  · rfl

@[simp] theorem Value.map_map {ρ'' : Type} (f : ρ → ρ') (g : ρ' → ρ'') (v : Value π ρ) :
    (v.map f).map g = v.map fun r => g (f r) := by
  cases v <;> rfl

theorem Value.map_congr {f g : ρ → ρ'} (h : ∀ r, v = .ref r → f r = g r) :
    v.map f = v.map g := by
  cases v with
  | ref r => exact congrArg Value.ref (h r rfl)
  | _ => rfl

theorem Value.toLength_map (f : ρ → ρ') (v : Value π ρ) : (v.map f).toLength L = v.toLength L := by
  cases v <;> rfl

variable (f : V → V') (node : Node V)

theorem get_slots_map (key : String) :
    Fields.get (node.map f).slots key = (Fields.get node.slots key).map f :=
  Fields.get_mapValues f node.slots key

@[simp] theorem Node.kind_map : (node.map f).kind = node.kind := rfl

@[simp] theorem Node.keys_map : (node.map f).keys = node.keys :=
  Fields.keys_mapValues f node.slots

@[simp] theorem Node.hasOwn_map (key : String) : (node.map f).hasOwn key = node.hasOwn key := by
  rw [hasOwn, hasOwn, get_slots_map, Option.isSome_map]
  rfl

@[simp] theorem Node.has_map (key : String) : (node.map f).has key = node.has key := by
  rw [has, has, hasOwn_map, kind_map]

theorem Node.get_map (f : ρ → ρ') (node : Node (Value π ρ)) (key : String) :
    (node.map (Value.map f)).get L key = (node.get L key).map f := by
  rw [get, get, get_slots_map, kind_map]
  show (match (if key = "length" then node.length else none) with
    | some n => _
    | none => _) = _
  rcases (if key = "length" then node.length else none) with _ | n
  · rcases Fields.get node.slots key with _ | v
    · dsimp only [Option.map_none]
      split
      · rfl
      · rfl
    · rfl
  · rfl

theorem Node.delete_map (key : String) :
    (node.map f).delete key = (node.delete key).map (Node.map f) := by
  rw [delete, delete]
  show (if node.length.isSome ∧ key = "length" then _ else _) = _
  split
  · rfl
  · rw [Option.map_some, Node.map, Node.map]
    exact congrArg (fun slots => some (Node.mk node.length slots))
      (Fields.erase_mapValues f node.slots key)

theorem truncate_mapValues (length : ℕ) (slots : List (String × V)) :
    truncate length (Fields.mapValues f slots) = Fields.mapValues f (truncate length slots) := by
  rw [truncate, Fields.mapValues, List.filter_map]
  rfl

theorem Node.set_map (f : ρ → ρ') (node : Node (Value π ρ)) (key : String)
    (v : Value π ρ) : (node.map (Value.map f)).set L key (v.map f)
      = (node.set L key v).map (Node.map (Value.map f)) := by
  obtain ⟨length, slots⟩ := node
  rcases length with _ | n
  · exact congrArg (fun slots => some (Node.mk none slots))
      (Fields.put_mapValues (Value.map f) slots key v)
  · show (if key = "length" then _ else _) = Option.map _ (if key = "length" then _ else _)
    split
    · rw [Value.toLength_map, Option.map_map, Node.map]
      exact Option.map_congr fun m _ =>
        congrArg (Node.mk (some m)) (truncate_mapValues (Value.map f) m slots)
    · exact congrArg (fun slots => some (Node.mk _ slots))
        (Fields.put_mapValues (Value.map f) slots key v)

theorem Node.setOrDelete_map (f : ρ → ρ') (node : Node (Value π ρ))
    (key : String) (v : Value π ρ) : (node.map (Value.map f)).setOrDelete L key (v.map f)
      = (node.setOrDelete L key v).map (Node.map (Value.map f)) := by
  cases v with
  | undefined =>
    show (if node.kind = .object then _ else _) = Option.map _ (if node.kind = .object then _ else _)
    split
    · exact delete_map (Value.map f) node key
    · exact set_map L f node key .undefined
  | _ => exact set_map L f node key _

theorem objectIn_map (f : ρ → ρ') (registers : List (Value π ρ)) (r : ℕ) :
    objectIn (registers.map (Value.map f)) r = (objectIn registers r).map f := by
  rw [objectIn, objectIn, List.getElem?_map]
  rcases registers[r]? with _ | (_ | _ | _ | _)
  · rfl
  · rfl
  · rfl
  · rfl
  · rfl

theorem dataIn_map (f : ρ → ρ') (registers : List (Value π ρ)) (r : ℕ) :
    dataIn (registers.map (Value.map f)) r = (dataIn registers r).map (Value.map f) := by
  rw [dataIn, dataIn, List.getElem?_map]
  rcases registers[r]? with _ | (_ | _ | _ | _)
  · rfl
  · rfl
  · rfl
  · rfl
  · rfl

variable {registers : List (Value π ρ)}

theorem mem_of_objectIn {o : ρ}
    (h : objectIn registers r = some o) : .ref o ∈ registers := by
  rw [objectIn] at h
  split at h
  · next hget =>
    cases h
    exact List.mem_of_getElem? hget
  · cases h

theorem getElem?_of_dataIn
    (h : dataIn registers r = some v) : registers[r]? = some v := by
  rw [dataIn] at h
  split at h
  · cases h
  · exact h

variable {heap : Heap π ρ} {i : ℕ}

theorem Heap.at_of_lt (h : i < heap.length) : heap.at i = heap[i] := by
  rw [Heap.at, List.getD_eq_getElem _ _ h]

theorem Heap.at_of_ge (h : heap.length ≤ i) :
    heap.at i = ⟨none, []⟩ := List.getD_eq_default _ _ h

theorem Heap.at_set (h : i < heap.length) (node : Node (Value π ρ))
    (k : ℕ) : Heap.at (heap.set i node) k = if k = i then node else heap.at k := by
  rw [Heap.at, Heap.at, List.getD_eq_getElem?_getD, List.getD_eq_getElem?_getD, List.getElem?_set]
  by_cases hk : k = i
  · subst hk
    rw [if_pos rfl, if_pos h, if_pos rfl]
    rfl
  · rw [if_neg (Ne.symm hk), if_neg hk]

theorem Heap.set_at (heap : Heap π ρ) (i : ℕ) : heap.set i (heap.at i) = heap := by
  by_cases h : i < heap.length
  · rw [Heap.at_of_lt h, List.set_getElem_self]
  · exact List.set_eq_of_length_le (Nat.not_lt.mp h)

theorem Heap.at_append_left (h : i < heap.length) (nodes : Heap π ρ) :
    Heap.at (heap ++ nodes) i = heap.at i := by
  rw [Heap.at, Heap.at, List.getD_append _ _ _ _ h]

theorem Heap.at_append_right (h : heap.length ≤ i)
    (nodes : Heap π ρ) : Heap.at (heap ++ nodes) i = Heap.at nodes (i - heap.length) := by
  rw [Heap.at, Heap.at, List.getD_append_right _ _ _ _ h]

theorem Heap.at_map (f : Value π ρ → Value π ρ') (nodes : Heap π ρ) (i : ℕ) :
    Heap.at (nodes.map (Node.map f)) i = (nodes.at i).map f :=
  List.getD_map nodes ⟨none, []⟩ (Node.map f)

theorem Heap.at_append_map {heap' : Heap π ρ'} {f : Value π ρ → Value π ρ'}
    (hlength : heap'.length = heap.length) (nodes : Heap π ρ)
    (h : i < heap.length → heap'.at i = (heap.at i).map f) :
    Heap.at (heap' ++ nodes.map (Node.map f)) i = (Heap.at (heap ++ nodes) i).map f := by
  by_cases hi : i < heap.length
  · rw [at_append_left hi, at_append_left (hlength.symm ▸ hi)]
    exact h hi
  · rw [at_append_right (Nat.not_lt.mp hi), at_append_right (hlength ▸ Nat.not_lt.mp hi), hlength]
    exact at_map f nodes _

variable {key : String}

theorem get_of_get_eq_ref {L : Lengths π} {node : Node (Value π ρ)} {r : ρ}
    (h : node.get L key = .ref r) : Fields.get node.slots key = some (.ref r) := by
  rw [Node.get] at h
  split at h
  · cases h
  · rcases hget : Fields.get node.slots key with _ | v
    · rw [hget] at h
      dsimp only at h
      split at h
      · cases h
      · cases h
    · rw [hget] at h
      exact congrArg some h

variable {w : Value π ρ}

theorem get_of_set {L : Lengths π} {node node' : Node (Value π ρ)} {k : String} (hset : node.set L key v = some node')
    (hget : Fields.get node'.slots k = some w) :
    (k = key ∧ w = v) ∨ Fields.get node.slots k = some w := by
  have hput : Fields.get (Fields.put node.slots key v) k = some w →
      (k = key ∧ w = v) ∨ Fields.get node.slots k = some w := fun h => by
    rw [Fields.get_put] at h
    split at h
    · next hk => exact .inl ⟨hk, (Option.some.inj h).symm⟩
    · exact .inr h
  rw [Node.set] at hset
  split at hset
  · cases hset
    exact hput hget
  · split at hset
    · obtain ⟨m, -, rfl⟩ := Option.map_eq_some_iff.mp hset
      refine .inr ?_
      have hfilter := Fields.get_filter (fun name => ∀ i ∈ Dict.arrayIndex? name, i < m)
        node.slots k
      rw [← truncate] at hfilter
      rw [hfilter] at hget
      split at hget
      · exact hget
      · cases hget
    · cases hset
      exact hput hget

theorem get_of_delete {node node' : Node V} {k : String} {w : V}
    (hdelete : node.delete key = some node') (hget : Fields.get node'.slots k = some w) :
    Fields.get node.slots k = some w := by
  rw [Node.delete] at hdelete
  split at hdelete
  · cases hdelete
  · cases hdelete
    rw [Fields.get_erase] at hget
    split at hget
    · cases hget
    · exact hget

def Node.All (P : V → Prop) (node : Node V) : Prop := ∀ s ∈ node.slots, P s.2

variable {P : V → Prop} {slots : List (String × V)}

theorem all_erase (h : ∀ s ∈ slots, P s.2)
    (key : String) : ∀ s ∈ Fields.erase slots key, P s.2 :=
  fun s hs => h s (List.mem_filter.mp hs).1

theorem all_put (h : ∀ s ∈ slots, P s.2) (key : String)
    {v : V} (hv : P v) : ∀ s ∈ Fields.put slots key v, P s.2 := by
  intro s hs
  by_cases hkey : key ∈ Fields.keys slots
  · rw [Fields.put_of_mem hkey] at hs
    obtain ⟨t, ht, rfl⟩ := List.mem_map.mp hs
    split
    · exact hv
    · exact h t ht
  · rw [Fields.put_of_not_mem hkey, List.mem_append, List.mem_cons] at hs
    rcases hs with hs | rfl | hs
    · exact h s (List.mem_filter.mp hs).1
    · exact hv
    · exact h s (List.mem_filter.mp hs).1

theorem Node.All.delete {node node' : Node V} (h : node.All P)
    (hdelete : node.delete key = some node') : node'.All P := by
  rw [Node.delete] at hdelete
  split at hdelete
  · cases hdelete
  · cases hdelete
    exact all_erase h key

theorem Node.All.set {L : Lengths π} {P : Value π ρ → Prop} {node node' : Node (Value π ρ)}
    (h : node.All P) (hv : P v)
    (hset : node.set L key v = some node') : node'.All P := by
  rw [Node.set] at hset
  split at hset
  · cases hset
    exact all_put h key hv
  · split at hset
    · obtain ⟨m, -, rfl⟩ := Option.map_eq_some_iff.mp hset
      exact fun s hs => h s (List.mem_filter.mp hs).1
    · cases hset
      exact all_put h key hv

/-- What holds of every array: its length is no slot, and its indexes are below it. -/
structure Node.IsArray : Prop where
  isSome : node.length.isSome
  nodup : node.keys.Nodup
  length_not_mem : "length" ∉ node.keys
  lt_length : ∀ n ∈ node.length, ∀ key ∈ node.keys, ∀ i ∈ Dict.arrayIndex? key, i < n

theorem toString_ne_length (n : ℕ) : toString n ≠ "length" := by
  intro h
  have hmem : 'l' ∈ (toString n).toList := by
    rw [h]
    decide
  rw [toList_toString] at hmem
  exact absurd (Nat.isDigit_of_mem_toDigits (by decide) (by decide) hmem) (by decide)

theorem arrayIndex?_toString {n : ℕ} (h : Dict.arrayIndex? (toString n) = some i) : i = n := by
  have hvalue : (toString n).toList.foldl (fun n c => 10 * n + (c.toNat - '0'.toNat)) 0 = n := by
    rw [toList_toString]
    exact Nat.ofDigitChars_toDigits (by decide) (by decide)
  rw [Dict.arrayIndex?, hvalue] at h
  split at h
  · cases h
    rfl
  · cases h

theorem Node.Dense.isArray {node : Node V} (h : node.Dense) (hlength : node.length.isSome)
    (hnodup : node.keys.Nodup) : node.IsArray where
  isSome := hlength
  nodup := hnodup
  length_not_mem := by
    obtain ⟨n, hn⟩ := Option.isSome_iff_exists.mp hlength
    rw [h n hn, List.mem_map]
    rintro ⟨i, -, hi⟩
    exact toString_ne_length i hi
  lt_length := by
    intro n hn key hkey i hi
    rw [h n hn] at hkey
    obtain ⟨j, hj, rfl⟩ := List.mem_map.mp hkey
    rw [arrayIndex?_toString hi]
    exact List.mem_range.mp hj

theorem Node.IsArray.map {node : Node V} (h : node.IsArray) (f : V → V') :
    (node.map f).IsArray where
  isSome := h.isSome
  nodup := by
    rw [Node.keys_map]
    exact h.nodup
  length_not_mem := by
    rw [Node.keys_map]
    exact h.length_not_mem
  lt_length := by
    rw [Node.keys_map]
    exact h.lt_length

theorem Node.IsArray.delete {node node' : Node V} (h : node.IsArray)
    (hdelete : node.delete key = some node') : node'.IsArray := by
  rw [Node.delete] at hdelete
  split at hdelete
  · cases hdelete
  · cases hdelete
    have hsub : (Fields.keys (Fields.erase node.slots key)).Sublist node.keys :=
      List.filter_sublist.map _
    exact ⟨h.isSome, h.nodup.sublist hsub, fun hmem => h.length_not_mem (hsub.subset hmem),
      fun n hn k hk => h.lt_length n hn k (hsub.subset hk)⟩

theorem Node.IsArray.set {L : Lengths π} {node node' : Node (Value π ρ)} (h : node.IsArray) (hset : node.set L key v = some node') : node'.IsArray := by
  obtain ⟨n, hn⟩ := Option.isSome_iff_exists.mp h.isSome
  rw [Node.set, hn] at hset
  dsimp only at hset
  split at hset
  · obtain ⟨m, -, rfl⟩ := Option.map_eq_some_iff.mp hset
    have hsub : (Fields.keys (truncate m node.slots)).Sublist node.keys :=
      List.filter_sublist.map _
    refine ⟨rfl, h.nodup.sublist hsub, fun hmem => h.length_not_mem (hsub.subset hmem), ?_⟩
    intro m' hm' k hk i hi
    cases hm'
    obtain ⟨s, hs, rfl⟩ := List.mem_map.mp hk
    simpa using of_decide_eq_true (List.mem_filter.mp hs).2 i hi
  · next hne =>
    cases hset
    refine ⟨rfl, Fields.nodup_put h.nodup key v, fun hmem => ?_, ?_⟩
    · rcases Fields.mem_keys_put.mp hmem with heq | hmem
      · exact hne heq.symm
      · exact h.length_not_mem hmem
    · intro m hm k hk i hi
      cases hm
      rcases Fields.mem_keys_put.mp hk with rfl | hk
      · rw [hi]
        exact lt_of_lt_of_le (Nat.lt_succ_self i) (le_max_right _ _)
      · have hlt := h.lt_length n hn k hk i hi
        split
        · exact lt_of_lt_of_le hlt (le_max_left _ _)
        · exact hlt

theorem Node.IsArray.exists_set {L : Lengths π} {node : Node (Value π ρ)} (h : node.IsArray) (hget : Fields.get node.slots key = some w) (v : Value π ρ) :
    ∃ node', node.set L key v = some node' ∧ Fields.get node'.slots key = some v := by
  obtain ⟨n, hn⟩ := Option.isSome_iff_exists.mp h.isSome
  have hkey : key ∈ node.keys := Fields.get_isSome.mp (by rw [hget]; rfl)
  have hne : key ≠ "length" := fun heq => h.length_not_mem (heq ▸ hkey)
  rw [Node.set, hn]
  dsimp only
  rw [if_neg hne]
  exact ⟨_, rfl, by rw [Fields.get_put, if_pos rfl]⟩

theorem Node.IsArray.set_get {L : Lengths π} {node : Node (Value π ρ)} (h : node.IsArray) (hget : Fields.get node.slots key = some v) :
    node.set L key v = some node := by
  obtain ⟨n, hn⟩ := Option.isSome_iff_exists.mp h.isSome
  have hkey : key ∈ node.keys := Fields.get_isSome.mp (by rw [hget]; rfl)
  have hne : key ≠ "length" := fun heq => h.length_not_mem (heq ▸ hkey)
  obtain ⟨length, slots⟩ := node
  cases hn
  have hslots : Fields.put slots key v = slots := Fields.put_get h.nodup hget
  rw [Node.set, hslots]
  dsimp only
  rw [if_neg hne]
  rcases hindex : Dict.arrayIndex? key with _ | i
  · rfl
  · have hlt := h.lt_length n rfl key hkey i hindex
    exact congrArg (fun m => some (Node.mk (some m) slots)) (max_eq_left hlt)

end N8n.ObjectMemory
