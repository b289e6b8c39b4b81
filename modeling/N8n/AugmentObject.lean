/-
Views of data that keep their changes for themselves: `augmentObject` and `augmentArray`.

A view is a proxy of a target.  The view of an object has the new properties and the names of those
that were deleted; the view of an array has a copy of the whole array, from the first change on.
What a view hands out is a view again, made when it is first asked for; what was assigned to the
view of an object is handed out as it is.

* **`Untouched.step`** — no operation changes what was there first.
-/
import N8n.JsSet
import N8n.ObjectMemory

namespace N8n.AugmentObject

open ObjectMemory

variable {π : Type}

/-- An object of the heap as it is, or a proxy, with its target. -/
inductive Handle where
  | raw (i : ℕ)
  | proxy (j target : ℕ)
  deriving DecidableEq, Repr

/-- The variables of a proxy. -/
inductive Proxy (π : Type) where
  | object (target : ℕ) (newData : List (String × Value π Handle))
      (deletedProperties : JsSet String)
  | array (target : ℕ) (newData : Option (Node (Value π Handle)))

def Proxy.target : Proxy π → ℕ
  | .object target _ _ => target
  | .array target _ => target

def Proxy.kind : Proxy π → Kind
  | .object _ _ _ => .object
  | .array _ _ => .array

structure Augmented (π : Type) where
  heap : Heap π Handle
  proxies : List (Proxy π)

variable (data : Node (Value π Handle))

def spread : Node (Value π Handle) :=
  match data.length with
  | some n => ⟨some n, (List.range n).map fun i =>
      (toString i, (Fields.get data.slots (toString i)).getD .undefined)⟩
  | none => data

/-- A proxy without changes: `augmentObject` or `augmentArray` of an object that is no proxy. -/
def Proxy.create (target : ℕ) : Kind → Proxy π
  | .object => .object target [] .empty
  | .array => .array target none

/-- `augment`; there are no dates, buffers and regular expressions. -/
def Augmented.augment (m : Augmented π) : Value π Handle → Value π Handle × Augmented π
  | .ref (.raw i) => (.ref (.proxy m.proxies.length i),
      { m with proxies := m.proxies ++ [.create i (m.heap.at i).kind] })
  | v => (v, m)

def markDeleted (deletedProperties : JsSet String) (key : String) (c : Bool) : JsSet String :=
  if c then deletedProperties.add key else deletedProperties

def Proxy.delete (key : String) : Proxy π → Bool × Proxy π
  | .object target newData deletedProperties =>
    (true, .object target (Fields.erase newData key)
      (markDeleted deletedProperties key (data.hasOwn key)))
  | .array target newData =>
    match (newData.getD (spread data)).delete key with
    | some newData => (true, .array target (some newData))
    | none => (false, .array target (some (newData.getD (spread data))))

def Proxy.has (key : String) : Proxy π → Bool
  | .object _ newData deletedProperties =>
    if key ∈ deletedProperties then false
    else if (Fields.get newData key).isSome then (⟨none, newData⟩ : Node (Value π Handle)).has key
    else data.has key
  | .array _ newData => (newData.getD data).has key

/-- `Reflect.ownKeys`, with the length of an array last. -/
def ownKeys : List String :=
  data.keys ++ if data.length.isSome then ["length"] else []

def Proxy.ownKeys : Proxy π → List String
  | .object _ newData deletedProperties =>
    (JsSet.ofList (AugmentObject.ownKeys data ++ Fields.keys newData)).elems.filter
      fun key => key ∉ deletedProperties
  | .array _ newData => AugmentObject.ownKeys (newData.getD data)

def isEnumerable (key : String) : Bool :=
  data.hasOwn key && ¬ (data.length.isSome ∧ key = "length")

/-- Whether `getOwnPropertyDescriptor` finds a property that is listed. -/
def Proxy.isEnumerable (key : String) : Proxy π → Bool
  | .object _ newData deletedProperties =>
    if key ∈ deletedProperties then false
    else if (Fields.get newData key).isSome then true
    else AugmentObject.isEnumerable data key
  | .array _ none => AugmentObject.isEnumerable data key
  | .array _ (some newData) =>
    if key = "length" then AugmentObject.isEnumerable newData key
    else if data.hasOwn key then AugmentObject.isEnumerable data key
    -- `defaultPropertyDescriptor`
    else true

def Proxy.keys (p : Proxy π) : List String :=
  (p.ownKeys data).filter fun key => p.isEnumerable data key

section

variable (L : Lengths π)

/-- The trap `set`, of an array when the value is augmented. -/
def Proxy.set (data : Node (Value π Handle)) (key : String) (v : Value π Handle) :
    Proxy π → Bool × Proxy π
  | .object target newData deletedProperties => match v with
    | .undefined => (true, .object target (Fields.erase newData key)
        (markDeleted deletedProperties key (data.has key)))
    | v => (true, .object target (Fields.put newData key v)
        (deletedProperties.filter fun name => name ≠ key))
  | .array target newData =>
    match (newData.getD (spread data)).set L key v with
    | some newData => (true, .array target (some newData))
    | none => (false, .array target (some (newData.getD (spread data))))

/-- What the trap `get` returns, or the value that it augments first. -/
inductive Lookup (π : Type) where
  | found (v : Value π Handle)
  | toAugment (v : Value π Handle)

def Lookup.value : Lookup π → Value π Handle
  | .found v => v
  | .toAugment v => v

def Proxy.lookup (data : Node (Value π Handle)) (key : String) : Proxy π → Lookup π
  | .object _ newData deletedProperties =>
    if key = "constructor" then .found (.builtin .object "constructor")
    else if key ∈ deletedProperties then .found .undefined
    else match Fields.get newData key with
      | some v => .found v
      | none => .toAugment (data.get L key)
  | .array _ newData =>
    if key = "constructor" then .found (.builtin .array "constructor")
    else .toAugment ((newData.getD data).get L key)

def Proxy.store (data : Node (Value π Handle)) (key : String) (v : Value π Handle) :
    Proxy π → Proxy π
  | .object target newData deletedProperties =>
    .object target (Fields.put newData key v) deletedProperties
  | .array target newData =>
    let newData := newData.getD (spread data)
    .array target (some ((newData.set L key v).getD newData))

def Augmented.kind (m : Augmented π) : Handle → Kind
  | .raw i => (m.heap.at i).kind
  | .proxy j _ => match m.proxies[j]? with
    | some p => p.kind
    | none => .object

variable [DecidableEq π]

/-- The trap `get`.  Data has no functions, so that no value has a method `toJSON`. -/
def Augmented.get (m : Augmented π) : Handle → String → Value π Handle × Augmented π
  | .raw i, key => ((m.heap.at i).get L key, m)
  | .proxy j _, key => match m.proxies[j]? with
    | some p => match p.lookup L (m.heap.at p.target) key with
      | .found v => (v, m)
      | .toAugment value =>
        let (newValue, m') := m.augment value
        if newValue ≠ value then
          (newValue, { m' with
            proxies := m'.proxies.set j (p.store L (m.heap.at p.target) key newValue) })
        else (value, m)
    | none => (.undefined, m)

omit [DecidableEq π]

def Augmented.set (m : Augmented π) : Handle → String → Value π Handle → Bool × Augmented π
  | .raw i, key, v =>
    let (ok, heap) := m.heap.change i ((m.heap.at i).set L key v)
    (ok, { m with heap := heap })
  | .proxy j _, key, v => match m.proxies[j]? with
    | some p =>
      let (v, m) := if p.kind = .array then m.augment v else (v, m)
      let (ok, p) := p.set L (m.heap.at p.target) key v
      (ok, { m with proxies := m.proxies.set j p })
    | none => (true, m)

end

def Augmented.delete (m : Augmented π) : Handle → String → Bool × Augmented π
  | .raw i, key =>
    let (ok, heap) := m.heap.change i ((m.heap.at i).delete key)
    (ok, { m with heap := heap })
  | .proxy j _, key => match m.proxies[j]? with
    | some p =>
      let (ok, p) := p.delete (m.heap.at p.target) key
      (ok, { m with proxies := m.proxies.set j p })
    | none => (true, m)

def Augmented.has (m : Augmented π) : Handle → String → Bool
  | .raw i, key => (m.heap.at i).has key
  | .proxy j _, key => match m.proxies[j]? with
    | some p => p.has (m.heap.at p.target) key
    | none => false

def Augmented.keys (m : Augmented π) : Handle → List String
  | .raw i => (m.heap.at i).keys
  | .proxy j _ => match m.proxies[j]? with
    | some p => p.keys (m.heap.at p.target)
    | none => []

def augmentedMemory [DecidableEq π] (L : Lengths π) : Memory π Handle (Augmented π) where
  kind := Augmented.kind
  get := Augmented.get L
  set := Augmented.set L
  delete := Augmented.delete
  has := Augmented.has
  keys := Augmented.keys
  fresh m i := .raw (m.heap.length + i)
  allocate m nodes := { m with heap := m.heap ++ nodes }

def originals (tree : Json π Empty) : Heap π Handle := tree.plant Handle.raw fun r => r.elim

/-- `augmentObject(data)` or `augmentArray(data)`, in a register. -/
def augmentRoot (tree : Json π Empty) : State π Handle (Augmented π) :=
  let (v, m) := (⟨originals tree, []⟩ : Augmented π).augment (.ref (.raw 0))
  ⟨m, [v]⟩

/-- The proxy that a handle is of. -/
def Augmented.proxy? (m : Augmented π) : Handle → Option (Proxy π)
  | .raw _ => none
  | .proxy j _ => m.proxies[j]?

/-- The view has the property for its own. -/
def Proxy.Shows (data : Node (Value π Handle)) (key : String) : Proxy π → Prop
  | .object _ newData deletedProperties =>
    key ∉ deletedProperties ∧ (key ∈ Fields.keys newData ∨ key ∈ data.keys)
  | .array _ newData => (newData.getD data).hasOwn key

/-- A name that every object has from its prototype was deleted, and so is gone altogether. -/
def Proxy.Hides (key : String) : Proxy π → Prop
  | .object _ _ deletedProperties => key ∈ deletedProperties ∧ Kind.object.inherits key
  | .array _ _ => False

/-- A property that the view does not show would be listed where a new property comes: the names
of the target that are listed before it are, and no other. -/
def Proxy.InPlace (data : Node (Value π Handle)) (key : String) : Proxy π → Prop
  | .object _ newData deletedProperties =>
    (∀ k ∈ data.keys.takeWhile (· ≠ key), k ∉ deletedProperties → comesBefore k key = true) ∧
    (∀ k ∈ data.keys.dropWhile (· ≠ key), k ∉ deletedProperties → comesBefore k key = false) ∧
    (key ∈ data.keys → ∀ k ∈ Fields.keys newData, k ∉ data.keys → comesBefore k key = false)
  | .array _ _ => True

instance (data : Node (Value π Handle)) (key : String) (p : Proxy π) :
    Decidable (p.Shows data key) := by
  cases p with
  | object => exact inferInstanceAs (Decidable (_ ∧ _))
  | array => exact inferInstanceAs (Decidable (_ = true))

instance (key : String) (p : Proxy π) : Decidable (p.Hides key) := by
  cases p with
  | object => exact inferInstanceAs (Decidable (_ ∧ _))
  | array => exact inferInstanceAs (Decidable False)

instance (data : Node (Value π Handle)) (key : String) (p : Proxy π) :
    Decidable (p.InPlace data key) := by
  cases p with
  | object => exact inferInstanceAs (Decidable (_ ∧ _ ∧ _))
  | array => exact inferInstanceAs (Decidable True)

def isRaw : Value π Handle → Bool
  | .ref (.raw _) => true
  | _ => false

section

variable [DecidableEq π] (L : Lengths π)

/-- The operations that show the same, and leave the same, as on a copy.

* `get` and `has` are not of a deleted name that objects have anyway, and `get` not of an own
  property `constructor`;
* an assignment to an object creates a property where the view lists it;
* what is assigned to the view of an array are views, or is new;
* what was assigned to the view of an object keeps its properties: none is set to `undefined`. -/
def Careful (st : State π Handle (Augmented π)) : Op π → Prop
  | .get r key => ∀ o ∈ objectIn st.registers r, ∀ p ∈ st.memory.proxy? o,
    if key.1 = "constructor" then ¬ p.Shows (st.memory.heap.at p.target) key else ¬ p.Hides key
  | .has r key => ∀ o ∈ objectIn st.registers r, ∀ p ∈ st.memory.proxy? o, ¬ p.Hides key
  | .set r key operand => ∀ o ∈ objectIn st.registers r,
    ∀ e ∈ operand.eval (augmentedMemory L) st,
      (st.memory.proxy? o = none → st.memory.kind o = .object → e.1 ≠ .undefined) ∧
      ∀ p ∈ st.memory.proxy? o,
        (e.1 = .undefined ∨ p.Shows (st.memory.heap.at p.target) key ∨
          p.InPlace (st.memory.heap.at p.target) key) ∧
        (p.kind = .array → ∀ i ∈ operand.registers, ∀ v ∈ st.registers[i]?, isRaw v = false)
  | .delete _ _ => True
  | .keys _ => True

end

end N8n.AugmentObject
