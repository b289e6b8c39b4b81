/-
Data that knows whether it was changed: `create` of the observable objects.

The data is a tree.  The objects and arrays that `create` finds are behind proxies, those that are
assigned later are not; a change through a proxy is noted in the property `__dataChanged` of the
root, except that of an empty object put at the first level.

* **`noticed_of_careful`** — a run of which no step throws or writes unseen does not miss a change.
-/
import N8n.Dict
import N8n.Runs
import N8n.Fields

namespace N8n.ObservableObject

variable {π : Type}

/-- Whether an object is behind a proxy, and then whether its property `__dataChanged` is the
hidden one that `create` defined, or was there before and is listed. -/
inductive Mark where
  | raw
  | hidden
  | listed
  deriving DecidableEq, Repr

/-- An array has a length; its items are under their indexes. -/
inductive Data (π : Type) where
  | null
  | boolean (b : Bool)
  | primitive (p : π)
  | node (mark : Mark) (length : Option ℕ) (slots : List (String × Data π))

def Data.slots : Data π → List (String × Data π)
  | .node _ _ slots => slots
  | _ => []

/-- The slots that `Object.keys` lists. -/
def Data.enumerable : Data π → List (String × Data π)
  | .node .hidden _ slots => Fields.erase slots "__dataChanged"
  | .node _ _ slots => slots
  | _ => []

mutual
def create : Data π → Data π
  | .null => .null
  | .boolean b => .boolean b
  | .primitive p => .primitive p
  | .node _ length slots =>
    .node (if (Fields.get (createSlots slots) "__dataChanged").isSome then .listed else .hidden)
      length (Fields.set (createSlots slots) "__dataChanged" (.boolean false))

def createSlots : List (String × Data π) → List (String × Data π)
  | [] => []
  | (key, value) :: slots => (key, create value) :: createSlots slots
end

mutual
def Data.data : Data π → Data π
  | .null => .null
  | .boolean b => .boolean b
  | .primitive p => .primitive p
  | .node mark length slots => .node .raw length (dataSlots (mark = .hidden) slots)

def dataSlots (hidden : Bool) : List (String × Data π) → List (String × Data π)
  | [] => []
  | (key, value) :: slots =>
    if hidden ∧ key = "__dataChanged" then dataSlots hidden slots
    else (key, value.data) :: dataSlots hidden slots
end

inductive Action (π : Type) where
  | set (key : String) (value : Data π)
  | delete (key : String)

/-- An assignment or a deletion in the object or array that a path of keys leads to. -/
structure Operation (π : Type) where
  path : List String
  action : Action π

inductive Thrown where
  | typeError
  | rangeError
  deriving DecidableEq, Repr

/-- The names that every object inherits. -/
def objectNames : List String :=
  ["constructor", "hasOwnProperty", "isPrototypeOf", "propertyIsEnumerable", "toLocaleString",
    "toString", "valueOf", "__proto__", "__defineGetter__", "__defineSetter__",
    "__lookupGetter__", "__lookupSetter__"]

section

-- The length that a value stands for when it is assigned to one, if it stands for any.
variable (lengthOf : Data π → Option ℕ)

/-- A property is assigned; one `__proto__` that is not there would be the prototype. -/
def assign (slots : List (String × Data π)) (key : String) (value : Data π) :
    List (String × Data π) :=
  if key = "__proto__" ∧ Fields.get slots key = none then slots else Fields.set slots key value

def truncate (length : ℕ) (slots : List (String × Data π)) : List (String × Data π) :=
  slots.filter fun s => ∀ i ∈ Dict.arrayIndex? s.1, i < length

/-- `Reflect.set` and `Reflect.deleteProperty`; what these refuse throws. -/
def reflect (action : Action π) : Data π → Except Thrown (Data π)
  | .node mark none slots => match action with
    | .set key value => .ok (.node mark none (assign slots key value))
    | .delete key =>
      if mark = .hidden ∧ key = "__dataChanged" then .error .typeError
      else .ok (.node mark none (Fields.erase slots key))
  | .node mark (some length) slots => match action with
    | .set key value =>
      if key = "length" then match lengthOf value with
        | some length => .ok (.node mark (some length) (truncate length slots))
        | none => .error .rangeError
      else match Dict.arrayIndex? key with
        | some i => .ok (.node mark (some (max length (i + 1))) (Fields.set slots key value))
        | none => .ok (.node mark (some length) (assign slots key value))
    | .delete key =>
      if (mark = .hidden ∧ key = "__dataChanged") ∨ key = "length" then .error .typeError
      else .ok (.node mark (some length) (Fields.erase slots key))
  | _ => .error .typeError

def follow : List String → Data π → Option (Data π)
  | [], value => some value
  | key :: path, value => (Fields.get value.slots key).bind (follow path)

def modifyAt (f : Data π → Except Thrown (Data π)) : List String → Data π → Except Thrown (Data π)
  | [], value => f value
  | key :: path, .node mark length slots => match Fields.get slots key with
    | some value => do
      let value ← modifyAt f path value
      return .node mark length (Fields.set slots key value)
    | none => .error .typeError
  | _ :: _, _ => .error .typeError

def markChanged : Data π → Data π
  | .node mark length slots => .node mark length (Fields.set slots "__dataChanged" (.boolean true))
  | value => value

def isUndefined (target : Data π) (name : String) : Bool :=
  (Fields.get target.slots name).isNone ∧ name ∉ objectNames

/-- What the traps of the root note, with the option `ignoreEmptyOnFirstChild`. -/
def noteRoot (action : Action π) (root : Data π) : Except Thrown (Data π) :=
  match action with
  | .delete _ => .ok (markChanged root)
  | .set name value =>
    if isUndefined root name then match value with
      -- `Object.keys(null)`
      | .null => .error .typeError
      | .node mark length slots =>
        if (Data.node mark length slots).enumerable = [] then .ok root else .ok (markChanged root)
      | _ => .ok (markChanged root)
    else .ok (markChanged root)

/-- One operation through the proxy of the root.  Below the root the change is noted iff the object
is behind a proxy. -/
def step (root : Data π) (op : Operation π) : Except Thrown (Data π) :=
  match op.path with
  | [] => do reflect lengthOf op.action (← noteRoot op.action root)
  | path => match follow path root with
    | some (.node mark _ _) => do
      let root ← modifyAt (reflect lengthOf op.action) path root
      return if mark = .raw then root else markChanged root
    | _ => .error .typeError

/-- The one data is the other with empty objects or arrays added at the first level. -/
def OnlyEmptyAdded (init cur : Data π) : Prop :=
  ∀ key, Fields.get cur.slots key = Fields.get init.slots key ∨
    (Fields.get init.slots key = none ∧
      ∃ length, Fields.get cur.slots key = some (.node .raw length []))

def Changed (root : Data π) : Prop :=
  Fields.get root.slots "__dataChanged" = some (.boolean true)

/-- No operation throws, and a change is noted. -/
def Noticed (init : Data π) (ops : List (Operation π)) : Prop :=
  ∃ root, runInputs (step lengthOf) (create init) ops = .ok root ∧
    (¬ OnlyEmptyAdded init root.data → Changed root)

def Action.key : Action π → String
  | .set key _ => key
  | .delete key => key

/-- The language does not refuse the action on such an object. -/
def Action.Allowed (mark : Mark) (length : Option ℕ) : Action π → Prop
  | .set key value => length.isSome → key = "length" → (lengthOf value).isSome
  | .delete key =>
    ¬ (mark = .hidden ∧ key = "__dataChanged") ∧ ¬ (length.isSome ∧ key = "length")

/-- The path of the operation leads to an object that allows it.  At the root it neither is about
`__dataChanged` nor adds `null`, and below there is a proxy, unless a change was noted before. -/
def Careful (root : Data π) (op : Operation π) : Prop :=
  ∃ mark length slots, follow op.path root = some (.node mark length slots) ∧
    op.action.Allowed lengthOf mark length ∧
    (op.path = [] → op.action.key ≠ "__dataChanged" ∧
      ∀ name, op.action = .set name .null → isUndefined root name = false) ∧
    (op.path ≠ [] → mark ≠ .raw ∨ Changed root)

end

mutual
/-- A value without proxies, in which each property `__dataChanged` is `false`. -/
def Data.Plain : Data π → Prop
  | .null => True
  | .boolean _ => True
  | .primitive _ => True
  | .node mark _ slots => mark = .raw ∧ PlainSlots slots

def PlainSlots : List (String × Data π) → Prop
  | [] => True
  | (key, value) :: slots =>
    value.Plain ∧ (key = "__dataChanged" → value = .boolean false) ∧ PlainSlots slots
end

variable {lengthOf : Data π → Option ℕ} {init root start : Data π}
  {slots : List (String × Data π)}

theorem dataSlots_append (hidden : Bool) (slots more : List (String × Data π)) :
    dataSlots hidden (slots ++ more) = dataSlots hidden slots ++ dataSlots hidden more := by
  induction slots with
  | nil => rfl
  | cons slot slots ih =>
    rw [List.cons_append, dataSlots, dataSlots, ih]
    split
    · rfl
    · rfl

theorem dataSlots_true (slots : List (String × Data π)) :
    dataSlots true slots = dataSlots false (Fields.erase slots "__dataChanged") := by
  induction slots with
  | nil => rfl
  | cons slot slots ih =>
    rw [dataSlots, Fields.erase, List.filter_cons, ih]
    by_cases h : slot.1 = "__dataChanged"
    · simp [h, Fields.erase]
    · simp [h, Fields.erase, dataSlots]

theorem erase_eq_self (h : Fields.get slots "__dataChanged" = none) :
    Fields.erase slots "__dataChanged" = slots := by
  induction slots with
  | nil => rfl
  | cons slot slots ih =>
    rw [Fields.get_cons] at h
    split at h
    · cases h
    · next hne => rw [Fields.erase, List.filter_cons, ← Fields.erase, ih h]; simp [hne]

theorem map_createSlots : ∀ {slots : List (String × Data π)}, PlainSlots slots →
    ((createSlots slots).map fun s =>
      if s.1 = "__dataChanged" then ("__dataChanged", .boolean false) else s) = createSlots slots
  | [], _ => rfl
  | (key, value) :: slots, h => by
    rw [PlainSlots] at h
    obtain ⟨-, hvalue, hslots⟩ := h
    rw [createSlots, List.map_cons, map_createSlots hslots]
    by_cases hkey : key = "__dataChanged"
    · rw [if_pos hkey, hvalue hkey, hkey, create]
    · rw [if_neg hkey]

theorem dataSlots_define (h : PlainSlots slots) :
    dataSlots ((if (Fields.get (createSlots slots) "__dataChanged").isSome then Mark.listed
      else .hidden) = .hidden) (Fields.set (createSlots slots) "__dataChanged" (.boolean false)) =
      dataSlots false (createSlots slots) := by
  rcases hget : Fields.get (createSlots slots) "__dataChanged" with _ | value
  · rw [Fields.set_eq_append hget]
    show dataSlots true _ = _
    rw [dataSlots_append, dataSlots_true, erase_eq_self hget]
    exact List.append_nil _
  · rw [Fields.set, hget, Option.isSome_some, if_pos rfl, map_createSlots h]
    rfl

mutual
/-- **`create`** changes no data in which `__dataChanged` is `false`. -/
theorem create_data : ∀ {init : Data π}, init.Plain → (create init).data = init
  | .null, _ => by rw [create, Data.data]
  | .boolean b, _ => by rw [create, Data.data]
  | .primitive p, _ => by rw [create, Data.data]
  | .node mark length slots, h => by
    rw [Data.Plain] at h
    obtain ⟨rfl, hslots⟩ := h
    rw [create, Data.data, dataSlots_define hslots, createSlots_data hslots]

theorem createSlots_data : ∀ {slots : List (String × Data π)}, PlainSlots slots →
    dataSlots false (createSlots slots) = slots
  | [], _ => rfl
  | (key, value) :: slots, h => by
    rw [PlainSlots] at h
    rw [createSlots, dataSlots, create_data h.1, createSlots_data h.2.2]
    simp
end

variable {key : String}

theorem get_assign_of_ne {key' : String} (h : key' ≠ key) (value : Data π) :
    Fields.get (assign slots key value) key' = Fields.get slots key' := by
  rw [assign]
  split
  · rfl
  · rw [Fields.get_set, if_neg h]

variable {mark : Mark} {action : Action π}

theorem exists_reflect
    (h : action.Allowed lengthOf mark none) (slots : List (String × Data π)) :
    ∃ slots', reflect lengthOf action (.node mark none slots) = .ok (.node mark none slots') ∧
      ∀ key, key ≠ action.key → Fields.get slots' key = Fields.get slots key := by
  cases action with
  | set key value => exact ⟨_, rfl, fun key' hne => get_assign_of_ne hne value⟩
  | delete key =>
    refine ⟨Fields.erase slots key, ?_, fun key' hne => ?_⟩
    · rw [reflect]
      exact if_neg h.1
    · have hne' : key' ≠ key := hne
      rw [Fields.get_erase, if_neg hne']

variable {length : Option ℕ}

theorem reflect_isOk
    (h : action.Allowed lengthOf mark length) (slots : List (String × Data π)) :
    ∃ node, reflect lengthOf action (.node mark length slots) = .ok node := by
  cases length with
  | none =>
    obtain ⟨slots', hreflect, -⟩ := exists_reflect h slots
    exact ⟨_, hreflect⟩
  | some length =>
    cases action with
    | set key value =>
      simp only [reflect]
      split
      · next hkey =>
        obtain ⟨n, hn⟩ := Option.isSome_iff_exists.mp (h rfl hkey)
        rw [hn]
        exact ⟨_, rfl⟩
      · split
        · exact ⟨_, rfl⟩
        · exact ⟨_, rfl⟩
    | delete key =>
      refine ⟨.node mark (some length) (Fields.erase slots key), ?_⟩
      rw [reflect]
      refine if_neg ?_
      rintro (hmark | hlength)
      · exact h.1 hmark
      · exact h.2 ⟨rfl, hlength⟩

variable {f : Data π → Except Thrown (Data π)}

theorem modifyAt_isOk :
    ∀ {path : List String} {value target : Data π}, follow path value = some target →
      (∃ changed, f target = .ok changed) → ∃ changed, modifyAt f path value = .ok changed := by
  intro path
  induction path with
  | nil =>
    rintro value target ⟨⟩ hf
    exact hf
  | cons key path ih =>
    intro value target hfollow hf
    obtain ⟨next, hnext, hrest⟩ := Option.bind_eq_some_iff.mp hfollow
    obtain ⟨changed, hchanged⟩ := ih hrest hf
    cases value with
    | node mark length slots =>
      have hget : Fields.get slots key = some next := hnext
      simp only [modifyAt, hget, hchanged]
      exact ⟨_, rfl⟩
    | null => cases hnext
    | boolean b => cases hnext
    | primitive p => cases hnext

variable {path : List String}

theorem modifyAt_cons {changed : Data π}
    (h : modifyAt f (key :: path) (.node mark length slots) = .ok changed) :
    ∃ value, changed = .node mark length (Fields.set slots key value) := by
  rw [modifyAt] at h
  rcases hget : Fields.get slots key with _ | value
  · rw [hget] at h
    cases h
  · rw [hget] at h
    obtain ⟨value', -, hreturn⟩ := exists_of_bind_eq_ok h
    cases hreturn
    exact ⟨value', rfl⟩

/-- A first-level property that was added without a note. -/
def Added (slots : List (String × Data π)) (s : String × Data π) : Prop :=
  Fields.get slots s.1 = none ∧
    ∃ mark length, ∃ inner, s.2 = .node mark length inner ∧ s.2.enumerable = []

/-- A change was noted, or there are only empty objects that were not there before. -/
def Kept (mark : Mark) (slots : List (String × Data π)) (root : Data π) : Prop :=
  ∃ slots', root = .node mark none slots' ∧
    (Changed root ∨ ∃ added, slots' = slots ++ added ∧ ∀ s ∈ added, Added slots s)

theorem changed_markChanged (mark : Mark) (slots : List (String × Data π)) :
    Changed (markChanged (.node mark none slots)) := by
  rw [Changed, markChanged, Data.slots, Fields.get_set, if_pos rfl]

theorem exists_marked (h : action.Allowed lengthOf mark none)
    (hkey : action.key ≠ "__dataChanged") {slots' : List (String × Data π)}
    (hchanged : Changed (.node mark none slots')) :
    ∃ root, reflect lengthOf action (.node mark none slots') = .ok root ∧ Kept mark slots root := by
  obtain ⟨slots'', hreflect, hother⟩ := exists_reflect h slots'
  exact ⟨_, hreflect, slots'', rfl, .inl ((hother _ hkey.symm).trans hchanged)⟩

theorem noteRoot_cases (action : Action π) (root : Data π) :
    noteRoot action root = .ok (markChanged root) ∨
    (∃ key, action = .set key .null ∧ isUndefined root key = true) ∨
    ∃ key mark length inner, action = .set key (.node mark length inner) ∧
      isUndefined root key = true ∧ (Data.node mark length inner).enumerable = [] ∧
      noteRoot action root = .ok root := by
  cases action with
  | delete key => exact .inl rfl
  | set key value =>
    by_cases hundefined : isUndefined root key = true
    · cases value with
      | null => exact .inr (.inl ⟨key, rfl, hundefined⟩)
      | boolean b => exact .inl (by simp only [noteRoot, hundefined, if_true])
      | primitive p => exact .inl (by simp only [noteRoot, hundefined, if_true])
      | node mark length inner =>
        by_cases hempty : (Data.node mark length inner).enumerable = []
        · exact .inr (.inr ⟨key, mark, length, inner, rfl, hundefined, hempty,
            by simp only [noteRoot, hundefined, hempty, if_true]⟩)
        · exact .inl (by simp only [noteRoot, hundefined, hempty, if_true, if_false])
    · exact .inl (if_neg hundefined)

theorem assign_eq_append
    (h : isUndefined (.node mark none slots) key = true) (value : Data π) :
    Fields.get slots key = none ∧ assign slots key value = slots ++ [(key, value)] := by
  obtain ⟨hnone, hname⟩ := of_decide_eq_true h
  have hget : Fields.get slots key = none := Option.isNone_iff_eq_none.mp hnone
  refine ⟨hget, ?_⟩
  rw [assign, if_neg, Fields.set_eq_append hget]
  rintro ⟨rfl, -⟩
  exact hname (by decide)

/-- **An operation at the root.** -/
theorem kept_root
    (hroot : Kept mark slots root) (h : action.Allowed lengthOf mark none)
    (hkey : action.key ≠ "__dataChanged")
    (hnull : ∀ name, action = .set name .null → isUndefined root name = false) :
    ∃ root', (noteRoot action root >>= reflect lengthOf action) = .ok root' ∧
      Kept mark slots root' := by
  obtain ⟨slots', rfl, hslots'⟩ := hroot
  rcases noteRoot_cases action (.node mark none slots') with hnote | ⟨key, rfl, hundefined⟩ |
    ⟨key, mark', length, inner, rfl, hundefined, hempty, hnote⟩
  · rw [hnote]
    exact exists_marked h hkey (changed_markChanged mark slots')
  · rw [hnull key rfl] at hundefined
    cases hundefined
  · rw [hnote]
    rcases hslots' with hchanged | ⟨added, rfl, hadded⟩
    · exact exists_marked h hkey hchanged
    · obtain ⟨hget, hassign⟩ := assign_eq_append hundefined (.node mark' length inner)
      rw [Fields.get_append, Option.or_eq_none_iff] at hget
      refine ⟨_, rfl, _, rfl, .inr ⟨added ++ [(key, .node mark' length inner)], ?_, ?_⟩⟩
      · rw [hassign, List.append_assoc]
      · intro s hs
        rcases List.mem_append.mp hs with hs | hs
        · exact hadded s hs
        · rw [List.mem_singleton.mp hs]
          exact ⟨hget.1, mark', length, inner, rfl, hempty⟩

theorem follow_of_slots_nil {value target : Data π} (h : value.slots = [])
    (hfollow : follow path value = some target) : target = value := by
  cases path with
  | nil => exact (Option.some.inj hfollow).symm
  | cons key path =>
    rw [follow, h] at hfollow
    cases hfollow

variable {inner : List (String × Data π)}

/-- **An operation below the root.** -/
theorem kept_below {mark' : Mark}
    (hroot : Kept mark slots root)
    (htarget : follow (key :: path) root = some (.node mark' length inner))
    (hf : ∃ changed, f (.node mark' length inner) = .ok changed)
    (hseen : mark' ≠ .raw ∨ Changed root) :
    ∃ root', modifyAt f (key :: path) root = .ok root' ∧
      Kept mark slots (if mark' = .raw then root' else markChanged root') := by
  obtain ⟨slots', rfl, -⟩ := hroot
  obtain ⟨root', hroot'⟩ := modifyAt_isOk htarget hf
  obtain ⟨value, rfl⟩ := modifyAt_cons hroot'
  refine ⟨_, hroot', ?_⟩
  split
  · next hraw =>
    have hchanged := hseen.resolve_left (not_not_intro hraw)
    have hne : key ≠ "__dataChanged" := by
      rintro rfl
      rw [follow, show Fields.get _ _ = _ from hchanged] at htarget
      have hbool := follow_of_slots_nil rfl htarget
      cases hbool
    refine ⟨_, rfl, .inl ?_⟩
    rw [Changed, Data.slots, Fields.get_set, if_neg hne.symm]
    exact hchanged
  · exact ⟨_, rfl, .inl (changed_markChanged mark _)⟩

/-- **The step lemma.** -/
theorem exists_step {op : Operation π} (hroot : Kept mark slots root)
    (hop : Careful lengthOf root op) :
    ∃ root', step lengthOf root op = .ok root' ∧ Kept mark slots root' := by
  obtain ⟨path, action⟩ := op
  obtain ⟨mark', length, inner, htarget, hallowed, hfirst, hbelow⟩ := hop
  cases path with
  | nil =>
    obtain ⟨slots', rfl, -⟩ := id hroot
    cases htarget
    exact kept_root hroot hallowed (hfirst rfl).1 (hfirst rfl).2
  | cons key path =>
    obtain ⟨root', hroot', hkept⟩ :=
      kept_below hroot htarget (reflect_isOk hallowed inner) (hbelow (List.cons_ne_nil _ _))
    refine ⟨_, ?_, hkept⟩
    simp only [step, htarget, hroot']
    rfl

theorem data_eq_empty
    (h : (Data.node mark length inner).enumerable = []) :
    (Data.node mark length inner).data = .node .raw length [] := by
  rw [Data.data]
  cases mark with
  | hidden =>
    have hnone : Fields.erase inner "__dataChanged" = [] := h
    rw [decide_eq_true rfl, dataSlots_true, hnone, dataSlots]
  | raw => rw [show inner = [] from h, dataSlots]
  | listed => rw [show inner = [] from h, dataSlots]

theorem get_dataSlots_added {added : List (String × Data π)} (hidden : Bool)
    {value : Data π} (hadded : ∀ s ∈ added, Added slots s)
    (h : Fields.get (dataSlots hidden added) key = some value) :
    ∃ length, value = .node .raw length [] := by
  induction added with
  | nil => cases h
  | cons slot added ih =>
    obtain ⟨hslot, hadded⟩ := List.forall_mem_cons.mp hadded
    rw [dataSlots] at h
    split at h
    · exact ih hadded h
    · rw [Fields.get_cons] at h
      split at h
      · obtain ⟨-, mark, length, inner, hvalue, hempty⟩ := hslot
        rw [hvalue] at h hempty
        rw [data_eq_empty hempty] at h
        exact ⟨length, (Option.some.inj h).symm⟩
      · exact ih hadded h

/-- **Changes are not missed** in a run of careful operations. -/
theorem noticed_of_careful (lengthOf : Data π → Option ℕ) (slots : List (String × Data π))
    (ops : List (Operation π)) (hslots : PlainSlots slots)
    (hops : Guarded (step lengthOf) (Careful lengthOf) (create (.node .raw none slots)) ops) :
    Noticed lengthOf (.node .raw none slots) ops := by
  obtain ⟨mark, hmark, hcreate⟩ : ∃ mark, dataSlots (mark = .hidden)
      (Fields.set (createSlots slots) "__dataChanged" (.boolean false)) = slots ∧
      create (.node .raw none slots) =
        .node mark none (Fields.set (createSlots slots) "__dataChanged" (.boolean false)) :=
    ⟨_, (dataSlots_define hslots).trans (createSlots_data hslots), by rw [create]⟩
  have hstart : Kept mark (Fields.set (createSlots slots) "__dataChanged" (.boolean false))
      (create (.node .raw none slots)) :=
    ⟨_, hcreate, .inr ⟨[], (List.append_nil _).symm, fun s hs => by cases hs⟩⟩
  obtain ⟨root, hrun, slots', rfl, hslots'⟩ :=
    Guarded.exists_run (fun root op hroot hop => exists_step hroot hop) hstart hops
  refine ⟨_, hrun, fun hdiffers => ?_⟩
  rcases hslots' with hchanged | ⟨added, rfl, hadded⟩
  · exact hchanged
  · refine absurd (fun key => ?_) hdiffers
    rw [Data.data, Data.slots, dataSlots_append, hmark, Fields.get_append]
    show _ = Fields.get slots key ∨ (Fields.get slots key = none ∧ _)
    rcases hget : Fields.get slots key with _ | value
    · rcases hnew : Fields.get (dataSlots (mark = .hidden) added) key with _ | value
      · exact .inl rfl
      · obtain ⟨length, rfl⟩ := get_dataSlots_added _ hadded hnew
        exact .inr ⟨rfl, length, rfl⟩
    · exact .inl rfl

/-- The length that a number stands for. -/
def naturalLength : Data ℕ → Option ℕ
  | .primitive n => some n
  | _ => none

def counters : List (String × Data ℕ) := [("global", .node .raw none [("runs", .primitive 1)])]

theorem noticed_counters : Noticed naturalLength (.node .raw none counters)
    [⟨[], .set "node:Start" (.node .raw none [])⟩, ⟨["global"], .set "runs" (.primitive 2)⟩] := by
  refine noticed_of_careful _ _ _ (by simp [counters, PlainSlots, Data.Plain])
    ⟨⟨_, _, _, rfl, ?_, ?_, ?_⟩, fun root h => ?_⟩
  · intro h
    cases h
  · exact fun _ => ⟨by decide, fun name h => by cases h⟩
  · exact fun h => absurd rfl h
  · obtain rfl := Except.ok.inj h
    refine ⟨⟨.hidden, none, _, rfl, ?_, ?_, ?_⟩, fun _ _ => trivial⟩
    · intro h
      cases h
    · intro h
      cases h
    · exact fun _ => .inl (by decide)

/-- A property of an empty object that was added before, and `null` under a new name. -/
theorem not_noticed : ¬ Noticed naturalLength (.node .raw none [])
      [⟨[], .set "seen" (.node .raw none [])⟩, ⟨["seen"], .set "last" (.primitive 1)⟩] ∧
    ¬ Noticed naturalLength (.node .raw none []) [⟨[], .set "seen" .null⟩] := by
  constructor
  · rintro ⟨root, hrun, hnoticed⟩
    cases hrun
    have hchanged := hnoticed fun h => by
      rcases h "seen" with h | ⟨-, length, h⟩
      · cases h
      · cases h
    cases hchanged
  · rintro ⟨root, hrun, -⟩
    cases hrun

end N8n.ObservableObject
