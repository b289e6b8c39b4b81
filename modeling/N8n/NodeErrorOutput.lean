/-
Sorting the items of a node into its outputs and its error output: `handleNodeErrorOutput`.

The items are shifted off the arrays that the node returned, one by one.  Those with an error
are collected for the error output, extended by the fields of the item they were made of; the
others stay in their output.

* `conserved_iff` — **when every item ends up in its place**.
-/
import N8n.PairedItems
import N8n.Runs
import Mathlib.Data.List.ReduceOption

namespace N8n.NodeErrorOutput

open SharedArrays PairedItems

structure Call where
  run : RunExecutionData
  source : Option ITaskDataConnectionsSource
  outputTypes : List NodeConnectionType

def spread (a b : Dict String JsValue) : Dict String JsValue :=
  b.entries.foldl (fun d entry => d.set entry.1 entry.2) a

def truthyField (item : Item) (key : String) : Bool :=
  ((item.json.get? key).getD .undefined).truthy

def errorData (item : Item) : Bool :=
  if item.error.isSome then true
  else if truthyField item "error" && item.json.keys.length = 1 then true
  else truthyField item "error" && truthyField item "message" && item.json.keys.length = 2

/-- The origin of an item, where `pairedItem` is an object or an array of them. -/
def pairedItemData : Option PairedItem → Option IPairedItemData
  | some (.origin data) => some data
  | some (.origins (data :: _)) => some data
  | _ => none

def mainOutputs (call : Call) : ℕ := (call.outputTypes.filter (· = .main)).length

/-- What is found for the origin of an item, if source and origin are known. -/
def constPairedItem (call : Call) (heap : Heap (Option Item)) (item : Item) :
    Option (Except PairedItemError (Option Item)) :=
  match call.source, pairedItemData item.pairedItem with
  | some source, some pairedItemData => some <|
    match Slot.read ((source.get? .main).getD []) (pairedItemData.input.getD 0) with
    | .data sourceData =>
      getPairedItem call.run heap sourceData.previousNode call.run.maxStack (some sourceData)
        pairedItemData
    | _ => .error .typeError
  | _, _ => none

def errorItem (call : Call) (heap : Heap (Option Item)) (item : Item) :
    Except PairedItemError Item :=
  match constPairedItem call heap item with
  | none => .ok item
  | some found => do
    match ← found with
    -- reading the fields of `undefined`; the search never finds `null`
    | none => .error .typeError
    | some paired => return { item with json := spread paired.json item.json }

/-- What the inner loop changes. -/
structure Sorted where
  heap : Heap (Option Item)
  successItems : List Item
  errorItems : List Item

/-- What the outer loop changes. -/
structure State where
  heap : Heap (Option Item)
  nodeSuccessData : ℕ → ArrayPlace (Option Item)
  errorItems : List Item

def sortItems (call : Call) (place : ArrayPlace (Option Item)) :
    ItemArray → Sorted → Except PairedItemError Sorted
  | [], st => .ok st
  | entry :: items, st =>
    let st := { st with heap := put st.heap place items }
    match entry with
    | none => sortItems call place items st
    | some item =>
      if errorData item then do
        let pushed ← errorItem call st.heap item
        sortItems call place items { st with errorItems := st.errorItems ++ [pushed] }
      else sortItems call place items { st with successItems := st.successItems ++ [item] }

def sortOutput (call : Call) (st : State) (outputIndex : ℕ) : Except PairedItemError State := do
  let place := st.nodeSuccessData outputIndex
  let sorted ← sortItems call place (content st.heap place) ⟨st.heap, [], st.errorItems⟩
  return {
    heap := sorted.heap
    nodeSuccessData :=
      Function.update st.nodeSuccessData outputIndex (.own (sorted.successItems.map some))
    errorItems := sorted.errorItems }

def handleNodeErrorOutput (call : Call) (heap : Heap (Option Item))
    (nodeSuccessData : ℕ → ArrayPlace (Option Item)) : Except PairedItemError State := do
  let st ← (List.range (mainOutputs call - 1)).foldlM (sortOutput call)
    ⟨heap, nodeSuccessData, []⟩
  -- without a main output the error items are written to no index of the array
  if mainOutputs call = 0 then return st
  else return { st with
    nodeSuccessData :=
      Function.update st.nodeSuccessData (mainOutputs call - 1) (.own (st.errorItems.map some)) }

def turns (heap : Heap (Option Item)) (place : ArrayPlace (Option Item)) :
    ItemArray → List (Heap (Option Item) × Item)
  | [] => []
  | none :: items => turns heap place items
  | some item :: items =>
    if errorData item then (put heap place items, item) :: turns heap place items
    else turns heap place items

def itemsAt (heap : Heap (Option Item)) (place : ArrayPlace (Option Item)) : List Item :=
  (content heap place).reduceOption

def arraysBefore (nodeSuccessData : ℕ → ArrayPlace (Option Item)) (outputIndex : ℕ) : List ℕ :=
  (List.range outputIndex).flatMap fun o => arrays (nodeSuccessData o)

section

variable {call : Call} {heap : Heap (Option Item)} {place : ArrayPlace (Option Item)}
  {nodeSuccessData : ℕ → ArrayPlace (Option Item)}

theorem turns_put (entries items : ItemArray) :
    turns (put heap place entries) place items = turns heap place items := by
  induction items with
  | nil => rfl
  | cons entry items ih =>
    cases entry with
    | none => exact ih
    | some item => rw [turns, turns, put_put, ih]

/-- **The inner loop.** -/
theorem sortItems_eq (items : ItemArray) (st : Sorted) (h : put st.heap place items = st.heap) :
    sortItems call place items st = do
      let es ← (turns st.heap place items).mapM fun t => errorItem call t.1 t.2
      return {
        heap := put st.heap place []
        successItems := st.successItems ++ items.reduceOption.filter fun item => ¬ errorData item
        errorItems := st.errorItems ++ es } := by
  induction items generalizing st with
  | nil =>
    rw [sortItems, turns, h]
    simp [bind, Except.bind, pure, Except.pure]
  | cons entry items ih =>
    cases entry with
    | none =>
      rw [sortItems, ih _ (put_put _ _), turns_put, put_put, turns, List.reduceOption_cons_of_none]
    | some item =>
      rw [List.reduceOption_cons_of_some, sortItems, turns]
      by_cases herror : errorData item = true
      · rw [if_pos herror, if_pos herror, List.mapM_cons]
        rcases hpushed : errorItem call (put st.heap place items) item with e | pushed
        · rfl
        · have hnext := ih { st with
            heap := put st.heap place items
            errorItems := st.errorItems ++ [pushed] } (put_put _ _)
          simp only [turns_put, put_put] at hnext
          refine Eq.trans (b := sortItems call place items _) rfl (hnext.trans ?_)
          simp only [bind_assoc, pure_bind]
          refine congrArg (List.mapM _ _ >>= ·) (funext fun es => ?_)
          simp [herror]
      · rw [if_neg herror, if_neg herror, ih _ (put_put _ _), turns_put, put_put]
        simp [herror]

def sortedBefore (heap : Heap (Option Item)) (nodeSuccessData : ℕ → ArrayPlace (Option Item))
    (outputIndex : ℕ) : ℕ → ArrayPlace (Option Item) := fun o =>
  if o < outputIndex then
    .own (((itemsAt (emptied heap (arraysBefore nodeSuccessData o)) (nodeSuccessData o)).filter
      fun item => ¬ errorData item).map some)
  else nodeSuccessData o

def turnsOf (heap : Heap (Option Item)) (nodeSuccessData : ℕ → ArrayPlace (Option Item)) (o : ℕ) :
    List (Heap (Option Item) × Item) :=
  turns (emptied heap (arraysBefore nodeSuccessData o)) (nodeSuccessData o)
    (content (emptied heap (arraysBefore nodeSuccessData o)) (nodeSuccessData o))

theorem arraysBefore_succ (o : ℕ) : arraysBefore nodeSuccessData (o + 1) =
    arraysBefore nodeSuccessData o ++ arrays (nodeSuccessData o) := by
  rw [arraysBefore, List.range_succ, List.flatMap_append, List.flatMap_singleton]
  rfl

theorem sortedBefore_of_le {o k : ℕ} (h : k ≤ o) :
    sortedBefore heap nodeSuccessData k o = nodeSuccessData o :=
  if_neg (Nat.not_lt.mpr h)

theorem sortedBefore_succ (o : ℕ) : sortedBefore heap nodeSuccessData (o + 1) =
    Function.update (sortedBefore heap nodeSuccessData o) o
      (.own (((itemsAt (emptied heap (arraysBefore nodeSuccessData o)) (nodeSuccessData o)).filter
        fun item => ¬ errorData item).map some)) := by
  funext o'
  by_cases h : o' = o
  · subst h
    rw [Function.update_self, sortedBefore, if_pos (Nat.lt_succ_self _)]
  · rw [Function.update_of_ne h, sortedBefore, sortedBefore]
    exact if_congr (by omega) rfl rfl

/-- **The outer loop.** -/
theorem sortOutputs_eq (k : ℕ) :
    (List.range k).foldlM (sortOutput call) ⟨heap, nodeSuccessData, []⟩ = do
      let es ← ((List.range k).flatMap (turnsOf heap nodeSuccessData)).mapM
        fun t => errorItem call t.1 t.2
      return ⟨emptied heap (arraysBefore nodeSuccessData k),
        sortedBefore heap nodeSuccessData k, es⟩ := by
  induction k with
  | zero =>
    have hsorted : sortedBefore heap nodeSuccessData 0 = nodeSuccessData :=
      funext fun o => sortedBefore_of_le (Nat.zero_le o)
    rw [hsorted]
    simp [arraysBefore]
  | succ k ih =>
    have hplace : sortedBefore heap nodeSuccessData k k = nodeSuccessData k :=
      sortedBefore_of_le (Nat.le_refl k)
    rw [List.range_succ, List.foldlM_append, ih, List.flatMap_append, List.flatMap_singleton,
      List.mapM_append, sortedBefore_succ, arraysBefore_succ, ← emptied_concat]
    simp only [bind_assoc, pure_bind]
    refine congrArg (List.mapM _ _ >>= ·) (funext fun es => ?_)
    simp only [List.foldlM_cons, List.foldlM_nil, sortOutput, hplace, bind_assoc, pure_bind]
    rw [sortItems_eq _ ⟨_, [], es⟩ put_content]
    simp only [bind_assoc, pure_bind]
    rfl

end

/-- An item that carries an error, or consists of an error field and perhaps a message. -/
def IsError (item : Item) : Prop :=
  item.error.isSome ∨
    ("error" ∈ item.json.keys ∧ ∀ key ∈ item.json.keys, key = "error" ∨ key = "message")

instance (item : Item) : Decidable (IsError item) := inferInstanceAs (Decidable (_ ∨ _))

/-- The item of the input that an item was made of. -/
def pairedInput (call : Call) (heap : Heap (Option Item)) (item : Item) : Option Item :=
  (constPairedItem call heap item).bind fun found => found.toOption.join

/-- The item with the fields of the item it was made of; its own fields win. -/
def extended (call : Call) (heap : Heap (Option Item)) (item : Item) : Item :=
  match pairedInput call heap item with
  | none => item
  | some paired => { item with json := spread paired.json item.json }

/-- Every item is in its place: in its output if it is no error, else in the error output with
the fields of the item it was made of; the outputs behind the error output are as they were. -/
structure Conserved (call : Call) (heap : Heap (Option Item))
    (nodeSuccessData : ℕ → ArrayPlace (Option Item)) (st : State) : Prop where
  success : ∀ o, o + 1 < mainOutputs call → content st.heap (st.nodeSuccessData o) =
    ((itemsAt heap (nodeSuccessData o)).filter fun item => ¬ IsError item).map some
  error : ∀ o, o + 1 = mainOutputs call → content st.heap (st.nodeSuccessData o) =
    ((List.range o).flatMap fun o' => ((itemsAt heap (nodeSuccessData o')).filter fun item =>
      IsError item).map (extended call heap)).map some
  beyond : ∀ o, mainOutputs call ≤ o →
    content st.heap (st.nodeSuccessData o) = content heap (nodeSuccessData o)

/-- What keeps the items of an output in their place. -/
structure Keeps (call : Call) (heap : Heap (Option Item))
    (nodeSuccessData : ℕ → ArrayPlace (Option Item)) (o : ℕ) : Prop where
  /-- An output before it holds the same array only if that has no items. -/
  apart : ∀ o' < o, ∀ array ∈ arrays (nodeSuccessData o), array ∈ arrays (nodeSuccessData o') →
    itemsAt heap (nodeSuccessData o) = []
  /-- Where an item consists of an error field, neither that nor its message is empty. -/
  truthy : ∀ item ∈ itemsAt heap (nodeSuccessData o), item.error = none → IsError item →
    truthyField item "error" = true ∧
      ("message" ∈ item.json.keys → truthyField item "message" = true)
  /-- At the turn of an error item, with the items before it gone, the search finds what it
  found before the call. -/
  found : ∀ before item after, content heap (nodeSuccessData o) = before ++ some item :: after →
    IsError item → errorItem call (put (emptied heap (arraysBefore nodeSuccessData o))
      (nodeSuccessData o) after) item = .ok (extended call heap item)

/-- What keeps the items in their place. -/
structure Sound (call : Call) (heap : Heap (Option Item))
    (nodeSuccessData : ℕ → ArrayPlace (Option Item)) : Prop where
  keeps : ∀ o, o + 1 < mainOutputs call → Keeps call heap nodeSuccessData o
  /-- An output behind the error output holds the array of one before it only if that is
  empty. -/
  beyond : ∀ o o', o + 1 < mainOutputs call → mainOutputs call ≤ o' →
    ∀ array ∈ arrays (nodeSuccessData o), array ∈ arrays (nodeSuccessData o') →
      heap array = []

section

variable {call : Call} {heap : Heap (Option Item)} {place : ArrayPlace (Option Item)}
  {nodeSuccessData : ℕ → ArrayPlace (Option Item)} {item : Item}

theorem mem_keys_of_truthyField {key : String} (h : truthyField item key = true) :
    key ∈ item.json.keys := by
  by_contra hkey
  rw [truthyField, Dict.get?_eq_none_iff.mpr hkey] at h
  cases h

theorem keys_error_iff {keys : List String} (hnodup : keys.Nodup) (herror : "error" ∈ keys) :
    (∀ key ∈ keys, key = "error" ∨ key = "message") ↔
      keys.length = 1 ∨ keys.length = 2 ∧ "message" ∈ keys := by
  rcases keys with _ | ⟨a, _ | ⟨b, _ | ⟨c, keys⟩⟩⟩
  · cases herror
  · simp at herror
    simp [← herror]
  · simp only [List.mem_cons, List.not_mem_nil, or_false, List.nodup_cons] at herror hnodup
    rw [List.forall_mem_cons, List.forall_mem_singleton]
    simp only [List.length_cons, List.length_nil, List.mem_cons, List.not_mem_nil, or_false]
    grind
  · simp only [List.mem_cons, List.nodup_cons, not_or] at hnodup
    rw [List.forall_mem_cons, List.forall_mem_cons, List.forall_mem_cons]
    simp only [List.length_cons]
    grind

theorem errorData_eq_true_iff : errorData item = true ↔ item.error.isSome = true ∨
    truthyField item "error" = true ∧ item.json.keys.length = 1 ∨
    truthyField item "error" = true ∧ truthyField item "message" = true ∧
      item.json.keys.length = 2 := by
  rw [errorData]
  split
  · simp_all
  · split
    · simp_all
    · simp_all [and_assoc]

theorem isError_of_errorData (h : errorData item = true) : IsError item := by
  rcases errorData_eq_true_iff.mp h with hcarries | ⟨herror, hlen⟩ | ⟨herror, hmessage, hlen⟩
  · exact .inl hcarries
  · have hkey := mem_keys_of_truthyField herror
    exact .inr ⟨hkey, (keys_error_iff item.json.nodup_keys hkey).mpr (.inl hlen)⟩
  · have hkey := mem_keys_of_truthyField herror
    exact .inr ⟨hkey, (keys_error_iff item.json.nodup_keys hkey).mpr
      (.inr ⟨hlen, mem_keys_of_truthyField hmessage⟩)⟩

theorem isError_iff_errorData_iff : (IsError item ↔ errorData item = true) ↔
    (item.error = none → IsError item → truthyField item "error" = true ∧
      ("message" ∈ item.json.keys → truthyField item "message" = true)) := by
  have hiff : (IsError item ↔ errorData item = true) ↔ (IsError item → errorData item = true) :=
    ⟨Iff.mp, fun h => ⟨h, isError_of_errorData⟩⟩
  rw [hiff, errorData_eq_true_iff]
  rcases herror : item.error with _ | error
  · have hshape : IsError item ↔ "error" ∈ item.json.keys ∧ (item.json.keys.length = 1 ∨
        item.json.keys.length = 2 ∧ "message" ∈ item.json.keys) := by
      rw [IsError, herror]
      simp only [Option.isSome_none, Bool.false_eq_true, false_or]
      exact and_congr_right fun hkey => keys_error_iff item.json.nodup_keys hkey
    have hone : item.json.keys.length = 1 → "error" ∈ item.json.keys →
        "message" ∉ item.json.keys := by
      intro hlen hkey hmessage
      obtain ⟨key, hkeys⟩ := List.length_eq_one_iff.mp hlen
      rw [hkeys, List.mem_singleton] at hkey hmessage
      exact absurd (hkey.trans hmessage.symm) (by decide)
    rw [hshape]
    simp only [Option.isSome_none, Bool.false_eq_true, false_or, true_implies]
    grind
  · simp

theorem filter_eq_filter_iff {α : Type} {p q : α → Bool} {l : List α} :
    l.filter p = l.filter q ↔ ∀ a ∈ l, (p a = true ↔ q a = true) := by
  constructor
  · intro h a ha
    have hmem : a ∈ l.filter p ↔ a ∈ l.filter q := by rw [h]
    rw [List.mem_filter, List.mem_filter, and_iff_right ha, and_iff_right ha] at hmem
    exact hmem
  · exact fun h => List.filter_congr fun a ha => Bool.eq_iff_iff.mpr (h a ha)

theorem forall_split_cons {α : Type} {Q : α → List (Option α) → Prop} {entry : Option α}
    {items : List (Option α)} :
    (∀ before item after, entry :: items = before ++ some item :: after → Q item after) ↔
      (∀ item, entry = some item → Q item items) ∧
      ∀ before item after, items = before ++ some item :: after → Q item after := by
  constructor
  · intro h
    refine ⟨fun item hitem => h [] item items (by rw [hitem]; rfl), fun before item after heq => ?_⟩
    exact h (entry :: before) item after (by rw [heq]; rfl)
  · rintro ⟨hhead, htail⟩ before item after heq
    rcases before with _ | ⟨first, before⟩
    · obtain ⟨hentry, rfl⟩ := List.cons.inj heq
      exact hhead item hentry
    · exact htail before item after (List.cons.inj heq).2

theorem mapM_turns_iff {f : Heap (Option Item) × Item → Except PairedItemError Item}
    {g : Item → Item} (items : ItemArray) :
    (turns heap place items).mapM f = .ok ((items.reduceOption.filter fun item =>
      errorData item).map g) ↔
    ∀ before item after, items = before ++ some item :: after → errorData item = true →
      f (put heap place after, item) = .ok (g item) := by
  induction items with
  | nil => exact iff_of_true rfl fun before item after h => by simp at h
  | cons entry items ih =>
    rw [forall_split_cons (Q := fun item after => errorData item = true →
      f (put heap place after, item) = .ok (g item)), ← ih]
    cases entry with
    | none => rw [turns, List.reduceOption_cons_of_none, and_iff_right fun item h => by cases h]
    | some item =>
      rw [turns, List.reduceOption_cons_of_some]
      by_cases herror : errorData item = true
      · rw [if_pos herror, List.filter_cons_of_pos herror, List.map_cons, mapM_cons_eq_ok_iff]
        simp [herror]
      · rw [if_neg herror, List.filter_cons_of_neg herror]
        simp [herror]

theorem mem_itemsAt_of_split {before after : ItemArray}
    (h : content heap place = before ++ some item :: after) : item ∈ itemsAt heap place := by
  rw [itemsAt, h, List.reduceOption_mem_iff]
  exact List.mem_append_right _ List.mem_cons_self

theorem mem_arraysBefore_iff {o array : ℕ} : array ∈ arraysBefore nodeSuccessData o ↔
    ∃ o' < o, array ∈ arrays (nodeSuccessData o') := by
  simp [arraysBefore]

theorem length_turns (items : ItemArray) : (turns heap place items).length =
    (items.reduceOption.filter fun item => errorData item).length := by
  induction items with
  | nil => rfl
  | cons entry items ih =>
    cases entry with
    | none => rw [turns, ih, List.reduceOption_cons_of_none]
    | some item =>
      rw [turns, List.reduceOption_cons_of_some]
      by_cases herror : errorData item = true
      · rw [if_pos herror, List.filter_cons_of_pos herror, List.length_cons, ih, List.length_cons]
      · rw [if_neg herror, List.filter_cons_of_neg herror, ih]

theorem length_turnsOf_le (o : ℕ) : (turnsOf heap nodeSuccessData o).length ≤
    (((itemsAt heap (nodeSuccessData o)).filter fun item => IsError item).map
      (extended call heap)).length := by
  rw [turnsOf, length_turns, List.length_map]
  by_cases hshared : ∃ array ∈ arrays (nodeSuccessData o), array ∈ arraysBefore nodeSuccessData o
  · obtain ⟨array, harray, hbefore⟩ := hshared
    rw [content_emptied_of_mem hbefore harray]
    exact Nat.zero_le _
  · rw [content_emptied_of_disjoint fun array harray hbefore =>
      hshared ⟨array, harray, hbefore⟩]
    refine List.Sublist.length_le (List.monotone_filter_right _ fun item herror => ?_)
    exact decide_eq_true (isError_of_errorData herror)

/-- **One output**: its success items and its error items are the right ones iff it keeps its
items. -/
theorem keeps_iff (o : ℕ) :
    ((itemsAt (emptied heap (arraysBefore nodeSuccessData o)) (nodeSuccessData o)).filter
        (fun item => ¬ errorData item) =
      (itemsAt heap (nodeSuccessData o)).filter (fun item => ¬ IsError item) ∧
    ((turnsOf heap nodeSuccessData o).mapM fun t => errorItem call t.1 t.2) =
      .ok (((itemsAt heap (nodeSuccessData o)).filter fun item => IsError item).map
        (extended call heap))) ↔ Keeps call heap nodeSuccessData o := by
  by_cases hshared : ∃ array ∈ arrays (nodeSuccessData o), array ∈ arraysBefore nodeSuccessData o
  · -- the array was emptied before, so the output must not have items
    obtain ⟨array, harray, hbefore⟩ := hshared
    have hcontent : content (emptied heap (arraysBefore nodeSuccessData o)) (nodeSuccessData o) =
      [] := content_emptied_of_mem hbefore harray
    rw [turnsOf, itemsAt, hcontent]
    constructor
    · rintro ⟨hsuccess, herrors⟩
      have hnil : itemsAt heap (nodeSuccessData o) = [] := by
        rw [List.eq_nil_iff_forall_not_mem]
        intro item hitem
        have herrors' := List.map_eq_nil_iff.mp (Except.ok.inj herrors).symm
        rw [List.filter_eq_nil_iff] at herrors'
        have hsuccess' := List.filter_eq_nil_iff.mp hsuccess.symm
        exact hsuccess' item hitem (decide_eq_true fun h => herrors' item hitem (decide_eq_true h))
      refine ⟨fun _ _ _ _ _ => hnil, fun item hitem => ?_, fun before item after hsplit => ?_⟩
      · rw [hnil] at hitem
        cases hitem
      · have hitem := mem_itemsAt_of_split hsplit
        rw [hnil] at hitem
        cases hitem
    · intro hkeeps
      obtain ⟨o', ho', hother⟩ := mem_arraysBefore_iff.mp hbefore
      rw [hkeeps.apart o' ho' array harray hother]
      exact ⟨rfl, rfl⟩
  · have hcontent : content (emptied heap (arraysBefore nodeSuccessData o)) (nodeSuccessData o) =
        content heap (nodeSuccessData o) :=
      content_emptied_of_disjoint fun array harray hbefore => hshared ⟨array, harray, hbefore⟩
    have hfilter : (∀ item ∈ itemsAt heap (nodeSuccessData o),
        (IsError item ↔ errorData item = true)) →
        (itemsAt heap (nodeSuccessData o)).filter (fun item => IsError item) =
          (content heap (nodeSuccessData o)).reduceOption.filter fun item => errorData item :=
      fun h => filter_eq_filter_iff.mpr fun item hitem => by
        rw [decide_eq_true_iff]
        exact h item hitem
    have hitems : itemsAt (emptied heap (arraysBefore nodeSuccessData o)) (nodeSuccessData o) =
        itemsAt heap (nodeSuccessData o) := congrArg List.reduceOption hcontent
    rw [hitems, turnsOf, hcontent, filter_eq_filter_iff]
    simp only [decide_eq_true_iff]
    constructor
    · rintro ⟨hsuccess, herrors⟩
      have hclass : ∀ item ∈ itemsAt heap (nodeSuccessData o),
          (IsError item ↔ errorData item = true) :=
        fun item hitem => (not_iff_not.mp (hsuccess item hitem)).symm
      rw [hfilter hclass, mapM_turns_iff] at herrors
      refine ⟨fun o' ho' array harray hother => ?_, fun item hitem => ?_,
        fun before item after hsplit herror => ?_⟩
      · exact absurd ⟨array, harray, mem_arraysBefore_iff.mpr ⟨o', ho', hother⟩⟩ hshared
      · exact isError_iff_errorData_iff.mp (hclass item hitem)
      · exact herrors before item after hsplit
          ((hclass item (mem_itemsAt_of_split hsplit)).mp herror)
    · intro hkeeps
      have hclass : ∀ item ∈ itemsAt heap (nodeSuccessData o),
          (IsError item ↔ errorData item = true) :=
        fun item hitem => isError_iff_errorData_iff.mpr (hkeeps.truthy item hitem)
      refine ⟨fun item hitem => not_congr (hclass item hitem).symm, ?_⟩
      rw [hfilter hclass, mapM_turns_iff]
      exact fun before item after hsplit herror =>
        hkeeps.found before item after hsplit (isError_of_errorData herror)

def finalState (call : Call) (heap : Heap (Option Item))
    (nodeSuccessData : ℕ → ArrayPlace (Option Item)) (errorItems : List Item) : State where
  heap := emptied heap (arraysBefore nodeSuccessData (mainOutputs call - 1))
  nodeSuccessData :=
    if mainOutputs call = 0 then sortedBefore heap nodeSuccessData (mainOutputs call - 1)
    else Function.update (sortedBefore heap nodeSuccessData (mainOutputs call - 1))
      (mainOutputs call - 1) (.own (errorItems.map some))
  errorItems := errorItems

theorem handleNodeErrorOutput_eq (call : Call) (heap : Heap (Option Item))
    (nodeSuccessData : ℕ → ArrayPlace (Option Item)) :
    handleNodeErrorOutput call heap nodeSuccessData = do
    let es ← ((List.range (mainOutputs call - 1)).flatMap (turnsOf heap nodeSuccessData)).mapM
      fun t => errorItem call t.1 t.2
    return finalState call heap nodeSuccessData es := by
  rw [handleNodeErrorOutput, sortOutputs_eq]
  simp only [bind_assoc, pure_bind]
  refine congrArg (List.mapM _ _ >>= ·) (funext fun es => ?_)
  rw [finalState]
  split <;> rfl

theorem conserved_finalState_iff {m : ℕ} (hm : mainOutputs call = m + 1) (es : List Item) :
    Conserved call heap nodeSuccessData (finalState call heap nodeSuccessData es) ↔
      (∀ o < m, (itemsAt (emptied heap (arraysBefore nodeSuccessData o))
          (nodeSuccessData o)).filter (fun item => ¬ errorData item) =
        (itemsAt heap (nodeSuccessData o)).filter (fun item => ¬ IsError item)) ∧
      es = (List.range m).flatMap (fun o => ((itemsAt heap (nodeSuccessData o)).filter
        fun item => IsError item).map (extended call heap)) ∧
      ∀ o, m < o → content (emptied heap (arraysBefore nodeSuccessData m)) (nodeSuccessData o) =
        content heap (nodeSuccessData o) := by
  have hheap : (finalState call heap nodeSuccessData es).heap =
      emptied heap (arraysBefore nodeSuccessData m) := by
    rw [finalState, hm]
    rfl
  have hdata : (finalState call heap nodeSuccessData es).nodeSuccessData =
      Function.update (sortedBefore heap nodeSuccessData m) m (.own (es.map some)) := by
    rw [finalState, hm, if_neg (Nat.succ_ne_zero m)]
    rfl
  have hsome : Function.Injective (List.map (some : Item → Option Item)) :=
    List.map_injective_iff.mpr (Option.some_injective _)
  have hbefore : ∀ o < m, content (finalState call heap nodeSuccessData es).heap
      ((finalState call heap nodeSuccessData es).nodeSuccessData o) =
      ((itemsAt (emptied heap (arraysBefore nodeSuccessData o)) (nodeSuccessData o)).filter
        fun item => ¬ errorData item).map some := by
    intro o ho
    rw [hdata, Function.update_of_ne (Nat.ne_of_lt ho), sortedBefore, if_pos ho, content]
  have herror : content (finalState call heap nodeSuccessData es).heap
      ((finalState call heap nodeSuccessData es).nodeSuccessData m) = es.map some := by
    rw [hdata, Function.update_self, content]
  have hbeyond : ∀ o, m < o → content (finalState call heap nodeSuccessData es).heap
      ((finalState call heap nodeSuccessData es).nodeSuccessData o) =
      content (emptied heap (arraysBefore nodeSuccessData m)) (nodeSuccessData o) := by
    intro o ho
    rw [hheap, hdata, Function.update_of_ne (Nat.ne_of_gt ho),
      sortedBefore_of_le (Nat.le_of_lt ho)]
  constructor
  · intro h
    refine ⟨fun o ho => hsome ?_, hsome ?_, fun o ho => ?_⟩
    · exact (hbefore o ho).symm.trans (h.success o (by omega))
    · exact herror.symm.trans (h.error m hm.symm)
    · exact (hbeyond o ho).symm.trans (h.beyond o (by omega))
  · rintro ⟨hsuccess, herrors, hrest⟩
    refine ⟨fun o ho => ?_, fun o ho => ?_, fun o ho => ?_⟩
    · rw [hbefore o (by omega), hsuccess o (by omega)]
    · obtain rfl : o = m := by omega
      rw [herror, herrors]
    · rw [hbeyond o (by omega), hrest o (by omega)]

theorem content_emptied_iff (m : ℕ) :
    (∀ o, m < o → content (emptied heap (arraysBefore nodeSuccessData m)) (nodeSuccessData o) =
      content heap (nodeSuccessData o)) ↔
    ∀ o o', o < m → m < o' → ∀ array ∈ arrays (nodeSuccessData o),
      array ∈ arrays (nodeSuccessData o') → heap array = [] := by
  constructor
  · intro h o o' ho ho' array harray hother
    have hkept : content heap (nodeSuccessData o') = [] := by
      rw [← h o' ho']
      exact content_emptied_of_mem (mem_arraysBefore_iff.mpr ⟨o, ho, harray⟩) hother
    rwa [content_of_mem_arrays hother] at hkept
  · intro h o' ho'
    by_cases hshared : ∃ array ∈ arrays (nodeSuccessData o'), array ∈ arraysBefore nodeSuccessData m
    · obtain ⟨array, hother, hbefore⟩ := hshared
      obtain ⟨o, ho, harray⟩ := mem_arraysBefore_iff.mp hbefore
      rw [content_emptied_of_mem hbefore hother, content_of_mem_arrays hother,
        h o o' ho ho' array harray hother]
    · exact content_emptied_of_disjoint fun array harray hbefore =>
        hshared ⟨array, harray, hbefore⟩

end

/-- **When every item ends up in its place.** -/
theorem conserved_iff (call : Call) (heap : Heap (Option Item))
    (nodeSuccessData : ℕ → ArrayPlace (Option Item)) :
    (∃ st, handleNodeErrorOutput call heap nodeSuccessData = .ok st ∧
      Conserved call heap nodeSuccessData st) ↔ Sound call heap nodeSuccessData := by
  have hcall := handleNodeErrorOutput_eq call heap nodeSuccessData
  rcases hm : mainOutputs call with _ | m
  · -- no output is an error output, and nothing is done
    rw [hm] at hcall
    refine iff_of_true ⟨finalState call heap nodeSuccessData [], hcall, ?_⟩ ?_
    · refine ⟨fun o ho => ?_, fun o ho => ?_, fun o _ => ?_⟩
      · omega
      · omega
      · simp [finalState, hm, sortedBefore_of_le (Nat.zero_le o), arraysBefore]
    · exact ⟨fun o ho => by omega, fun o o' ho => by omega⟩
  · have hpushed : ((List.range m).flatMap (turnsOf heap nodeSuccessData)).mapM
        (fun t => errorItem call t.1 t.2) = .ok ((List.range m).flatMap fun o =>
          ((itemsAt heap (nodeSuccessData o)).filter fun item => IsError item).map
            (extended call heap)) ↔
        ∀ o ∈ List.range m, (turnsOf heap nodeSuccessData o).mapM
          (fun t => errorItem call t.1 t.2) = .ok (((itemsAt heap (nodeSuccessData o)).filter
            fun item => IsError item).map (extended call heap)) :=
      mapM_flatMap_eq_ok_iff fun o _ => length_turnsOf_le o
    rw [hm, Nat.add_sub_cancel] at hcall
    rw [hcall]
    constructor
    · rintro ⟨st, hst, hconserved⟩
      obtain ⟨es, hes, hst⟩ := exists_of_bind_eq_ok hst
      cases hst
      obtain ⟨hsuccess, rfl, hbeyond⟩ := (conserved_finalState_iff hm es).mp hconserved
      have herrors := hpushed.mp hes
      refine ⟨fun o ho => ?_, fun o o' ho ho' => ?_⟩
      · exact (keeps_iff o).mp ⟨hsuccess o (by omega), herrors o (List.mem_range.mpr (by omega))⟩
      · exact (content_emptied_iff m).mp hbeyond o o' (by omega) (by omega)
    · intro hsound
      have hkeeps : ∀ o < m, _ := fun o ho => (keeps_iff o).mpr (hsound.keeps o (by omega))
      have herrors := hpushed.mpr fun o ho => (hkeeps o (List.mem_range.mp ho)).2
      refine ⟨_, by rw [herrors]; rfl, ?_⟩
      rw [conserved_finalState_iff hm]
      refine ⟨fun o ho => (hkeeps o ho).1, rfl, (content_emptied_iff m).mpr ?_⟩
      exact fun o o' ho ho' => hsound.beyond o o' (by omega) (by omega)

def splitCall : Call where
  run := { runData := Dict.empty, pinData := Dict.empty, maxStack := 100 }
  source := none
  outputTypes := [.main, .main, .main]

def oneItem : Heap (Option Item)
  | 0 => [some { id := 0 }]
  | _ => []

def sameOnBoth : ℕ → ArrayPlace (Option Item)
  | 0 => .held 0
  | 1 => .held 0
  | _ => .missing

/-- The second output gets no items. -/
theorem not_conserved_sameOnBoth :
    ¬ ∃ st, handleNodeErrorOutput splitCall oneItem sameOnBoth = .ok st ∧
      Conserved splitCall oneItem sameOnBoth st := by
  rintro ⟨st, hst, hconserved⟩
  have hsuccess := hconserved.success 1 (by decide)
  cases hst
  exact absurd hsuccess (by decide +kernel)

end N8n.NodeErrorOutput
