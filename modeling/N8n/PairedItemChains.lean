/-
The chains of paired items, and the item they lead to.

A call of `getPairedItem` looks at an item of a task; the origins that the item names are calls
again.  A chain of calls ends where a call comes to an item of the destination.

* **`resolvesAt_iff`** — a call and those on its chains resolve iff all of them are clear.
-/
import Mathlib.Logic.Relation
import Mathlib.Tactic.IntervalCases
import N8n.PairedItems

namespace N8n.PairedItems

open SharedArrays

structure Call where
  source : Option ISourceData
  pairedItem : IPairedItemData

/-- What a call finds: an error, an item of the destination, no item on the way to it, or the item
of a node with the calls for its origins. -/
inductive Place where
  | failed (e : PairedItemError)
  | arrived (item : Option Item)
  | lost
  | origins (node : String) (calls : List Call)

section Chains

variable (run : RunExecutionData) (heap : Heap (Option Item)) (destinationNodeName : String)

/-- The call for an origin; there is none if the task has no such input. -/
def originCall (sourceArray : List (Slot ISourceData)) (nextPairedItem : IPairedItemData) :
    List Call :=
  let inputIndex := nextPairedItem.input.getD 0
  if sourceArray.length ≤ inputIndex then []
  else [{ source :=
            nextPairedItem.sourceOverwrite.or (Slot.read sourceArray inputIndex).toOption
          pairedItem := { nextPairedItem with input := some inputIndex } }]

variable (c : Call)

/-- The source that a call goes by. -/
def Call.sourceData : Option ISourceData := c.pairedItem.sourceOverwrite.or c.source

def place : Place :=
  match c.sourceData with
  | none => .failed (.pairedItemNotFound destinationNodeName)
  | some sourceData =>
    match getNodeOutput heap (getTaskData run sourceData) sourceData with
    | .error e => .failed e
    | .ok outputData =>
      if sourceData.previousNode = destinationNodeName then
        if outputData.length ≤ c.pairedItem.item then
          .failed (.missingPairedItem sourceData.previousNode)
        else .arrived (outputData[c.pairedItem.item]?).join
      else match (outputData[c.pairedItem.item]?).join with
        | none => .lost
        | some item => match normalizePairedItem item.pairedItem with
          | [] => .failed (.missingPairedItem sourceData.previousNode)
          | nextPairedItems => .origins sourceData.previousNode (nextPairedItems.flatMap
              (originCall (((getTaskData run sourceData).map TaskData.source).getD [])))

def search (stack : ℕ) (c : Call) : Except PairedItemError (Option Item) :=
  getPairedItem run heap destinationNodeName stack c.source c.pairedItem

/-- A call searches one of its origins. -/
def Follows (c next : Call) : Prop :=
  ∃ node calls, place run heap destinationNodeName c = .origins node calls ∧ next ∈ calls

/-- A chain of a call ends at an item of the destination, given by its identity. -/
inductive Ends : Call → Option ℕ → Prop where
  | arrived {c : Call} {item : Option Item} :
      place run heap destinationNodeName c = .arrived item → Ends c (item.map Item.id)
  | follow {c next : Call} {id : Option ℕ} :
      Follows run heap destinationNodeName c next → Ends next id → Ends c id

/-- All chains that end at an item of the destination end at this one. -/
def EndsOnlyAt (id : Option ℕ) : Prop :=
  ∀ other, Ends run heap destinationNodeName c other ↔ other = id

/-- Two chains end at different items of the destination. -/
def EndsApart : Prop :=
  ∃ id other, Ends run heap destinationNodeName c id ∧ Ends run heap destinationNodeName c other ∧
    id ≠ other

/-- An error of the search, for a paired item or an output that is missing. -/
def PairedItemError.IsExpressionError (e : PairedItemError) : Prop :=
  e ≠ .stackOverflow ∧ e ≠ .typeError

/-- A result is the one item that the chains of the call end at, or an error of the search. -/
structure Resolves (result : Except PairedItemError (Option Item)) : Prop where
  unique : ∀ id, EndsOnlyAt run heap destinationNodeName c id →
    ∃ item, result = .ok item ∧ item.map Item.id = id
  apart : EndsApart run heap destinationNodeName c → ∃ e, result = .error e
  nowhere : (∀ id, ¬ Ends run heap destinationNodeName c id) → ∃ e, result = .error e
  thrown : ∀ e, result = .error e → e.IsExpressionError

/-- The search comes to such a result at some depth, and at any greater one. -/
def ResolvesAt : Prop :=
  ∃ depth, ∀ stack, depth ≤ stack → Resolves run heap destinationNodeName c
    (search run heap destinationNodeName stack c)

/-- A call comes to an item that has an origin, and if the chains of an origin end apart, the
others do not agree on an item. -/
def Clear : Prop :=
  match place run heap destinationNodeName c with
  | .failed _ => True
  | .arrived _ => True
  | .lost => False
  | .origins _ calls => calls ≠ [] ∧ ∀ apart ∈ calls, EndsApart run heap destinationNodeName apart →
      ∀ origin ∈ calls, ∀ id, EndsOnlyAt run heap destinationNodeName origin id →
        ∃ other ∈ calls, ∃ otherId, EndsOnlyAt run heap destinationNodeName other otherId ∧
          otherId ≠ id

def taskName (sourceData : ISourceData) : String × ℕ :=
  (sourceData.previousNode, sourceData.previousNodeRun.getD 0)

/-- The sources of a task, with those that its items name in their place. -/
def HasSource (task : TaskData) (sourceData : ISourceData) : Prop :=
  .data sourceData ∈ task.source ∨
    ∃ array, some array ∈ task.main ∧ ∃ item, some item ∈ heap array ∧
      ∃ pairedItem ∈ normalizePairedItem item.pairedItem,
        pairedItem.sourceOverwrite = some sourceData

/-- The sources of a task name tasks that were executed earlier. -/
def SourcesEarlier : Prop :=
  ∃ executed : String × ℕ → ℕ, ∀ node runs, run.runData.get? node = some runs →
    ∀ index task, runs[index]? = some task → ∀ sourceData, HasSource heap task sourceData →
      executed (taskName sourceData) < executed (node, index)

end Chains

variable {run : RunExecutionData} {heap : Heap (Option Item)} {destinationNodeName : String}
  {c next : Call}

theorem search_succ (stack : ℕ) : search run heap destinationNodeName (stack + 1) c =
    match place run heap destinationNodeName c with
    | .failed e => .error e
    | .arrived item => .ok item
    | .lost => .error .typeError
    | .origins node calls => uniqueItem destinationNodeName node
        (calls.map (search run heap destinationNodeName stack)) := by
  rw [search, getPairedItem, place, Call.sourceData]
  cases c.pairedItem.sourceOverwrite.or c.source with
  | none => rfl
  | some sourceData =>
    simp only
    cases getNodeOutput heap (getTaskData run sourceData) sourceData with
    | error e => rfl
    | ok outputData =>
      simp only [bind, Except.bind]
      by_cases hdestination : sourceData.previousNode = destinationNodeName
      · rw [if_pos hdestination, if_pos hdestination]
        by_cases hlength : outputData.length ≤ c.pairedItem.item
        · rw [if_pos hlength, if_pos hlength]
        · rw [if_neg hlength, if_neg hlength]
      · rw [if_neg hdestination, if_neg hdestination]
        cases (outputData[c.pairedItem.item]?).join with
        | none => rfl
        | some item =>
          simp only
          rcases normalizePairedItem item.pairedItem with _ | ⟨first, rest⟩
          · rfl
          · simp only [List.map_flatMap]
            congr 1
            refine List.flatMap_congr fun nextPairedItem _ => ?_
            rw [originCall]
            split
            · rfl
            · rfl

variable (destinationNodeName) in
theorem uniqueItem_cases (node : String) (results : List (Except PairedItemError (Option Item))) :
    results = [] ∧ uniqueItem destinationNodeName node results = .error .typeError ∨
    (∃ e, .error e ∈ results ∧ (∀ item, .ok item ∉ results) ∧
      uniqueItem destinationNodeName node results = .error e) ∨
    (∃ item other : Option Item, .ok item ∈ results ∧ .ok other ∈ results ∧
      item.map Item.id ≠ other.map Item.id ∧ uniqueItem destinationNodeName node results =
        .error (.multipleItemsFound destinationNodeName)) ∨
    ∃ item, .ok item ∈ results ∧
      (∀ other : Option Item, .ok other ∈ results → other.map Item.id = item.map Item.id) ∧
      uniqueItem destinationNodeName node results = .ok item := by
  have hmem : ∀ item : Option Item, item ∈ results.filterMap Except.toOption ↔
      .ok item ∈ results := by
    intro item
    rw [List.mem_filterMap]
    constructor
    · rintro ⟨_ | other, hother, heq⟩
      · cases heq
      · cases heq
        exact hother
    · exact fun h => ⟨_, h, rfl⟩
  unfold uniqueItem
  split
  · next hall =>
    have hnone : ∀ item, .ok item ∉ results := by
      intro item hitem
      exact absurd (List.all_eq_true.mp hall _ hitem) (by simp [Except.toOption])
    rcases results with _ | ⟨_ | item, results⟩
    · exact .inl ⟨rfl, rfl⟩
    · exact .inr (.inl ⟨_, List.mem_cons_self, hnone, rfl⟩)
    · exact absurd List.mem_cons_self (hnone item)
  · next hall =>
    rcases hoks : results.filterMap Except.toOption with _ | ⟨first, rest⟩
    · refine absurd (List.all_eq_true.mpr fun result hresult => ?_) hall
      rcases result with e | item
      · rfl
      · have hin := (hmem item).mpr hresult
        rw [hoks] at hin
        exact absurd hin List.not_mem_nil
    · rw [hoks] at hmem
      simp only
      split
      · next hany =>
        obtain ⟨other, hother, hne⟩ := List.any_eq_true.mp hany
        exact .inr (.inr (.inl ⟨other, first, (hmem other).mp (List.mem_cons_of_mem _ hother),
          (hmem first).mp List.mem_cons_self, of_decide_eq_true hne, rfl⟩))
      · next hany =>
        refine .inr (.inr (.inr ⟨first, (hmem first).mp List.mem_cons_self, ?_, rfl⟩))
        intro other hother
        rcases List.mem_cons.mp ((hmem other).mpr hother) with rfl | hrest
        · rfl
        · by_contra hne
          exact hany (List.any_eq_true.mpr ⟨other, hrest, decide_eq_true hne⟩)

theorem isExpressionError_of_place {e : PairedItemError}
    (h : place run heap destinationNodeName c = .failed e) : e.IsExpressionError := by
  rw [place] at h
  cases hsource : c.sourceData with
  | none =>
    rw [hsource] at h
    cases h
    simp [PairedItemError.IsExpressionError]
  | some sourceData =>
    rw [hsource] at h
    simp only at h
    cases houtput : getNodeOutput heap (getTaskData run sourceData) sourceData with
    | error e' =>
      rw [houtput] at h
      cases h
      rw [getNodeOutput] at houtput
      split at houtput
      · cases houtput
      · cases houtput
        simp [PairedItemError.IsExpressionError]
    | ok outputData =>
      rw [houtput] at h
      simp only at h
      split at h
      · split at h
        · cases h
          simp [PairedItemError.IsExpressionError]
        · cases h
      · split at h
        · cases h
        · split at h
          · cases h
            simp [PairedItemError.IsExpressionError]
          · cases h

theorem ends_iff {id : Option ℕ} : Ends run heap destinationNodeName c id ↔
    match place run heap destinationNodeName c with
    | .arrived item => id = item.map Item.id
    | .origins _ calls => ∃ next ∈ calls, Ends run heap destinationNodeName next id
    | _ => False := by
  constructor
  · rintro (hplace | ⟨⟨node, calls, hplace, hnext⟩, hends⟩)
    · rw [hplace]
    · rw [hplace]
      exact ⟨_, hnext, hends⟩
  · intro h
    split at h
    · next item hplace => exact h ▸ .arrived hplace
    · next node calls hplace =>
      obtain ⟨next, hnext, hends⟩ := h
      exact .follow ⟨node, calls, hplace, hnext⟩ hends
    · exact h.elim

variable {calls : List Call}

theorem ends_of_origins {node : String}
    (h : place run heap destinationNodeName c = .origins node calls) {id : Option ℕ} :
    Ends run heap destinationNodeName c id ↔
      ∃ next ∈ calls, Ends run heap destinationNodeName next id := by
  rw [ends_iff, h]

variable {item : Option Item}

theorem Resolves.endsOnlyAt {result : Except PairedItemError (Option Item)}
    (h : Resolves run heap destinationNodeName c result) (hresult : result = .ok item) :
    EndsOnlyAt run heap destinationNodeName c (item.map Item.id) := by
  subst hresult
  have hends : ∃ id, Ends run heap destinationNodeName c id := by
    by_contra hnone
    obtain ⟨e, he⟩ := h.nowhere (not_exists.mp hnone)
    cases he
  obtain ⟨id, hid⟩ := hends
  have honly : EndsOnlyAt run heap destinationNodeName c id := by
    intro other
    refine ⟨fun hother => ?_, fun heq => heq ▸ hid⟩
    by_contra hne
    obtain ⟨e, he⟩ := h.apart ⟨other, id, hother, hid, hne⟩
    cases he
  obtain ⟨item', hitem, rfl⟩ := h.unique id honly
  cases hitem
  exact honly

theorem Resolves.of_error {e : PairedItemError} (he : e.IsExpressionError)
    (h : ∀ id, ¬ EndsOnlyAt run heap destinationNodeName c id) :
    Resolves run heap destinationNodeName c (.error e) where
  unique id hid := absurd hid (h id)
  apart _ := ⟨e, rfl⟩
  nowhere _ := ⟨e, rfl⟩
  thrown _ heq := Except.error.inj heq ▸ he

theorem Resolves.of_ok
    (h : EndsOnlyAt run heap destinationNodeName c (item.map Item.id)) :
    Resolves run heap destinationNodeName c (.ok item) where
  unique id hid := ⟨item, rfl, (hid _).mp ((h _).mpr rfl)⟩
  apart := by
    rintro ⟨id, other, hid, hother, hne⟩
    exact absurd (((h id).mp hid).trans ((h other).mp hother).symm) hne
  nowhere hnone := absurd ((h _).mpr rfl) (hnone _)
  thrown _ heq := by cases heq

theorem resolves_origins {node : String} {stack : ℕ}
    (hplace : place run heap destinationNodeName c = .origins node calls)
    (hclear : Clear run heap destinationNodeName c)
    (horigins : ∀ origin ∈ calls, Resolves run heap destinationNodeName origin
      (search run heap destinationNodeName stack origin)) :
    Resolves run heap destinationNodeName c
      (search run heap destinationNodeName (stack + 1) c) := by
  rw [Clear, hplace] at hclear
  obtain ⟨hne, hhidden⟩ := hclear
  rw [search_succ, hplace]
  -- an origin of one end returns it
  have hreturns : ∀ origin ∈ calls, ∀ id, EndsOnlyAt run heap destinationNodeName origin id →
      ∃ item : Option Item, .ok item ∈ calls.map (search run heap destinationNodeName stack) ∧
        item.map Item.id = id := by
    intro origin horigin id hid
    obtain ⟨item, hitem, heq⟩ := (horigins origin horigin).unique id hid
    exact ⟨item, List.mem_map.mpr ⟨origin, horigin, hitem⟩, heq⟩
  have hreturned : ∀ item : Option Item,
      .ok item ∈ calls.map (search run heap destinationNodeName stack) →
      ∃ origin ∈ calls, EndsOnlyAt run heap destinationNodeName origin (item.map Item.id) := by
    intro item hitem
    obtain ⟨origin, horigin, hsearch⟩ := List.mem_map.mp hitem
    exact ⟨origin, horigin, (horigins origin horigin).endsOnlyAt hsearch⟩
  -- if the call has one end, so has an origin
  have hsome : ∀ id, EndsOnlyAt run heap destinationNodeName c id → ∃ origin ∈ calls,
      EndsOnlyAt run heap destinationNodeName origin id := by
    intro id hid
    obtain ⟨origin, horigin, hends⟩ := (ends_of_origins hplace).mp ((hid id).mpr rfl)
    refine ⟨origin, horigin, fun other => ⟨fun hother => ?_, fun heq => heq ▸ hends⟩⟩
    exact (hid other).mp ((ends_of_origins hplace).mpr ⟨origin, horigin, hother⟩)
  rcases uniqueItem_cases destinationNodeName node
    (calls.map (search run heap destinationNodeName stack)) with
    ⟨hnil, -⟩ | ⟨e, he, hnone, heq⟩ | ⟨item, other, hitem, hother, hdiffer, heq⟩ |
      ⟨item, hitem, hsame, heq⟩
  · exact absurd (List.map_eq_nil_iff.mp hnil) hne
  · simp only [heq]
    obtain ⟨origin, horigin, hsearch⟩ := List.mem_map.mp he
    refine .of_error ((horigins origin horigin).thrown e hsearch) fun id hid => ?_
    obtain ⟨origin, horigin, honly⟩ := hsome id hid
    obtain ⟨item, hitem, -⟩ := hreturns origin horigin id honly
    exact hnone item hitem
  · simp only [heq]
    refine .of_error (by simp [PairedItemError.IsExpressionError]) fun id hid => ?_
    have hends : ∀ item : Option Item,
        .ok item ∈ calls.map (search run heap destinationNodeName stack) →
        item.map Item.id = id := by
      intro item hitem
      obtain ⟨origin, horigin, honly⟩ := hreturned item hitem
      exact (hid _).mp ((ends_of_origins hplace).mpr ⟨origin, horigin, (honly _).mpr rfl⟩)
    exact hdiffer ((hends item hitem).trans (hends other hother).symm)
  · simp only [heq]
    obtain ⟨origin, horigin, honly⟩ := hreturned item hitem
    refine .of_ok fun id => ⟨fun hid => ?_, ?_⟩
    · obtain ⟨from', hfrom, hends⟩ := (ends_of_origins hplace).mp hid
      have honlyFrom : ¬ EndsApart run heap destinationNodeName from' := by
        intro hapart
        obtain ⟨other, hother, otherId, honlyOther, hdiffer⟩ :=
          hhidden from' hfrom hapart origin horigin _ honly
        obtain ⟨item', hitem', rfl⟩ := hreturns other hother otherId honlyOther
        exact hdiffer (hsame item' hitem')
      have hid : EndsOnlyAt run heap destinationNodeName from' id := by
        intro other
        refine ⟨fun hother => ?_, fun heq => heq ▸ hends⟩
        by_contra hdiffer
        exact honlyFrom ⟨other, id, hother, hends, hdiffer⟩
      obtain ⟨item', hitem', rfl⟩ := hreturns from' hfrom id hid
      exact hsame item' hitem'
    · rintro rfl
      exact (ends_of_origins hplace).mpr ⟨origin, horigin, (honly _).mpr rfl⟩

theorem mem_main_of_getNodeOutput {taskData : Option TaskData} {sourceData : ISourceData}
    {outputData : ItemArray} (h : getNodeOutput heap taskData sourceData = .ok outputData) :
    ∃ task, taskData = some task ∧ ∃ array, some array ∈ task.main ∧ outputData = heap array := by
  rw [getNodeOutput] at h
  split at h
  · next array harray =>
    cases h
    obtain ⟨task, rfl, hget⟩ := Option.bind_eq_some_iff.mp harray
    exact ⟨task, rfl, array, List.mem_of_getElem? (Option.join_eq_some_iff.mp hget), rfl⟩
  · cases h

theorem hasSource_of_follows (h : Follows run heap destinationNodeName c next)
    {nextSource : ISourceData} (hnext : next.sourceData = some nextSource) :
    ∃ sourceData runs task, c.sourceData = some sourceData ∧
      run.runData.get? sourceData.previousNode = some runs ∧
      runs[sourceData.previousNodeRun.getD 0]? = some task ∧ HasSource heap task nextSource := by
  obtain ⟨node, calls, hplace, hmem⟩ := h
  rw [place] at hplace
  split at hplace
  · cases hplace
  next sourceData hsource =>
  split at hplace
  · cases hplace
  next outputData houtput =>
  split at hplace
  · split at hplace
    · cases hplace
    · cases hplace
  split at hplace
  · cases hplace
  next item hitem =>
  split at hplace
  · cases hplace
  cases hplace
  obtain ⟨pairedItem, hpaired, horigin⟩ := List.mem_flatMap.mp hmem
  obtain ⟨task, htask, array, harray, rfl⟩ := mem_main_of_getNodeOutput houtput
  rw [htask, Option.map_some, Option.getD_some, originCall] at horigin
  split at horigin
  · exact absurd horigin List.not_mem_nil
  next hinput =>
  obtain rfl := List.mem_singleton.mp horigin
  have hrun : ∃ runs, run.runData.get? sourceData.previousNode = some runs ∧
      runs[sourceData.previousNodeRun.getD 0]? = some task := by
    rw [getTaskData, Option.or_eq_some_iff] at htask
    rcases htask with hrun | ⟨-, hpinned⟩
    · exact Option.bind_eq_some_iff.mp hrun
    · obtain ⟨array, -, rfl⟩ := Option.map_eq_some_iff.mp hpinned
      exact absurd (Nat.zero_le _) hinput
  obtain ⟨runs, hruns, hindex⟩ := hrun
  refine ⟨sourceData, runs, task, hsource, hruns, hindex, ?_⟩
  rcases hoverwrite : pairedItem.sourceOverwrite with _ | overwrite
  · refine .inl ?_
    simp only [Call.sourceData, hoverwrite, Option.none_or] at hnext
    rw [Slot.read] at hnext
    rcases hread : task.source[pairedItem.input.getD 0]? with _ | slot
    · rw [hread] at hnext
      cases hnext
    · rw [hread] at hnext
      cases slot with
      | undefined => cases hnext
      | null => cases hnext
      | data a =>
        cases hnext
        exact List.mem_of_getElem? hread
  · simp only [Call.sourceData, hoverwrite, Option.some_or, Option.some.injEq] at hnext
    subst hnext
    exact .inr ⟨array, harray, item, List.mem_of_getElem? (Option.join_eq_some_iff.mp hitem),
      pairedItem, hpaired, hoverwrite⟩

/-- How deep the search of a call may go. -/
def depthOf (executed : String × ℕ → ℕ) (c : Call) : ℕ :=
  c.sourceData.elim 0 fun sourceData => executed (taskName sourceData) + 1

variable {executed : String × ℕ → ℕ}

theorem depthOf_lt
    (hexecuted : ∀ node runs, run.runData.get? node = some runs → ∀ index task,
      runs[index]? = some task → ∀ sourceData, HasSource heap task sourceData →
        executed (taskName sourceData) < executed (node, index))
    (h : Follows run heap destinationNodeName c next) :
    depthOf executed next < depthOf executed c := by
  rcases hnext : next.sourceData with _ | nextSource
  · obtain ⟨node, calls, hplace, -⟩ := h
    rcases hsource : c.sourceData with _ | sourceData
    · rw [place, hsource] at hplace
      cases hplace
    · rw [depthOf, hnext, depthOf, hsource]
      exact Nat.succ_pos _
  · obtain ⟨sourceData, runs, task, hsource, hruns, hindex, hhas⟩ := hasSource_of_follows h hnext
    rw [depthOf, hnext, depthOf, hsource]
    exact Nat.succ_lt_succ (hexecuted _ runs hruns _ task hindex nextSource hhas)

open Relation in
theorem resolves_of_clear
    (hexecuted : ∀ node runs, run.runData.get? node = some runs → ∀ index task,
      runs[index]? = some task → ∀ sourceData, HasSource heap task sourceData →
        executed (taskName sourceData) < executed (node, index)) :
    ∀ {stack : ℕ} {c : Call}, depthOf executed c < stack →
      (∀ called, ReflTransGen (Follows run heap destinationNodeName) c called →
        Clear run heap destinationNodeName called) →
      Resolves run heap destinationNodeName c (search run heap destinationNodeName stack c) := by
  intro stack
  induction stack with
  | zero => exact fun hdepth => absurd hdepth (Nat.not_lt_zero _)
  | succ stack ih =>
    intro c hdepth hclear
    cases hplace : place run heap destinationNodeName c with
    | failed e =>
      rw [search_succ, hplace]
      refine .of_error (isExpressionError_of_place hplace) fun id hid => ?_
      have hends := (hid id).mpr rfl
      rw [ends_iff, hplace] at hends
      exact hends
    | arrived item =>
      rw [search_succ, hplace]
      refine .of_ok fun id => ?_
      rw [ends_iff, hplace]
    | lost =>
      have hlost := hclear c .refl
      rw [Clear, hplace] at hlost
      exact hlost.elim
    | origins node calls =>
      refine resolves_origins hplace (hclear c .refl) fun origin horigin => ?_
      have hfollows : Follows run heap destinationNodeName c origin :=
        ⟨node, calls, hplace, horigin⟩
      refine ih ?_ fun called hcalled => hclear called (.head hfollows hcalled)
      exact Nat.lt_of_lt_of_le (depthOf_lt hexecuted hfollows) (Nat.lt_succ_iff.mp hdepth)

theorem exists_depth : ∀ {calls : List Call},
    (∀ origin ∈ calls, ResolvesAt run heap destinationNodeName origin) →
    ∃ depth, ∀ stack, depth ≤ stack → ∀ origin ∈ calls, Resolves run heap destinationNodeName
      origin (search run heap destinationNodeName stack origin) := by
  intro calls
  induction calls with
  | nil => exact fun _ => ⟨0, fun _ _ _ h => absurd h List.not_mem_nil⟩
  | cons origin calls ih =>
    intro h
    obtain ⟨hfirst, hrest⟩ := List.forall_mem_cons.mp h
    obtain ⟨depth, hdepth⟩ := hfirst
    obtain ⟨depth', hdepth'⟩ := ih hrest
    refine ⟨max depth depth', fun stack hstack => ?_⟩
    rw [List.forall_mem_cons]
    exact ⟨hdepth stack (le_trans (le_max_left _ _) hstack),
      hdepth' stack (le_trans (le_max_right _ _) hstack)⟩

theorem clear_of_resolvesAt (h : ResolvesAt run heap destinationNodeName c)
    (hfollows : ∀ next, Follows run heap destinationNodeName c next →
      ResolvesAt run heap destinationNodeName next) :
    Clear run heap destinationNodeName c := by
  obtain ⟨depth, hdepth⟩ := h
  rw [Clear]
  split
  · trivial
  · trivial
  · next hplace =>
    have hthrown := (hdepth (depth + 1) depth.le_succ).thrown .typeError
    rw [search_succ, hplace] at hthrown
    exact (hthrown rfl).2 rfl
  · next node calls hplace =>
    obtain ⟨depth', hdepth'⟩ := exists_depth fun origin horigin =>
      hfollows origin ⟨node, calls, hplace, horigin⟩
    have hcall := hdepth (max depth depth' + 1) (le_trans (le_max_left _ _) (Nat.le_succ _))
    have horigins := hdepth' (max depth depth') (le_max_right _ _)
    rw [search_succ, hplace] at hcall
    simp only at hcall
    constructor
    · rintro rfl
      exact (hcall.thrown .typeError rfl).2 rfl
    · intro apart hapart hdiffer origin horigin id hid
      by_contra hnone
      have hsame : ∀ item : Option Item, .ok item ∈
          calls.map (search run heap destinationNodeName (max depth depth')) →
          item.map Item.id = id := by
        intro item hitem
        obtain ⟨other, hother, hsearch⟩ := List.mem_map.mp hitem
        by_contra hne
        exact hnone ⟨other, hother, _, (horigins other hother).endsOnlyAt hsearch, hne⟩
      have hcallApart : EndsApart run heap destinationNodeName c := by
        obtain ⟨id, other, hid, hother, hne⟩ := hdiffer
        exact ⟨id, other, (ends_of_origins hplace).mpr ⟨apart, hapart, hid⟩,
          (ends_of_origins hplace).mpr ⟨apart, hapart, hother⟩, hne⟩
      obtain ⟨e, he⟩ := hcall.apart hcallApart
      obtain ⟨item, hitem, -⟩ := (horigins origin horigin).unique id hid
      have hreturned := List.mem_map.mpr ⟨origin, horigin, hitem⟩
      rcases uniqueItem_cases destinationNodeName node
          (calls.map (search run heap destinationNodeName (max depth depth'))) with
        ⟨hnil, -⟩ | ⟨-, -, hfail, -⟩ | ⟨item, other, hitem, hother, hne, -⟩ | ⟨item, -, -, heq⟩
      · rw [hnil] at hreturned
        exact absurd hreturned List.not_mem_nil
      · exact hfail item hreturned
      · exact hne ((hsame item hitem).trans (hsame other hother).symm)
      · rw [heq] at he
        cases he

open Relation in
/-- **A call and those on its chains resolve** if and only if all of them are clear. -/
theorem resolvesAt_iff (hsources : SourcesEarlier run heap) (c : Call) :
    (∀ called, ReflTransGen (Follows run heap destinationNodeName) c called →
      ResolvesAt run heap destinationNodeName called) ↔
    ∀ called, ReflTransGen (Follows run heap destinationNodeName) c called →
      Clear run heap destinationNodeName called := by
  constructor
  · intro h called hcalled
    exact clear_of_resolvesAt (h called hcalled) fun next hnext => h next (hcalled.tail hnext)
  · intro h called hcalled
    obtain ⟨executed, hexecuted⟩ := hsources
    refine ⟨depthOf executed called + 1, fun stack hstack => ?_⟩
    exact resolves_of_clear hexecuted hstack fun next hnext => h next (hcalled.trans hnext)

/-- The second item of the aggregation was made of both items of the trigger. -/
def sharedItems : Heap (Option Item)
  | 0 => [some { id := 0 }, some { id := 1 }]
  | 1 => [some { id := 2, pairedItem := some (.index 0) },
      some { id := 3, pairedItem := some (.origins [{ item := 0 }, { item := 1 }]) }]
  | 2 => [some { id := 4, pairedItem := some (.origins [{ item := 0 }, { item := 1 }]) }]
  | _ => []

def sharedRun : RunExecutionData where
  runData := ((Dict.empty.set "Trigger" [{ main := [some 0], source := [] }]).set
    "Aggregate" [{ main := [some 1], source := [.data { previousNode := "Trigger" }] }]).set
    "Merge" [{ main := [some 2], source := [.data { previousNode := "Aggregate" }] }]
  pinData := Dict.empty
  maxStack := 100

def itemCall (node : String) (item : ℕ) (input : Option ℕ) : Call :=
  { source := some { previousNode := node }, pairedItem := { item, input } }

theorem place_trigger (item : ℕ) (input : Option ℕ) (h : item < 2) :
    place sharedRun sharedItems "Trigger" (itemCall "Trigger" item input) =
      .arrived (some { id := item }) := by
  interval_cases item
  · rfl
  · rfl

theorem place_aggregate_zero (input : Option ℕ) :
    place sharedRun sharedItems "Trigger" (itemCall "Aggregate" 0 input) =
      .origins "Aggregate" [itemCall "Trigger" 0 (some 0)] := rfl

theorem place_aggregate_one (input : Option ℕ) :
    place sharedRun sharedItems "Trigger" (itemCall "Aggregate" 1 input) =
      .origins "Aggregate" [itemCall "Trigger" 0 (some 0), itemCall "Trigger" 1 (some 0)] := rfl

theorem place_merge (input : Option ℕ) :
    place sharedRun sharedItems "Trigger" (itemCall "Merge" 0 input) =
      .origins "Merge" [itemCall "Aggregate" 0 (some 0), itemCall "Aggregate" 1 (some 0)] := rfl

theorem sourceOverwrite_shared {array : ℕ} {item : Item} (hitem : some item ∈ sharedItems array)
    {pairedItem : IPairedItemData} (hpaired : pairedItem ∈ normalizePairedItem item.pairedItem) :
    pairedItem.sourceOverwrite = none := by
  have hnone : ∀ array, (sharedItems array).all (fun item =>
      (item.elim [] fun item => normalizePairedItem item.pairedItem).all
        fun pairedItem => pairedItem.sourceOverwrite.isNone) = true := by
    rintro (_ | _ | _ | array)
    · rfl
    · rfl
    · rfl
    · rfl
  have hall := List.all_eq_true.mp (hnone array) (some item) hitem
  exact Option.isNone_iff_eq_none.mp (List.all_eq_true.mp hall pairedItem hpaired)

theorem sourcesEarlier_shared : SourcesEarlier sharedRun sharedItems := by
  refine ⟨fun task => if task.1 = "Trigger" then 0 else if task.1 = "Aggregate" then 1 else 2, ?_⟩
  rintro node runs hruns index task htask sourceData (hsource | ⟨array, -, item, hitem, rest⟩)
  · simp only [sharedRun, Dict.get?_set, Dict.get?_empty] at hruns
    split at hruns
    · cases hruns
      obtain rfl := List.mem_singleton.mp (List.mem_of_getElem? htask)
      cases List.mem_singleton.mp hsource
      simp only [taskName, *]
      decide
    split at hruns
    · cases hruns
      obtain rfl := List.mem_singleton.mp (List.mem_of_getElem? htask)
      cases List.mem_singleton.mp hsource
      simp only [taskName, *]
      decide
    split at hruns
    · cases hruns
      obtain rfl := List.mem_singleton.mp (List.mem_of_getElem? htask)
      exact absurd hsource List.not_mem_nil
    · cases hruns
  · obtain ⟨pairedItem, hpaired, hoverwrite⟩ := rest
    rw [sourceOverwrite_shared hitem hpaired] at hoverwrite
    cases hoverwrite

open Relation in
/-- The first item of the aggregation resolves to the first item of the trigger. -/
theorem resolvesAt_aggregate_zero : ResolvesAt sharedRun sharedItems "Trigger"
    (itemCall "Aggregate" 0 none) := by
  refine (resolvesAt_iff sourcesEarlier_shared _).mpr (fun called hcalled => ?_) _ .refl
  have hcases : called = itemCall "Aggregate" 0 none ∨ called = itemCall "Trigger" 0 (some 0) := by
    induction hcalled with
    | refl => exact .inl rfl
    | tail _ hfollows ih =>
      obtain ⟨node, calls, hplace, hmem⟩ := hfollows
      rcases ih with rfl | rfl
      · cases (place_aggregate_zero none).symm.trans hplace
        exact .inr (List.mem_singleton.mp hmem)
      · cases (place_trigger 0 (some 0) (by decide)).symm.trans hplace
  rcases hcases with rfl | rfl
  · rw [Clear, place_aggregate_zero]
    refine ⟨List.cons_ne_nil _ _, fun apart hapart hdiffer => ?_⟩
    obtain rfl := List.mem_singleton.mp hapart
    obtain ⟨id, other, hid, hother, hne⟩ := hdiffer
    rw [ends_iff, place_trigger 0 (some 0) (by decide)] at hid hother
    exact absurd (hid.trans hother.symm) hne
  · rw [Clear, place_trigger 0 (some 0) (by decide)]
    trivial

/-- The merged item was made of both items of the trigger, and resolves to the first one. -/
theorem not_resolvesAt_merge : ¬ ∀ run heap destinationNodeName, SourcesEarlier run heap →
    ∀ c, ResolvesAt run heap destinationNodeName c := by
  intro h
  obtain ⟨depth, hdepth⟩ := h sharedRun sharedItems "Trigger" sourcesEarlier_shared
    (itemCall "Merge" 0 none)
  have hresolves := hdepth (depth + 3) (Nat.le_add_right _ _)
  have hends : ∀ id, id < 2 → Ends sharedRun sharedItems "Trigger" (itemCall "Merge" 0 none)
      (some id) := by
    intro id hid
    have htrigger := Ends.arrived (place_trigger id (some 0) hid)
    refine .follow ⟨_, _, place_merge none, List.mem_cons_of_mem _ List.mem_cons_self⟩
      (.follow ⟨_, _, place_aggregate_one (some 0), ?_⟩ htrigger)
    interval_cases id
    · exact List.mem_cons_self
    · exact List.mem_cons_of_mem _ List.mem_cons_self
  obtain ⟨e, he⟩ := hresolves.apart ⟨some 0, some 1, hends 0 (by decide), hends 1 (by decide),
    by decide⟩
  have hreturned : search sharedRun sharedItems "Trigger" (depth + 3) (itemCall "Merge" 0 none) =
      .ok (some { id := 0 }) := by
    rw [search_succ, place_merge]
    simp only [List.map_cons, List.map_nil, search_succ, place_aggregate_zero,
      place_aggregate_one, place_trigger 0 (some 0) (by decide),
      place_trigger 1 (some 0) (by decide)]
    rfl
  rw [hreturned] at he
  cases he

end N8n.PairedItems
