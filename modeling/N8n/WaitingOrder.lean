/-
The order in which waiting data is released.

The engine delivers data to the inputs of a node, settles waiting entries when the stack is
empty, and does other things that leave the entries of the node alone.  `WaitingLog` records what
was delivered and what was put on the stack, with the inputs.

* `firstInFirstOut_of_keepsOrder` — **waiting data is released first in, first out in every run
  in which new entries come last and the smallest index, where an entry is settled, is also the
  first as a string**.
-/
import N8n.NothingLeft
import N8n.RecreateWaiting
import N8n.RowQueue

namespace N8n

open RowQueue

structure WaitingLog where
  ed : IRunExecutionData
  delivered : List (ℕ × Items) := []
  put : List (ℕ × Items) := []

inductive WaitingTurn where
  /-- `addNodeToBeExecuted`, with the run data of that moment. -/
  | deliver (runData : IRunData) (d : Delivery)
  /-- The end-of-stack pass looks for an entry and takes it. -/
  | settle
  /-- The engine does something else. -/
  | other (ed : IRunExecutionData)

/-- The items put on the stack, at the end that the execution order says. -/
def addedItems (w : Workflow) (before after : IRunExecutionData) : List IExecuteData :=
  if w.isLegacyExecutionOrder then
    after.nodeExecutionStack.drop before.nodeExecutionStack.length
  else after.nodeExecutionStack.take
    (after.nodeExecutionStack.length - before.nodeExecutionStack.length)

/-- The data of the items for the node, with the inputs; an empty array is no data. -/
def dataPairs (w : Workflow) (N : String) (items : List IExecuteData) : List (ℕ × Items) :=
  (items.flatMap (joinedPairs w N)).filter fun p => p.2 ≠ []

variable (env : ExecutionEnvironment)

def settleReady (ed : IRunExecutionData) : IRunExecutionData :=
  match findReady env ed ed.waitingExecution.objectKeys with
  | .ok (some (nodeName, index)) => (settleEntry env ed nodeName index).state
  | _ => ed

def waitingStep (N : String) (s : WaitingLog) : WaitingTurn → Except Unit WaitingLog
  | .deliver runData d =>
    let before := { s.ed with runData := runData }
    let after := (addNodeToBeExecuted env.workflow before d).state
    onlyIf (d.connectionData.node = N ∧ d.connectionData.index < env.workflow.numberOfInputs N ∧
        d.slot.isFalsy = false) {
      ed := after
      delivered := s.delivered ++ [d.delivered]
      put := s.put ++ dataPairs env.workflow N (addedItems env.workflow before after) }
  | .settle =>
    onlyIf (s.ed.nodeExecutionStack = []) { s with
      ed := settleReady env s.ed
      put := s.put ++ dataPairs env.workflow N (settleReady env s.ed).nodeExecutionStack }
  | .other ed =>
    onlyIf (ed.waitingExecution.get? N = s.ed.waitingExecution.get? N ∧
        ed.waitingExecutionSource.get? N = s.ed.waitingExecutionSource.get? N) { s with ed := ed }

/-- The data of one input. -/
def ofInput (input : ℕ) (pairs : List (ℕ × Items)) : List Items :=
  (pairs.filter fun p => p.1 = input).map Prod.snd

/-- The settled entry of the node has the smallest index, and what is put on the stack keeps, for
each input, the order of the deliveries. -/
structure FirstInFirstOut (N : String) (s : WaitingLog)
    (turn : WaitingTurn) (s' : WaitingLog) : Prop where
  smallest : turn = .settle → ∀ index,
    findReady env s.ed s.ed.waitingExecution.objectKeys = .ok (some (N, index)) →
    ∀ i ∈ (waitingEntries s.ed N).keys, index ≤ i
  order : ∀ input, (ofInput input s'.put).Sublist (ofInput input s'.delivered)

/-- A new entry, which gets the number of the live ones as its index, comes last; and where an
entry of the node is settled, the smallest index is the first as a string. -/
def KeepsOrder (N : String) (s : WaitingLog) : WaitingTurn → Prop
  | .deliver _ d =>
    (∀ i ∈ (waitingEntries s.ed N).keys,
      cell (waitingEntries s.ed N) i d.connectionData.index ≠ none) →
    ∀ i ∈ (waitingEntries s.ed N).keys, i ≤ (waitingEntries s.ed N).keys.length
  | .settle => ∀ index,
    findReady env s.ed s.ed.waitingExecution.objectKeys = .ok (some (N, index)) →
    ∀ m ∈ (waitingEntries s.ed N).keys, (∀ i ∈ (waitingEntries s.ed N).keys, m ≤ i) →
    ∀ i ∈ (waitingEntries s.ed N).keys, toString m ≤ toString i
  | .other _ => True

section Pass

variable {env : ExecutionEnvironment} {N : String}

end Pass

theorem ofInput_append (input : ℕ) (l m : List (ℕ × Items)) :
    ofInput input (l ++ m) = ofInput input l ++ ofInput input m := by
  rw [ofInput, List.filter_append, List.map_append]
  rfl

theorem ofInput_filledFrom (main : List (Slot Items)) (k input : ℕ) :
    ofInput (k + input) (Slot.filledFrom k main) = (Slot.read main input).toOption.toList := by
  induction main generalizing k input with
  | nil => rfl
  | cons slot main ih =>
    rw [Slot.filledFrom, ofInput_append]
    cases input with
    | zero =>
      have hrest : ofInput (k + 0) (Slot.filledFrom (k + 1) main) = [] := by
        refine List.map_eq_nil_iff.mpr (List.filter_eq_nil_iff.mpr fun p hp => ?_)
        obtain ⟨j, a⟩ := p
        obtain ⟨i, rfl, -⟩ := Slot.mem_filledFrom.mp hp
        simp only [decide_eq_true_eq]
        omega
      rw [hrest, List.append_nil]
      cases slot with
      | undefined => rfl
      | null => rfl
      | data a => simp [ofInput, Slot.read]
    | succ input =>
      have hhead : ofInput (k + (input + 1)) (slot.toOption.map (fun a => (k, a))).toList = [] := by
        cases slot with
        | undefined => rfl
        | null => rfl
        | data a => simp [ofInput]
      have hread : Slot.read (slot :: main) (input + 1) = Slot.read main input := rfl
      rw [hhead, List.nil_append, hread, ← ih (k + 1) input,
        show k + (input + 1) = k + 1 + input by omega]

theorem ofInput_filled (main : List (Slot Items)) (input : ℕ) :
    ofInput input (Slot.filled main) = (Slot.read main input).toOption.toList := by
  have h := ofInput_filledFrom main 0 input
  rwa [Nat.zero_add] at h

theorem ofInput_filter (p : Items → Bool) (input : ℕ) (l : List (ℕ × Items)) :
    ofInput input (l.filter fun x => p x.2) = (ofInput input l).filter p := by
  rw [ofInput, ofInput, List.filter_map, List.filter_filter, List.filter_filter]
  exact congrArg (List.map Prod.snd) (List.filter_congr fun x _ => Bool.and_comm _ _)

theorem ofInput_eq_of_perm {l : List (ℕ × Items)} {main : List (Slot Items)}
    (h : l.Perm (Slot.filled main)) (input : ℕ) :
    ofInput input l = (Slot.read main input).toOption.toList := by
  have hperm : (ofInput input l).Perm (Slot.read main input).toOption.toList := by
    rw [← ofInput_filled]
    exact (h.filter _).map _
  cases hread : (Slot.read main input).toOption with
  | none =>
    rw [hread] at hperm
    exact List.perm_nil.mp hperm
  | some a =>
    rw [hread] at hperm
    exact List.perm_singleton.mp hperm

theorem read_filledMain (inputs : ℕ) (main : List (Slot Items)) (input : ℕ) :
    (Slot.read (filledMain inputs main) input).toOption.toList.filter (· ≠ [])
      = (Slot.read main input).toOption.toList.filter (· ≠ []) := by
  rw [filledMain, Slot.read, Slot.read]
  by_cases h : input < main.length
  · rw [List.getElem?_append_left (by rw [List.length_map]; exact h), List.getElem?_map]
    cases main[input]? with
    | none => rfl
    | some slot => cases slot <;> rfl
  · rw [List.getElem?_append_right (by rw [List.length_map]; omega), List.getElem?_replicate,
      List.getElem?_eq_none (by omega)]
    split <;> rfl

/-- The entries of the node are rows of a staggered table, none of them complete, and for each
input the data put on the stack and the data that waits are in the order of the deliveries. -/
structure Ordered (w : Workflow) (N : String) (s : WaitingLog) : Prop where
  wellFormed : WellFormedWaiting w N s.ed
  noHoles : NoHoles N s.ed
  staggered : Staggered (waitingEntries s.ed N)
  incomplete : ∀ i main, (waitingEntries s.ed N).get? i = some main → .null ∈ main
  order : ∀ input, (ofInput input s.put ++ column (waitingEntries s.ed N) input).Sublist
    (ofInput input s.delivered)

section

variable {env : ExecutionEnvironment} {w : Workflow} {N : String} {s s' : WaitingLog} {index : ℕ}
  {main : List (Slot Items)}

theorem smallest_of_complete {t : Dict ℕ (List (Slot Items))}
    (ht : Staggered t) (hindex : t.get? index = some main) (hnull : .null ∉ main)
    (hholes : .undefined ∉ main)
    (hother : ∀ i row, i ≠ index → t.get? i = some row → row.length = main.length ∧ .null ∈ row) :
    ∀ i ∈ t.keys, index ≤ i := by
  intro i hi
  by_contra hlt
  obtain ⟨row, hrow⟩ := Dict.mem_keys_iff.mp hi
  obtain ⟨hlength, hnullrow⟩ := hother i row (by omega) hrow
  obtain ⟨j, hj, hslot⟩ := List.mem_iff_getElem.mp hnullrow
  refine ht i hi index (Dict.mem_keys_iff.mpr ⟨main, hindex⟩) (by omega) j ?_ ?_
  · have hread : Slot.read main j = main[j] := by
      rw [Slot.read, List.getElem?_eq_getElem (by omega), Option.getD_some]
    rw [cell, hindex, Option.getD_some, hread]
    have hmem := List.getElem_mem (l := main) (n := j) (by omega)
    rcases hval : main[j] with _ | _ | a
    · exact absurd (hval ▸ hmem) hholes
    · exact absurd (hval ▸ hmem) hnull
    · exact Option.some_ne_none a
  · rw [cell, hrow, Option.getD_some, Slot.read, List.getElem?_eq_getElem hj, Option.getD_some,
      hslot]
    rfl

variable (w) in
theorem column_written (ed : IRunExecutionData) (input : ℕ) (items : Items)
    (ht : Staggered (waitingEntries ed N))
    (hlast : (∀ i ∈ (waitingEntries ed N).keys, cell (waitingEntries ed N) i input ≠ none) →
      ∀ i ∈ (waitingEntries ed N).keys, i ≤ (waitingEntries ed N).keys.length) :
    let t := (waitingEntries ed N).set (chooseWaitingNodeIndex (waitingEntries ed N) input)
      (Slot.assign (targetArray w N ed input) input (.data items))
    Staggered t ∧ ∀ j, ∃ l, l.Sublist (column (waitingEntries ed N) j) ∧
      column t j = l ++ if j = input then [items] else [] := by
  rw [targetArray, chooseWaitingNodeIndex]
  rcases hfind : findWaitingNodeIndex (waitingEntries ed N) input with _ | index
  · -- a new row at the end
    have hall : ∀ i ∈ (waitingEntries ed N).keys, cell (waitingEntries ed N) i input ≠ none := by
      intro i hi hnone
      have hdata := findWaitingNodeIndex_eq_none.mp hfind i hi
      rw [Slot.isFalsy, ← cell, hnone] at hdata
      cases hdata
    have hrow : ∀ k, (Slot.read (Slot.assign (List.replicate (w.numberOfInputs N) .null) input
        (.data items)) k).toOption = if k = input then some items else none := by
      intro k
      rw [Slot.read_assign]
      split
      · rfl
      · rw [Slot.read, List.getElem?_replicate]
        split <;> rfl
    rw [if_neg (by simp), Option.getD_none]
    exact ⟨ht.set_last (hlast hall) hrow hall, column_set_last (hlast hall) hrow⟩
  · -- the first row that misses the input
    obtain ⟨main, hmain, hfalsy⟩ := findWaitingNodeIndex_some hfind
    have hmem : index ∈ (waitingEntries ed N).keys := Dict.mem_keys_iff.mpr ⟨main, hmain⟩
    have hmiss : cell (waitingEntries ed N) index input = none := by
      rw [cell, hmain, Option.getD_some]
      exact toOption_eq_none_of_isFalsy hfalsy
    have hfirst : ∀ i ∈ (waitingEntries ed N).keys, i < index →
        cell (waitingEntries ed N) i input ≠ none := by
      intro i hi hlt hnone
      rw [findWaitingNodeIndex, List.find?_eq_some_iff_append] at hfind
      obtain ⟨-, before', after', hsplit', hbefore'⟩ := hfind
      have hi' := Dict.mem_indexKeys.mpr hi
      have hsorted := Dict.pairwise_indexKeys (waitingEntries ed N)
      rw [hsplit'] at hi' hsorted
      rcases List.mem_append.mp hi' with hi' | hi'
      · have hdata := hbefore' i hi'
        rw [Slot.isFalsy, ← cell, hnone] at hdata
        cases hdata
      · rw [List.pairwise_append, List.pairwise_cons] at hsorted
        rcases List.mem_cons.mp hi' with rfl | hi'
        · exact lt_irrefl _ hlt
        · exact lt_asymm hlt (hsorted.2.1.1 i hi')
    rw [if_pos (by simp), Option.getD_some]
    obtain ⟨hcolumn, hothers⟩ := column_assign (a := items) ht hmem hmiss
    refine ⟨ht.assign hmem hfirst,
      fun j => ⟨column (waitingEntries ed N) j, List.Sublist.refl _, ?_⟩⟩
    by_cases hj : j = input
    · rw [if_pos hj, hj]
      exact hcolumn
    · rw [if_neg hj, List.append_nil]
      exact hothers j hj

theorem perm_addedItems {before after : IRunExecutionData} {P : IExecuteData → Prop}
    {pairs : List (ℕ × Items)} (hgrown : Grown w P before after)
    (h : (after.nodeExecutionStack.flatMap (joinedPairs w N)).Perm
      (pairs ++ before.nodeExecutionStack.flatMap (joinedPairs w N))) :
    ((addedItems w before after).flatMap (joinedPairs w N)).Perm pairs := by
  obtain ⟨items, -, hstack⟩ := hgrown.stack
  have hadded : addedItems w before after = items := by
    rw [addedItems, hstack]
    split
    · rw [List.drop_left]
    · rw [List.length_append, Nat.add_sub_cancel, List.take_left]
  rw [hadded]
  rw [hstack] at h
  split at h
  · rw [List.flatMap_append] at h
    exact (List.perm_append_right_iff _).mp (List.perm_append_comm.trans h)
  · rw [List.flatMap_append] at h
    exact (List.perm_append_right_iff _).mp h

theorem sublist_of_put {put delivered waiting waiting' moved : List Items}
    (h : (put ++ waiting).Sublist delivered) (hwaiting : waiting = moved ++ waiting')
    {new : List Items} (hnew : new.Sublist moved) : (put ++ new ++ waiting').Sublist delivered := by
  refine List.Sublist.trans ?_ h
  rw [hwaiting, List.append_assoc]
  exact (List.Sublist.refl put).append (hnew.append (List.Sublist.refl waiting'))

theorem ofInput_dataPairs_of_perm {items : List IExecuteData}
    (h : (items.flatMap (joinedPairs w N)).Perm (Slot.filled main)) (input : ℕ) :
    ofInput input (dataPairs w N items)
      = (Slot.read main input).toOption.toList.filter (· ≠ []) := by
  have hfilter := ofInput_filter (fun a => decide (a ≠ [])) input (items.flatMap (joinedPairs w N))
  rw [ofInput_eq_of_perm h] at hfilter
  exact hfilter

theorem Ordered.deliver {runData : IRunData} {d : Delivery} (hN : 1 < w.numberOfInputs N)
    (hs : Ordered w N s) (hd : d.Delivers w N)
    (hlast : (∀ i ∈ (waitingEntries s.ed N).keys,
        cell (waitingEntries s.ed N) i d.connectionData.index ≠ none) →
      ∀ i ∈ (waitingEntries s.ed N).keys, i ≤ (waitingEntries s.ed N).keys.length) :
    let before := { s.ed with runData := runData }
    let after := (addNodeToBeExecuted w before d).state
    Ordered w N ⟨after, s.delivered ++ [d.delivered],
      s.put ++ dataPairs w N (addedItems w before after)⟩ := by
  intro before after
  have hwf : WellFormedWaiting w N before := ⟨hs.wellFormed.length, hs.wellFormed.source⟩
  obtain ⟨hwf', hcases⟩ := addNodeToBeExecuted_spec hN hwf hd
  obtain ⟨hholes', hhole⟩ := noHoles_addNodeToBeExecuted hN hwf hd hs.noHoles
  have hgrown := grown_addNodeToBeExecuted w before d
  have hlength : (Slot.assign (targetArray w N before d.connectionData.index) d.connectionData.index
      d.slot).length = w.numberOfInputs N := by
    rw [Slot.length_assign, (targetArray_spec hwf hd.input).1]
    have := hd.input
    omega
  obtain ⟨items, hitems⟩ := hd.items
  have hdelivered : d.delivered = (d.connectionData.index, items) := by
    rw [Delivery.delivered, hitems]
    rfl
  obtain ⟨hstaggered, hcolumn⟩ := column_written w before d.connectionData.index items
    hs.staggered hlast
  rw [← hitems] at hstaggered hcolumn
  set main := Slot.assign (targetArray w N before d.connectionData.index) d.connectionData.index
    d.slot with hmain
  set index := chooseWaitingNodeIndex (waitingEntries before N) d.connectionData.index with hindex
  set t := (waitingEntries before N).set index main with ht
  have hrow : t.get? index = some main := Dict.get?_set_self _ _ _
  -- the write alone adds what was delivered, at the end of its column
  have horder : ∀ input, (ofInput input s.put ++ column t input).Sublist
      (ofInput input (s.delivered ++ [d.delivered])) := by
    intro input
    obtain ⟨l, hl, hcol⟩ := hcolumn input
    have hone : ofInput input [d.delivered] =
        if input = d.connectionData.index then [items] else [] := by
      rw [hdelivered, ofInput, List.filter_singleton]
      by_cases h : d.connectionData.index = input
      · rw [if_pos h.symm, decide_eq_true h]
        rfl
      · rw [if_neg (Ne.symm h), decide_eq_false h]
        rfl
    rw [hcol, ofInput_append, hone, ← List.append_assoc]
    exact (((List.Sublist.refl _).append hl).trans (hs.order input)).append (List.Sublist.refl _)
  rcases hcases with ⟨hnull, hentries, hpairs⟩ | ⟨hnull, hentries, hpairs⟩
  · have hnone : ∀ input, ofInput input (dataPairs w N (addedItems w before after)) = [] := by
      intro input
      have hperm : ((addedItems w before after).flatMap (joinedPairs w N)).Perm [] :=
        perm_addedItems hgrown hpairs
      rw [dataPairs, List.perm_nil.mp hperm]
      rfl
    refine ⟨hwf', hholes', ?_, fun i row hi => ?_, fun input => ?_⟩
    · exact hentries.symm ▸ hstaggered
    · have hi : t.get? i = some row := hentries ▸ hi
      rw [ht, Dict.get?_set] at hi
      split at hi
      · exact Option.some_inj.mp hi ▸ hnull
      · exact hs.incomplete i row hi
    · have hcol : column (waitingEntries after N) input = column t input :=
        congrArg (column · input) hentries
      rw [hcol, ofInput_append, hnone, List.append_nil]
      exact horder input
  · have hsmallest : ∀ i ∈ t.keys, index ≤ i := by
      refine smallest_of_complete hstaggered hrow hnull hhole fun i row hi hget => ?_
      rw [ht, Dict.get?_set_of_ne _ hi] at hget
      exact ⟨(hwf.length i row hget).trans hlength.symm, hs.incomplete i row hget⟩
    have herase : waitingEntries after N = t.erase index := by
      rw [ht, Dict.erase_set]
      exact hentries
    refine ⟨hwf', hholes', ?_, fun i row hi => ?_, fun input => ?_⟩
    · exact herase.symm ▸ hstaggered.erase
    · have hi : (waitingEntries after N).get? i = some row := hi
      rw [hentries, Dict.get?_erase] at hi
      split at hi
      · cases hi
      · exact hs.incomplete i row hi
    · have hput := ofInput_dataPairs_of_perm (perm_addedItems hgrown hpairs) input
      have hsplit := column_erase_first (Dict.mem_keys_iff.mpr ⟨main, hrow⟩) hsmallest input
      have hcell : cell t index input = (Slot.read main input).toOption := by
        rw [cell, hrow]
        rfl
      have hcol : column (waitingEntries after N) input = column (t.erase index) input :=
        congrArg (column · input) herase
      rw [hcell] at hsplit
      rw [hcol, ofInput_append, hput]
      exact sublist_of_put (horder input) hsplit List.filter_sublist

theorem smallest_of_findReady
    (hready : findReady env s.ed s.ed.waitingExecution.objectKeys = .ok (some (N, index)))
    (hkeeps : KeepsOrder env N s .settle) : ∀ i ∈ (waitingEntries s.ed N).keys, index ≤ i := by
  obtain ⟨hlive, hfirst⟩ := firstRunIndex_spec (findReady_eq_some hready)
  have hex : ∃ m, m ∈ (waitingEntries s.ed N).keys := ⟨index, hlive⟩
  have hmin : ∀ i ∈ (waitingEntries s.ed N).keys, Nat.find hex ≤ i :=
    fun i hi => Nat.find_min' hex hi
  have hle := hkeeps index hready (Nat.find hex) (Nat.find_spec hex) hmin index hlive
  have heq : index = Nat.find hex :=
    toString_injective (String.le_antisymm (hfirst _ (Nat.find_spec hex)) hle)
  rw [heq]
  exact hmin

variable {ed : IRunExecutionData}

theorem settleEntry_of_ne {M : String} (index : ℕ) (hnamed : env.workflow.Named) (hM : N ≠ M)
    (hnode : ∃ node, env.workflow.getNode M = some node)
    (hstack : ed.nodeExecutionStack = []) :
    let ed' := (settleEntry env ed M index).state
    waitingEntries ed' N = waitingEntries ed N ∧ waitingSources ed' N = waitingSources ed N ∧
      dataPairs env.workflow N ed'.nodeExecutionStack = [] := by
  obtain ⟨node, hnode⟩ := hnode
  have hother : env.workflow.getNode M ≠ env.workflow.getNode N := by
    intro h
    exact hM ((hnamed N node (h ▸ hnode)).symm.trans (hnamed M node hnode))
  have hpairs : dataPairs env.workflow N [waitingItem env ed M index] = [] := by
    rw [dataPairs, List.flatMap_singleton, joinedPairs, if_neg fun h => hother h.1]
    rfl
  have hsources : ∀ ed : IRunExecutionData,
      waitingSources (deleteWaiting ed M index) N = waitingSources ed N := by
    intro ed
    rw [waitingSources, waitingSources, deleteWaiting]
    split
    · rw [Dict.get?_erase_of_ne _ hM]
    · rw [Dict.get?_set_of_ne _ hM]
  rw [settleEntry]
  dsimp only
  split
  · rw [Outcome.state_returned, waitingEntries_deleteWaiting_of_ne hM, hsources,
      nodeExecutionStack_deleteWaiting]
    split
    · exact ⟨rfl, rfl, by rw [hstack]; exact hpairs⟩
    · exact ⟨rfl, rfl, by rw [hstack]; rfl⟩
  · rw [Outcome.state_threw]
    split
    · exact ⟨rfl, rfl, by rw [hstack]; rfl⟩
    · refine ⟨?_, rfl, by rw [hstack]; rfl⟩
      rw [waitingEntries, Dict.get?_set_of_ne _ hM, waitingEntries]

theorem settleEntry_self
    (hN : 1 < env.workflow.numberOfInputs N) (hwf : WellFormedWaiting env.workflow N ed)
    (hmain : (waitingEntries ed N).get? index = some main) (hstack : ed.nodeExecutionStack = []) :
    let ed' := (settleEntry env ed N index).state
    WellFormedWaiting env.workflow N ed' ∧
      waitingEntries ed' N = (waitingEntries ed N).erase index ∧
      ∀ input, (ofInput input (dataPairs env.workflow N ed'.nodeExecutionStack)).Sublist
        (Slot.read main input).toOption.toList := by
  have hhas : ed.waitingExecutionSource.has N := by
    rw [Dict.has_iff]
    by_contra hnot
    have hsource := hwf.source index (Dict.mem_keys_iff.mpr ⟨main, hmain⟩)
    rw [waitingSources, Dict.get?_eq_none_iff.mpr hnot, Option.getD_none] at hsource
    cases hsource
  have hwaiting : waitingMain ed N index = main := by rw [waitingMain, hmain, Option.getD_some]
  rw [settleEntry, if_pos hhas, Outcome.state_returned, hwaiting]
  set pushed := if hasItems main then { ed with nodeExecutionStack :=
    ed.nodeExecutionStack ++ [waitingItem env ed N index] } else ed with hpushed
  have hentries : waitingEntries pushed N = waitingEntries ed N := by
    rw [hpushed]
    split <;> rfl
  have hsources : waitingSources pushed N = waitingSources ed N := by
    rw [hpushed]
    split <;> rfl
  intro ed'
  have hed' : waitingEntries ed' N = (waitingEntries ed N).erase index := by
    rw [← hentries]
    exact waitingEntries_deleteWaiting _ _ _
  refine ⟨⟨fun i row hi => ?_, fun i hi => ?_⟩, hed', fun input => ?_⟩
  · rw [hed', Dict.get?_erase] at hi
    split at hi
    · cases hi
    · exact hwf.length i row hi
  · rw [hed', Dict.mem_keys_erase] at hi
    refine mem_waitingSources_deleteWaiting hi.1 ?_ ?_
    · rw [hsources]
      exact hwf.source i hi.2
    · rw [hentries]
      exact hi.2
  · have hput : ed'.nodeExecutionStack = pushed.nodeExecutionStack :=
      nodeExecutionStack_deleteWaiting _ _ _
    rw [hput, hpushed]
    split
    · -- the data of the entry, with empty arrays for the inputs without any
      set inputs := ((env.workflow.getNode N).map fun node => (env.nodeType node).inputs).getD 0
      have hlong : 1 < (filledMain inputs main).length := by
        rw [filledMain, List.length_append, List.length_map, hwf.length index main hmain]
        omega
      have hpairs : ([waitingItem env ed N index].flatMap (joinedPairs env.workflow N)).Perm
          (Slot.filled (filledMain inputs main)) := by
        rw [List.flatMap_singleton, joinedPairs, waitingItem, mainOnly_get?_main, hwaiting,
          Option.getD_some, if_pos ⟨rfl, hlong⟩]
      show (ofInput input (dataPairs env.workflow N (ed.nodeExecutionStack ++ _))).Sublist _
      rw [hstack, List.nil_append, ofInput_dataPairs_of_perm hpairs, read_filledMain]
      exact List.filter_sublist
    · rw [hstack]
      exact List.nil_sublist _

theorem Ordered.settle (hnamed : env.workflow.Named) (hN : 1 < env.workflow.numberOfInputs N)
    (hs : Ordered env.workflow N s) (hstack : s.ed.nodeExecutionStack = [])
    (hkeeps : KeepsOrder env N s .settle) :
    Ordered env.workflow N { s with
      ed := settleReady env s.ed
      put := s.put ++ dataPairs env.workflow N (settleReady env s.ed).nodeExecutionStack } := by
  have hstay : ∀ ed', waitingEntries ed' N = waitingEntries s.ed N →
      waitingSources ed' N = waitingSources s.ed N →
      dataPairs env.workflow N ed'.nodeExecutionStack = [] →
      Ordered env.workflow N { s with
        ed := ed'
        put := s.put ++ dataPairs env.workflow N ed'.nodeExecutionStack } := by
    intro ed' hentries hsources hpairs
    obtain ⟨⟨hlength, hsource⟩, hholes, hstaggered, hincomplete, horder⟩ := hs
    rw [← hentries] at hlength hsource hstaggered hincomplete horder
    rw [← hsources] at hsource
    rw [NoHoles, ← hentries] at hholes
    rw [hpairs, List.append_nil]
    exact ⟨⟨hlength, hsource⟩, hholes, hstaggered, hincomplete, horder⟩
  rw [settleReady]
  rcases hready : findReady env s.ed s.ed.waitingExecution.objectKeys with e | _ | ⟨M, index⟩
  · exact hstay s.ed rfl rfl (by rw [hstack]; rfl)
  · exact hstay s.ed rfl rfl (by rw [hstack]; rfl)
  · dsimp only
    by_cases hM : N = M
    · subst hM
      have hlive := (firstRunIndex_spec (findReady_eq_some hready)).1
      obtain ⟨main, hmain⟩ := Dict.mem_keys_iff.mp hlive
      obtain ⟨hwf, hentries, hput⟩ := settleEntry_self hN hs.wellFormed hmain hstack
      have hsub : ∀ i row,
          (waitingEntries (settleEntry env s.ed N index).state N).get? i = some row →
          (waitingEntries s.ed N).get? i = some row := by
        intro i row hi
        rw [hentries, Dict.get?_erase] at hi
        split at hi
        · cases hi
        · exact hi
      refine ⟨hwf, fun i row hi => hs.noHoles i row (hsub i row hi), ?_,
        fun i row hi => hs.incomplete i row (hsub i row hi), fun input => ?_⟩
      · exact hentries.symm ▸ hs.staggered.erase
      · have hsplit := column_erase_first hlive (smallest_of_findReady hready hkeeps) input
        rw [cell, hmain, Option.getD_some] at hsplit
        rw [ofInput_append, hentries]
        exact sublist_of_put (hs.order input) hsplit (hput input)
    · obtain ⟨node, hnode, -⟩ := requirementMet_of_findReady hready
      obtain ⟨hentries, hsources, hpairs⟩ := settleEntry_of_ne index hnamed hM ⟨node, hnode⟩ hstack
      exact hstay _ hentries hsources hpairs

/-- Step lemma: a turn that keeps the order keeps the waiting data in order, and is first in,
first out. -/
theorem Ordered.step (hnamed : env.workflow.Named) (hN : 1 < env.workflow.numberOfInputs N)
    {turn : WaitingTurn} (hs : Ordered env.workflow N s)
    (hstep : waitingStep env N s turn = .ok s') (hkeeps : KeepsOrder env N s turn) :
    FirstInFirstOut env N s turn s' ∧ Ordered env.workflow N s' := by
  have hinv : Ordered env.workflow N s' := by
    cases turn with
    | deliver runData d =>
      obtain ⟨⟨hnode, hinput, hslot⟩, rfl⟩ := onlyIf_eq_ok.mp hstep
      have hitems : ∃ items, d.slot = .data items := by
        cases hd : d.slot with
        | data items => exact ⟨items, rfl⟩
        | undefined => rw [hd] at hslot; cases hslot
        | null => rw [hd] at hslot; cases hslot
      exact hs.deliver hN ⟨hnode, hinput, hitems⟩ hkeeps
    | settle =>
      obtain ⟨hstack, rfl⟩ := onlyIf_eq_ok.mp hstep
      exact hs.settle hnamed hN hstack hkeeps
    | other ed =>
      obtain ⟨⟨hentries, hsources⟩, rfl⟩ := onlyIf_eq_ok.mp hstep
      have hed : waitingEntries ed N = waitingEntries s.ed N := by
        rw [waitingEntries, hentries, waitingEntries]
      have hes : waitingSources ed N = waitingSources s.ed N := by
        rw [waitingSources, hsources, waitingSources]
      obtain ⟨⟨hlength, hsource⟩, hholes, hstaggered, hincomplete, horder⟩ := hs
      rw [← hed] at hlength hsource hstaggered hincomplete horder
      rw [← hes] at hsource
      rw [NoHoles, ← hed] at hholes
      exact ⟨⟨hlength, hsource⟩, hholes, hstaggered, hincomplete, horder⟩
  refine ⟨⟨?_, fun input => ?_⟩, hinv⟩
  · rintro rfl index hready
    exact smallest_of_findReady hready hkeeps
  · exact (List.sublist_append_left _ _).trans (hinv.order input)

theorem ordered_of_get?_eq_none (h : ed.waitingExecution.get? N = none) :
    Ordered w N ⟨ed, [], []⟩ := by
  have hempty : waitingEntries ed N = Dict.empty := by rw [waitingEntries, h, Option.getD_none]
  refine ⟨wellFormedWaiting_of_get?_eq_none h, fun i row hi => ?_, fun i hi => ?_,
    fun i row hi => ?_, fun input => ?_⟩
  · rw [hempty] at hi
    cases hi
  · have hi : i ∈ (waitingEntries ed N).keys := hi
    rw [hempty] at hi
    cases hi
  · have hi : (waitingEntries ed N).get? i = some row := hi
    rw [hempty] at hi
    cases hi
  · show (_ ++ column (waitingEntries ed N) input).Sublist _
    rw [hempty]
    exact List.Sublist.refl _

/-- **First in, first out, in every run that keeps the order.**  From a state in which the node
does not wait, as long as a new entry comes after all live ones and the smallest index of the
node is the first as a string where the pass takes an entry of it: the pass takes the smallest
index, and for each input the data put on the stack stands in the order of its deliveries. -/
theorem firstInFirstOut_of_keepsOrder {ed : IRunExecutionData} {turns : List WaitingTurn}
    (hnamed : env.workflow.Named) (hN : 1 < env.workflow.numberOfInputs N)
    (hempty : ed.waitingExecution.get? N = none)
    (hkeeps : Along (waitingStep env N) (fun s turn _ => KeepsOrder env N s turn) ⟨ed, [], []⟩
      turns) :
    Along (waitingStep env N) (FirstInFirstOut env N) ⟨ed, [], []⟩ turns := by
  refine Along.of_step (I := Ordered env.workflow N) ?_ (ordered_of_get?_eq_none hempty) hkeeps
  intro s turn s' hs hstep hturn
  exact hs.step hnamed hN hstep hturn

end

def mergeEnvironment : ExecutionEnvironment where
  workflow := mergeWorkflow
  runNode _ := ⟨.returned none, false⟩
  nodeType node :=
    { inputs := 2, requiredInputs := if node.name = "Merge" then some (.amount 1) else none }

def deliverTurn (parentNodeName : String) (input n : ℕ) : WaitingTurn :=
  .deliver (deliverItems parentNodeName input n).1 (deliverItems parentNodeName input n).2

theorem named_mergeEnvironment : mergeEnvironment.workflow.Named := by
  have hconstruct : Workflow.construct [{ name := "Loop" }, { name := "Other" }, { name := "Merge" }]
      mergeWorkflow.connectionsBySourceNode ⟨some .v1⟩ = .ok mergeWorkflow := rfl
  exact Workflow.named_construct hconstruct

/-- Two entries wait, and the pass takes the first. -/
theorem firstInFirstOut_twoWaiting :
    Along (waitingStep mergeEnvironment "Merge") (FirstInFirstOut mergeEnvironment "Merge")
      ⟨{}, [], []⟩ [deliverTurn "Loop" 0 1, deliverTurn "Loop" 0 2, .settle] := by
  refine firstInFirstOut_of_keepsOrder named_mergeEnvironment (by decide) rfl ?_
  refine Along.mono (R := fun s _ _ =>
    (∀ i ∈ (waitingEntries s.ed "Merge").keys, i ≤ (waitingEntries s.ed "Merge").keys.length) ∧
      ∀ m ∈ (waitingEntries s.ed "Merge").keys, ∀ i ∈ (waitingEntries s.ed "Merge").keys,
        m ≤ i → toString m ≤ toString i) ?_ (by decide)
  rintro s (⟨runData, d⟩ | _ | ed) s' ⟨hlast, hsmall⟩
  · exact fun _ => hlast
  · exact fun _ _ m hm hmin i hi => hsmall m hm i hi (hmin i hi)
  · trivial

/-- Eleven entries wait; the first two hold no items. -/
def backlog : List WaitingTurn :=
  (List.range 11).map fun k => deliverTurn "Other" 1 (if k < 2 then 0 else k)

def backlogWorkedOff : IRunExecutionData :=
  match runInputs (waitingStep mergeEnvironment "Merge") ⟨{}, [], []⟩
      (backlog ++ [.settle, .settle, .settle]) with
  | .ok s => { s.ed with nodeExecutionStack := [] }
  | .error _ => {}

/-- The entry with the index 10 is released before the one with the index 2. -/
theorem not_firstInFirstOut_backlog :
    ¬ Along (waitingStep mergeEnvironment "Merge") (FirstInFirstOut mergeEnvironment "Merge")
      ⟨{}, [], []⟩ (backlog ++ [.settle, .settle, .settle, .other backlogWorkedOff, .settle]) := by
  intro h
  have hlengths := h.mono (C := fun _ _ s' =>
    ((ofInput 1 s'.put).map List.length).Sublist ((ofInput 1 s'.delivered).map List.length))
    fun _ _ _ hstep => (hstep.order 1).map _
  exact absurd hlengths (by decide +kernel)

end N8n
