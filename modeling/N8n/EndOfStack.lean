/-
The end-of-stack pass: what happens to waiting nodes when the stack is empty.

The pass goes through the waiting nodes (`findReady`) and looks at one entry of
each, the one whose index comes first as a string.  A ready entry with items
goes to the stack and ends the pass, one without items is removed and the pass
starts again.

* `endOfStackPass_findReady` — a pass that leaves the stack empty leaves no
  node with a ready first entry.
-/
import N8n.NodeAttempts
import N8n.WaitingConservation

namespace N8n

/-- `Object.keys(entries).sort()[0]`: the index that is first as a string. -/
def firstRunIndex (entries : Dict ℕ (List (Slot Items))) : Option ℕ :=
  (entries.keys.insertionSort (fun a b => toString a ≤ toString b)).head?

def inputsWithData (main : List (Slot Items)) : List ℕ :=
  (main.zipIdx.filter (fun slot => ¬ slot.1.isFalsy)).map Prod.snd

/-- Some input holds items: `taskDataMain.filter((data) => data.length).length !== 0`. -/
def hasItems (main : List (Slot Items)) : Bool :=
  main.any fun slot => slot.toOption.any (· ≠ [])

/-- The data with an empty array for every input without any, up to the number
of inputs of the node type. -/
def filledMain (inputs : ℕ) (main : List (Slot Items)) : List (Slot Items) :=
  main.map (fun slot => if slot = .null then .data [] else slot)
    ++ List.replicate (inputs - main.length) (.data [])

section

variable (env : ExecutionEnvironment)

/-- The required inputs of a node; only the v1 order knows them. -/
def requiredInputs (node : INode) : Option RequiredInputs :=
  if env.workflow.isLegacyExecutionOrder then none else (env.nodeType node).requiredInputs

/-- All inputs are required: the node never runs on a part of them. -/
def allInputsRequired (node : INode) : Bool :=
  match requiredInputs env node with
  | none => false
  | some (.inputs indexes) => indexes.length = (env.nodeType node).inputs
  | some (.amount n) => n = (env.nodeType node).inputs

def requirementMet (node : INode) (main : List (Slot Items)) : Bool :=
  match requiredInputs env node with
  | none => true
  | some (.inputs indexes) => indexes.all fun i => i ∈ inputsWithData main
  | some (.amount n) => n ≤ (inputsWithData main).length

def parentIsWaiting (ed : IRunExecutionData) (nodeName : String) : Bool :=
  (env.workflow.getParentNodes nodeName).any ed.waitingExecution.has

def waitingMain (ed : IRunExecutionData) (nodeName : String) (index : ℕ) : List (Slot Items) :=
  ((waitingEntries ed nodeName).get? index).getD []

/-- The first node whose first entry is ready, with the index of the entry. -/
def findReady (ed : IRunExecutionData) : List String → Except JsError (Option (String × ℕ))
  | [] => .ok none
  | nodeName :: waitingNodes =>
    match env.workflow.getNode nodeName with
    | none => findReady ed waitingNodes
    | some checkNode =>
      if allInputsRequired env checkNode ∨ parentIsWaiting env ed nodeName then
        findReady ed waitingNodes
      else match firstRunIndex (waitingEntries ed nodeName) with
        | none => .error .typeError
        | some index =>
          if requirementMet env checkNode (waitingMain ed nodeName index) then
            .ok (some (nodeName, index))
          else findReady ed waitingNodes

def waitingItem (ed : IRunExecutionData) (nodeName : String) (index : ℕ) : IExecuteData where
  node := env.workflow.getNode nodeName
  data := mainOnly (filledMain
    (((env.workflow.getNode nodeName).map fun node => (env.nodeType node).inputs).getD 0)
    (waitingMain ed nodeName index))
  source := ((waitingSources ed nodeName).get? index).map mainOnly

/-- A ready entry leaves the waiting state, for the stack if it has items. -/
def settleEntry (ed : IRunExecutionData) (nodeName : String) (index : ℕ) :
    Outcome JsError IRunExecutionData :=
  let pushed := if hasItems (waitingMain ed nodeName index) then
    { ed with nodeExecutionStack :=
        ed.nodeExecutionStack ++ [waitingItem env ed nodeName index] } else ed
  if ed.waitingExecutionSource.has nodeName then .returned (deleteWaiting pushed nodeName index)
  else .threw .typeError (if hasItems (waitingMain ed nodeName index) then ed else
    { ed with waitingExecution :=
        ed.waitingExecution.set nodeName ((waitingEntries ed nodeName).erase index) })

def waitingCount (ed : IRunExecutionData) : ℕ :=
  (ed.waitingExecution.entries.map fun e => e.2.keys.length).sum

/-- The `for` loop over the waiting nodes, started again after each entry that
was removed without items. -/
def endOfStackRounds : ℕ → IRunExecutionData → Outcome JsError IRunExecutionData
  | 0, ed => .returned ed
  | rounds + 1, ed => match findReady env ed ed.waitingExecution.objectKeys with
    | .error e => .threw e ed
    | .ok none => .returned ed
    | .ok (some (nodeName, index)) =>
      (settleEntry env ed nodeName index).andThen fun ed' =>
        if hasItems (waitingMain ed nodeName index) then .returned ed'
        else endOfStackRounds rounds ed'

/-- The pass; each round but the last removes an entry. -/
def endOfStackPass (ed : IRunExecutionData) : Outcome JsError IRunExecutionData :=
  endOfStackRounds env (waitingCount ed + 1) ed

/-- The entry is one that the rule of the pass would release: it has items, its
node may run on the inputs with data, and no main ancestor of the node waits. -/
structure Satisfied (ed : IRunExecutionData) (nodeName : String) (index : ℕ) : Prop where
  entry : ∃ main, (waitingEntries ed nodeName).get? index = some main ∧ hasItems main = true ∧
    ∃ node, env.workflow.getNode nodeName = some node ∧ allInputsRequired env node = false ∧
      requirementMet env node main = true
  parents : parentIsWaiting env ed nodeName = false

def NothingSatisfied (ed : IRunExecutionData) : Prop :=
  ∀ nodeName index, ¬ Satisfied env ed nodeName index

end

theorem firstRunIndex_spec {entries : Dict ℕ (List (Slot Items))} {first : ℕ}
    (h : firstRunIndex entries = some first) :
    first ∈ entries.keys ∧ ∀ i ∈ entries.keys, toString first ≤ toString i := by
  let le : ℕ → ℕ → Prop := fun a b => toString a ≤ toString b
  have : Std.Total le := ⟨fun a b => String.le_total (toString a) (toString b)⟩
  have : IsTrans ℕ le := ⟨fun _ _ _ => String.le_trans⟩
  have hsorted := List.pairwise_insertionSort le entries.keys
  obtain ⟨rest, hrest⟩ := List.head?_eq_some_iff.mp h
  have hmem : ∀ {i : ℕ}, i ∈ entries.keys ↔ i = first ∨ i ∈ rest := by
    intro i
    rw [← List.mem_insertionSort le]
    show i ∈ entries.keys.insertionSort (fun a b => toString a ≤ toString b) ↔ _
    rw [hrest, List.mem_cons]
  refine ⟨hmem.mpr (Or.inl rfl), fun i hi => ?_⟩
  change (entries.keys.insertionSort (fun a b => toString a ≤ toString b)).Pairwise le at hsorted
  rw [hrest, List.pairwise_cons] at hsorted
  rcases hmem.mp hi with rfl | hi
  · exact String.le_refl _
  · exact hsorted.1 i hi

/-- Numbers are compared as strings. -/
example : firstRunIndex (((Dict.empty.set 2 []).set 10 []).set 9 []) = some 10 := by decide

section Pass

variable {env : ExecutionEnvironment} {ed ed' : IRunExecutionData} {nodeName : String} {index : ℕ}
  {names : List String}

theorem findReady_eq_none (h : findReady env ed names = .ok none) :
    ∀ nodeName ∈ names, ∀ node, env.workflow.getNode nodeName = some node →
      allInputsRequired env node = false → parentIsWaiting env ed nodeName = false →
      ∃ first, firstRunIndex (waitingEntries ed nodeName) = some first ∧
        requirementMet env node (waitingMain ed nodeName first) = false := by
  induction names with
  | nil => exact fun _ hname => by cases hname
  | cons name names ih =>
    intro nodeName hname node hnode hall hparent
    rw [findReady] at h
    rcases List.mem_cons.mp hname with rfl | hname
    · rw [hnode] at h
      simp only [hall, hparent, Bool.false_eq_true, or_self, if_false] at h
      split at h
      · cases h
      · next first hfirst =>
        refine ⟨first, hfirst, ?_⟩
        split at h
        · cases h
        · next hmet => exact Bool.eq_false_iff.mpr hmet
    · refine ih ?_ nodeName hname node hnode hall hparent
      split at h
      · exact h
      · split at h
        · exact h
        · split at h
          · cases h
          · split at h
            · cases h
            · exact h

theorem findReady_eq_some
    (h : findReady env ed names = .ok (some (nodeName, index))) :
    firstRunIndex (waitingEntries ed nodeName) = some index := by
  induction names with
  | nil => cases h
  | cons name names ih =>
    rw [findReady] at h
    split at h
    · exact ih h
    · split at h
      · exact ih h
      · split at h
        · cases h
        · next first hfirst =>
          split at h
          · cases h
            exact hfirst
          · exact ih h

theorem settleEntry_eq_returned (h : settleEntry env ed nodeName index = .returned ed') :
    ed' = deleteWaiting (if hasItems (waitingMain ed nodeName index) then
      { ed with nodeExecutionStack :=
          ed.nodeExecutionStack ++ [waitingItem env ed nodeName index] } else ed)
      nodeName index := by
  simp only [settleEntry] at h
  split at h
  · exact (Outcome.returned.inj h).symm
  · cases h

theorem waitingCount_deleteWaiting (h : index ∈ (waitingEntries ed nodeName).keys) :
    waitingCount (deleteWaiting ed nodeName index) < waitingCount ed := by
  have hsome : ∃ entries, ed.waitingExecution.get? nodeName = some entries := by
    rcases hget : ed.waitingExecution.get? nodeName with _ | entries
    · rw [waitingEntries, hget, Option.getD_none] at h
      cases h
    · exact ⟨entries, rfl⟩
  obtain ⟨entries, hentries⟩ := hsome
  have hed : waitingEntries ed nodeName = entries := by
    rw [waitingEntries, hentries, Option.getD_some]
  rw [hed] at h
  have hlength := Dict.length_keys_erase h
  have hbefore := ((Dict.perm_cons_erase hentries).map (fun e => e.2.keys.length)).sum_nat
  simp only [List.map_cons, List.sum_cons] at hbefore
  rw [waitingCount, waitingCount, deleteWaiting, hed, hbefore]
  split
  · show ((ed.waitingExecution.erase nodeName).entries.map _).sum < _
    omega
  · have hafter := ((Dict.perm_set ed.waitingExecution nodeName (entries.erase index)).map
      (fun e => e.2.keys.length)).sum_nat
    simp only [List.map_cons, List.sum_cons] at hafter
    show ((ed.waitingExecution.set nodeName _).entries.map _).sum < _
    rw [hafter]
    omega

/-- **A pass that leaves the stack empty ends because nothing is ready.**  The
number of rounds suffices: each round but the last removes an entry. -/
theorem endOfStackPass_findReady (h : endOfStackPass env ed = .returned ed')
    (hstack : ed'.nodeExecutionStack = []) :
    findReady env ed' ed'.waitingExecution.objectKeys = .ok none := by
  have key : ∀ {rounds : ℕ} {ed : IRunExecutionData}, waitingCount ed < rounds →
      endOfStackRounds env rounds ed = .returned ed' →
      findReady env ed' ed'.waitingExecution.objectKeys = .ok none := by
    intro rounds
    induction rounds with
    | zero => exact fun hrounds => absurd hrounds (by omega)
    | succ rounds ih =>
      intro ed hrounds h
      rw [endOfStackRounds] at h
      split at h
      · cases h
      · next hnone =>
        cases h
        exact hnone
      · next nodeName index hready =>
        rcases hsettle : settleEntry env ed nodeName index with ed₁ | ⟨e, ed₁⟩
        · rw [hsettle, Outcome.returned_andThen] at h
          have hed₁ := settleEntry_eq_returned hsettle
          split at h
          · next hitems =>
            cases h
            rw [hed₁, nodeExecutionStack_deleteWaiting, if_pos hitems] at hstack
            simp at hstack
          · next hitems =>
            rw [if_neg hitems] at hed₁
            have hlive := (firstRunIndex_spec (findReady_eq_some hready)).1
            have hcount := waitingCount_deleteWaiting hlive
            rw [← hed₁] at hcount
            exact ih (by omega) h
        · rw [hsettle, Outcome.threw_andThen] at h
          cases h
  exact key (Nat.lt_succ_self _) h

end Pass

end N8n
