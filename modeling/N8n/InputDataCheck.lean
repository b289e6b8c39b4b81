/-
The check for the input data of a node, and the items it puts back.

`ensureInputData` goes through the main inputs of the node and stops at the first one that no
enabled node feeds, with `true`.  An input it comes to lacks data for it if there is no main
data, if the array is shorter than the index of the input, or if there is a `null`: not if the
array ends right before the input, or has a hole there.

* `ensuresInputData_iff` — **`true` means that the inputs with an enabled node upstream have
  data, iff a missing input comes with one where the check fails, with none in front of it that
  no enabled node feeds**.
-/
import N8n.HighestNodes

namespace N8n

/-- `ensureInputData` from one input on: what it returns, with the run data after it. -/
def ensureInputsOn (w : Workflow) (nodeName : String) (executionData : IExecuteData)
    (ed : IRunExecutionData) : List ℕ → Except JsError (Bool × IRunExecutionData)
  | [] => .ok (true, ed)
  | connectionIndex :: rest =>
    match w.getHighestNode nodeName (some connectionIndex) with
    | .error e => .error e
    | .ok [] => .ok (true, ed)
    | .ok (_ :: _) =>
      let pushed := { ed with nodeExecutionStack := ed.nodeExecutionStack ++ [executionData] }
      match executionData.data.get? .main with
      | none => .ok (false, pushed)
      | some main =>
        if w.isLegacyExecutionOrder ∧
            (main.length < connectionIndex ∨ main[connectionIndex]? = some .null) then
          .ok (false, pushed)
        else ensureInputsOn w nodeName executionData ed rest

def ensureInputDataOn (w : Workflow) (ed : IRunExecutionData) (nodeName : String)
    (executionData : IExecuteData) : Except JsError (Bool × IRunExecutionData) :=
  ensureInputsOn w nodeName executionData ed (List.range (w.numberOfInputs nodeName))

/-- The input has an enabled node upstream, as `getHighestNode` says. -/
def hasHighestNode (w : Workflow) (nodeName : String) (input : ℕ) : Bool :=
  match w.getHighestNode nodeName (some input) with
  | .ok (_ :: _) => true
  | _ => false

def hasInputData (data : ITaskDataConnections) (input : ℕ) : Bool :=
  !(Slot.read ((data.get? .main).getD []) input).isFalsy

/-- What the function promises for an item: with `true`, data for every input that has an
enabled node upstream; with `false`, nothing but the item put back. -/
structure EnsuresInputData (w : Workflow) (nodeName : String) (executionData : IExecuteData) :
    Prop where
  complete : ∀ ed ed', ensureInputDataOn w ed nodeName executionData = .ok (true, ed') →
    ∀ input < w.numberOfInputs nodeName, hasHighestNode w nodeName input = true →
      hasInputData executionData.data input = true
  deferred : ∀ ed ed', ensureInputDataOn w ed nodeName executionData = .ok (false, ed') →
    ed' = { ed with nodeExecutionStack := ed.nodeExecutionStack ++ [executionData] }

/-- The check fails at the input: there is no main data, the array is shorter than the index, or
there is a `null`. -/
def FailsAt (data : ITaskDataConnections) (input : ℕ) : Prop :=
  match data.get? .main with
  | none => True
  | some main => main.length < input ∨ main[input]? = some .null

instance (data : ITaskDataConnections) (input : ℕ) : Decidable (FailsAt data input) :=
  match h : data.get? .main with
  | none => isTrue (by rw [FailsAt, h]; trivial)
  | some main => decidable_of_iff (main.length < input ∨ main[input]? = some .null)
    (by rw [FailsAt, h])

/-- Where an input with an enabled node upstream has no data, the check fails at some input, and
no input up to that one is without an enabled node upstream. -/
def MissesCaught (w : Workflow) (nodeName : String) (data : ITaskDataConnections) : Prop :=
  (∃ input < w.numberOfInputs nodeName, hasHighestNode w nodeName input = true ∧
    hasInputData data input = false) →
  ∃ input < w.numberOfInputs nodeName, FailsAt data input ∧
    ∀ i ≤ input, hasHighestNode w nodeName i = true

instance (w : Workflow) (nodeName : String) (data : ITaskDataConnections) :
    Decidable (MissesCaught w nodeName data) := inferInstanceAs (Decidable (_ → _))

section

variable {w : Workflow} {nodeName : String} {executionData : IExecuteData}
  {data : ITaskDataConnections} {ed : IRunExecutionData}

theorem ensureInputDataOn_eq :
    ensureInputDataOn w ed nodeName executionData =
      (ensureInputData w nodeName executionData.data).map fun hasInputData =>
        (hasInputData, if hasInputData then ed else
          { ed with nodeExecutionStack := ed.nodeExecutionStack ++ [executionData] }) := by
  rw [ensureInputDataOn, ensureInputData]
  induction List.range (w.numberOfInputs nodeName) with
  | nil => rfl
  | cons connectionIndex rest ih =>
    rw [ensureInputsOn, ensureInputs]
    rcases w.getHighestNode nodeName (some connectionIndex) with e | _ | ⟨name, names⟩
    · rfl
    · rfl
    · dsimp only
      rcases executionData.data.get? .main with _ | main
      · rfl
      · dsimp only
        split
        · rfl
        · exact ih

theorem ensureInputs_range'_eq_false_iff (hlegacy : w.isLegacyExecutionOrder = true) (k n : ℕ) :
    ensureInputs w nodeName data (List.range' k n) = .ok false ↔
      ∃ input, k ≤ input ∧ input < k + n ∧ FailsAt data input ∧
        ∀ i, k ≤ i → i ≤ input → hasHighestNode w nodeName i = true := by
  induction n generalizing k with
  | zero =>
    refine iff_of_false (fun h => by cases h) ?_
    rintro ⟨input, hle, hlt, -⟩
    omega
  | succ n ih =>
    -- where the check does not come further than the first input
    have hstop : hasHighestNode w nodeName k = false →
        ¬ ∃ input, k ≤ input ∧ input < k + (n + 1) ∧ FailsAt data input ∧
          ∀ i, k ≤ i → i ≤ input → hasHighestNode w nodeName i = true := by
      rintro hnone ⟨input, hle, -, -, hall⟩
      rw [hall k (le_refl k) hle] at hnone
      cases hnone
    -- where it fails at the first input
    have hfail : hasHighestNode w nodeName k = true → FailsAt data k →
        ∃ input, k ≤ input ∧ input < k + (n + 1) ∧ FailsAt data input ∧
          ∀ i, k ≤ i → i ≤ input → hasHighestNode w nodeName i = true := by
      intro hsome hfails
      refine ⟨k, le_refl k, by omega, hfails, fun i hle hge => ?_⟩
      rwa [le_antisymm hge hle]
    rw [List.range'_succ, ensureInputs]
    rcases hhighest : w.getHighestNode nodeName (some k) with e | _ | ⟨name, names⟩
    · exact iff_of_false (fun h => by cases h) (hstop (by rw [hasHighestNode, hhighest]))
    · exact iff_of_false (fun h => by cases h) (hstop (by rw [hasHighestNode, hhighest]))
    · have hsome : hasHighestNode w nodeName k = true := by rw [hasHighestNode, hhighest]
      dsimp only
      rcases hmain : data.get? .main with _ | main
      · exact iff_of_true rfl (hfail hsome (by rw [FailsAt, hmain]; trivial))
      · dsimp only
        have hfails : FailsAt data k ↔ main.length < k ∨ main[k]? = some .null := by
          rw [FailsAt, hmain]
        by_cases hk : main.length < k ∨ main[k]? = some .null
        · rw [if_pos ⟨hlegacy, hk⟩]
          exact iff_of_true rfl (hfail hsome (hfails.mpr hk))
        · rw [if_neg fun h => hk h.2, ih]
          constructor
          · rintro ⟨input, hle, hlt, hin, hall⟩
            refine ⟨input, by omega, by omega, hin, fun i hi hi' => ?_⟩
            rcases hi.eq_or_lt with rfl | hi
            · exact hsome
            · exact hall i hi hi'
          · rintro ⟨input, hle, hlt, hin, hall⟩
            have hne : input ≠ k := fun heq => hk (hfails.mp (heq ▸ hin))
            exact ⟨input, by omega, by omega, hin, fun i hi hi' => hall i (by omega) hi'⟩

theorem ensureInputs_eq_error {inputs : List ℕ} {e : JsError}
    (h : ensureInputs w nodeName data inputs = .error e) : w.getNode nodeName = none := by
  by_contra hex
  obtain ⟨node, hnode⟩ := Option.ne_none_iff_exists'.mp hex
  have hok : ∀ input, ∃ names, w.getHighestNode nodeName (some input) = .ok names := by
    intro input
    rcases hslots : w.mainInputs nodeName with _ | slots
    · refine ⟨if node.disabled = some false then [nodeName] else [], ?_⟩
      rw [Workflow.getHighestNode, Workflow.highestNodes, hnode, hslots]
      rfl
    · obtain ⟨names, hnames, -⟩ := Workflow.exists_getHighestNode hnode hslots input
      exact ⟨names, hnames⟩
  induction inputs with
  | nil => cases h
  | cons input inputs ih =>
    obtain ⟨names, hnames⟩ := hok input
    rw [ensureInputs, hnames] at h
    cases names with
    | nil => cases h
    | cons name names =>
      dsimp only at h
      split at h
      · cases h
      · split at h
        · cases h
        · exact ih h

theorem hasHighestNode_eq_false (h : w.getNode nodeName = none) (input : ℕ) :
    hasHighestNode w nodeName input = false := by
  rw [hasHighestNode, Workflow.getHighestNode, Workflow.highestNodes, h]
  rfl

/-- **When the check keeps its promise.** -/
theorem ensuresInputData_iff (hlegacy : w.isLegacyExecutionOrder = true) :
    EnsuresInputData w nodeName executionData ↔ MissesCaught w nodeName executionData.data := by
  have hfalse : ensureInputData w nodeName executionData.data = .ok false ↔
      ∃ input < w.numberOfInputs nodeName, FailsAt executionData.data input ∧
        ∀ i ≤ input, hasHighestNode w nodeName i = true := by
    rw [ensureInputData, List.range_eq_range', ensureInputs_range'_eq_false_iff hlegacy]
    exact exists_congr fun input => by simp
  rw [MissesCaught, ← hfalse]
  constructor
  · rintro h ⟨input, hinput, hhighest, hmiss⟩
    rcases hcheck : ensureInputData w nodeName executionData.data with e | _ | _
    · rw [hasHighestNode_eq_false (ensureInputs_eq_error hcheck)] at hhighest
      cases hhighest
    · rfl
    · have htrue := h.complete {} {} (by rw [ensureInputDataOn_eq, hcheck]; rfl) input hinput
        hhighest
      rw [hmiss] at htrue
      cases htrue
  · intro h
    refine ⟨fun ed ed' htrue input hinput hhighest => ?_, fun ed ed' hdeferred => ?_⟩
    · rw [ensureInputDataOn_eq] at htrue
      by_contra hmiss
      rw [h ⟨input, hinput, hhighest, Bool.eq_false_iff.mpr hmiss⟩] at htrue
      cases htrue
    · rw [ensureInputDataOn_eq] at hdeferred
      rcases hcheck : ensureInputData w nodeName executionData.data with e | _ | _
      · rw [hcheck] at hdeferred
        cases hdeferred
      · rw [hcheck] at hdeferred
        cases hdeferred
        rfl
      · rw [hcheck] at hdeferred
        cases hdeferred

end

/-- `Off` and `On` feed `Merge`. -/
def twoInputs (offDisabled : Option Bool) : Workflow :=
  let feeds (input : ℕ) : INodeConnections := Dict.empty.set .main [some [⟨"Merge", .main, input⟩]]
  let connections := (Dict.empty.set "Off" (feeds 0)).set "On" (feeds 1)
  { nodes := ((Dict.empty.set "Off" { name := "Off", disabled := offDisabled }).set "On"
      { name := "On" }).set "Merge" { name := "Merge" }
    connectionsBySourceNode := connections
    connectionsByDestinationNode := mapConnectionsByDestination connections
    settings := ⟨none⟩ }

def mergeItem (main : List (Slot Items)) : IExecuteData :=
  { node := some { name := "Merge" }, data := mainOnly main, source := none }

/-- A `null` at the second input is caught where the first one has an enabled node upstream. -/
theorem ensuresInputData_nullSecond :
    EnsuresInputData (twoInputs none) "Merge" (mergeItem [.data [{}], .null]) :=
  (ensuresInputData_iff (by decide)).mpr (by decide)

/-- The first input has no enabled node upstream, so the second one is not looked at. -/
theorem not_ensuresInputData_disabledFirst :
    ¬ EnsuresInputData (twoInputs (some true)) "Merge" (mergeItem [.null, .null]) := by
  intro h
  have htrue := h.complete {} {} (by rfl) 1 (by decide) (by decide)
  exact absurd htrue (by decide)

/-- An array that ends right before the input is not caught. -/
example : ensureInputData (twoInputs none) "Merge" (mainOnly [.data [{}]]) = .ok true := by decide

end N8n
