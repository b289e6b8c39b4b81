/-
What the loop leaves waiting when the stack is empty.

The pass that releases waiting nodes stands at the end of the loop body.  A
round that ends with an earlier `continue` leaves it out (`BodyEnd.early`), and
the pass itself looks at one entry of each node only, so that a satisfied entry
can stand behind one that is not (`Blocked`).

* `nothingLeft_iff` — **a run leaves no satisfied entry iff no round that empties
  the stack leaves the pass out beside one, and no pass comes upon a blocked
  one**.
-/
import N8n.ExecutionLoop

namespace N8n

section

variable (env : ExecutionEnvironment)

/-- A round of the pass that removes an entry without items and starts again. -/
def PassRound (ed ed' : IRunExecutionData) : Prop :=
  ∃ nodeName index,
    findReady env ed ed.waitingExecution.objectKeys = .ok (some (nodeName, index)) ∧
    hasItems (waitingMain ed nodeName index) = false ∧
    settleEntry env ed nodeName index = .returned ed'

abbrev PassRounds : IRunExecutionData → IRunExecutionData → Prop :=
  Relation.ReflTransGen (PassRound env)

/-- The node has a satisfied entry, but its first one misses a required input,
and the pass looks at no other. -/
def Blocked (ed : IRunExecutionData) (nodeName : String) : Prop :=
  ∃ index first node, Satisfied env ed nodeName index ∧ env.workflow.getNode nodeName = some node ∧
    firstRunIndex (waitingEntries ed nodeName) = some first ∧
    requirementMet env node (waitingMain ed nodeName first) = false

/-- How the loop body gets to its end: by a `continue` in front of the pass, or
through the deliveries, with the waiting nodes as they are then. -/
inductive BodyEnd where
  | early (ed : IRunExecutionData)
  | delivered (ed : IRunExecutionData)
  | none

def bodyEnd (s : LoopState) (item : IExecuteData) (rest : List IExecuteData) : BodyEnd :=
  match intake env (s.taken rest) item with
  | .throw _ => .none
  | .skip _ => .early s.ed
  | .execute executionData node runIndex =>
    match runTries env executionData node runIndex (s.taken rest) with
    | (t, .nullData) => .early t.loop.ed
    | (t, .requested) => .early t.loop.ed
    | (t, .done) => match recordResult executionData node runIndex t.loop t.nodeSuccessData with
      | .stopped _ => .none
      | .threw _ _ => .none
      | .output s outputs =>
        if s.ed.waitTill then .none
        else if s.ed.destinationNode = some node.name then .early s.ed
        else match addOutputs env.workflow s.ed node.name outputs runIndex with
          | .returned ed => .delivered ed
          | .threw _ _ => .none

/-- The pass is not left out beside a satisfied entry, and comes upon no node
that is blocked. -/
def Sweeps (s : LoopState) (item : IExecuteData) (rest : List IExecuteData) : Prop :=
  match bodyEnd env s item rest with
  | .early ed => NothingSatisfied env ed
  | .delivered ed => ∀ ed', PassRounds env ed ed' → ∀ nodeName, ¬ Blocked env ed' nodeName
  | .none => True

/-- The round of the last item: it leaves the stack empty and the loop ends. -/
structure LastRound (s₀ s : LoopState) (item : IExecuteData) (rest : List IExecuteData)
    (t : LoopState) : Prop where
  rounds : Rounds env s₀ s
  stack : s.ed.nodeExecutionStack = item :: rest
  round : round env s item rest = .continued t
  emptied : t.ed.nodeExecutionStack = []

/-- When the loop ends because the stack is empty, no entry waits that the
end-of-stack rule would release. -/
def NothingLeft (s₀ : LoopState) : Prop :=
  ∀ s item rest t, LastRound env s₀ s item rest t → NothingSatisfied env t.ed

end

section

variable {env : ExecutionEnvironment} {ed ed' : IRunExecutionData} {nodeName : String} {index : ℕ}

theorem nothingSatisfied_congr (h : ed.waitingExecution = ed'.waitingExecution) :
    NothingSatisfied env ed ↔ NothingSatisfied env ed' := by
  have hiff : ∀ n i, Satisfied env ed n i ↔ Satisfied env ed' n i := by
    intro n i
    have hentries : waitingEntries ed n = waitingEntries ed' n := by
      rw [waitingEntries, waitingEntries, h]
    have hparents : parentIsWaiting env ed n = parentIsWaiting env ed' n := by
      rw [parentIsWaiting, parentIsWaiting, h]
    exact ⟨fun hs => ⟨hentries ▸ hs.entry, hparents ▸ hs.parents⟩,
      fun hs => ⟨hentries ▸ hs.entry, hparents ▸ hs.parents⟩⟩
  exact forall₂_congr fun n i => not_congr (hiff n i)

theorem Satisfied.waits (h : Satisfied env ed nodeName index) :
    index ∈ (waitingEntries ed nodeName).keys ∧ nodeName ∈ ed.waitingExecution.objectKeys := by
  obtain ⟨⟨main, hmain, -⟩, -⟩ := h
  refine ⟨Dict.mem_keys_iff.mpr ⟨main, hmain⟩, Dict.mem_objectKeys.mpr ?_⟩
  by_contra hnot
  rw [waitingEntries, Dict.get?_eq_none_iff.mpr hnot, Option.getD_none] at hmain
  cases hmain

theorem Satisfied.blocked (h : Satisfied env ed nodeName index)
    (hready : findReady env ed ed.waitingExecution.objectKeys = .ok none) :
    Blocked env ed nodeName := by
  obtain ⟨main, -, -, node, hnode, hall, -⟩ := h.entry
  obtain ⟨first, hfirst, hmissing⟩ :=
    findReady_eq_none hready nodeName h.waits.2 node hnode hall h.parents
  exact ⟨index, first, node, h, hnode, hfirst, hmissing⟩

theorem requirementMet_of_findReady {names : List String}
    (h : findReady env ed names = .ok (some (nodeName, index))) :
    ∃ node, env.workflow.getNode nodeName = some node ∧
      requirementMet env node (waitingMain ed nodeName index) = true := by
  induction names with
  | nil => cases h
  | cons name names ih =>
    rw [findReady] at h
    split at h
    · exact ih h
    · next node hnode =>
      split at h
      · exact ih h
      · split at h
        · cases h
        · next first hfirst =>
          split at h
          · next hmet =>
            cases h
            exact ⟨node, hnode, hmet⟩
          · exact ih h

theorem waitingEntries_deleteWaiting_of_ne {n : String} (hn : n ≠ nodeName) :
    waitingEntries (deleteWaiting ed nodeName index) n = waitingEntries ed n := by
  rw [waitingEntries, waitingEntries, deleteWaiting]
  split
  · rw [Dict.get?_erase_of_ne _ hn]
  · rw [Dict.get?_set_of_ne _ hn]

theorem parentIsWaiting_deleteWaiting {n : String} (hlive : nodeName ∈ ed.waitingExecution.keys)
    (h : parentIsWaiting env ed n = false) :
    parentIsWaiting env (deleteWaiting ed nodeName index) n = false := by
  rw [parentIsWaiting, List.any_eq_false] at h ⊢
  intro parent hparent hwaits
  refine h parent hparent (Dict.has_iff.mpr ?_)
  rw [Dict.has_iff, deleteWaiting] at hwaits
  split at hwaits
  · exact (Dict.mem_keys_erase.mp hwaits).2
  · rcases Dict.mem_keys_set.mp hwaits with rfl | hwaits
    · exact hlive
    · exact hwaits

/-- **A blocked node stays blocked through the pass**, which only removes
entries, and none of a node whose first entry misses an input. -/
theorem Blocked.passRound (h : Blocked env ed nodeName) (hround : PassRound env ed ed') :
    Blocked env ed' nodeName := by
  obtain ⟨index, first, node, hsat, hnode, hfirst, hmissing⟩ := h
  obtain ⟨other, i, hready, hitems, hsettle⟩ := hround
  have hed' := settleEntry_eq_returned hsettle
  rw [hitems, if_neg Bool.false_ne_true] at hed'
  -- the entry that was removed is the first of a node that met its requirement
  have hother : nodeName ≠ other := by
    rintro rfl
    obtain ⟨node', hnode', hmet⟩ := requirementMet_of_findReady hready
    rw [hnode] at hnode'
    cases hnode'
    rw [findReady_eq_some hready] at hfirst
    cases hfirst
    rw [hmissing] at hmet
    cases hmet
  have hentries : waitingEntries ed' nodeName = waitingEntries ed nodeName := by
    rw [hed']
    exact waitingEntries_deleteWaiting_of_ne hother
  have hlive : other ∈ ed.waitingExecution.keys := by
    obtain ⟨hmem, -⟩ := firstRunIndex_spec (findReady_eq_some hready)
    by_contra hnot
    rw [waitingEntries, Dict.get?_eq_none_iff.mpr hnot, Option.getD_none] at hmem
    cases hmem
  refine ⟨index, first, node, ⟨hentries ▸ hsat.entry, ?_⟩, hnode, hentries ▸ hfirst, ?_⟩
  · rw [hed']
    exact parentIsWaiting_deleteWaiting hlive hsat.parents
  · rw [waitingMain, hentries]
    exact hmissing

theorem Blocked.passRounds (h : Blocked env ed nodeName) (hrounds : PassRounds env ed ed') :
    Blocked env ed' nodeName := by
  induction hrounds with
  | refl => exact h
  | tail _ hround ih => exact ih.passRound hround

theorem passRound_unique : Relator.RightUnique (PassRound env) := by
  rintro ed ed₁ ed₂ ⟨n₁, i₁, hready₁, -, hsettle₁⟩ ⟨n₂, i₂, hready₂, -, hsettle₂⟩
  rw [hready₁] at hready₂
  cases hready₂
  rw [hsettle₁] at hsettle₂
  exact Outcome.returned.inj hsettle₂

theorem passRounds_endOfStackPass (h : endOfStackPass env ed = .returned ed')
    (hstack : ed'.nodeExecutionStack = []) : PassRounds env ed ed' := by
  have key : ∀ {rounds : ℕ} {ed : IRunExecutionData},
      endOfStackRounds env rounds ed = .returned ed' → PassRounds env ed ed' := by
    intro rounds
    induction rounds with
    | zero =>
      intro ed h
      cases h
      exact .refl
    | succ rounds ih =>
      intro ed h
      rw [endOfStackRounds] at h
      split at h
      · cases h
      · cases h
        exact .refl
      · next n i hready =>
        rcases hsettle : settleEntry env ed n i with ed₁ | ⟨e, ed₁⟩
        · rw [hsettle, Outcome.returned_andThen] at h
          split at h
          · next hitems =>
            -- an entry with items would be on the stack
            cases h
            rw [settleEntry_eq_returned hsettle, nodeExecutionStack_deleteWaiting, if_pos hitems]
              at hstack
            simp at hstack
          · next hitems =>
            exact .head ⟨n, i, hready, Bool.eq_false_iff.mpr hitems, hsettle⟩ (ih h)
        · rw [hsettle, Outcome.threw_andThen] at h
          cases h
  exact key h

/-- **A pass that leaves the stack empty leaves nothing satisfied iff it comes
upon no blocked node.** -/
theorem nothingSatisfied_iff_notBlocked (h : endOfStackPass env ed = .returned ed')
    (hstack : ed'.nodeExecutionStack = []) :
    NothingSatisfied env ed' ↔
      ∀ ed₁, PassRounds env ed ed₁ → ∀ nodeName, ¬ Blocked env ed₁ nodeName := by
  have hready := endOfStackPass_findReady h hstack
  have hrounds := passRounds_endOfStackPass h hstack
  constructor
  · intro hnothing ed₁ hrounds₁ nodeName hblocked
    -- the pass is deterministic and ends in `ed'`, so `ed₁` lies on its way
    have hlater : PassRounds env ed₁ ed' := by
      rcases Relation.ReflTransGen.total_of_right_unique passRound_unique hrounds₁ hrounds
        with hlater | hback
      · exact hlater
      · rcases Relation.ReflTransGen.cases_head hback with heq | ⟨_, ⟨n, i, hfound, -⟩, -⟩
        · exact heq ▸ .refl
        · rw [hready] at hfound
          cases hfound
    obtain ⟨index, _, _, hsat, -⟩ := hblocked.passRounds hlater
    exact hnothing nodeName index hsat
  · intro hnone nodeName index hsat
    exact hnone ed' hrounds nodeName (hsat.blocked hready)

theorem endOfStackPass_of_keys_eq_nil (h : ed.waitingExecution.keys = []) :
    endOfStackPass env ed = .returned ed := by
  have hkeys : ed.waitingExecution.objectKeys = [] := by
    refine List.eq_nil_iff_forall_not_mem.mpr fun name hname => ?_
    rw [Dict.mem_objectKeys, h] at hname
    cases hname
  rw [endOfStackPass, endOfStackRounds, hkeys, findReady]

variable {s t : LoopState} {item : IExecuteData} {rest : List IExecuteData}

theorem waitingExecution_of_skip (h : intake env (s.taken rest) item = .skip t) :
    t.ed.waitingExecution = s.ed.waitingExecution := by
  rw [intake] at h
  split at h
  · cases h
  · dsimp only at h
    split at h
    · cases h
    · split at h
      · cases h
        rfl
      · split at h <;> cases h
        rfl

theorem bodyEnd_of_round (hround : round env s item rest = .continued t)
    (hempty : t.ed.nodeExecutionStack = []) :
    (∃ ed, bodyEnd env s item rest = .early ed ∧ t.ed.waitingExecution = ed.waitingExecution) ∨
    ∃ ed, bodyEnd env s item rest = .delivered ed ∧ endOfStackPass env ed = .returned t.ed := by
  rw [round] at hround
  rw [bodyEnd]
  rcases hintake : intake env (s.taken rest) item with ⟨executionData, node, runIndex⟩ | u | e
  · simp only [hintake, executeItem] at hround
    rcases htries : runTries env executionData node runIndex (s.taken rest) with ⟨u, triesEnd⟩
    simp only [htries] at hround ⊢
    cases triesEnd with
    | nullData =>
      cases hround
      exact .inl ⟨_, rfl, rfl⟩
    | requested =>
      cases hround
      exact .inl ⟨_, rfl, rfl⟩
    | done =>
      dsimp only at hround ⊢
      rcases hrecord : recordResult executionData node runIndex u.loop u.nodeSuccessData
        with ⟨v, outputs⟩ | v | ⟨e, v⟩
      · simp only [hrecord, afterRecord] at hround ⊢
        split at hround
        · cases hround
        · next hwait =>
          rw [if_neg hwait]
          split at hround
          · next hdestination =>
            cases hround
            rw [if_pos hdestination]
            exact .inl ⟨_, rfl, rfl⟩
          · next hdestination =>
            rw [if_neg hdestination]
            rw [deliverOutput] at hround
            rcases hadd : addOutputs env.workflow v.ed node.name outputs runIndex
              with ed₁ | ⟨e, ed₁⟩
            · rw [hadd] at hround
              refine .inr ⟨ed₁, rfl, ?_⟩
              rw [Outcome.returned_andThen] at hround
              split at hround
              · rcases hpass : endOfStackPass env ed₁ with ed₂ | ⟨e, ed₂⟩
                · rw [hpass] at hround
                  cases hround
                  rfl
                · rw [hpass] at hround
                  cases hround
              · next hcond =>
                -- the stack is empty, so nothing waited
                cases hround
                have hkeys : ed₁.waitingExecution.keys = [] := by
                  by_contra hne
                  exact hcond ⟨hempty, hne⟩
                exact endOfStackPass_of_keys_eq_nil hkeys
            · rw [hadd, Outcome.threw_andThen] at hround
              cases hround
      · simp only [hrecord] at hround
        cases hround
      · simp only [hrecord] at hround
        cases hround
  · simp only [hintake] at hround
    cases hround
    exact .inl ⟨_, rfl, waitingExecution_of_skip hintake⟩
  · simp only [hintake] at hround
    cases hround

/-- **No satisfied entry is left behind iff every last round sweeps.** -/
theorem nothingLeft_iff (env : ExecutionEnvironment) (s₀ : LoopState) :
    NothingLeft env s₀ ↔
      ∀ s item rest t, LastRound env s₀ s item rest t → Sweeps env s item rest := by
  refine forall₄_congr fun s item rest t => forall_congr' fun hlast => ?_
  rw [Sweeps]
  rcases bodyEnd_of_round hlast.round hlast.emptied with ⟨ed, hend, hwaiting⟩ | ⟨ed, hend, hpass⟩
  · rw [hend]
    exact nothingSatisfied_congr hwaiting
  · rw [hend]
    exact nothingSatisfied_iff_notBlocked hpass hlast.emptied

end

/-- `Start` feeds `Merge` and `Side`, which feeds the other input of `Merge`. -/
def sideWorkflow : Workflow :=
  let connections : IConnections :=
    (Dict.empty.set "Start" (Dict.empty.set .main
      [some [⟨"Merge", .main, 0⟩, ⟨"Side", .main, 0⟩]])).set "Side"
        (Dict.empty.set .main [some [⟨"Merge", .main, 1⟩]])
  { nodes := ((Dict.empty.set "Start" { name := "Start" }).set "Side" { name := "Side" }).set
      "Merge" { name := "Merge" }
    connectionsBySourceNode := connections
    connectionsByDestinationNode := mapConnectionsByDestination connections
    settings := ⟨some .v1⟩ }

def nullLast : ExecutionEnvironment where
  workflow := sideWorkflow
  runNode i := if i = 0 then ⟨.returned (some [.data [{}]]), false⟩ else ⟨.returned none, false⟩
  nodeType node := { inputs := if node.name = "Merge" then 2 else 1, requiredInputs := none }

def startItem : IExecuteData :=
  { node := some { name := "Start" }, data := mainOnly [.data [{}]], source := none }

def startState : LoopState where
  ed := { nodeExecutionStack := [startItem] }

def afterStart : LoopState := (round nullLast startState startItem []).state

def sideItem : IExecuteData where
  node := some { name := "Side" }
  data := mainOnly [.data [{ pairedItem := some (.origin { item := 0 }) }]]
  source := some (mainOnly [.data ⟨"Start", some 0, some 0⟩])

def afterSide : LoopState := (round nullLast afterStart sideItem []).state

/-- `Merge` has its item and needs no other, but the loop ends without it. -/
theorem not_nothingLeft_nullData : ¬ NothingLeft nullLast startState := by
  have hstart : round nullLast startState startItem [] = .continued afterStart :=
    RoundEnd.eq_continued (by decide)
  have hside : round nullLast afterStart sideItem [] = .continued afterSide :=
    RoundEnd.eq_continued (by decide)
  have hlast : LastRound nullLast startState afterStart sideItem [] afterSide :=
    ⟨.single ⟨startItem, [], rfl, hstart⟩, by decide, hside, by decide⟩
  have hsat : Satisfied nullLast afterSide.ed "Merge" 0 := by
    refine ⟨⟨[.data [{ pairedItem := some (.origin { item := 0 }) }], .null], ?_, ?_,
      { name := "Merge" }, ?_, ?_, ?_⟩, ?_⟩
    all_goals decide
  exact fun h => h _ _ _ _ hlast "Merge" 0 hsat

end N8n
