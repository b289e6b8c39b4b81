/-
Who starts a stored execution.

A caller that finds an execution in the store passes its id to `add`, which updates
the row only if it waits.  Of several callers the first to come to the store wins, if
the row waits, and nobody does otherwise.  The executions that are found enqueued at
startup are passed in the same way, with rows that are new.

* **`startedOnce_iff`** — a stored execution is started once, however the calls for
  it interleave, iff its row waits.
-/
import N8n.ActiveExecutions

namespace N8n.ActiveExecutions

variable {s s' : ActiveExecutions} {id : String} {repository : ExecutionRepository}

/-- The inputs of calls of `add` for one id.  What they wait for does not fail, and
takes as long as it takes: the calls may be made in different processes, as they
only share the store. -/
def OnlyResumes (id : String) : ActiveExecutionsInput → Prop
  | .add _ _ maybeExecutionId => maybeExecutionId = some id
  | .reserved _ => True
  | .updated _ => True
  | .returned _ => True
  | _ => False

/-- The call has updated the row. -/
def Won (s : ActiveExecutions) (c : ℕ) : Prop :=
  (s.call c).stage = .returning true ∨ (s.call c).stage = .added

/-- The call has not, and will throw. -/
def Lost (s : ActiveExecutions) (c : ℕ) : Prop :=
  (s.call c).stage = .returning false ∨ (s.call c).stage = .threw

/-- At most one call succeeds, and the store is as that call has left it; a call that
throws has given back its capacity.  When all the calls have returned, one has
succeeded and the row says that the execution is running. -/
structure StartedOnce (id : String) (repository : ExecutionRepository) (s : ActiveExecutions) :
    Prop where
  once : ∀ c d, (s.call c).stage = .added → (s.call d).stage = .added → c = d
  freed : ∀ c, (s.call c).stage = .threw →
    (s.call c).released = 1 ∧ (s.call c).acquiredReservation = none
  kept : s.repository = repository ∨ ∃ c, s.Won c ∧ s.repository =
    repository.modify id fun _ => { status := .running, data := (s.call c).data }
  started : 0 < s.calls →
    (∀ c < s.calls, (s.call c).stage = .added ∨ (s.call c).stage = .threw) →
      ∃ c < s.calls, (s.call c).stage = .added ∧ s.repository.status? id = some .running

/-- A call for the id at a stage, with its reservation made and given back in time. -/
def resumption (id : String) (mode : WorkflowExecuteMode) (data : String) (stage : AddStage) :
    AddCall where
  maybeExecutionId := some id
  resuming := true
  mode
  data
  stage
  status := .running
  acquiredReservation := if stage = .reserving ∨ stage = .threw then none
    else some { executionId := id, mode }
  reserved := decide (stage ≠ .reserving)
  released := if stage = .threw then 1 else 0

/-- The stages of a call for a stored execution. -/
def AddStage.Resuming : AddStage → Prop
  | .reserving => True
  | .updating => True
  | .returning _ => True
  | .added => True
  | .threw => True
  | _ => False

/-- Each call is one for the id; the row waits until a call has won. -/
structure Racing (id : String) (repository : ExecutionRepository) (s : ActiveExecutions) :
    Prop where
  made : ∀ c < s.calls, ∃ mode data stage, AddStage.Resuming stage ∧
    s.call c = resumption id mode data stage
  fresh : ∀ c, s.calls ≤ c → s.call c = {}
  unique : ∀ c d, s.Won c → s.Won d → c = d
  store : (s.repository = repository ∧ ∀ c, ¬ s.Won c ∧ ¬ s.Lost c) ∨ ∃ c, s.Won c ∧
    s.repository =
      repository.modify id fun _ => { status := .running, data := (s.call c).data }

theorem Racing.lt_calls (h : Racing id repository s) {c : ℕ} (hc : (s.call c).stage ≠ .idle) :
    c < s.calls := by
  by_contra hle
  rw [h.fresh c (Nat.le_of_not_lt hle)] at hc
  exact hc rfl

theorem Racing.startedOnce (hwaiting : repository.status? id = some .waiting)
    (h : Racing id repository s) : StartedOnce id repository s := by
  have hmodified : ∀ data, (repository.modify id fun _ =>
      { status := .running, data }).status? id = some .running := by
    intro data
    rw [ExecutionRepository.status?_modify]
    rw [ExecutionRepository.status?] at hwaiting
    cases hrow : repository.rows.get? id with
    | none => simp [hrow] at hwaiting
    | some row => rfl
  refine ⟨fun c d hc hd => h.unique c d (.inr hc) (.inr hd), fun c hthrew => ?_, ?_, ?_⟩
  · obtain ⟨mode, data, stage, -, heq⟩ := h.made c (h.lt_calls (by simp [hthrew]))
    rw [heq] at hthrew ⊢
    have hstage : stage = .threw := hthrew
    subst hstage
    exact ⟨rfl, rfl⟩
  · rcases h.store with ⟨hsame, -⟩ | hwon
    · exact .inl hsame
    · exact .inr hwon
  · intro hcalls hreturned
    rcases h.store with ⟨-, hnone⟩ | ⟨c, hwon, hstore⟩
    · rcases hreturned 0 hcalls with hadded | hthrew
      · exact absurd (.inr hadded) (hnone 0).1
      · exact absurd (.inr hthrew) (hnone 0).2
    · have hc : c < s.calls := h.lt_calls (by rcases hwon with hwon | hwon <;> simp [hwon])
      have hadded : (s.call c).stage = .added := by
        rcases hreturned c hc with hadded | hthrew
        · exact hadded
        · rcases hwon with hwon | hwon <;> simp [hwon] at hthrew
      exact ⟨c, hc, hadded, by rw [hstore, hmodified]⟩

/-- A call is at another stage, and the others are where they were. -/
structure Advanced (s s' : ActiveExecutions) (id : String) (c : ℕ) (mode : WorkflowExecuteMode)
    (data : String) (stage : AddStage) : Prop where
  calls : s'.calls = s.calls
  call : s'.call = Function.update s.call c (resumption id mode data stage)

variable {c d : ℕ} {mode : WorkflowExecuteMode} {data : String} {stage : AddStage}

section

variable (h : Advanced s s' id c mode data stage)
include h

theorem Advanced.self :
    s'.call c = resumption id mode data stage := by
  rw [h.call, Function.update_self]

theorem Advanced.other (hd : d ≠ c) :
    s'.call d = s.call d := by
  rw [h.call, Function.update_of_ne hd]

theorem Advanced.won_self :
    s'.Won c ↔ stage = .returning true ∨ stage = .added := by
  rw [Won, h.self]
  rfl

theorem Advanced.lost_self :
    s'.Lost c ↔ stage = .returning false ∨ stage = .threw := by
  rw [Lost, h.self]
  rfl

theorem Advanced.won_other (hd : d ≠ c) :
    s'.Won d ↔ s.Won d := by
  rw [Won, Won, h.other hd]

theorem Advanced.lost_other (hd : d ≠ c) :
    s'.Lost d ↔ s.Lost d := by
  rw [Lost, Lost, h.other hd]

end

theorem Racing.advance (h : Racing id repository s) (ha : Advanced s s' id c mode data stage)
    (hc : c < s.calls) (hstage : AddStage.Resuming stage)
    (hunique : ∀ e f, s'.Won e → s'.Won f → e = f)
    (hstore : (s'.repository = repository ∧ ∀ e, ¬ s'.Won e ∧ ¬ s'.Lost e) ∨ ∃ e, s'.Won e ∧
      s'.repository =
        repository.modify id fun _ => { status := .running, data := (s'.call e).data }) :
    Racing id repository s' where
  made d hd := by
    by_cases hdc : d = c
    · subst hdc
      exact ⟨mode, data, stage, hstage, ha.self⟩
    · rw [ha.other hdc]
      exact h.made d (ha.calls ▸ hd)
  fresh d hd := by
    rw [ha.calls] at hd
    rw [ha.other (by omega)]
    exact h.fresh d hd
  unique := hunique
  store := hstore

theorem Racing.keep (h : Racing id repository s) (ha : Advanced s s' id c mode data stage)
    (hc : c < s.calls) (hstage : AddStage.Resuming stage) (hdata : (s.call c).data = data)
    (hrepository : s'.repository = s.repository) (hwon : s'.Won c ↔ s.Won c)
    (hlost : s'.Lost c → s.Lost c) : Racing id repository s' := by
  have hwon' : ∀ e, s'.Won e ↔ s.Won e := by
    intro e
    by_cases he : e = c
    · rw [he, hwon]
    · exact ha.won_other he
  refine h.advance ha hc hstage ?_ ?_
  · intro e f he hf
    exact h.unique e f ((hwon' e).mp he) ((hwon' f).mp hf)
  · rw [hrepository]
    rcases h.store with ⟨hsame, hnone⟩ | ⟨e, he, hstore⟩
    · refine .inl ⟨hsame, fun e =>
        ⟨fun hwins => (hnone e).1 ((hwon' e).mp hwins), fun hloses => ?_⟩⟩
      by_cases hec : e = c
      · subst hec
        exact (hnone e).2 (hlost hloses)
      · exact (hnone e).2 ((ha.lost_other hec).mp hloses)
    · refine .inr ⟨e, (hwon' e).mpr he, ?_⟩
      rw [hstore]
      by_cases hec : e = c
      · subst hec
        rw [ha.self, hdata]
        rfl
      · rw [ha.other hec]

theorem Racing.resumption_of_stage (h : Racing id repository s) (hidle : stage ≠ .idle)
    (hstage : (s.call c).stage = stage) :
    c < s.calls ∧ ∃ mode data, s.call c = resumption id mode data stage := by
  have hc : c < s.calls := h.lt_calls (hstage ▸ hidle)
  obtain ⟨mode, data, stage', -, heq⟩ := h.made c hc
  have hsame : stage' = stage := by
    rw [heq] at hstage
    exact hstage
  exact ⟨hc, mode, data, hsame ▸ heq⟩

theorem executionId_of_resumption (h : s.call c = resumption id mode data stage) :
    s.executionId c = id := by
  rw [executionId, h]
  rfl

theorem racing_add (h : Racing id repository s) (mode : WorkflowExecuteMode) (data : String) :
    Racing id repository (s.add mode data (some id)) := by
  have hfresh := h.fresh s.calls le_rfl
  have hself : (s.add mode data (some id)).call s.calls = resumption id mode data .reserving :=
    Function.update_self ..
  have hother : ∀ {c}, c ≠ s.calls → (s.add mode data (some id)).call c = s.call c :=
    fun hc => Function.update_of_ne hc ..
  have hwon : ∀ c, (s.add mode data (some id)).Won c ↔ s.Won c := by
    intro c
    by_cases hc : c = s.calls
    · rw [hc, Won, Won, hself, hfresh]
      simp [resumption]
    · rw [Won, Won, hother hc]
  have hlost : ∀ c, (s.add mode data (some id)).Lost c ↔ s.Lost c := by
    intro c
    by_cases hc : c = s.calls
    · rw [hc, Lost, Lost, hself, hfresh]
      simp [resumption]
    · rw [Lost, Lost, hother hc]
  refine ⟨fun c hc => ?_, fun c hc => ?_, fun c d => ?_, ?_⟩
  · by_cases hnew : c = s.calls
    · exact ⟨mode, data, .reserving, trivial, hnew ▸ hself⟩
    · have hlt : c < s.calls := lt_of_le_of_ne (Nat.lt_succ_iff.mp hc) hnew
      rw [hother hnew]
      exact h.made c hlt
  · have hlt : s.calls < c := hc
    rw [hother (Nat.ne_of_gt hlt)]
    exact h.fresh c hlt.le
  · rw [hwon, hwon]
    exact h.unique c d
  · simp only [hwon, hlost]
    rcases h.store with hsame | ⟨c, hc, hstore⟩
    · exact .inl hsame
    · have hne : c ≠ s.calls := by
        rintro rfl
        rw [Won, hfresh] at hc
        rcases hc with hc | hc <;> cases hc
      exact .inr ⟨c, hc, by rw [hother hne]; exact hstore⟩

theorem racing_reserved (h : Racing id repository s) (hstage : (s.call c).stage = .reserving) :
    Racing id repository (s.reserved c) := by
  obtain ⟨hc, mode, data, heq⟩ := h.resumption_of_stage (by decide) hstage
  have hstep : s.reserved c = s.setCall c (resumption id mode data .updating) := by
    rw [reserved, executionId_of_resumption heq, heq]
    rfl
  have ha : Advanced s (s.reserved c) id c mode data .updating := hstep ▸ ⟨rfl, rfl⟩
  refine h.keep ha hc trivial (by rw [heq]; rfl) (by rw [hstep]; rfl) ?_ ?_
  · rw [ha.won_self, Won, heq]
    simp [resumption]
  · rw [ha.lost_self]
    simp

theorem updated_waiting (heq : s.call c = resumption id mode data .updating)
    (hstatus : s.repository.status? id = some .waiting) :
    s.updated c = { s with
      repository := s.repository.modify id fun _ => { status := .running, data } }.setCall c
        (resumption id mode data (.returning true)) := by
  rw [updated, executionId_of_resumption heq, heq]
  simp only [resumption, ExecutionRepository.updateExistingExecution_eq, hstatus, if_true]
  rfl

theorem updated_other (heq : s.call c = resumption id mode data .updating)
    (hstatus : s.repository.status? id ≠ some .waiting) :
    s.updated c = s.setCall c (resumption id mode data (.returning false)) := by
  rw [updated, executionId_of_resumption heq, heq]
  simp only [resumption, ExecutionRepository.updateExistingExecution_eq, hstatus, if_false]
  rfl

theorem racing_updated (hwaiting : repository.status? id = some .waiting)
    (h : Racing id repository s) (hstage : (s.call c).stage = .updating) :
    Racing id repository (s.updated c) := by
  obtain ⟨hc, mode, data, heq⟩ := h.resumption_of_stage (by decide) hstage
  have hneither : ¬ s.Won c := by
    rw [Won, hstage]
    simp
  rcases h.store with ⟨hsame, hnone⟩ | ⟨e, he, hstore⟩
  · have hstep := updated_waiting heq (hsame ▸ hwaiting)
    have ha : Advanced s (s.updated c) id c mode data (.returning true) := hstep ▸ ⟨rfl, rfl⟩
    have hwins : ∀ d, (s.updated c).Won d → d = c := by
      intro d hd
      by_contra hdc
      exact (hnone d).1 ((ha.won_other hdc).mp hd)
    refine h.advance ha hc trivial (fun d f hd hf => (hwins d hd).trans (hwins f hf).symm) ?_
    refine .inr ⟨c, ha.won_self.mpr (.inl rfl), ?_⟩
    rw [ha.self, hstep, ← hsame]
    rfl
  · have hrunning : s.repository.status? id = some .running := by
      rw [hstore, ExecutionRepository.status?_modify]
      rw [ExecutionRepository.status?] at hwaiting
      cases hrow : repository.rows.get? id with
      | none => simp [hrow] at hwaiting
      | some row => rfl
    have hstep := updated_other heq (by rw [hrunning]; decide)
    have ha : Advanced s (s.updated c) id c mode data (.returning false) := hstep ▸ ⟨rfl, rfl⟩
    have hwon : ∀ d, (s.updated c).Won d → s.Won d := by
      intro d hd
      by_cases hdc : d = c
      · rw [hdc, ha.won_self] at hd
        simp at hd
      · exact (ha.won_other hdc).mp hd
    have hec : e ≠ c := fun hec => hneither (hec ▸ he)
    refine h.advance ha hc trivial (fun d f hd hf => h.unique d f (hwon d hd) (hwon f hf)) ?_
    refine .inr ⟨e, (ha.won_other hec).mpr he, ?_⟩
    rw [ha.other hec, hstep]
    exact hstore

theorem racing_returned (h : Racing id repository s) {updateSucceeded : Bool}
    (hstage : (s.call c).stage = .returning updateSucceeded) :
    Racing id repository (s.returned c updateSucceeded) := by
  obtain ⟨hc, mode, data, heq⟩ := h.resumption_of_stage (by simp) hstage
  cases updateSucceeded with
  | true =>
    have hcall : (s.returned c true).call = Function.update s.call c
        (resumption id mode data .added) := by
      show Function.update s.call c { s.call c with stage := .added, status := .running } = _
      rw [heq]
      rfl
    have ha : Advanced s (s.returned c true) id c mode data .added := ⟨rfl, hcall⟩
    refine h.keep ha hc trivial (by rw [heq]; rfl) rfl ?_ ?_
    · rw [ha.won_self, Won, hstage]
      simp
    · rw [ha.lost_self]
      simp
  | false =>
    have hcall : (s.returned c false).call = Function.update s.call c
        (resumption id mode data .threw) := by
      show Function.update s.call c (s.call c).throws = _
      rw [heq]
      rfl
    have ha : Advanced s (s.returned c false) id c mode data .threw := ⟨rfl, hcall⟩
    refine h.keep ha hc trivial (by rw [heq]; rfl) rfl ?_ ?_
    · rw [ha.won_self, Won, hstage]
      simp
    · intro _
      exact .inl hstage

/-- Step lemma: the calls for an id race on. -/
theorem racing_step (hwaiting : repository.status? id = some .waiting)
    (h : Racing id repository s) {input : ActiveExecutionsInput} (hinput : OnlyResumes id input)
    (hstep : s.step input = .ok s') : Racing id repository s' := by
  cases input with
  | add mode data maybeExecutionId =>
    cases hstep
    have hid : maybeExecutionId = some id := hinput
    exact hid ▸ racing_add h mode data
  | reserved c =>
    obtain ⟨hstage, rfl⟩ := onlyIf_eq_ok.mp hstep
    exact racing_reserved h hstage
  | updated c =>
    obtain ⟨hstage, rfl⟩ := onlyIf_eq_ok.mp hstep
    exact racing_updated hwaiting h hstage
  | returned c =>
    rw [step] at hstep
    cases hstage : (s.call c).stage with
    | returning updateSucceeded =>
      rw [hstage] at hstep
      cases hstep
      exact racing_returned h hstage
    | _ =>
      rw [hstage] at hstep
      cases hstep
  | _ => exact absurd hinput (by simp [OnlyResumes])

theorem racing_start (regular : Bool) (repository : ExecutionRepository) (id : String) :
    Racing id repository { regular, repository } := by
  have hwon : ∀ c, ¬ Won { regular, repository } c := by
    rintro c (hc | hc) <;> cases hc
  have hlost : ∀ c, ¬ Lost { regular, repository } c := by
    rintro c (hc | hc) <;> cases hc
  exact {
    made := fun c hc => absurd hc (Nat.not_lt_zero c)
    fresh := fun _ _ => rfl
    unique := fun c d hc => absurd hc (hwon c)
    store := .inl ⟨rfl, fun c => ⟨hwon c, hlost c⟩⟩ }

/-- One call, which finds capacity. -/
def singleCall (id : String) : List ActiveExecutionsInput :=
  [.add .trigger "" (some id), .reserved 0, .updated 0, .returned 0]

theorem onlyResumes_singleCall (id : String) : ∀ input ∈ singleCall id, OnlyResumes id input := by
  simp [singleCall, OnlyResumes]

theorem not_startedOnce_singleCall (regular : Bool)
    (hstatus : repository.status? id ≠ some .waiting) :
    ¬ Along step (fun _ _ s' => StartedOnce id repository s') { regular, repository }
      (singleCall id) := by
  intro h
  let s₁ := ({ regular, repository } : ActiveExecutions).add .trigger "" (some id)
  let s₂ := s₁.setCall 0 (resumption id .trigger "" .updating)
  let s₃ := s₂.setCall 0 (resumption id .trigger "" (.returning false))
  let s₄ := s₃.setCall 0 (resumption id .trigger "" .threw)
  have hupdated : s₂.updated 0 = s₃ := updated_other rfl hstatus
  obtain ⟨-, h⟩ := h s₁ rfl
  obtain ⟨-, h⟩ := h s₂ rfl
  obtain ⟨-, h⟩ := h s₃ (congrArg Except.ok hupdated)
  obtain ⟨hstarted, -⟩ := h s₄ rfl
  have hthrew : (s₄.call 0).stage = .threw := rfl
  obtain ⟨c, hc, hadded, -⟩ := hstarted.started Nat.one_pos fun c hc => by
    rw [Nat.lt_one_iff.mp hc]
    exact .inr hthrew
  rw [Nat.lt_one_iff.mp hc, hthrew] at hadded
  cases hadded

/-- **Who starts a stored execution.**  However the calls for an id interleave, one of
them starts the execution and the others throw without a trace, iff the stored
execution waits. -/
theorem startedOnce_iff (regular : Bool) (repository : ExecutionRepository) (id : String) :
    (∀ inputs : List ActiveExecutionsInput, (∀ input ∈ inputs, OnlyResumes id input) →
      Along step (fun _ _ s' => StartedOnce id repository s') { regular, repository } inputs) ↔
      repository.status? id = some .waiting := by
  constructor
  · intro h
    by_contra hstatus
    exact not_startedOnce_singleCall regular hstatus (h _ (onlyResumes_singleCall id))
  · intro hwaiting inputs hinputs
    have hcalls : Along step (fun _ input _ => OnlyResumes id input) { regular, repository }
        inputs := .of_forall_mem hinputs
    refine Along.of_step (fun s input s' hs hstep hinput => ?_)
      (racing_start regular repository id) hcalls
    have hs' := racing_step hwaiting hs hinput hstep
    exact ⟨hs'.startedOnce hwaiting, hs'⟩

/-- An execution that was enqueued when the process was shut down. -/
def enqueuedRepository : ExecutionRepository where
  rows := Dict.empty.set "7" { status := .new }

/-- The call for it at startup throws, and nobody starts it. -/
theorem not_startedOnce_enqueued :
    ¬ ∀ inputs : List ActiveExecutionsInput, (∀ input ∈ inputs, OnlyResumes "7" input) →
      Along step (fun _ _ s' => StartedOnce "7" enqueuedRepository s')
        { repository := enqueuedRepository } inputs :=
  fun h => not_startedOnce_singleCall true (by decide) (h _ (onlyResumes_singleCall "7"))

end N8n.ActiveExecutions
