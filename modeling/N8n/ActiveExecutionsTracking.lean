/-
When the active executions are tracked.

A post-execution promise and a reservation belong to a call of `add`, but they are
found by the id.  They are the right ones as long as nothing takes the place of an
entry, or removes it, that still has something to settle.

* **`tracks_of_orderly`** — along every run of orderly inputs each reservation is
  released exactly once, after its run has ended, each run settles its own promise,
  and a running execution stays in its place.
-/
import N8n.ActiveExecutions

namespace N8n

namespace AddCall

variable {call : AddCall} {c : ℕ}

/-- The run was finalized or stopped. -/
def Ended (call : AddCall) : Prop := call.finalized = true ∨ call.stopped = true

/-- The promise is settled and its handlers are about to run. -/
def Settling (call : AddCall) : Prop :=
  call.postExecutePromise ≠ .pending ∧ call.handled = false

/-- What holds of a call by itself. -/
structure Consistent (call : AddCall) (c : ℕ) : Prop where
  early : call.stage ≠ .added →
    call.finalized = false ∧ call.stopped = false ∧ call.postExecutePromise = .pending
  balance : call.released + call.acquiredReservation.isSome.toNat = call.reserved.toNat
  unreleased : call.stage ≠ .threw → call.handled = false → call.released = 0
  closed : call.stage = .threw ∨ call.handled = true → call.acquiredReservation = none
  handled : call.handled = true → call.postExecutePromise ≠ .pending
  ended : call.postExecutePromise ≠ .pending ↔ call.Ended
  same : ∀ e, call.postExecutePromise = .resolved e → e = c

theorem release_eq (call : AddCall) : call.release = { call with
    acquiredReservation := none
    released := call.released + call.acquiredReservation.isSome.toNat } := by
  obtain ⟨id, resuming, mode, data, stage, status, acquired, promise, handled, reserved, released,
    finalized, stopped⟩ := call
  cases acquired <;> rfl

theorem settle_eq (call : AddCall) (promise : PostExecutePromise) :
    call.settle promise = { call with
      postExecutePromise := if call.postExecutePromise = .pending then promise
        else call.postExecutePromise } := by
  rw [settle]
  split <;> rfl

section

variable (h : call.Consistent c) (hstage : call.stage ≠ .added)
include h hstage

theorem Consistent.handled_eq :
    call.handled = false := by
  cases hhandled : call.handled with
  | false => rfl
  | true => exact absurd (h.early hstage).2.2 (h.handled hhandled)

theorem Consistent.moved
    (hopen : call.stage ≠ .threw) (maybeExecutionId : Option String) {stage : AddStage}
    (hopen' : stage ≠ .threw) (status : ExecutionStatus) :
    { call with maybeExecutionId, stage, status }.Consistent c where
  early _ := h.early hstage
  balance := h.balance
  unreleased _ := h.unreleased hopen
  closed hclosed := h.closed (.inr (hclosed.resolve_left hopen'))
  handled := h.handled
  ended := h.ended
  same := h.same

theorem Consistent.reserve
    (hopen : call.stage ≠ .threw) (executionId : String) :
    (call.reserve executionId).Consistent c where
  early := h.early
  balance := by
    rw [AddCall.reserve, h.unreleased hopen (h.handled_eq hstage)]
    rfl
  unreleased := h.unreleased
  closed hclosed := by
    rcases hclosed with hthrew | hhandled
    · exact absurd hthrew hopen
    · exact absurd ((h.handled_eq hstage).symm.trans hhandled) Bool.false_ne_true
  handled := h.handled
  ended := h.ended
  same := h.same

theorem Consistent.throws :
    call.throws.Consistent c := by
  have hbalance := h.balance
  rw [AddCall.throws, release_eq]
  exact {
    early := fun _ => h.early hstage
    balance := by simpa using hbalance
    unreleased := fun hthrew => absurd rfl hthrew
    closed := fun _ => rfl
    handled := h.handled
    ended := h.ended
    same := h.same }

end

theorem Consistent.settled (h : call.Consistent c) (hstage : call.stage = .added)
    (hpromise : call.postExecutePromise ≠ .pending) :
    { call with handled := true }.release.Consistent c := by
  have hbalance := h.balance
  rw [release_eq]
  exact {
    early := fun hearly => absurd hstage hearly
    balance := by simpa using hbalance
    unreleased := fun _ hhandled => by cases hhandled
    closed := fun _ => rfl
    handled := fun _ => hpromise
    ended := h.ended
    same := h.same }

theorem Consistent.settle (h : call.Consistent c) (hstage : call.stage = .added)
    {promise : PostExecutePromise} (hpromise : promise ≠ .pending)
    (hsame : ∀ e, promise = .resolved e → e = c) {finalized stopped : Bool}
    (hends : finalized = true ∨ stopped = true) :
    ({ call with finalized, stopped }.settle promise).Consistent c := by
  have hsettled : (if call.postExecutePromise = .pending then promise
      else call.postExecutePromise) ≠ .pending := by
    split
    · exact hpromise
    · assumption
  rw [settle_eq]
  exact {
    early := fun hearly => absurd hstage hearly
    balance := h.balance
    unreleased := h.unreleased
    closed := h.closed
    handled := fun _ => hsettled
    ended := iff_of_true hsettled hends
    same := fun e he => by
      dsimp only at he
      split at he
      · exact hsame e he
      · exact h.same e he }

end AddCall

namespace ActiveExecutions

variable {s s' : ActiveExecutions} {c : ℕ} {call : AddCall}

/-- The reservation of a call is released once, and not before its run has ended or
`add` has thrown; a run that is finalized settles its own promise, and resolves no
other; an execution that is running is in its place. -/
structure Sound (s : ActiveExecutions) (c : ℕ) : Prop where
  once : (s.call c).released ≤ 1
  late : 0 < (s.call c).released → (s.call c).Ended ∨ (s.call c).stage = .threw
  freed : (s.call c).reserved = true → (s.call c).Ended ∨ (s.call c).stage = .threw →
    (s.call c).released = 1 ∨ (s.call c).Settling
  own : (s.call c).finalized = true → (s.call c).postExecutePromise ≠ .pending
  same : ∀ e, (s.call c).postExecutePromise = .resolved e → e = c
  kept : (s.call c).stage = .added → ¬ (s.call c).Ended → (s.call c).status ≠ .waiting →
    s.entry? (s.executionId c) = some c

def Tracks (s : ActiveExecutions) : Prop := ∀ c, s.Sound c

/-- The entry in the place of a call, if there is one, is through: its promise is
settled, and the handlers of the promise have run or will leave the place alone. -/
def Replaceable (s : ActiveExecutions) (c : ℕ) : Prop :=
  ∀ e ∈ s.entry? (s.executionId c), (s.call e).postExecutePromise ≠ .pending ∧
    ((s.call e).status = .waiting ∨ (s.call e).handled = true)

instance (s : ActiveExecutions) (c : ℕ) : Decidable (s.Replaceable c) :=
  inferInstanceAs (Decidable (∀ _ ∈ _, _))

/-- The input leaves the entries their places: what is registered replaces only an
entry that is through, an execution that is stopped while it waits has been finalized,
and a run that is finalized finds its own entry, none, or one that is settled. -/
def Orderly (s : ActiveExecutions) : ActiveExecutionsInput → Prop
  | .reserved c => (s.call c).resuming = false → s.regular = false → s.Replaceable c
  | .setRunning c => s.Replaceable c
  | .returned c => (s.call c).stage = .returning true → s.Replaceable c
  | .stopExecution executionId => ∀ e ∈ s.entry? executionId,
    (s.call e).status = .waiting → (s.call e).postExecutePromise ≠ .pending
  | .finalizeExecution c => ∀ e ∈ s.entry? (s.executionId c),
    e = c ∨ (s.call e).postExecutePromise ≠ .pending
  | _ => True

instance (s : ActiveExecutions) (input : ActiveExecutionsInput) : Decidable (s.Orderly input) := by
  unfold Orderly
  split <;> infer_instance

/-- A call whose promise is pending, or whose handlers will remove an entry, has its
place; each entry is of a call that was added under its id. -/
structure Inv (s : ActiveExecutions) : Prop where
  consistent : ∀ c, (s.call c).Consistent c
  placed : ∀ c, (s.call c).stage = .added → (s.call c).handled = false →
    (s.call c).postExecutePromise = .pending ∨ (s.call c).status ≠ .waiting →
      s.entry? (s.executionId c) = some c
  mapped : ∀ id e, s.entry? id = some e → (s.call e).stage = .added ∧ s.executionId e = id
  fresh : ∀ c, s.calls ≤ c → (s.call c).stage = .idle

theorem Inv.sound (h : Inv s) (c : ℕ) : s.Sound c := by
  have hc := h.consistent c
  have hbalance := hc.balance
  have hpending : ¬ (s.call c).Ended → (s.call c).postExecutePromise = .pending := by
    intro hended
    by_contra hne
    exact hended (hc.ended.mp hne)
  have hle : (s.call c).released ≤ 1 := by
    have : (s.call c).reserved.toNat ≤ 1 := Bool.toNat_le _
    omega
  refine ⟨hle, ?_, ?_, fun hfinalized => hc.ended.mpr (.inl hfinalized), hc.same, ?_⟩
  · intro hpos
    by_cases hthrew : (s.call c).stage = .threw
    · exact .inr hthrew
    · cases hhandled : (s.call c).handled with
      | true => exact .inl (hc.ended.mp (hc.handled hhandled))
      | false => exact absurd (hc.unreleased hthrew hhandled) (Nat.pos_iff_ne_zero.mp hpos)
  · intro hreserved hended
    by_cases hclosed : (s.call c).stage = .threw ∨ (s.call c).handled = true
    · left
      rw [hc.closed hclosed, hreserved] at hbalance
      simpa using hbalance
    · rw [not_or] at hclosed
      right
      exact ⟨hc.ended.mpr (hended.resolve_right hclosed.1), by simpa using hclosed.2⟩
  · intro hadded hended hrunning
    refine h.placed c hadded ?_ (.inl (hpending hended))
    cases hhandled : (s.call c).handled with
    | false => rfl
    | true => exact absurd (hpending hended) (hc.handled hhandled)

theorem consistent_new (c : ℕ) (maybeExecutionId : Option String) (resuming : Bool)
    (mode : WorkflowExecuteMode) (data : String) (stage : AddStage) (status : ExecutionStatus) :
    ({ maybeExecutionId, resuming, mode, data, stage, status } : AddCall).Consistent c where
  early _ := ⟨rfl, rfl, rfl⟩
  balance := rfl
  unreleased _ _ := rfl
  closed _ := rfl
  handled h := by cases h
  ended := ⟨fun h => absurd rfl h, fun h => by rcases h with h | h <;> cases h⟩
  same e h := by cases h

theorem inv_start (regular : Bool) (repository : ExecutionRepository) :
    Inv { regular, repository } where
  consistent c := consistent_new c ..
  placed c h := by cases h
  mapped id e h := by cases h
  fresh c _ := rfl

@[simp] theorem call_setCall_self (s : ActiveExecutions) (c : ℕ) (call : AddCall) :
    (s.setCall c call).call c = call := Function.update_self ..

theorem setCall_setCall (s : ActiveExecutions) (c : ℕ) (call call' : AddCall) :
    (s.setCall c call).setCall c call' = s.setCall c call' := by
  rw [setCall, setCall, setCall]
  simp only [Function.update_idem]

theorem setCall_same (s : ActiveExecutions) (h : s.call c = call) :
    s.setCall c call = s := by
  rw [setCall, ← h, Function.update_eq_self]

theorem call_setCall_of_ne (s : ActiveExecutions) {d : ℕ} (h : d ≠ c) (call : AddCall) :
    (s.setCall c call).call d = s.call d := Function.update_of_ne h ..

@[simp] theorem entry?_setCall (s : ActiveExecutions) (c : ℕ) (call : AddCall) (id : String) :
    entry? (s.setCall c call) id = s.entry? id := rfl

theorem executionId_setCall_of_ne (s : ActiveExecutions) {d : ℕ} (h : d ≠ c) (call : AddCall) :
    (s.setCall c call).executionId d = s.executionId d := by
  rw [executionId, executionId, call_setCall_of_ne s h]

theorem executionId_setCall_self (s : ActiveExecutions)
    (h : call.maybeExecutionId = (s.call c).maybeExecutionId) :
    (s.setCall c call).executionId c = s.executionId c := by
  rw [executionId, executionId, call_setCall_self, h]

theorem consistent_setCall (h : ∀ d, (s.call d).Consistent d) (hcall : call.Consistent c) (d : ℕ) :
    ((s.setCall c call).call d).Consistent d := by
  by_cases hd : d = c
  · rw [hd, call_setCall_self]
    exact hcall
  · rw [call_setCall_of_ne s hd]
    exact h d

theorem Inv.not_mapped (h : Inv s) (hstage : (s.call c).stage ≠ .added) (id : String) :
    s.entry? id ≠ some c :=
  fun hentry => hstage (h.mapped id c hentry).1

theorem Inv.lt_calls (h : Inv s) (hstage : (s.call c).stage ≠ .idle) : c < s.calls := by
  by_contra hle
  exact hstage (h.fresh c (Nat.le_of_not_lt hle))

theorem Inv.of_repository (h : Inv s) (repository : ExecutionRepository) :
    Inv { s with repository } where
  consistent := h.consistent
  placed := h.placed
  mapped := h.mapped
  fresh := h.fresh

theorem Inv.setEarly (h : Inv s) (hstage : (s.call c).stage ≠ .added)
    (hstage' : call.stage ≠ .added) (hcall : call.Consistent c)
    (hidle : (s.call c).stage ≠ .idle) : Inv (s.setCall c call) where
  consistent := consistent_setCall h.consistent hcall
  placed d := by
    by_cases hd : d = c
    · subst hd
      rw [call_setCall_self]
      exact fun hadded => absurd hadded hstage'
    · rw [call_setCall_of_ne s hd, executionId_setCall_of_ne s hd]
      exact h.placed d
  mapped id e hentry := by
    have hne : e ≠ c := fun heq => h.not_mapped hstage id (heq ▸ hentry)
    rw [call_setCall_of_ne s hne, executionId_setCall_of_ne s hne]
    exact h.mapped id e hentry
  fresh d hd := by
    have hne : d ≠ c := fun heq => absurd (h.lt_calls hidle) (Nat.not_lt.mpr (heq ▸ hd))
    rw [call_setCall_of_ne s hne]
    exact h.fresh d hd

theorem Inv.setAdded (h : Inv s) (hstage : (s.call c).stage = .added)
    (hstage' : call.stage = .added) (hcall : call.Consistent c)
    (hid : call.maybeExecutionId = (s.call c).maybeExecutionId)
    (hplaced : call.handled = false → call.postExecutePromise = .pending ∨ call.status ≠ .waiting →
      s.entry? (s.executionId c) = some c) : Inv (s.setCall c call) where
  consistent := consistent_setCall h.consistent hcall
  placed d := by
    by_cases hd : d = c
    · subst hd
      rw [call_setCall_self, executionId_setCall_self s hid]
      exact fun _ => hplaced
    · rw [call_setCall_of_ne s hd, executionId_setCall_of_ne s hd]
      exact h.placed d
  mapped id e hentry := by
    by_cases he : e = c
    · subst he
      rw [call_setCall_self, executionId_setCall_self s hid]
      exact ⟨hstage', (h.mapped id e hentry).2⟩
    · rw [call_setCall_of_ne s he, executionId_setCall_of_ne s he]
      exact h.mapped id e hentry
  fresh d hd := by
    have hne : d ≠ c := by
      rintro rfl
      have hidle := h.fresh d hd
      rw [hstage] at hidle
      cases hidle
    rw [call_setCall_of_ne s hne]
    exact h.fresh d hd

theorem call_register_self (s : ActiveExecutions) (c : ℕ) :
    (s.register c).call c = { s.call c with stage := .added, status := .running } :=
  Function.update_self ..

theorem call_register_of_ne (s : ActiveExecutions) {d : ℕ} (h : d ≠ c) :
    (s.register c).call d = s.call d := Function.update_of_ne h ..

theorem executionId_register (s : ActiveExecutions) (c d : ℕ) :
    (s.register c).executionId d = s.executionId d := by
  by_cases h : d = c
  · rw [executionId, executionId, h, call_register_self]
  · rw [executionId, executionId, call_register_of_ne s h]

theorem entry?_register (s : ActiveExecutions) (c : ℕ) (id : String) :
    entry? (s.register c) id = if id = s.executionId c then some c else s.entry? id :=
  Dict.get?_set ..

theorem Inv.registered (h : Inv s) (hstage : (s.call c).stage ≠ .added)
    (hidle : (s.call c).stage ≠ .idle)
    (hcall : { s.call c with stage := .added, status := .running }.Consistent c)
    (hreplaceable : s.Replaceable c) : Inv (s.register c) where
  consistent d := by
    by_cases hd : d = c
    · rw [hd, call_register_self]
      exact hcall
    · rw [call_register_of_ne s hd]
      exact h.consistent d
  placed d := by
    rw [executionId_register, entry?_register]
    by_cases hd : d = c
    · rw [hd, if_pos rfl]
      exact fun _ _ _ => rfl
    · rw [call_register_of_ne s hd]
      intro hadded hhandled hneeds
      have hentry := h.placed d hadded hhandled hneeds
      rw [if_neg, hentry]
      -- An entry in the place of `c` is through, so `d` has no need of it.
      intro hsame
      obtain ⟨hsettled, hthrough⟩ := hreplaceable d (hsame ▸ hentry)
      rcases hneeds with hpending | hrunning
      · exact hsettled hpending
      · rcases hthrough with hwaiting | hthrough
        · exact hrunning hwaiting
        · rw [hhandled] at hthrough
          cases hthrough
  mapped id e hentry := by
    rw [executionId_register]
    rw [entry?_register] at hentry
    split at hentry
    · rename_i hid
      cases hentry
      rw [call_register_self]
      exact ⟨rfl, hid.symm⟩
    · have hne : e ≠ c := fun heq => h.not_mapped hstage id (heq ▸ hentry)
      rw [call_register_of_ne s hne]
      exact h.mapped id e hentry
  fresh d hd := by
    have hne : d ≠ c := fun heq => absurd (h.lt_calls hidle) (Nat.not_lt.mpr (heq ▸ hd))
    rw [call_register_of_ne s hne]
    exact h.fresh d hd

theorem Inv.replaceable_setCall (h : Inv s) (hstage : (s.call c).stage ≠ .added)
    (hid : call.maybeExecutionId = (s.call c).maybeExecutionId) (hreplaceable : s.Replaceable c) :
    (s.setCall c call).Replaceable c := by
  intro e he
  rw [executionId_setCall_self s hid, entry?_setCall] at he
  have hne : e ≠ c := fun heq => h.not_mapped hstage _ (heq ▸ he)
  rw [call_setCall_of_ne s hne]
  exact hreplaceable e he

theorem Inv.erased (h : Inv s) (id : String)
    (hfree : ∀ d, (s.call d).stage = .added → (s.call d).handled = false →
      (s.call d).postExecutePromise = .pending ∨ (s.call d).status ≠ .waiting →
        s.executionId d ≠ id) :
    Inv { s with activeExecutions := s.activeExecutions.erase id } where
  consistent := h.consistent
  placed d hadded hhandled hneeds :=
    (Dict.get?_erase_of_ne _ (hfree d hadded hhandled hneeds)).trans
      (h.placed d hadded hhandled hneeds)
  mapped other e hentry := h.mapped other e (Dict.get?_of_get?_erase hentry)
  fresh := h.fresh

section

variable (h : Inv s)
include h

theorem inv_add (mode : WorkflowExecuteMode) (data : String)
    (maybeExecutionId : Option String) : Inv (s.add mode data maybeExecutionId) := by
  have hidle := h.fresh s.calls le_rfl
  have hunmapped := h.not_mapped (c := s.calls) (by rw [hidle]; decide)
  have hstage : (if maybeExecutionId.isSome then AddStage.reserving else .creating) ≠ .added := by
    split <;> decide
  refine ⟨?_, fun d => ?_, fun id e hentry => ?_, fun d hd => ?_⟩
  · exact consistent_setCall (s := { s with calls := s.calls + 1 }) h.consistent
      (consistent_new s.calls ..)
  · by_cases hd : d = s.calls
    · subst hd
      rw [add, call_setCall_self]
      exact fun hadded => absurd hadded hstage
    · rw [add, call_setCall_of_ne _ hd, executionId_setCall_of_ne _ hd]
      exact h.placed d
  · have hne : e ≠ s.calls := fun heq => hunmapped id (heq ▸ hentry)
    rw [add, call_setCall_of_ne _ hne, executionId_setCall_of_ne _ hne]
    exact h.mapped id e hentry
  · have hlt : s.calls < d := hd
    rw [add, call_setCall_of_ne _ (Nat.ne_of_gt hlt)]
    exact h.fresh d (Nat.le_of_lt hlt)

theorem inv_created (hstage : (s.call c).stage = .creating) (id : String) :
    Inv (s.created c id) := by
  have hadded : (s.call c).stage ≠ .added := by simp [hstage]
  have hopen : (s.call c).stage ≠ .threw := by simp [hstage]
  exact (h.of_repository _).setEarly hadded (AddStage.noConfusion)
    ((h.consistent c).moved hadded hopen _ (AddStage.noConfusion) _) (by simp [hstage])

theorem inv_reserved (hstage : (s.call c).stage = .reserving)
    (horderly : s.Orderly (.reserved c)) : Inv (s.reserved c) := by
  have hadded : (s.call c).stage ≠ .added := by simp [hstage]
  have hopen : (s.call c).stage ≠ .threw := by simp [hstage]
  have hidle : (s.call c).stage ≠ .idle := by simp [hstage]
  have hreserve := (h.consistent c).reserve hadded hopen (s.executionId c)
  rw [reserved]
  split
  · exact h.setEarly hadded (AddStage.noConfusion)
      (hreserve.moved hadded hopen _ (AddStage.noConfusion) _) hidle
  · rename_i hresuming
    split
    · exact h.setEarly hadded (AddStage.noConfusion)
        (hreserve.moved hadded hopen _ (AddStage.noConfusion) _) hidle
    · rename_i hregular
      have hset : Inv (s.setCall c ((s.call c).reserve (s.executionId c))) :=
        h.setEarly hadded hadded hreserve hidle
      have hresuming' : (s.call c).resuming = false := by simpa [AddCall.reserve] using hresuming
      have hreplaceable := horderly hresuming' (by simpa using hregular)
      refine hset.registered ?_ ?_ ?_ (h.replaceable_setCall hadded rfl hreplaceable)
      · rw [call_setCall_self]
        exact hadded
      · rw [call_setCall_self]
        exact hidle
      · rw [call_setCall_self]
        exact hreserve.moved hadded hopen _ (AddStage.noConfusion) _

theorem inv_failed (hstage : Awaits (s.call c).stage) :
    Inv (s.setCall c (s.call c).throws) := by
  have hadded : (s.call c).stage ≠ .added := by
    intro heq
    rw [heq] at hstage
    exact absurd hstage (by decide)
  have hidle : (s.call c).stage ≠ .idle := by
    intro heq
    rw [heq] at hstage
    exact absurd hstage (by decide)
  refine h.setEarly hadded ?_ ((h.consistent c).throws hadded) hidle
  rw [AddCall.throws, AddCall.release_eq]
  exact AddStage.noConfusion

theorem inv_updated (hstage : (s.call c).stage = .updating) :
    Inv (s.updated c) := by
  have hadded : (s.call c).stage ≠ .added := by simp [hstage]
  have hopen : (s.call c).stage ≠ .threw := by simp [hstage]
  exact (h.of_repository _).setEarly hadded (AddStage.noConfusion)
    ((h.consistent c).moved hadded hopen _ (AddStage.noConfusion) _) (by simp [hstage])

theorem inv_setRunning (hstage : (s.call c).stage = .settingRunning)
    (hreplaceable : s.Replaceable c) : Inv (s.setRunning c) := by
  have hadded : (s.call c).stage ≠ .added := by simp [hstage]
  have hopen : (s.call c).stage ≠ .threw := by simp [hstage]
  exact (h.of_repository _).registered hadded (by simp [hstage])
    ((h.consistent c).moved hadded hopen _ (AddStage.noConfusion) _) hreplaceable

theorem inv_returned {updateSucceeded : Bool}
    (hstage : (s.call c).stage = .returning updateSucceeded)
    (horderly : s.Orderly (.returned c)) : Inv (s.returned c updateSucceeded) := by
  have hadded : (s.call c).stage ≠ .added := by simp [hstage]
  have hopen : (s.call c).stage ≠ .threw := by simp [hstage]
  have hidle : (s.call c).stage ≠ .idle := by simp [hstage]
  cases updateSucceeded with
  | true =>
    exact h.registered hadded hidle
      ((h.consistent c).moved hadded hopen _ (AddStage.noConfusion) _) (horderly hstage)
  | false =>
    refine h.setEarly hadded ?_ ((h.consistent c).throws hadded) hidle
    rw [AddCall.throws, AddCall.release_eq]
    exact AddStage.noConfusion

theorem inv_setStatus (id : String) (status : ExecutionStatus) :
    Inv (s.setStatus id status) := by
  rw [setStatus]
  cases hentry : s.entry? id with
  | none => exact h
  | some c =>
    obtain ⟨hstage, hid⟩ := h.mapped id c hentry
    have hc := h.consistent c
    exact h.setAdded hstage hstage { hc with } rfl fun _ _ => hid ▸ hentry

theorem inv_stopExecution (id : String) (horderly : s.Orderly (.stopExecution id)) :
    Inv (s.stopExecution id) := by
  rw [stopExecution]
  cases hentry : s.entry? id with
  | none => exact h
  | some c =>
    obtain ⟨hstage, hid⟩ := h.mapped id c hentry
    have hc := h.consistent c
    subst hid
    dsimp only
    split
    · -- The execution waits and is finalized: nothing needs the entry.
      rename_i hwaiting
      have hsettled := horderly c hentry hwaiting
      have herased := h.erased (s.executionId c) fun d hadded hhandled hneeds heq => by
        have hd := h.placed d hadded hhandled hneeds
        rw [heq, hentry] at hd
        cases hd
        rcases hneeds with hpending | hrunning
        · exact hsettled hpending
        · exact hrunning hwaiting
      refine herased.setAdded hstage hstage ?_ rfl fun _ hneeds => ?_
      · exact { hc with
          early := fun hearly => absurd hstage hearly
          ended := iff_of_true hsettled (.inr rfl) }
      · rcases hneeds with hpending | hrunning
        · exact absurd hpending hsettled
        · exact absurd hwaiting hrunning
    · refine h.setAdded hstage ?_ ?_ ?_ fun _ _ => hentry
      · rw [AddCall.settle_eq]
        exact hstage
      · exact hc.settle hstage (PostExecutePromise.noConfusion) (fun e he => by cases he) (.inr rfl)
      · rw [AddCall.settle_eq]

theorem inv_finalizeExecution (hstage : (s.call c).stage = .added)
    (horderly : s.Orderly (.finalizeExecution c)) : Inv (s.finalizeExecution c) := by
  have hc := h.consistent c
  -- A run that does not find its own entry has settled its promise before.
  have hother : s.entry? (s.executionId c) ≠ some c → (s.call c).postExecutePromise ≠ .pending := by
    intro hne hpending
    cases hhandled : (s.call c).handled with
    | true => exact hc.handled hhandled hpending
    | false => exact hne (h.placed c hstage hhandled (.inl hpending))
  have hmarked : (s.call c).postExecutePromise ≠ .pending →
      Inv (s.setCall c { s.call c with finalized := true }) := by
    intro hsettled
    refine h.setAdded hstage hstage ?_ rfl fun hhandled hneeds => h.placed c hstage hhandled hneeds
    exact { hc with
      early := fun hearly => absurd hstage hearly
      ended := iff_of_true hsettled (.inl rfl) }
  have hid : (s.setCall c { s.call c with finalized := true }).executionId c = s.executionId c :=
    executionId_setCall_self s rfl
  rw [finalizeExecution]
  simp only [hid, entry?_setCall]
  cases hentry : s.entry? (s.executionId c) with
  | none => exact hmarked (hother (by rw [hentry]; exact fun h => by cases h))
  | some e =>
    dsimp only
    by_cases he : e = c
    · subst he
      rw [call_setCall_self, setCall_setCall]
      refine h.setAdded hstage ?_ ?_ ?_ fun _ _ => hentry
      · rw [AddCall.settle_eq]
        exact hstage
      · exact hc.settle hstage (PostExecutePromise.noConfusion)
          (fun d hd => (PostExecutePromise.resolved.inj hd).symm) (.inl rfl)
      · rw [AddCall.settle_eq]
    · have hsettled := (horderly e hentry).resolve_left he
      have hown := hmarked (hother (by rw [hentry]; exact fun h => he (Option.some.inj h)))
      rw [call_setCall_of_ne _ he, AddCall.settle, if_neg hsettled]
      rw [setCall_same _ (call_setCall_of_ne s he _)]
      exact hown

theorem inv_settled (hstage : (s.call c).stage = .added)
    (hsettled : (s.call c).postExecutePromise ≠ .pending) (hopen : (s.call c).handled = false) :
    Inv (s.settled c) := by
  have hc := (h.consistent c).settled hstage hsettled
  have hfields : { s.call c with handled := true }.release.stage = .added ∧
      { s.call c with handled := true }.release.handled = true ∧
      { s.call c with handled := true }.release.status = (s.call c).status ∧
      { s.call c with handled := true }.release.maybeExecutionId
        = (s.call c).maybeExecutionId := by
    rw [AddCall.release_eq]
    exact ⟨hstage, rfl, rfl, rfl⟩
  obtain ⟨hstage', hhandled', hstatus, hid⟩ := hfields
  rw [settled]
  dsimp only
  rw [hstatus]
  have hset : Inv (s.setCall c { s.call c with handled := true }.release) := by
    refine h.setAdded hstage hstage' hc hid fun hfalse _ => ?_
    rw [hhandled'] at hfalse
    cases hfalse
  split
  · exact hset
  · -- The entry was its own, and it needs it no more.
    rename_i hrunning
    have hentry := h.placed c hstage hopen (.inr hrunning)
    refine hset.erased (s.executionId c) fun d hadded hhandled hneeds heq => ?_
    have hd := hset.placed d hadded hhandled hneeds
    rw [heq, entry?_setCall, hentry] at hd
    cases hd
    rw [call_setCall_self, hhandled'] at hhandled
    cases hhandled

/-- Step lemma: an orderly input keeps the invariant. -/
theorem inv_step {input : ActiveExecutionsInput} (hstep : s.step input = .ok s')
    (horderly : s.Orderly input) : Inv s' := by
  cases input with
  | add mode data maybeExecutionId =>
    cases hstep
    exact inv_add h mode data maybeExecutionId
  | created c id =>
    obtain ⟨⟨hstage, -⟩, rfl⟩ := onlyIf_eq_ok.mp hstep
    exact inv_created h hstage id
  | reserved c =>
    obtain ⟨hstage, rfl⟩ := onlyIf_eq_ok.mp hstep
    exact inv_reserved h hstage horderly
  | setRunning c =>
    obtain ⟨hstage, rfl⟩ := onlyIf_eq_ok.mp hstep
    exact inv_setRunning h hstage horderly
  | updated c =>
    obtain ⟨hstage, rfl⟩ := onlyIf_eq_ok.mp hstep
    exact inv_updated h hstage
  | returned c =>
    rw [step] at hstep
    cases hstage : (s.call c).stage with
    | returning updateSucceeded =>
      rw [hstage] at hstep
      cases hstep
      exact inv_returned h hstage horderly
    | _ =>
      rw [hstage] at hstep
      cases hstep
  | failed c =>
    obtain ⟨hstage, rfl⟩ := onlyIf_eq_ok.mp hstep
    exact inv_failed h hstage
  | setStatus id status =>
    cases hstep
    exact inv_setStatus h id status
  | stopExecution id =>
    cases hstep
    exact inv_stopExecution h id horderly
  | finalizeExecution c =>
    obtain ⟨hstage, rfl⟩ := onlyIf_eq_ok.mp hstep
    exact inv_finalizeExecution h hstage horderly
  | settled c =>
    obtain ⟨⟨hstage, hsettled, hopen⟩, rfl⟩ := onlyIf_eq_ok.mp hstep
    exact inv_settled h hstage hsettled hopen
  | stored id row =>
    cases hstep
    exact h.of_repository _

end

/-- **When the active executions are tracked.**  Along every run whose inputs are
orderly, each reservation is released once its run has ended and not before, each run
that is finalized settles its own promise, and a running execution keeps its place. -/
theorem tracks_of_orderly (regular : Bool) (repository : ExecutionRepository)
    {inputs : List ActiveExecutionsInput}
    (horderly : Along step (fun s input _ => s.Orderly input) { regular, repository } inputs) :
    Along step (fun _ _ s' => s'.Tracks) { regular, repository } inputs := by
  refine Along.of_step (fun s input s' hs hstep hinput => ?_) (inv_start regular repository)
    horderly
  have hs' := inv_step hs hstep hinput
  exact ⟨hs'.sound, hs'⟩

def suspendedRun : List ActiveExecutionsInput :=
  [.add .trigger "data" none, .created 0 "1", .reserved 0, .setRunning 0,
    .setStatus "1" .waiting, .stored "1" { status := .waiting }]

/-- Its resumption. -/
def resumedRun : List ActiveExecutionsInput :=
  [.add .trigger "data" (some "1"), .reserved 1, .updated 1, .returned 1]

/-- The execution is finalized before it is resumed, and stopped later. -/
theorem tracks_resumedAfterFinalized :
    Along step (fun _ _ s' => s'.Tracks) {} (suspendedRun ++ .finalizeExecution 0 :: .settled 0 ::
      resumedRun ++ [.stopExecution "1", .settled 1]) :=
  tracks_of_orderly true {} (by decide)

/-- The store says that the execution waits before the run is finalized; the run then
resolves the promise of its own resumption. -/
theorem not_tracks_resumedBeforeFinalized :
    ¬ Along step (fun _ _ s' => s'.Tracks) {}
      (suspendedRun ++ resumedRun ++ [.finalizeExecution 0]) := by
  intro h
  have hsame : Along step (fun _ _ s' => (s'.call 1).postExecutePromise ≠ .resolved 0) {}
      (suspendedRun ++ resumedRun ++ [.finalizeExecution 0]) :=
    h.mono fun _ _ s' hs hresolved => absurd ((hs 1).same 0 hresolved) (by decide)
  exact absurd hsame (by decide)

end ActiveExecutions

end N8n
