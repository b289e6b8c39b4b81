/-
The recovery of dangling executions from the queue.

A recovery reads which executions the store has in progress, then which of them have a
job, and marks the others as crashed.  Between its calls executions are created, enqueued,
picked up, finished and suspended; whether an execution is in the queue and what the store
says of it are two things, changed one after the other.

* **`crashesOnlyDangling_of_kept`** — along every run this is so, if each execution without
  a job is really dangling when the queue is read, none that is about to be marked is
  finished or suspended by then, and none that was marked is resumed.
-/
import N8n.Runs
import N8n.ExecutionRepository

namespace N8n

inductive JobStatus where
  | waiting
  | active
  deriving DecidableEq

structure QueueJob where
  jobId : ℕ
  executionId : String
  status : JobStatus := .waiting
  deriving DecidableEq

/-- A call of `recoverFromQueue`, by the `await` it stands at. -/
inductive RecoverCall where
  /-- `getInProgressExecutionIds` is to be answered. -/
  | reading
  /-- `findJobsByStatus` is to be answered. -/
  | finding (storedIds : List String)
  /-- A batch of `markAsCrashed` is to be answered; `rest` are the ids not yet marked. -/
  | marking (stored : ℕ) (rest : List String)
  | returned (waitMs : ℚ)
  deriving DecidableEq

namespace RecoverCall

def storedIds : RecoverCall → List String
  | finding storedIds => storedIds
  | _ => []

def rest : RecoverCall → List String
  | marking _ rest => rest
  | _ => []

end RecoverCall

def maxUpdateBatchSize : ℕ := 900

structure QueueRecovery where
  batchSize : ℕ
  waitMs : ℚ
  repository : ExecutionRepository := {}
  jobs : List QueueJob := []
  nextJob : ℕ := 0
  /-- The executions in the store whose job is still to be added. -/
  enqueuing : List String := []
  calls : List RecoverCall := []
  /-- What the recoveries have marked as crashed. -/
  marked : List String := []
  deriving DecidableEq

inductive QueueRecoveryInput where
  | create (executionId : String)
  /-- A suspended execution is taken up again. -/
  | resume (executionId : String) (data : String)
  /-- The job of an execution is added. -/
  | enqueue (executionId : String)
  /-- The job of an execution will never be added: the call threw, or the process is gone. -/
  | lost (executionId : String)
  | pickUp (jobId : ℕ)
  /-- The worker of a job notes that the execution runs. -/
  | setRunning (executionId : String)
  /-- The worker of a job stores how the execution ended. -/
  | save (executionId : String) (status : ExecutionStatus) (waitTill : Option ℤ) (data : String)
  /-- A job is completed, has failed or is stopped. -/
  | removeJob (jobId : ℕ)
  | recover
  | readStore (call : ℕ) (storedIds : List String)
  | readQueue (call : ℕ)
  | mark (call : ℕ)
  deriving DecidableEq

/-- The statuses of an execution that is through or suspended, but for a crash. -/
def ExecutionStatus.settled : ExecutionStatus → Bool
  | .canceled | .error | .success | .waiting => true
  | .crashed | .new | .running | .unknown => false

def ExecutionStatus.inProgress : ExecutionStatus → Bool
  | .new | .running => true
  | _ => false

namespace QueueRecovery
variable (s : QueueRecovery)

def queuedIds : List String := s.jobs.map (·.executionId)

def Settled (id : String) : Prop :=
  ∃ status ∈ s.repository.status? id, status.settled = true

instance (s : QueueRecovery) (id : String) : Decidable (s.Settled id) :=
  inferInstanceAs (Decidable (∃ status ∈ _, _))

def InProgress (id : String) : Prop :=
  ∃ status ∈ s.repository.status? id, status.inProgress = true

instance (s : QueueRecovery) (id : String) : Decidable (s.InProgress id) :=
  inferInstanceAs (Decidable (∃ status ∈ _, _))

/-- What `getInProgressExecutionIds` may return: the executions in progress, or as many
of them as the batch holds.  Which of them these are goes by the times of their start. -/
def MayRead (storedIds : List String) : Prop :=
  storedIds.Nodup ∧ storedIds.length ≤ s.batchSize ∧ (∀ id ∈ storedIds, s.InProgress id) ∧
    (storedIds.length < s.batchSize →
      ∀ id ∈ s.repository.rows.keys, s.InProgress id → id ∈ storedIds)

instance (s : QueueRecovery) (storedIds : List String) : Decidable (s.MayRead storedIds) :=
  inferInstanceAs (Decidable (_ ∧ _ ∧ _ ∧ _))

def setCall (i : ℕ) (call : RecoverCall) : QueueRecovery :=
  { s with calls := s.calls.set i call }

/-- `recoverFromQueue`, from the answer of the store on. -/
def readStore (storedIds : List String) : RecoverCall :=
  if storedIds = [] then .returned s.waitMs else .finding storedIds

/-- `recoverFromQueue`, from the answer of the queue on. -/
def readQueue (storedIds : List String) : RecoverCall :=
  let danglingIds := storedIds.filter (· ∉ s.queuedIds)
  if danglingIds = [] then .returned s.waitMs else .marking storedIds.length danglingIds

/-- Where a call stands when all but the rest is marked. -/
def markedUpTo (stored : ℕ) (rest : List String) : RecoverCall :=
  if rest = [] then .returned (if s.batchSize ≤ stored then s.waitMs / 2 else s.waitMs)
  else .marking stored rest

/-- One batch of `markAsCrashed`: the update asks for no status. -/
def markBatch (batch : List String) : QueueRecovery :=
  { s with
    repository := s.repository.markAsCrashed batch
    marked := s.marked ++ batch }

def step : QueueRecoveryInput → Except Unit QueueRecovery
  | .create id => onlyIf (s.repository.rows.get? id = none)
    { s with
      repository := s.repository.createNewExecution id { status := .new }
      enqueuing := s.enqueuing ++ [id] }
  | .resume id data =>
    let (repository, updated) := s.repository.updateExistingExecution id
      { status := some .running, waitTill := some none, data := some data } (some .waiting)
    onlyIf (updated = true) { s with repository, enqueuing := s.enqueuing ++ [id] }
  | .enqueue id => onlyIf (id ∈ s.enqueuing)
    { s with
      enqueuing := s.enqueuing.erase id
      jobs := s.jobs ++ [{ jobId := s.nextJob, executionId := id }]
      nextJob := s.nextJob + 1 }
  | .lost id => onlyIf (id ∈ s.enqueuing) { s with enqueuing := s.enqueuing.erase id }
  | .pickUp jobId => onlyIf (∃ job ∈ s.jobs, job.jobId = jobId ∧ job.status = .waiting)
    { s with jobs := s.jobs.map fun job =>
        if job.jobId = jobId then { job with status := .active } else job }
  | .setRunning id => .ok { s with repository := s.repository.setRunning id }
  | .save id status waitTill data => onlyIf (status.settled = true ∨ status = .crashed)
    { s with repository := (s.repository.updateExistingExecution id
        { status := some status, waitTill := some waitTill, data := some data } none).1 }
  | .removeJob jobId => .ok { s with jobs := s.jobs.filter fun job => job.jobId ≠ jobId }
  | .recover => .ok { s with calls := s.calls ++ [.reading] }
  | .readStore i storedIds => onlyIf (s.calls[i]? = some .reading ∧ s.MayRead storedIds)
    (s.setCall i (s.readStore storedIds))
  | .readQueue i => match s.calls[i]? with
    | some (.finding storedIds) => .ok (s.setCall i (s.readQueue storedIds))
    | _ => .error ()
  | .mark i => match s.calls[i]? with
    | some (.marking stored rest) =>
      .ok ((s.markBatch (rest.take maxUpdateBatchSize)).setCall i
        (s.markedUpTo stored (rest.drop maxUpdateBatchSize)))
    | _ => .error ()

/-- What the step marks is neither finished, nor suspended, nor in the queue; what it
enqueues was not marked before. -/
def CrashesOnlyDangling (input : QueueRecoveryInput) (_ : QueueRecovery) : Prop :=
  match input with
  | .mark i => ∀ call ∈ s.calls[i]?, ∀ id ∈ call.rest.take maxUpdateBatchSize,
    ¬ s.Settled id ∧ id ∉ s.queuedIds
  | .enqueue id => id ∉ s.marked
  | _ => True

/-- At a look at the queue, each execution that the call knows and that has no job there
is not about to get one, and is not settled by then; no settled status is stored of an
execution that is about to be marked; and none that was marked is resumed. -/
def Kept : QueueRecoveryInput → Prop
  | .readQueue i => ∀ call ∈ s.calls[i]?, ∀ id ∈ call.storedIds, id ∉ s.queuedIds →
    id ∉ s.enqueuing ∧ ¬ s.Settled id
  | .save id status _ _ => status.settled = true → ∀ call ∈ s.calls, id ∉ call.rest
  | .resume id _ => id ∉ s.marked
  | _ => True

instance (s : QueueRecovery) (input : QueueRecoveryInput) : Decidable (s.Kept input) := by
  unfold Kept
  split <;> infer_instance

def Stored (id : String) : Prop := (s.repository.status? id).isSome = true

/-- The execution is in the store, neither through nor suspended there, and is not in the
queue, nor will be before it is resumed. -/
structure Dangling (id : String) : Prop where
  stored : s.Stored id
  unsettled : ¬ s.Settled id
  unqueued : id ∉ s.queuedIds
  unqueueing : id ∉ s.enqueuing

/-- Each execution that a call is about to mark is dangling, and none that was marked is
about to be enqueued. -/
structure Inv : Prop where
  finding : ∀ call ∈ s.calls, ∀ id ∈ call.storedIds, s.Stored id
  marking : ∀ call ∈ s.calls, ∀ id ∈ call.rest, s.Dangling id
  marked : ∀ id ∈ s.marked, s.Stored id ∧ id ∉ s.enqueuing

variable {s s' : QueueRecovery}

theorem Inv.of_calls (h : Inv s) (hcalls : s'.calls = s.calls) (hmarked : s'.marked = s.marked)
    (hstored : ∀ id, s.Stored id → s'.Stored id)
    (hdangling : ∀ call ∈ s.calls, ∀ id ∈ call.rest, s.Dangling id → s'.Dangling id)
    (henqueuing : ∀ id ∈ s.marked, s.Stored id → id ∉ s.enqueuing → id ∉ s'.enqueuing) :
    Inv s' where
  finding call hcall id hid := by
    rw [hcalls] at hcall
    exact hstored id (h.finding call hcall id hid)
  marking call hcall id hid := by
    rw [hcalls] at hcall
    exact hdangling call hcall id hid (h.marking call hcall id hid)
  marked id hid := by
    rw [hmarked] at hid
    obtain ⟨hs, hnot⟩ := h.marked id hid
    exact ⟨hstored id hs, henqueuing id hid hs hnot⟩

theorem Inv.setCall (h : Inv s) (i : ℕ) {call : RecoverCall}
    (hfinding : ∀ id ∈ call.storedIds, s.Stored id) (hmarking : ∀ id ∈ call.rest, s.Dangling id) :
    Inv (s.setCall i call) where
  finding c hc := by
    rcases List.mem_or_eq_of_mem_set hc with hc | rfl
    · exact h.finding c hc
    · exact hfinding
  marking c hc id hid := by
    have hd : s.Dangling id := by
      rcases List.mem_or_eq_of_mem_set hc with hc | rfl
      · exact h.marking c hc id hid
      · exact hmarking id hid
    exact ⟨hd.stored, hd.unsettled, hd.unqueued, hd.unqueueing⟩
  marked := h.marked

theorem Dangling.of_status {id : String} (h : s.Dangling id)
    (hstatus : s'.repository.status? id = s.repository.status? id)
    (hqueued : id ∉ s'.queuedIds) (henqueuing : id ∉ s'.enqueuing) : s'.Dangling id where
  stored := by
    rw [Stored, hstatus]
    exact h.stored
  unsettled := by
    rw [Settled, hstatus]
    exact h.unsettled
  unqueued := hqueued
  unqueueing := henqueuing

section

variable (h : Inv s)
include h

theorem Inv.modify (id : String) (f : ExecutionRow → ExecutionRow)
    (hs' : s' = { s with repository := s.repository.modify id f })
    (hf : ∀ call ∈ s.calls, id ∈ call.rest → ∀ row, (f row).status.settled = false) : Inv s' := by
  have hstatus : ∀ other, s'.repository.status? other
      = if other = id then (s.repository.rows.get? id).map fun row => (f row).status
        else s.repository.status? other := by
    intro other
    rw [hs']
    by_cases hother : other = id
    · rw [if_pos hother, hother]
      exact s.repository.status?_modify id f
    · rw [if_neg hother]
      exact s.repository.status?_modify_of_ne hother f
  have hstored : ∀ other, s.Stored other → s'.Stored other := by
    intro other hother
    rw [Stored, hstatus other]
    split
    · rename_i hid
      rw [hid, Stored, ExecutionRepository.status?, Option.isSome_map] at hother
      rw [Option.isSome_map]
      exact hother
    · exact hother
  have hcalls : s'.calls = s.calls := by rw [hs']
  have hmarked : s'.marked = s.marked := by rw [hs']
  refine h.of_calls hcalls hmarked hstored ?_ ?_
  · intro call hcall other hother hd
    have hqueued : other ∉ s'.queuedIds := by
      rw [hs']
      exact hd.unqueued
    have henqueuing : other ∉ s'.enqueuing := by
      rw [hs']
      exact hd.unqueueing
    refine ⟨hstored other hd.stored, ?_, hqueued, henqueuing⟩
    -- the row itself becomes what is not settled, the others are what they were
    rintro ⟨status, hsome, hsettled⟩
    rw [hstatus other] at hsome
    by_cases hid : other = id
    · rw [if_pos hid] at hsome
      obtain ⟨row, -, rfl⟩ := Option.map_eq_some_iff.mp hsome
      rw [hf call hcall (hid ▸ hother) row] at hsettled
      cases hsettled
    · rw [if_neg hid] at hsome
      exact hd.unsettled ⟨status, hsome, hsettled⟩
  · intro other _ _ hnot
    rw [hs']
    exact hnot

theorem Inv.markBatch {batch : List String} (hbatch : ∀ id ∈ batch, s.Dangling id) :
    Inv (s.markBatch batch) ∧ ∀ id, s.Dangling id → (s.markBatch batch).Dangling id := by
  have hstatus := fun id => ExecutionRepository.status?_markAsCrashed id batch s.repository
  have hstored : ∀ id, s.Stored id → (s.markBatch batch).Stored id := by
    intro id hid
    rw [Stored, QueueRecovery.markBatch, hstatus id]
    split
    · rw [Option.isSome_map]
      exact hid
    · exact hid
  have hdangling : ∀ id, s.Dangling id → (s.markBatch batch).Dangling id := by
    intro id hd
    refine ⟨hstored id hd.stored, ?_, hd.unqueued, hd.unqueueing⟩
    rintro ⟨status, hsome, hsettled⟩
    rw [QueueRecovery.markBatch, hstatus id] at hsome
    by_cases hid : id ∈ batch
    · -- a crashed row counts as not settled: to mark it again changes nothing
      rw [if_pos hid] at hsome
      obtain ⟨_, -, rfl⟩ := Option.map_eq_some_iff.mp hsome
      cases hsettled
    · rw [if_neg hid] at hsome
      exact hd.unsettled ⟨status, hsome, hsettled⟩
  refine ⟨⟨?_, ?_, ?_⟩, hdangling⟩
  · exact fun call hcall id hid => hstored id (h.finding call hcall id hid)
  · exact fun call hcall id hid => hdangling id (h.marking call hcall id hid)
  · intro id hid
    rcases List.mem_append.mp hid with hid | hid
    · obtain ⟨hs, hnot⟩ := h.marked id hid
      exact ⟨hstored id hs, hnot⟩
    · exact ⟨hstored id (hbatch id hid).stored, (hbatch id hid).unqueueing⟩

variable {id : String}

theorem Inv.enqueuing (hrest : ∀ call ∈ s.calls, id ∉ call.rest)
    (hmarked : id ∉ s.marked) : Inv { s with enqueuing := s.enqueuing ++ [id] } := by
  refine h.of_calls rfl rfl (fun _ hstored => hstored) ?_ ?_
  · intro call hcall other hother hd
    refine hd.of_status rfl hd.unqueued fun hmem => ?_
    rcases List.mem_append.mp hmem with hmem | hmem
    · exact hd.unqueueing hmem
    · exact hrest call hcall (List.mem_singleton.mp hmem ▸ hother)
  · intro other hother _ hnot hmem
    rcases List.mem_append.mp hmem with hmem | hmem
    · exact hnot hmem
    · exact hmarked (List.mem_singleton.mp hmem ▸ hother)

theorem Inv.create (hnew : s.repository.rows.get? id = none) :
    Inv { s with
      repository := s.repository.createNewExecution id { status := .new }
      enqueuing := s.enqueuing ++ [id] } := by
  have hnone : ¬ s.Stored id := by
    rw [Stored, ExecutionRepository.status?, hnew]
    exact Bool.false_ne_true
  have hstatus : ∀ other, s.Stored other →
      (s.repository.createNewExecution id { status := .new }).status? other
        = s.repository.status? other := by
    intro other hother
    have hne : other ≠ id := fun heq => hnone (heq ▸ hother)
    rw [ExecutionRepository.status?, ExecutionRepository.createNewExecution, Dict.get?_set,
      if_neg hne, ExecutionRepository.status?]
  have hcreated : Inv { s with
      repository := s.repository.createNewExecution id { status := .new } } := by
    refine h.of_calls rfl rfl ?_ ?_ (fun _ _ _ hnot => hnot)
    · intro other hother
      rw [Stored, hstatus other hother]
      exact hother
    · intro _ _ other _ hd
      exact hd.of_status (hstatus other hd.stored) hd.unqueued hd.unqueueing
  refine hcreated.enqueuing ?_ ?_
  · exact fun call hcall hrest => hnone (h.marking call hcall id hrest).stored
  · exact fun hmarked => hnone (h.marked id hmarked).1

theorem Inv.erase (id : String) :
    Inv { s with enqueuing := s.enqueuing.erase id } := by
  refine h.of_calls rfl rfl (fun _ hstored => hstored) ?_ ?_
  · exact fun _ _ other _ hd => hd.of_status rfl hd.unqueued fun hmem =>
      hd.unqueueing (List.mem_of_mem_erase hmem)
  · exact fun other _ _ hnot hmem => hnot (List.mem_of_mem_erase hmem)

theorem Inv.jobs (jobs : List QueueJob) (nextJob : ℕ)
    (hjobs : ∀ job ∈ jobs, job.executionId ∈ s.queuedIds ∨ job.executionId ∈ s.enqueuing) :
    Inv { s with jobs, nextJob } := by
  refine h.of_calls rfl rfl (fun _ hstored => hstored) ?_ (fun _ _ _ hnot => hnot)
  intro _ _ other _ hd
  refine hd.of_status rfl (fun hmem => ?_) hd.unqueueing
  obtain ⟨job, hjob, rfl⟩ := List.mem_map.mp hmem
  rcases hjobs job hjob with hjob | hjob
  · exact hd.unqueued hjob
  · exact hd.unqueueing hjob

theorem Inv.resume {data : String}
    (hwaiting : s.repository.status? id = some .waiting) (hmarked : id ∉ s.marked) :
    Inv { s with
      repository := s.repository.modify id fun _ => { status := .running, waitTill := none, data }
      enqueuing := s.enqueuing ++ [id] } := by
  have hrunning := h.modify id (fun _ => { status := .running, waitTill := none, data }) rfl
    fun _ _ _ _ => rfl
  refine hrunning.enqueuing ?_ hmarked
  -- what a call is about to mark is not waiting
  exact fun call hcall hrest =>
    (h.marking call hcall id hrest).unsettled ⟨.waiting, hwaiting, rfl⟩

theorem Inv.recover : Inv { s with calls := s.calls ++ [.reading] } where
  finding call hcall id hid := by
    rcases List.mem_append.mp hcall with hcall | hcall
    · exact h.finding call hcall id hid
    · rw [List.mem_singleton.mp hcall] at hid
      cases hid
  marking call hcall id hid := by
    rcases List.mem_append.mp hcall with hcall | hcall
    · have hd := h.marking call hcall id hid
      exact hd.of_status rfl hd.unqueued hd.unqueueing
    · rw [List.mem_singleton.mp hcall] at hid
      cases hid
  marked := h.marked

theorem Inv.readQueue {i : ℕ} {storedIds : List String}
    (hcall : s.calls[i]? = some (.finding storedIds))
    (hkept : ∀ id ∈ storedIds, id ∉ s.queuedIds → id ∉ s.enqueuing ∧ ¬ s.Settled id) :
    Inv (s.setCall i (s.readQueue storedIds)) := by
  rw [QueueRecovery.readQueue]
  split
  · exact h.setCall i (fun _ hid => by cases hid) fun _ hid => by cases hid
  · refine h.setCall i (fun _ hid => by cases hid) fun id hid => ?_
    obtain ⟨hmem, hqueued⟩ := List.mem_filter.mp hid
    have hunqueued : id ∉ s.queuedIds := by simpa using hqueued
    obtain ⟨henqueuing, hsettled⟩ := hkept id hmem hunqueued
    exact ⟨h.finding _ (List.mem_of_getElem? hcall) id hmem, hsettled, hunqueued, henqueuing⟩

theorem Inv.mark {i stored : ℕ} {rest : List String}
    (hcall : s.calls[i]? = some (.marking stored rest)) :
    Inv ((s.markBatch (rest.take maxUpdateBatchSize)).setCall i
      (s.markedUpTo stored (rest.drop maxUpdateBatchSize))) := by
  have hrest : ∀ id ∈ rest, s.Dangling id := h.marking _ (List.mem_of_getElem? hcall)
  have hbatch : ∀ id ∈ rest.take maxUpdateBatchSize, s.Dangling id :=
    fun id hid => hrest id (List.mem_of_mem_take hid)
  obtain ⟨hmarked, hdangling⟩ := h.markBatch hbatch
  rw [markedUpTo]
  split
  · exact hmarked.setCall i (fun _ hid => by cases hid) fun _ hid => by cases hid
  · refine hmarked.setCall i (fun _ hid => by cases hid) fun id hid => ?_
    exact hdangling id (hrest id (List.mem_of_mem_drop hid))

/-- Step lemma: a step that keeps the two reads together crashes only dangling
executions. -/
theorem inv_step {input : QueueRecoveryInput} (hstep : s.step input = .ok s')
    (hinput : s.Kept input) : s.CrashesOnlyDangling input s' ∧ Inv s' := by
  cases input with
  | create id =>
    obtain ⟨hnew, rfl⟩ := onlyIf_eq_ok.mp hstep
    exact ⟨trivial, h.create hnew⟩
  | resume id data =>
    rw [step, ExecutionRepository.updateExistingExecution_eq] at hstep
    by_cases hwaiting : s.repository.status? id = some .waiting
    · rw [if_pos hwaiting] at hstep
      obtain ⟨-, rfl⟩ := onlyIf_eq_ok.mp hstep
      exact ⟨trivial, h.resume hwaiting hinput⟩
    · rw [if_neg hwaiting] at hstep
      cases (onlyIf_eq_ok.mp hstep).1
  | enqueue id =>
    obtain ⟨hmem, rfl⟩ := onlyIf_eq_ok.mp hstep
    -- it was on its way to the queue, so it was not marked
    refine ⟨fun hmarked => (h.marked id hmarked).2 hmem, ?_⟩
    refine (h.jobs _ (s.nextJob + 1) fun job hjob => ?_).erase id
    rcases List.mem_append.mp hjob with hjob | hjob
    · exact .inl (List.mem_map_of_mem hjob)
    · rw [List.mem_singleton.mp hjob]
      exact .inr hmem
  | lost id =>
    obtain ⟨-, rfl⟩ := onlyIf_eq_ok.mp hstep
    exact ⟨trivial, h.erase id⟩
  | pickUp jobId =>
    obtain ⟨-, rfl⟩ := onlyIf_eq_ok.mp hstep
    refine ⟨trivial, h.jobs _ s.nextJob fun job hjob => .inl ?_⟩
    obtain ⟨before, hbefore, rfl⟩ := List.mem_map.mp hjob
    rw [apply_ite QueueJob.executionId, ite_self]
    exact List.mem_map.mpr ⟨before, hbefore, rfl⟩
  | setRunning id =>
    cases hstep
    exact ⟨trivial, h.modify id (fun row => { row with status := .running }) rfl
      fun _ _ _ _ => rfl⟩
  | save id status waitTill data =>
    obtain ⟨hstatus, rfl⟩ := onlyIf_eq_ok.mp hstep
    rw [ExecutionRepository.updateExistingExecution_any]
    refine ⟨trivial, h.modify id (fun _ => { status, waitTill, data }) rfl
      fun call hcall hrest _ => ?_⟩
    rcases hstatus with hsettled | rfl
    · exact absurd hrest (hinput hsettled call hcall)
    · rfl
  | removeJob jobId =>
    cases hstep
    exact ⟨trivial, h.jobs _ s.nextJob fun job hjob =>
      .inl (List.mem_map_of_mem (List.mem_of_mem_filter hjob))⟩
  | recover =>
    cases hstep
    exact ⟨trivial, h.recover⟩
  | readStore i storedIds =>
    obtain ⟨⟨-, hread⟩, rfl⟩ := onlyIf_eq_ok.mp hstep
    refine ⟨trivial, ?_⟩
    rw [readStore]
    split
    · exact h.setCall i (fun _ hid => by cases hid) fun _ hid => by cases hid
    · refine h.setCall i (fun id hid => ?_) fun _ hid => by cases hid
      obtain ⟨status, hstatus, -⟩ := hread.2.2.1 id hid
      exact Option.isSome_iff_exists.mpr ⟨status, hstatus⟩
  | readQueue i =>
    simp only [step] at hstep
    split at hstep
    · rename_i storedIds hcall
      cases hstep
      exact ⟨trivial, h.readQueue hcall fun id hid => hinput _ hcall id hid⟩
    · cases hstep
  | mark i =>
    simp only [step] at hstep
    split at hstep
    · rename_i stored rest hcall
      cases hstep
      refine ⟨fun call hcall' id hid => ?_, h.mark hcall⟩
      have hd := h.marking call (List.mem_of_getElem? hcall') id (List.mem_of_mem_take hid)
      exact ⟨hd.unsettled, hd.unqueued⟩
    · cases hstep

end

/-- **When only dangling executions are crashed.**  Along every run in which the executions
that a recovery finds without a job are really dangling when it looks, are not finished or
suspended before it marks them, and are not resumed after it did, no recovery marks an
execution that is finished, suspended, or in the queue, or that is enqueued later. -/
theorem crashesOnlyDangling_of_kept (batchSize : ℕ) (waitMs : ℚ)
    {inputs : List QueueRecoveryInput}
    (h : Along step (fun s input _ => s.Kept input) { batchSize, waitMs } inputs) :
    Along step CrashesOnlyDangling { batchSize, waitMs } inputs := by
  have hinit : Inv { batchSize, waitMs } :=
    ⟨fun _ hcall => (by cases hcall), fun _ hcall => (by cases hcall),
      fun _ hid => (by cases hid)⟩
  refine Along.of_step (I := Inv) ?_ hinit h
  exact fun _ _ _ hs hstep hinput => inv_step hs hstep hinput

/-- The job of one execution is lost; another is picked up, runs and is suspended while the
first is recovered. -/
theorem crashesOnlyDangling_lostJob :
    Along step CrashesOnlyDangling { batchSize := 100, waitMs := 180000 }
      [.create "1", .create "2", .enqueue "2", .lost "1", .recover, .readStore 0 ["2", "1"],
        .pickUp 0, .readQueue 0, .setRunning "2", .save "2" .waiting (some 60000) "",
        .removeJob 0, .mark 0, .resume "2" "", .enqueue "2"] :=
  crashesOnlyDangling_of_kept 100 180000 (by decide)

/-- An execution is created, and enqueued only after the recovery looked at the queue: it is
marked while its job waits. -/
theorem not_crashesOnlyDangling_enqueuedLate :
    ¬ Along step CrashesOnlyDangling { batchSize := 100, waitMs := 180000 }
      [.create "1", .recover, .readStore 0 ["1"], .readQueue 0, .enqueue "1", .mark 0] := by
  intro h
  have hqueued : Along step (fun s input _ => input = .mark 0 → "1" ∉ s.queuedIds ∨
        s.calls[0]? ≠ some (.marking 1 ["1"])) { batchSize := 100, waitMs := 180000 }
      [.create "1", .recover, .readStore 0 ["1"], .readQueue 0, .enqueue "1", .mark 0] := by
    refine h.mono fun s input _ hs hinput => ?_
    by_cases hcall : s.calls[0]? = some (.marking 1 ["1"])
    · subst hinput
      exact .inl (hs _ hcall "1" (by decide)).2
    · exact .inr hcall
  exact absurd hqueued (by decide)

end QueueRecovery

end N8n
