/-
The collection of insights: a buffer that is flushed to the database.

A flush takes the whole buffer and makes four database calls; other flushes and
workflows run in between.  When a call fails, or when one insight of the batch
belongs to a workflow whose metadata cannot be found, the batch goes back to the
buffer.

* `insightsKept` — **in every run the insights are partitioned, and a flush
  whose calls succeed stores its whole batch, or, when one of its insights has
  neither an owner row nor cached metadata, puts the whole batch back**.
-/
import N8n.Runs
import N8n.Interfaces
import Mathlib.Algebra.Ring.Int.Defs

namespace N8n

inductive TypeUnit where
  | timeSavedMin
  | runtimeMs
  | success
  | failure
  deriving DecidableEq, Repr

/-- An insight in memory; `id` is the identity of the object. -/
structure BufferedInsight where
  id : ℕ
  workflowId : String
  workflowName : String
  type : TypeUnit
  value : ℤ
  timestamp : ℤ
  deriving DecidableEq, Repr

structure InsightsMetadata where
  metaId : Option ℕ := none
  workflowId : String
  workflowName : String
  projectId : String
  projectName : String
  deriving DecidableEq, Repr

structure InsightsRaw where
  metaId : Option ℕ
  type : TypeUnit
  value : ℤ
  timestamp : ℤ
  deriving DecidableEq, Repr

structure SharedWorkflow where
  workflowId : String
  projectId : String
  projectName : String
  deriving DecidableEq, Repr

/-- What the handler reads of a finished workflow; the tasks are listed by node,
with the minutes that a task saved. -/
structure WorkflowExecuteAfterContext where
  workflowId : String
  workflowName : String
  status : ExecutionStatus
  mode : WorkflowExecuteMode
  startedAt : ℤ
  stoppedAt : Option ℤ := none
  timeSavedMode : Option String := none
  timeSavedPerExecution : Option ℤ := none
  timeSaved : List (List (Option ℤ)) := []
  now : ℤ
  deriving DecidableEq, Repr

namespace WorkflowExecuteAfterContext

def shouldSkipStatus : ExecutionStatus → Bool
  | .success => false
  | .crashed => false
  | .error => false
  | .canceled => true
  | .new => true
  | .running => true
  | .unknown => true
  | .waiting => true

def shouldSkipMode : WorkflowExecuteMode → Bool
  | .cli => false
  | .error => false
  | .retry => false
  | .trigger => false
  | .webhook => false
  | .evaluation => false
  | .integrated => true
  | .internal => true
  | .manual => true
  | .chat => true

def minRuntime : ℤ := 0

/-- `2 ** 31 - 1`. -/
def maxRuntime : ℤ := 2147483647

variable (ctx : WorkflowExecuteAfterContext)

def extractTimeSavedFromNodes : ℤ :=
  (ctx.timeSaved.map fun tasks => (tasks.map (·.getD 0)).sum).sum

def calculateTimeSaved : ℤ :=
  if ctx.timeSavedMode ≠ some "dynamic" then ctx.timeSavedPerExecution.getD 0
  else ctx.extractTimeSavedFromNodes

def insights : List (TypeUnit × ℤ) :=
  let succeeded := ctx.status = .success
  let runtime := match ctx.stoppedAt with
    | none => []
    | some stoppedAt =>
      [(.runtimeMs, min (max (stoppedAt - ctx.startedAt) minRuntime) maxRuntime)]
  let timeSaved := if succeeded then [(.timeSavedMin, ctx.calculateTimeSaved)] else []
  (if succeeded then .success else .failure, 1) :: runtime ++ timeSaved

end WorkflowExecuteAfterContext

/-- The database call a flush waits for, with what it asks for. -/
inductive FlushPoint where
  | find
  | upsert (metadata : List InsightsMetadata)
  | findBy (workflowIds : List String)
  | insert (events : List (BufferedInsight × InsightsRaw))
  deriving DecidableEq, Repr

/-- A flush in progress; `owned` are the workflows it found an owner row for. -/
structure Flush where
  id : ℕ
  batch : List BufferedInsight
  owned : List String := []
  point : FlushPoint := .find
  deriving DecidableEq, Repr

/-- `workflowIdNames`: the name in the last insight of a workflow. -/
def workflowIdNames (batch : List BufferedInsight) : Dict String String :=
  batch.foldl (fun names event => names.set event.workflowId event.workflowName) .empty

/-- The body of the `reduce` that collects `metadataToUpsert`. -/
def newMetadata (cachedMetadata : Dict String InsightsMetadata) (names : Dict String String)
    (workflow : SharedWorkflow) : Option InsightsMetadata :=
  let metadata : InsightsMetadata := {
    workflowId := workflow.workflowId
    workflowName := (names.get? workflow.workflowId).getD "undefined"
    projectId := workflow.projectId
    projectName := workflow.projectName }
  match cachedMetadata.get? workflow.workflowId with
  | none => some metadata
  | some cached =>
    if cached.projectId ≠ workflow.projectId ∨ cached.projectName ≠ workflow.projectName
        ∨ some cached.workflowName ≠ names.get? workflow.workflowId then some metadata
    else none

def insightsRaw (cachedMetadata : Dict String InsightsMetadata) :
    List BufferedInsight → Except String (List (BufferedInsight × InsightsRaw))
  | [] => .ok []
  | event :: batch => match cachedMetadata.get? event.workflowId with
    | none => .error
      ("Could not find shared workflow for insight with workflowId " ++ event.workflowId)
    | some metadata => (insightsRaw cachedMetadata batch).map
      ((event, ⟨metadata.metaId, event.type, event.value, event.timestamp⟩) :: ·)

/-- The service and the tables it uses; `recorded` lists all insights so far and
`shutdowns` the flushes that each call of `shutdown` waits for. -/
structure InsightsCollection where
  flushBatchSize : ℕ
  cachedMetadata : Dict String InsightsMetadata := .empty
  bufferedInsights : List BufferedInsight := []
  flushTimer : Bool := false
  isAsynchronouslySavingInsights : Bool := true
  flushesInProgress : List Flush := []
  isInitialized : Bool := false
  /-- Handlers that wait for the flush they started during a shutdown. -/
  handlers : ℕ := 0
  shutdowns : List (List ℕ) := []
  recorded : List BufferedInsight := []
  nextFlush : ℕ := 0
  owners : List SharedWorkflow := []
  metadataTable : Dict String InsightsMetadata := .empty
  rows : List (BufferedInsight × InsightsRaw) := []
  deriving DecidableEq

namespace InsightsCollection
variable (s : InsightsCollection)

def scheduleFlushing : InsightsCollection :=
  if s.isInitialized then { s with flushTimer := true } else s

def cancelScheduledFlushing : InsightsCollection :=
  { s with flushTimer := false }

def flushEvents : InsightsCollection :=
  if s.isInitialized = false then s
  else if s.bufferedInsights = [] then s.scheduleFlushing
  else { s.cancelScheduledFlushing with
    bufferedInsights := []
    flushesInProgress := s.flushesInProgress ++ [{ id := s.nextFlush, batch := s.bufferedInsights }]
    nextFlush := s.nextFlush + 1 }

def add (event : BufferedInsight) : InsightsCollection :=
  if event ∈ s.bufferedInsights then s
  else { s with bufferedInsights := s.bufferedInsights ++ [event] }

def newInsight (ctx : WorkflowExecuteAfterContext) (s : InsightsCollection)
    (insight : TypeUnit × ℤ) : BufferedInsight where
  id := s.recorded.length
  workflowId := ctx.workflowId
  workflowName := ctx.workflowName
  type := insight.1
  value := insight.2
  timestamp := ctx.now

def record (ctx : WorkflowExecuteAfterContext) (s : InsightsCollection)
    (insight : TypeUnit × ℤ) : InsightsCollection :=
  { s.add (newInsight ctx s insight) with
    recorded := s.recorded ++ [newInsight ctx s insight] }

/-- The check at the end of the handler. -/
def flushFullBuffer : InsightsCollection :=
  if s.bufferedInsights.length ≥ s.flushBatchSize then s.flushEvents else s

/-- `handleWorkflowExecuteAfter`; during a shutdown it waits for a flush before
its last check. -/
def handleWorkflowExecuteAfter (ctx : WorkflowExecuteAfterContext) : InsightsCollection :=
  if s.isInitialized = false then s
  else if WorkflowExecuteAfterContext.shouldSkipStatus ctx.status
      ∨ WorkflowExecuteAfterContext.shouldSkipMode ctx.mode then s
  else
    let s := ctx.insights.foldl (record ctx) s
    if s.isAsynchronouslySavingInsights then s.flushFullBuffer
    else { s.flushEvents with handlers := s.handlers + 1 }

def init : InsightsCollection :=
  { s with isInitialized := true, isAsynchronouslySavingInsights := true }.scheduleFlushing

/-- `shutdown`, up to the flushes it waits for. -/
def shutdown : InsightsCollection :=
  let s := { s.cancelScheduledFlushing with isAsynchronouslySavingInsights := false }.flushEvents
  { s with shutdowns := s.shutdowns ++ [s.flushesInProgress.map (·.id)] }

def proceed (flush : Flush) (next : Option Flush) : InsightsCollection :=
  { s with flushesInProgress := s.flushesInProgress.erase flush ++ next.toList }

def putBack (flush : Flush) : InsightsCollection :=
  (flush.batch.foldl add (s.proceed flush none)).scheduleFlushing

/-- A row of the upsert: an existing row keeps its `metaId`. -/
def upsertRow (table : Dict String InsightsMetadata) (metadata : InsightsMetadata) :
    Dict String InsightsMetadata :=
  let metaId := match table.get? metadata.workflowId with
    | some row => row.metaId
    | none => some table.keys.length
  table.set metadata.workflowId { metadata with metaId }

def called (flush : Flush) : InsightsCollection :=
  match flush.point with
  | .find =>
    let names := workflowIdNames flush.batch
    let sharedWorkflows := s.owners.filter fun workflow => names.has workflow.workflowId
    let metadataToUpsert := sharedWorkflows.filterMap (newMetadata s.cachedMetadata names)
    s.proceed flush (some { flush with
      owned := sharedWorkflows.map SharedWorkflow.workflowId
      point := .upsert metadataToUpsert })
  | .upsert metadata =>
    { s with metadataTable := metadata.foldl upsertRow s.metadataTable }.proceed flush
      (some { flush with point := .findBy (metadata.map InsightsMetadata.workflowId) })
  | .findBy workflowIds =>
    let upsertMetadata := s.metadataTable.values.filter fun metadata =>
      decide (metadata.workflowId ∈ workflowIds)
    let cachedMetadata := upsertMetadata.foldl
      (fun cached (metadata : InsightsMetadata) => cached.set metadata.workflowId metadata)
      s.cachedMetadata
    let s := { s with cachedMetadata }
    match insightsRaw s.cachedMetadata flush.batch with
    | .error _ => s.putBack flush
    | .ok events => s.proceed flush (some { flush with point := .insert events })
  | .insert events =>
    ({ s with rows := s.rows ++ events }.proceed flush none).scheduleFlushing

end InsightsCollection

inductive InsightsEvent where
  | init
  | workflowExecuteAfter (ctx : WorkflowExecuteAfterContext)
  /-- A handler goes on after the flush it waited for. -/
  | handlerResumes
  | flushTimer
  | flushEvents
  | dbCall (flush : Flush) (succeeds : Bool)
  | shutdown
  | shutdownEnds (awaited : List ℕ)
  /-- The owner rows change in the database. -/
  | setOwners (owners : List SharedWorkflow)
  deriving DecidableEq, Repr

namespace InsightsCollection

def step (s : InsightsCollection) : InsightsEvent → Except Unit InsightsCollection
  | .init => .ok s.init
  | .workflowExecuteAfter ctx => .ok (s.handleWorkflowExecuteAfter ctx)
  | .handlerResumes => onlyIf (0 < s.handlers) { s with handlers := s.handlers - 1 }.flushFullBuffer
  | .flushTimer => onlyIf s.flushTimer { s with flushTimer := false }.flushEvents
  | .flushEvents => .ok s.flushEvents
  | .dbCall flush succeeds => onlyIf (flush ∈ s.flushesInProgress)
      (if succeeds then s.called flush else s.putBack flush)
  | .shutdown => .ok s.shutdown
  | .shutdownEnds awaited => onlyIf
      (awaited ∈ s.shutdowns ∧ ∀ flush ∈ s.flushesInProgress, flush.id ∉ awaited)
      { s with isInitialized := false, shutdowns := s.shutdowns.erase awaited }
  | .setOwners owners => .ok { s with owners }

def held (s : InsightsCollection) : List BufferedInsight :=
  s.bufferedInsights ++ s.flushesInProgress.flatMap (·.batch) ++ s.rows.map Prod.fst

structure Partition (s : InsightsCollection) : Prop where
  perm : s.held.Perm s.recorded
  nodup : s.recorded.Nodup

/-- The workflow of the insight has an owner row or cached metadata. -/
def Resolvable (s : InsightsCollection) (flush : Flush) (event : BufferedInsight) : Prop :=
  event.workflowId ∈ flush.owned ∨ s.cachedMetadata.has event.workflowId

/-- No insight is lost or counted twice; a flush whose calls succeed stores its
batch if all of it is resolvable, and else puts it back. -/
structure InsightsKept (s : InsightsCollection) (e : InsightsEvent) (s' : InsightsCollection) :
    Prop where
  partition : Partition s'
  built : ∀ flush workflowIds, e = .dbCall flush true → flush.point = .findBy workflowIds →
    (∀ event ∈ flush.batch, Resolvable s flush event) →
    ∃ events, events.map Prod.fst = flush.batch ∧
      { flush with point := .insert events } ∈ s'.flushesInProgress
  putBack : ∀ flush workflowIds, e = .dbCall flush true → flush.point = .findBy workflowIds →
    (∃ event ∈ flush.batch, ¬ Resolvable s flush event) →
    flush.batch ⊆ s'.bufferedInsights ∧ s'.rows = s.rows
  stored : ∀ flush events, e = .dbCall flush true → flush.point = .insert events →
    flush.batch ⊆ s'.rows.map Prod.fst

/-- What a flush knows while it waits for a call. -/
def FlushOk (s : InsightsCollection) (flush : Flush) : Prop :=
  match flush.point with
  | .find => True
  | .upsert metadata =>
    (∀ w ∈ flush.owned, w ∈ metadata.map InsightsMetadata.workflowId ∨ s.cachedMetadata.has w) ∧
      ∀ w ∈ metadata.map InsightsMetadata.workflowId, w ∈ flush.owned
  | .findBy workflowIds =>
    (∀ w ∈ flush.owned, w ∈ workflowIds ∨ s.cachedMetadata.has w) ∧
      ∀ w ∈ workflowIds, w ∈ flush.owned ∧ s.metadataTable.has w
  | .insert events => events.map Prod.fst = flush.batch

structure Invariant (s : InsightsCollection) : Prop where
  partition : Partition s
  fresh : ∀ event ∈ s.recorded, event.id < s.recorded.length
  flushes : ∀ flush ∈ s.flushesInProgress, FlushOk s flush
  keyed : ∀ w metadata, s.metadataTable.get? w = some metadata → metadata.workflowId = w

/-- The insights changed places, and flushes began or ended. -/
structure Moved (s s' : InsightsCollection) : Prop where
  held : s'.held.Perm s.held
  recorded : s'.recorded = s.recorded
  cached : s'.cachedMetadata = s.cachedMetadata
  table : s'.metadataTable = s.metadataTable
  rows : s'.rows = s.rows
  flushes : ∀ flush ∈ s'.flushesInProgress, flush ∈ s.flushesInProgress ∨ flush.point = .find

section Steps

variable {s s' s'' : InsightsCollection} {flush : Flush}

theorem Moved.refl (s : InsightsCollection) : Moved s s :=
  ⟨.refl _, rfl, rfl, rfl, rfl, fun _ hmem => Or.inl hmem⟩

theorem Moved.trans (h : Moved s s') (h' : Moved s' s'') : Moved s s'' where
  held := h'.held.trans h.held
  recorded := h'.recorded.trans h.recorded
  cached := h'.cached.trans h.cached
  table := h'.table.trans h.table
  rows := h'.rows.trans h.rows
  flushes := fun flush hmem => (h'.flushes flush hmem).elim (h.flushes flush) Or.inr

theorem FlushOk.of_has (h : FlushOk s flush)
    (hcached : ∀ w, s.cachedMetadata.has w → s'.cachedMetadata.has w)
    (htable : ∀ w, s.metadataTable.has w → s'.metadataTable.has w) : FlushOk s' flush := by
  rw [FlushOk] at h ⊢
  split at h
  · trivial
  · exact ⟨fun w hw => (h.1 w hw).imp_right (hcached w), h.2⟩
  · exact ⟨fun w hw => (h.1 w hw).imp_right (hcached w),
      fun w hw => ⟨(h.2 w hw).1, htable w (h.2 w hw).2⟩⟩
  · exact h

theorem Invariant.moved (h : Invariant s) (hmoved : Moved s s') : Invariant s' where
  partition := by
    have hrecorded := hmoved.recorded
    exact ⟨hrecorded ▸ hmoved.held.trans h.partition.perm, hrecorded ▸ h.partition.nodup⟩
  fresh := hmoved.recorded ▸ h.fresh
  flushes := by
    intro flush hmem
    rcases hmoved.flushes flush hmem with hold | hfind
    · exact (h.flushes flush hold).of_has (fun w hw => hmoved.cached ▸ hw)
        fun w hw => hmoved.table ▸ hw
    · rw [FlushOk, hfind]
      trivial
  keyed := hmoved.table ▸ h.keyed

theorem moved_scheduleFlushing (s : InsightsCollection) : Moved s s.scheduleFlushing := by
  rw [scheduleFlushing]
  split
  · exact ⟨.refl _, rfl, rfl, rfl, rfl, fun _ hmem => Or.inl hmem⟩
  · exact .refl s

theorem moved_flushEvents (s : InsightsCollection) : Moved s s.flushEvents := by
  rw [flushEvents]
  split_ifs with hinit hempty
  · exact .refl s
  · exact moved_scheduleFlushing s
  · refine ⟨?_, rfl, rfl, rfl, rfl, fun flush hmem => ?_⟩
    · rw [held, held, List.nil_append, List.flatMap_append]
      refine List.Perm.append_right _ ?_
      simpa [cancelScheduledFlushing] using List.perm_append_comm
    · rcases List.mem_append.mp hmem with hmem | hmem
      · exact Or.inl hmem
      · rw [List.mem_singleton.mp hmem]
        exact Or.inr rfl

theorem moved_flushFullBuffer (s : InsightsCollection) : Moved s s.flushFullBuffer := by
  rw [flushFullBuffer]
  split
  · exact moved_flushEvents s
  · exact .refl s

theorem perm_held_erase (hmem : flush ∈ s.flushesInProgress) :
    s.held.Perm (s.bufferedInsights ++ (flush.batch ++
      (s.flushesInProgress.erase flush).flatMap (·.batch)) ++ s.rows.map Prod.fst) :=
  (((List.perm_cons_erase hmem).flatMap_right _).append_left _).append_right _

theorem moved_proceed_some (hmem : flush ∈ s.flushesInProgress) {next : Flush}
    (hbatch : next.batch = flush.batch) : (s.proceed flush (some next)).held.Perm s.held := by
  refine List.Perm.trans ?_ (perm_held_erase hmem).symm
  rw [held, proceed, Option.toList_some, List.flatMap_append]
  refine (List.Perm.append_left _ ?_).append_right _
  rw [List.flatMap_singleton, hbatch]
  exact List.perm_append_comm

theorem foldl_add (batch : List BufferedInsight) : ∀ {s : InsightsCollection},
    batch.Nodup → (∀ event ∈ batch, event ∉ s.bufferedInsights) →
    batch.foldl add s = { s with bufferedInsights := s.bufferedInsights ++ batch } := by
  induction batch with
  | nil => simp
  | cons event batch ih =>
    intro s hnodup hnew
    obtain ⟨hevent, hbatch⟩ := List.nodup_cons.mp hnodup
    obtain ⟨hfirst, hrest⟩ := List.forall_mem_cons.mp hnew
    rw [List.foldl_cons, add, if_neg hfirst, ih hbatch ?_]
    · simp
    · -- the event that was added is not one of the rest
      intro x hx hmem
      rcases List.mem_append.mp hmem with hmem | hmem
      · exact hrest x hx hmem
      · exact hevent (List.mem_singleton.mp hmem ▸ hx)

theorem putBack_spec (h : Partition s) (hmem : flush ∈ s.flushesInProgress) :
    Moved s (s.putBack flush) ∧ flush.batch ⊆ (s.putBack flush).bufferedInsights := by
  have hnodup : (s.bufferedInsights ++ (flush.batch ++
      (s.flushesInProgress.erase flush).flatMap (·.batch)) ++ s.rows.map Prod.fst).Nodup :=
    ((perm_held_erase hmem).symm.trans h.perm).nodup_iff.mpr h.nodup
  have hbuffer := List.nodup_append'.mp (List.nodup_append'.mp hnodup).1
  -- nothing of the batch is in the buffer, so nothing is dropped by the set
  have hfold : flush.batch.foldl add (s.proceed flush none) = { s with
      bufferedInsights := s.bufferedInsights ++ flush.batch
      flushesInProgress := s.flushesInProgress.erase flush } := by
    rw [foldl_add flush.batch (List.nodup_append'.mp hbuffer.2.1).1]
    · simp [proceed]
    · exact fun event hevent hbuffered =>
        hbuffer.2.2 hbuffered (List.mem_append_left _ hevent)
  rw [putBack, hfold]
  have hmoved := moved_scheduleFlushing { s with
      bufferedInsights := s.bufferedInsights ++ flush.batch
      flushesInProgress := s.flushesInProgress.erase flush }
  have hback : Moved s { s with
      bufferedInsights := s.bufferedInsights ++ flush.batch
      flushesInProgress := s.flushesInProgress.erase flush } := by
    refine ⟨?_, rfl, rfl, rfl, rfl, fun f hf => Or.inl (List.mem_of_mem_erase hf)⟩
    refine List.Perm.trans ?_ (perm_held_erase hmem).symm
    rw [held, List.append_assoc s.bufferedInsights]
  refine ⟨hback.trans hmoved, ?_⟩
  · intro event hevent
    have hbuffered : event ∈ s.bufferedInsights ++ flush.batch := List.mem_append_right _ hevent
    rw [scheduleFlushing]
    split <;> exact hbuffered

theorem invariant_record (h : Invariant s) (ctx : WorkflowExecuteAfterContext)
    (insight : TypeUnit × ℤ) : Invariant (record ctx s insight) := by
  have hid : (newInsight ctx s insight).id = s.recorded.length := rfl
  rw [record]
  -- only the number of the insight matters from here on
  generalize newInsight ctx s insight = event at hid ⊢
  have hrecorded : event ∉ s.recorded := fun hmem => by
    have := h.fresh event hmem
    omega
  have hbuffered : event ∉ s.bufferedInsights := fun hmem =>
    hrecorded (h.partition.perm.subset (List.mem_append_left _ (List.mem_append_left _ hmem)))
  rw [add, if_neg hbuffered]
  refine ⟨⟨?_, ?_⟩, ?_, fun flush hmem => ?_, h.keyed⟩
  · refine List.Perm.trans ?_ (h.partition.perm.append_right [event])
    rw [held, held, List.append_assoc, List.append_assoc s.bufferedInsights,
      List.append_assoc s.bufferedInsights, List.append_assoc s.bufferedInsights]
    exact List.perm_append_comm.append_left _
  · exact List.nodup_append'.mpr ⟨h.partition.nodup, List.nodup_singleton _,
      List.disjoint_singleton.mpr hrecorded⟩
  · intro x hx
    rw [List.length_append, List.length_singleton]
    rcases List.mem_append.mp hx with hx | hx
    · exact Nat.lt_succ_of_lt (h.fresh x hx)
    · rw [List.mem_singleton.mp hx, hid]
      exact Nat.lt_succ_self _
  · exact (h.flushes flush hmem).of_has (fun _ hw => hw) fun _ hw => hw

theorem invariant_foldl_record (ctx : WorkflowExecuteAfterContext) :
    ∀ (insights : List (TypeUnit × ℤ)) {s : InsightsCollection}, Invariant s →
      Invariant (insights.foldl (record ctx) s)
  | [], _, h => h
  | insight :: insights, _, h => invariant_foldl_record ctx insights (invariant_record h ctx insight)

theorem invariant_handleWorkflowExecuteAfter (h : Invariant s)
    (ctx : WorkflowExecuteAfterContext) : Invariant (s.handleWorkflowExecuteAfter ctx) := by
  rw [handleWorkflowExecuteAfter]
  split_ifs
  · exact h
  · exact h
  · have hrecorded := invariant_foldl_record ctx ctx.insights h
    dsimp only
    split
    · exact hrecorded.moved (moved_flushFullBuffer _)
    · exact (hrecorded.moved (moved_flushEvents _)).moved
        ⟨.refl _, rfl, rfl, rfl, rfl, fun _ hmem => Or.inl hmem⟩

theorem Invariant.grow (h : Invariant s) {cachedMetadata metadataTable : Dict String InsightsMetadata}
    (hcached : ∀ w, s.cachedMetadata.has w → cachedMetadata.has w)
    (htable : ∀ w, s.metadataTable.has w → metadataTable.has w)
    (hkeyed : ∀ w metadata, metadataTable.get? w = some metadata → metadata.workflowId = w) :
    Invariant { s with cachedMetadata, metadataTable } :=
  ⟨⟨h.partition.perm, h.partition.nodup⟩, h.fresh,
    fun flush hmem => (h.flushes flush hmem).of_has hcached htable, hkeyed⟩

theorem Invariant.proceed (h : Invariant s) (hmem : flush ∈ s.flushesInProgress) {next : Flush}
    (hbatch : next.batch = flush.batch) (hnext : FlushOk s next) :
    Invariant (s.proceed flush (some next)) where
  partition := ⟨(moved_proceed_some hmem hbatch).trans h.partition.perm, h.partition.nodup⟩
  fresh := h.fresh
  flushes := by
    intro f hf
    rcases List.mem_append.mp hf with hf | hf
    · exact (h.flushes f (List.mem_of_mem_erase hf)).of_has (fun _ hw => hw) fun _ hw => hw
    · rw [List.mem_singleton.mp hf]
      exact hnext.of_has (fun _ hw => hw) fun _ hw => hw
  keyed := h.keyed

theorem newMetadata_cases (cachedMetadata : Dict String InsightsMetadata)
    (names : Dict String String) (workflow : SharedWorkflow) :
    (∃ metadata, newMetadata cachedMetadata names workflow = some metadata ∧
      metadata.workflowId = workflow.workflowId) ∨
    (newMetadata cachedMetadata names workflow = none ∧
      cachedMetadata.has workflow.workflowId) := by
  rw [newMetadata]
  rcases hget : cachedMetadata.get? workflow.workflowId with _ | cached
  · exact Or.inl ⟨_, rfl, rfl⟩
  · dsimp only
    split
    · exact Or.inl ⟨_, rfl, rfl⟩
    · refine Or.inr ⟨rfl, ?_⟩
      rw [Dict.has, hget]
      rfl

theorem foldl_upsertRow_spec : ∀ (metadata : List InsightsMetadata)
    {table : Dict String InsightsMetadata},
    (∀ w row, table.get? w = some row → row.workflowId = w) →
    (∀ w row, (metadata.foldl upsertRow table).get? w = some row → row.workflowId = w) ∧
      ∀ w, (metadata.foldl upsertRow table).has w ↔
        table.has w ∨ w ∈ metadata.map InsightsMetadata.workflowId := by
  intro metadata
  induction metadata with
  | nil => exact fun h => ⟨h, fun w => by simp⟩
  | cons m metadata ih =>
    intro table h
    -- one row first, then the induction over the others
    have hrow : ∀ w row, (upsertRow table m).get? w = some row → row.workflowId = w := by
      intro w row hget
      rw [upsertRow, Dict.get?_set] at hget
      split at hget
      · rename_i hw
        cases hget
        exact hw.symm
      · exact h w row hget
    obtain ⟨hkeyed, hhas⟩ := ih hrow
    refine ⟨hkeyed, fun w => ?_⟩
    rw [List.foldl_cons, hhas w, upsertRow, Dict.has_set, List.map_cons, List.mem_cons]
    tauto

theorem has_foldl_set : ∀ (rows : List InsightsMetadata) (cached : Dict String InsightsMetadata)
    (w : String), (rows.foldl (fun cached (metadata : InsightsMetadata) =>
      cached.set metadata.workflowId metadata) cached).has w ↔
        cached.has w ∨ w ∈ rows.map InsightsMetadata.workflowId := by
  intro rows
  induction rows with
  | nil => simp
  | cons row rows ih =>
    intro cached w
    rw [List.foldl_cons, ih, Dict.has_set, List.map_cons, List.mem_cons]
    tauto

theorem insightsRaw_spec (cachedMetadata : Dict String InsightsMetadata) :
    ∀ batch : List BufferedInsight,
      ((∀ event ∈ batch, cachedMetadata.has event.workflowId) ∧
        ∃ events, insightsRaw cachedMetadata batch = .ok events ∧ events.map Prod.fst = batch) ∨
      ((∃ event ∈ batch, ¬ cachedMetadata.has event.workflowId) ∧
        ∃ message, insightsRaw cachedMetadata batch = .error message) := by
  intro batch
  induction batch with
  | nil => exact Or.inl ⟨List.forall_mem_nil _, [], rfl, rfl⟩
  | cons event batch ih =>
    rw [insightsRaw]
    rcases hget : cachedMetadata.get? event.workflowId with _ | metadata
    · refine Or.inr ⟨⟨event, List.mem_cons_self, ?_⟩, _, rfl⟩
      rw [Dict.has, hget]
      exact Bool.false_ne_true
    · have hhas : cachedMetadata.has event.workflowId := by
        rw [Dict.has, hget]
        rfl
      rcases ih with ⟨hall, events, hevents, hbatch⟩ | ⟨⟨x, hx, hnot⟩, message, hmessage⟩
      · refine Or.inl ⟨List.forall_mem_cons.mpr ⟨hhas, hall⟩, _, by rw [hevents]; rfl, ?_⟩
        rw [List.map_cons, hbatch]
      · exact Or.inr ⟨⟨x, List.mem_cons_of_mem _ hx, hnot⟩, message, by rw [hmessage]; rfl⟩

def readCache (s : InsightsCollection) (workflowIds : List String) : Dict String InsightsMetadata :=
  (s.metadataTable.values.filter fun metadata =>
    decide (metadata.workflowId ∈ workflowIds)).foldl
    (fun cached (metadata : InsightsMetadata) => cached.set metadata.workflowId metadata)
    s.cachedMetadata

theorem has_readCache (s : InsightsCollection) (workflowIds : List String) {w : String}
    (h : s.cachedMetadata.has w) : (s.readCache workflowIds).has w :=
  (has_foldl_set _ _ w).mpr (Or.inl h)

theorem has_readCache_iff (h : Invariant s) (hflush : FlushOk s flush) {workflowIds : List String}
    (hpoint : flush.point = .findBy workflowIds) (event : BufferedInsight) :
    (s.readCache workflowIds).has event.workflowId ↔ Resolvable s flush event := by
  rw [FlushOk, hpoint] at hflush
  obtain ⟨howned, hread⟩ := hflush
  rw [readCache, has_foldl_set, Resolvable]
  constructor
  · -- what was read belongs to a workflow with an owner row
    rintro (hcached | hmem)
    · exact Or.inr hcached
    · obtain ⟨row, hrow, heq⟩ := List.mem_map.mp hmem
      have := of_decide_eq_true (List.mem_filter.mp hrow).2
      exact Or.inl (heq ▸ (hread _ this).1)
  · rintro (hown | hcached)
    · -- an owned workflow is among those that were upserted, or was in the cache
      rcases howned _ hown with hids | hcached
      · obtain ⟨row, hget⟩ := Option.isSome_iff_exists.mp (hread _ hids).2
        have hkey := h.keyed _ row hget
        refine Or.inr (List.mem_map.mpr ⟨row, List.mem_filter.mpr
          ⟨Dict.mem_values_of_get? hget, decide_eq_true ?_⟩, hkey⟩)
        rw [hkey]
        exact hids
      · exact Or.inl hcached
    · exact Or.inl hcached

section

variable (h : Invariant s) (hmem : flush ∈ s.flushesInProgress)
include h hmem

theorem invariant_found
    (hpoint : flush.point = .find) : Invariant (s.called flush) := by
  rw [called]
  simp only [hpoint]
  refine h.proceed hmem rfl ⟨fun w hw => ?_, fun w hw => ?_⟩
  · obtain ⟨workflow, hworkflow, rfl⟩ := List.mem_map.mp hw
    rcases newMetadata_cases s.cachedMetadata (workflowIdNames flush.batch) workflow with
      ⟨metadata, hnew, hid⟩ | ⟨-, hcached⟩
    · exact Or.inl (List.mem_map.mpr
        ⟨metadata, List.mem_filterMap.mpr ⟨workflow, hworkflow, hnew⟩, hid⟩)
    · exact Or.inr hcached
  · obtain ⟨metadata, hmetadata, rfl⟩ := List.mem_map.mp hw
    obtain ⟨workflow, hworkflow, hnew⟩ := List.mem_filterMap.mp hmetadata
    rcases newMetadata_cases s.cachedMetadata (workflowIdNames flush.batch) workflow with
      ⟨metadata', hnew', hid⟩ | ⟨hnone, -⟩
    · rw [hnew] at hnew'
      rw [Option.some.inj hnew', hid]
      exact List.mem_map_of_mem hworkflow
    · rw [hnew] at hnone
      cases hnone

theorem invariant_upserted
    {metadata : List InsightsMetadata} (hpoint : flush.point = .upsert metadata) :
    Invariant (s.called flush) := by
  have hflush := h.flushes flush hmem
  rw [FlushOk, hpoint] at hflush
  obtain ⟨hkeyed, hhas⟩ := foldl_upsertRow_spec metadata h.keyed
  rw [called]
  simp only [hpoint]
  have hgrown : Invariant { s with metadataTable := metadata.foldl upsertRow s.metadataTable } :=
    h.grow (fun _ hw => hw) (fun w hw => (hhas w).mpr (Or.inl hw)) hkeyed
  refine hgrown.proceed hmem rfl ⟨hflush.1, fun w hw => ⟨hflush.2 w hw, ?_⟩⟩
  exact (hhas w).mpr (Or.inr hw)

variable {workflowIds : List String}

theorem called_findBy_cases (hpoint : flush.point = .findBy workflowIds) :
    ((∀ event ∈ flush.batch, Resolvable s flush event) ∧
      ∃ events, events.map Prod.fst = flush.batch ∧
        s.called flush = { s with cachedMetadata := s.readCache workflowIds }.proceed flush
          (some { flush with point := .insert events })) ∨
    ((∃ event ∈ flush.batch, ¬ Resolvable s flush event) ∧
      s.called flush = { s with cachedMetadata := s.readCache workflowIds }.putBack flush) := by
  have hiff := has_readCache_iff h (h.flushes flush hmem) hpoint
  rw [called]
  simp only [hpoint]
  rcases insightsRaw_spec (s.readCache workflowIds) flush.batch with
    ⟨hall, events, hevents, hbatch⟩ | ⟨⟨event, hevent, hnot⟩, message, hmessage⟩
  · refine Or.inl ⟨fun event hevent => (hiff event).mp (hall event hevent), events, hbatch, ?_⟩
    rw [readCache] at hevents ⊢
    rw [hevents]
  · refine Or.inr ⟨⟨event, hevent, fun hres => hnot ((hiff event).mpr hres)⟩, ?_⟩
    rw [readCache] at hmessage ⊢
    rw [hmessage]

theorem invariant_read (hpoint : flush.point = .findBy workflowIds) :
    Invariant (s.called flush) := by
  have hgrown : Invariant { s with cachedMetadata := s.readCache workflowIds } :=
    h.grow (fun _ => has_readCache s workflowIds) (fun _ hw => hw) h.keyed
  rcases called_findBy_cases h hmem hpoint with ⟨-, events, hbatch, heq⟩ | ⟨-, heq⟩
  · rw [heq]
    exact hgrown.proceed hmem rfl hbatch
  · rw [heq]
    exact hgrown.moved (putBack_spec hgrown.partition hmem).1

theorem invariant_inserted
    {events : List (BufferedInsight × InsightsRaw)} (hpoint : flush.point = .insert events) :
    Invariant (s.called flush) ∧ flush.batch ⊆ (s.called flush).rows.map Prod.fst := by
  have hbatch : events.map Prod.fst = flush.batch := by
    have hflush := h.flushes flush hmem
    rwa [FlushOk, hpoint] at hflush
  rw [called]
  simp only [hpoint]
  have hmoved := moved_scheduleFlushing ({ s with rows := s.rows ++ events }.proceed flush none)
  constructor
  · have hinserted : Invariant ({ s with rows := s.rows ++ events }.proceed flush none) := by
      refine ⟨⟨?_, h.partition.nodup⟩, h.fresh, fun f hf => ?_, h.keyed⟩
      · refine List.Perm.trans ?_ ((perm_held_erase hmem).symm.trans h.partition.perm)
        -- the batch moves from the flushes to the rows
        refine List.perm_iff_count.mpr fun x => ?_
        simp only [held, proceed, Option.toList_none, List.append_nil, List.map_append, hbatch,
          List.count_append]
        omega
      · have hf : f ∈ s.flushesInProgress.erase flush := by
          simpa [proceed] using hf
        exact (h.flushes f (List.mem_of_mem_erase hf)).of_has (fun _ hw => hw) fun _ hw => hw
    exact hinserted.moved hmoved
  · rw [hmoved.rows]
    intro event hevent
    rw [proceed, List.map_append, hbatch]
    exact List.mem_append_right _ hevent

end

variable {e : InsightsEvent}

theorem invariant_step (h : Invariant s) (hstep : s.step e = .ok s') :
    Invariant s' := by
  -- most steps leave the insights and the tables alone
  have hsame : ∀ t : InsightsCollection, t.bufferedInsights = s.bufferedInsights →
      t.flushesInProgress = s.flushesInProgress → t.rows = s.rows → t.recorded = s.recorded →
      t.cachedMetadata = s.cachedMetadata → t.metadataTable = s.metadataTable → Invariant t := by
    intro t hbuffered hflushes hrows hrecorded hcached htable
    refine h.moved ⟨?_, hrecorded, hcached, htable, hrows, fun f hf => Or.inl (hflushes ▸ hf)⟩
    rw [held, held, hbuffered, hflushes, hrows]
  cases e with
  | init =>
    cases hstep
    exact (hsame { s with isInitialized := true, isAsynchronouslySavingInsights := true }
      rfl rfl rfl rfl rfl rfl).moved (moved_scheduleFlushing _)
  | workflowExecuteAfter ctx =>
    cases hstep
    exact invariant_handleWorkflowExecuteAfter h ctx
  | handlerResumes =>
    obtain ⟨-, rfl⟩ := onlyIf_eq_ok.mp hstep
    exact (hsame { s with handlers := s.handlers - 1 } rfl rfl rfl rfl rfl rfl).moved
      (moved_flushFullBuffer _)
  | flushTimer =>
    obtain ⟨-, rfl⟩ := onlyIf_eq_ok.mp hstep
    exact (hsame { s with flushTimer := false } rfl rfl rfl rfl rfl rfl).moved
      (moved_flushEvents _)
  | flushEvents =>
    cases hstep
    exact h.moved (moved_flushEvents s)
  | dbCall flush succeeds =>
    obtain ⟨hmem, rfl⟩ := onlyIf_eq_ok.mp hstep
    cases succeeds with
    | false => exact h.moved (putBack_spec h.partition hmem).1
    | true =>
      rcases hpoint : flush.point with _ | metadata | workflowIds | events
      · exact invariant_found h hmem hpoint
      · exact invariant_upserted h hmem hpoint
      · exact invariant_read h hmem hpoint
      · exact (invariant_inserted h hmem hpoint).1
  | shutdown =>
    cases hstep
    have hstopped := hsame
      { s.cancelScheduledFlushing with isAsynchronouslySavingInsights := false }
      rfl rfl rfl rfl rfl rfl
    exact (hstopped.moved (moved_flushEvents _)).moved
      ⟨.refl _, rfl, rfl, rfl, rfl, fun _ hmem => Or.inl hmem⟩
  | shutdownEnds awaited =>
    obtain ⟨-, rfl⟩ := onlyIf_eq_ok.mp hstep
    exact hsame _ rfl rfl rfl rfl rfl rfl
  | setOwners owners =>
    cases hstep
    exact hsame _ rfl rfl rfl rfl rfl rfl

theorem insightsKept_step (h : Invariant s) (hstep : s.step e = .ok s') :
    InsightsKept s e s' := by
  refine ⟨(invariant_step h hstep).partition, ?_, ?_, ?_⟩
  · rintro flush workflowIds rfl hpoint hall
    obtain ⟨hmem, rfl⟩ := onlyIf_eq_ok.mp hstep
    rcases called_findBy_cases h hmem hpoint with
      ⟨-, events, hbatch, heq⟩ | ⟨⟨event, hevent, hnot⟩, -⟩
    · refine ⟨events, hbatch, ?_⟩
      rw [if_pos rfl, heq]
      exact List.mem_append_right _ (List.mem_singleton_self _)
    · exact (hnot (hall event hevent)).elim
  · rintro flush workflowIds rfl hpoint ⟨event, hevent, hnot⟩
    obtain ⟨hmem, rfl⟩ := onlyIf_eq_ok.mp hstep
    rcases called_findBy_cases h hmem hpoint with ⟨hall, -⟩ | ⟨-, heq⟩
    · exact (hnot (hall event hevent)).elim
    · have hback := putBack_spec (s := { s with cachedMetadata := s.readCache workflowIds })
        ⟨h.partition.perm, h.partition.nodup⟩ hmem
      rw [if_pos rfl, heq]
      exact ⟨hback.2, hback.1.rows⟩
  · rintro flush events rfl hpoint
    obtain ⟨hmem, rfl⟩ := onlyIf_eq_ok.mp hstep
    exact (invariant_inserted h hmem hpoint).2

end Steps

theorem invariant_start (flushBatchSize : ℕ) : Invariant { flushBatchSize } where
  partition := ⟨.refl _, List.nodup_nil⟩
  fresh := fun _ hmem => by cases hmem
  flushes := fun _ hmem => by cases hmem
  keyed := fun _ _ hget => by cases hget

/-- **In every run every recorded insight is in the buffer, in the batch of one
flush in progress or stored, in one of them only; and a flush whose calls
succeed stores its batch if all of it is resolvable, and else puts it back.** -/
theorem insightsKept (flushBatchSize : ℕ) (events : List InsightsEvent) :
    Along step InsightsKept { flushBatchSize } events := by
  refine Along.of_step (I := Invariant) (V := fun _ _ _ => True) ?_
    (invariant_start flushBatchSize) (Along.always (fun _ _ _ => trivial) _ _)
  exact fun s e s' hs hstep _ => ⟨insightsKept_step hs hstep, invariant_step hs hstep⟩

/-- When its rows are read, a flush goes on with every resolvable insight of its
batch, whatever else is in it. -/
def StoresResolvable (s : InsightsCollection) (e : InsightsEvent) (s' : InsightsCollection) :
    Prop :=
  ∀ flush workflowIds, e = .dbCall flush true → flush.point = .findBy workflowIds →
    ∀ event ∈ flush.batch, Resolvable s flush event →
      ∃ events, event ∈ events.map Prod.fst ∧
        { flush with point := .insert events } ∈ s'.flushesInProgress

/-- The batch of two failed workflows, of which the second has no owner row. -/
def unownedBatch : List BufferedInsight :=
  [⟨0, "w1", "Mail", .failure, 1, 0⟩, ⟨1, "w2", "Deleted", .failure, 1, 0⟩]

def unownedRun : List InsightsEvent :=
  let failed (id name : String) : WorkflowExecuteAfterContext := {
    workflowId := id
    workflowName := name
    status := .error
    mode := .trigger
    startedAt := 0
    now := 0 }
  let flush : Flush := { id := 0, batch := unownedBatch }
  let upsert := { flush with
    owned := ["w1"]
    point := .upsert [⟨none, "w1", "Mail", "p1", "Project"⟩] }
  [.init, .setOwners [⟨"w1", "p1", "Project"⟩], .workflowExecuteAfter (failed "w1" "Mail"),
    .workflowExecuteAfter (failed "w2" "Deleted"), .flushEvents, .dbCall flush true,
    .dbCall upsert true, .dbCall { upsert with point := .findBy ["w1"] } true]

/-- All calls of the flush succeed and the first workflow has an owner row, but
its insight is not stored: the second one sends the whole batch back. -/
theorem not_storesResolvable_unownedRun :
    ¬ Along step StoresResolvable { flushBatchSize := 1000 } unownedRun := by
  intro h
  have hgoesOn : Along step (fun s e s' => e = .dbCall
      { id := 0, batch := unownedBatch, owned := ["w1"], point := .findBy ["w1"] } true →
      s'.flushesInProgress ≠ []) { flushBatchSize := 1000 } unownedRun := by
    refine h.mono fun s e s' hr he => ?_
    obtain ⟨events, -, hmem⟩ := hr _ _ he rfl ⟨0, "w1", "Mail", .failure, 1, 0⟩
      List.mem_cons_self (Or.inl List.mem_cons_self)
    exact List.ne_nil_of_mem hmem
  exact absurd hgoesOn (by decide)

end InsightsCollection

end N8n
