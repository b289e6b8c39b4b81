/-
The executions that are active in a process.

A call of `add` reserves capacity, writes to the store and registers the execution
under its id.  A resumption of an id that is still registered takes the place of
the entry.  Entries, promises and reservations belong to a call, and what happens to
an execution afterwards finds its entry by the id.

Calls are numbered in the order in which they are made, and no id is empty.
-/
import N8n.ExecutionRepository
import N8n.Runs
import Mathlib.Logic.Function.Basic

namespace N8n

structure CapacityTarget where
  executionId : String
  mode : WorkflowExecuteMode
  deriving DecidableEq, Repr

/-- What a call of `add` waits for.  In `returning` the store has answered whether the
update succeeded. -/
inductive AddStage where
  | idle
  | creating
  | reserving
  | settingRunning
  | updating
  | returning (updateSucceeded : Bool)
  | added
  | threw
  deriving DecidableEq, Repr

/-- A post-execution promise, with the call whose run resolved it. -/
inductive PostExecutePromise where
  | pending
  | resolved (call : ℕ)
  | rejected
  deriving DecidableEq, Repr

/-- A call of `add`, with its reservation and the execution that it registers. -/
structure AddCall where
  maybeExecutionId : Option String := none
  resuming : Bool := false
  mode : WorkflowExecuteMode := .trigger
  data : String := ""
  stage : AddStage := .idle
  /-- `executionStatus`, then the `status` of the entry. -/
  status : ExecutionStatus := .new
  acquiredReservation : Option CapacityTarget := none
  postExecutePromise : PostExecutePromise := .pending
  /-- The handlers of the promise have run. -/
  handled : Bool := false
  /-- Capacity was reserved. -/
  reserved : Bool := false
  /-- How often capacity was given back. -/
  released : ℕ := 0
  /-- The run called `finalizeExecution`. -/
  finalized : Bool := false
  /-- `stopExecution` came upon the entry. -/
  stopped : Bool := false
  deriving DecidableEq

namespace AddCall

def reserve (call : AddCall) (executionId : String) : AddCall :=
  { call with
    acquiredReservation := some { executionId, mode := call.mode }
    reserved := true }

def release (call : AddCall) : AddCall :=
  match call.acquiredReservation with
  | none => call
  | some _ => { call with acquiredReservation := none, released := call.released + 1 }

def throws (call : AddCall) : AddCall := { call with stage := .threw }.release

def settle (call : AddCall) (promise : PostExecutePromise) : AddCall :=
  if call.postExecutePromise = .pending then { call with postExecutePromise := promise } else call

end AddCall

/-- The active executions of a process, with the store.  `regular` is the mode of the
executions config. -/
structure ActiveExecutions where
  regular : Bool := true
  repository : ExecutionRepository := {}
  calls : ℕ := 0
  call : ℕ → AddCall := fun _ => {}
  activeExecutions : Dict String ℕ := .empty

inductive ActiveExecutionsInput where
  | add (mode : WorkflowExecuteMode) (data : String) (maybeExecutionId : Option String)
  /-- `createNewExecution` returned. -/
  | created (call : ℕ) (executionId : String)
  /-- `throttle` returned. -/
  | reserved (call : ℕ)
  /-- `setRunning` returned. -/
  | setRunning (call : ℕ)
  /-- The transaction of `updateExistingExecution`. -/
  | updated (call : ℕ)
  /-- `updateExistingExecution` returned. -/
  | returned (call : ℕ)
  /-- What the call waits for failed. -/
  | failed (call : ℕ)
  | setStatus (executionId : String) (status : ExecutionStatus)
  | stopExecution (executionId : String)
  /-- The run of a call ends and is finalized. -/
  | finalizeExecution (call : ℕ)
  /-- The handlers of a promise that is settled run. -/
  | settled (call : ℕ)
  /-- The row is written by somebody else. -/
  | stored (executionId : String) (row : ExecutionRow)
  deriving DecidableEq

namespace ActiveExecutions
variable (s : ActiveExecutions)

variable (c : ℕ)

def setCall (call : AddCall) : ActiveExecutions :=
  { s with call := Function.update s.call c call }

def executionId : String := (s.call c).maybeExecutionId.getD ""

variable (executionId : String)

def entry? : Option ℕ :=
  s.activeExecutions.get? executionId

def add (mode : WorkflowExecuteMode) (data : String)
    (maybeExecutionId : Option String) : ActiveExecutions :=
  { s with calls := s.calls + 1 }.setCall s.calls {
    maybeExecutionId, mode, data
    resuming := maybeExecutionId.isSome
    stage := if maybeExecutionId.isSome then .reserving else .creating
    status := if maybeExecutionId.isSome then .running else .new }

def register : ActiveExecutions :=
  { s with activeExecutions := s.activeExecutions.set (s.executionId c) c }.setCall c
    { s.call c with stage := .added, status := .running }

def created : ActiveExecutions :=
  { s with
    repository := s.repository.createNewExecution executionId
      { status := (s.call c).status, data := (s.call c).data } }.setCall c
    { s.call c with maybeExecutionId := some executionId, stage := .reserving }

def reserved : ActiveExecutions :=
  let call := (s.call c).reserve (s.executionId c)
  if call.resuming then s.setCall c { call with stage := .updating }
  else if s.regular then s.setCall c { call with stage := .settingRunning }
  else (s.setCall c call).register c

def setRunning : ActiveExecutions :=
  { s with repository := s.repository.setRunning (s.executionId c) }.register c

def updated : ActiveExecutions :=
  let call := s.call c
  let (repository, updateSucceeded) := s.repository.updateExistingExecution (s.executionId c)
    { status := some call.status, waitTill := some none, data := some call.data } (some .waiting)
  { s with repository }.setCall c { call with stage := .returning updateSucceeded }

def returned (updateSucceeded : Bool) : ActiveExecutions :=
  if updateSucceeded then s.register c else s.setCall c (s.call c).throws

def setStatus (status : ExecutionStatus) : ActiveExecutions :=
  match s.entry? executionId with
  | none => s
  | some c => s.setCall c { s.call c with status }

def stopExecution : ActiveExecutions :=
  match s.entry? executionId with
  | none => s
  | some c =>
    let execution := { s.call c with stopped := true }
    if execution.status = .waiting then
      { s with activeExecutions := s.activeExecutions.erase executionId }.setCall c execution
    else s.setCall c (execution.settle .rejected)

/-- `finalizeExecution`, as the run of a call calls it. -/
def finalizeExecution : ActiveExecutions :=
  let s := s.setCall c { s.call c with finalized := true }
  match s.entry? (s.executionId c) with
  | none => s
  | some e => s.setCall e ((s.call e).settle (.resolved c))

/-- The `finally` of a promise. -/
def settled : ActiveExecutions :=
  let execution := { s.call c with handled := true }.release
  if execution.status = .waiting then s.setCall c execution
  else { s with activeExecutions := s.activeExecutions.erase (s.executionId c) }.setCall c execution

/-- What `add` waits for can fail. -/
def Awaits (stage : AddStage) : Prop :=
  stage = .creating ∨ stage = .reserving ∨ stage = .settingRunning ∨ stage = .updating

instance (stage : AddStage) : Decidable (Awaits stage) := inferInstanceAs (Decidable (_ ∨ _))

/-- The state after the input, if it can come.  A new execution gets an id that no
row has. -/
def step : ActiveExecutionsInput → Except Unit ActiveExecutions
  | .add mode data maybeExecutionId => .ok (s.add mode data maybeExecutionId)
  | .created c executionId =>
    onlyIf ((s.call c).stage = .creating ∧ s.repository.rows.has executionId = false)
      (s.created c executionId)
  | .reserved c => onlyIf ((s.call c).stage = .reserving) (s.reserved c)
  | .setRunning c => onlyIf ((s.call c).stage = .settingRunning) (s.setRunning c)
  | .updated c => onlyIf ((s.call c).stage = .updating) (s.updated c)
  | .returned c => match (s.call c).stage with
    | .returning updateSucceeded => .ok (s.returned c updateSucceeded)
    | _ => .error ()
  | .failed c => onlyIf (Awaits (s.call c).stage) (s.setCall c (s.call c).throws)
  | .setStatus executionId status => .ok (s.setStatus executionId status)
  | .stopExecution executionId => .ok (s.stopExecution executionId)
  | .finalizeExecution c => onlyIf ((s.call c).stage = .added) (s.finalizeExecution c)
  | .settled c =>
    onlyIf ((s.call c).stage = .added ∧ (s.call c).postExecutePromise ≠ .pending ∧
      (s.call c).handled = false) (s.settled c)
  | .stored executionId row =>
    .ok { s with repository := { rows := s.repository.rows.set executionId row } }

end ActiveExecutions

end N8n
