/-
The store of executions.

Each call is one transaction.  An update may ask for the status that the row must
have; an update of the data alone does not look at the status.
-/
import N8n.Interfaces

namespace N8n

/-- A stored execution; the times of its start and end are left out. -/
structure ExecutionRow where
  status : ExecutionStatus
  waitTill : Option ℤ := none
  data : String := ""
  deriving DecidableEq

/-- The fields that an update sets. -/
structure PartialExecution where
  status : Option ExecutionStatus := none
  waitTill : Option (Option ℤ) := none
  data : Option String := none
  deriving DecidableEq

structure ExecutionRepository where
  rows : Dict String ExecutionRow := .empty
  deriving DecidableEq

namespace ExecutionRepository
variable (r : ExecutionRepository)

variable (executionId : String)

def status? : Option ExecutionStatus :=
  (r.rows.get? executionId).map (·.status)

def modify (f : ExecutionRow → ExecutionRow) : ExecutionRepository :=
  match r.rows.get? executionId with
  | none => r
  | some row => { r with rows := r.rows.set executionId (f row) }

def createNewExecution (row : ExecutionRow) : ExecutionRepository :=
  { r with rows := r.rows.set executionId row }

def updateExistingExecution
    (execution : PartialExecution) (requireStatus : Option ExecutionStatus) :
    ExecutionRepository × Bool :=
  let informed := execution.status.isSome || execution.waitTill.isSome
  let matching := (r.rows.get? executionId).any fun row =>
    requireStatus.all fun status => decide (row.status = status)
  if informed && !matching then (r, false)
  else (r.modify executionId fun row => {
    status := execution.status.getD row.status
    waitTill := execution.waitTill.getD row.waitTill
    data := execution.data.getD row.data }, true)

def setRunning : ExecutionRepository :=
  r.modify executionId fun row => { row with status := .running }

def markAsCrashed (executionIds : List String) : ExecutionRepository :=
  executionIds.foldl (fun r id => r.modify id fun row => { row with status := .crashed }) r

theorem get?_modify (id other : String) (f : ExecutionRow → ExecutionRow) :
    (r.modify id f).rows.get? other
      = if other = id then (r.rows.get? id).map f else r.rows.get? other := by
  cases h : r.rows.get? id with
  | none =>
    simp only [modify, h, Option.map_none]
    by_cases hother : other = id
    · rw [if_pos hother, hother, h]
    · rw [if_neg hother]
  | some row => simp only [modify, h, Dict.get?_set, Option.map_some]

theorem updateExistingExecution_eq (id : String)
    (status required : ExecutionStatus) (waitTill : Option ℤ) (data : String) :
    r.updateExistingExecution id
        { status := some status, waitTill := some waitTill, data := some data } (some required)
      = if r.status? id = some required then
          (r.modify id fun _ => { status, waitTill, data }, true)
        else (r, false) := by
  have hmatching : ((r.rows.get? id).any fun row =>
      (some required).all fun status => decide (row.status = status))
        = decide (r.status? id = some required) := by
    rw [status?]
    cases r.rows.get? id <;> simp
  rw [updateExistingExecution]
  simp only [hmatching, Option.isSome_some, Bool.true_or, Bool.true_and, Option.getD_some]
  by_cases h : r.status? id = some required <;> simp [h]

theorem updateExistingExecution_any (id : String)
    (status : ExecutionStatus) (waitTill : Option ℤ) (data : String) :
    (r.updateExistingExecution id
        { status := some status, waitTill := some waitTill, data := some data } none).1
      = r.modify id fun _ => { status, waitTill, data } := by
  rw [updateExistingExecution]
  cases h : r.rows.get? id with
  | none => simp [modify, h]
  | some row => simp

theorem status?_modify (id : String) (f : ExecutionRow → ExecutionRow) :
    (r.modify id f).status? id = (r.rows.get? id).map fun row => (f row).status := by
  rw [status?, get?_modify, if_pos rfl, Option.map_map]
  rfl

theorem status?_modify_of_ne {id other : String} (h : other ≠ id)
    (f : ExecutionRow → ExecutionRow) : (r.modify id f).status? other = r.status? other := by
  rw [status?, get?_modify, if_neg h, status?]

theorem status?_markAsCrashed (id : String) :
    ∀ (ids : List String) (r : ExecutionRepository), (r.markAsCrashed ids).status? id
      = if id ∈ ids then (r.status? id).map fun _ => .crashed else r.status? id
  | [], _ => rfl
  | other :: ids, r => by
    have hrest := status?_markAsCrashed id ids
      (r.modify other fun row => { row with status := .crashed })
    rw [markAsCrashed, List.foldl_cons]
    refine hrest.trans ?_
    by_cases hid : id = other
    · subst hid
      rw [status?_modify, if_pos List.mem_cons_self, status?, Option.map_map, Option.map_map]
      split <;> rfl
    · rw [status?_modify_of_ne r hid]
      simp only [List.mem_cons, hid, false_or]

end ExecutionRepository

end N8n
