/-
The input of a task in chunks: what the main process strips off, and what the runner puts back.

The runner may ask for the items from `startIndex` on, `count` of them.  It gets a shorter list and
pads it, so that the items have their indexes again.

* **`isRebuilt_iff`** — what is put back is as long as the input only if the chunk ends there.
-/
import N8n.Interfaces

namespace N8n.ChunkedInput

structure InputDataChunkDefinition where
  startIndex : ℕ
  count : ℕ
  deriving DecidableEq, Repr

structure InputDataRequestParams where
  includeInput : Bool
  chunk : Option InputDataChunkDefinition := none
  deriving DecidableEq, Repr

variable (inputData : ITaskDataConnections)

def mainItems : Option Items :=
  ((inputData.get? .main).bind (·[0]?)).bind Slot.toOption

variable (chunk : InputDataChunkDefinition)

def slice (items : Items) : Items :=
  (items.drop chunk.startIndex).take chunk.count

def stripChunkedInputData (inputData : ITaskDataConnections) : ITaskDataConnections :=
  match mainItems inputData with
  | none => inputData
  | some inputItems => inputData.set .main [.data (slice chunk inputItems)]

def stripInputData (input : InputDataRequestParams) (inputData : ITaskDataConnections) :
    ITaskDataConnections :=
  if input.includeInput then
    match input.chunk with
    | some chunk => stripChunkedInputData chunk inputData
    | none => inputData
  else .empty

def arrayFrom (length : ℤ) : List (Option INodeExecutionData) :=
  List.replicate length.toNat none

/-- The items, `none` being `undefined`. -/
def reconstructConnectionInputItems
    (chunk : Option InputDataChunkDefinition) : List (Option INodeExecutionData) :=
  let inputItems := (mainItems inputData).getD []
  match chunk with
  | none => inputItems.map some
  | some chunk => arrayFrom chunk.startIndex ++ inputItems.map some
      ++ arrayFrom (inputItems.length - chunk.startIndex - chunk.count)

def rebuilt : List (Option INodeExecutionData) :=
  reconstructConnectionInputItems
    (stripInputData { includeInput := true, chunk := some chunk } inputData) (some chunk)

/-- As many items as there were, those of the chunk as they were and all others `undefined`. -/
def IsRebuilt (items : Items) (chunk : InputDataChunkDefinition)
    (result : List (Option INodeExecutionData)) : Prop :=
  result.length = items.length ∧ ∀ i < items.length, result[i]? = some
    (if chunk.startIndex ≤ i ∧ i < chunk.startIndex + chunk.count then items[i]? else none)

theorem mainItems_strip {inputData : ITaskDataConnections} {items : Items}
    (h : mainItems inputData = some items) (chunk : InputDataChunkDefinition) :
    mainItems (stripInputData { includeInput := true, chunk := some chunk } inputData)
      = some (slice chunk items) := by
  rw [stripInputData, if_pos rfl]
  show mainItems (stripChunkedInputData chunk inputData) = _
  rw [stripChunkedInputData, h]
  show ((Dict.get? (inputData.set .main _) .main).bind _).bind _ = _
  rw [Dict.get?_set_self]
  rfl

theorem arrayFrom_behind (items : Items) :
    arrayFrom ((slice chunk items).length - chunk.startIndex - chunk.count) = [] := by
  have hlength : (slice chunk items).length ≤ chunk.count := List.length_take_le _ _
  have hnonpos : (((slice chunk items).length : ℤ) - chunk.startIndex - chunk.count).toNat = 0 := by
    omega
  rw [arrayFrom, hnonpos]
  rfl

theorem reconstruct_strip {inputData : ITaskDataConnections} {items : Items}
    (h : mainItems inputData = some items) (chunk : InputDataChunkDefinition) :
    rebuilt inputData chunk
      = List.replicate chunk.startIndex none ++ (slice chunk items).map some := by
  rw [rebuilt, reconstructConnectionInputItems, mainItems_strip h, Option.getD_some]
  rw [arrayFrom_behind, List.append_nil]
  rfl

theorem getElem?_rebuilt (items : Items) (chunk : InputDataChunkDefinition) (i : ℕ) :
    (List.replicate chunk.startIndex none ++ (slice chunk items).map some)[i]? =
      if i < chunk.startIndex then some none
      else if i < chunk.startIndex + chunk.count then (items[i]?).map some else none := by
  rw [List.getElem?_append, List.length_replicate]
  split
  · next hlt => rw [List.getElem?_replicate, if_pos hlt]
  · next hlt =>
    rw [List.getElem?_map, slice, List.getElem?_take]
    by_cases hchunk : i < chunk.startIndex + chunk.count
    · rw [if_pos (by omega), if_pos hchunk, List.getElem?_drop, Nat.add_sub_cancel' (by omega)]
    · rw [if_neg (by omega), if_neg hchunk]
      rfl

/-- The input is rebuilt iff it reaches to the beginning of the chunk and not beyond its end. -/
theorem isRebuilt_iff {inputData : ITaskDataConnections} {items : Items}
    (h : mainItems inputData = some items) (chunk : InputDataChunkDefinition) :
    IsRebuilt items chunk (rebuilt inputData chunk) ↔
      chunk.startIndex ≤ items.length ∧ items.length ≤ chunk.startIndex + chunk.count := by
  have hlength : (List.replicate chunk.startIndex none ++ (slice chunk items).map some).length
      = chunk.startIndex + min chunk.count (items.length - chunk.startIndex) := by
    rw [List.length_append, List.length_replicate, List.length_map, slice, List.length_take,
      List.length_drop]
  rw [reconstruct_strip h, IsRebuilt, hlength]
  constructor
  · rintro ⟨htotal, -⟩
    omega
  · rintro ⟨hstart, hend⟩
    refine ⟨by omega, fun i hi => ?_⟩
    rw [getElem?_rebuilt]
    by_cases hbefore : i < chunk.startIndex
    · rw [if_pos hbefore, if_neg (by omega)]
    · rw [if_neg hbefore, if_pos (by omega), if_pos (by omega), List.getElem?_eq_getElem hi]
      rfl

/-- The second of two items is rebuilt. -/
theorem isRebuilt_second : IsRebuilt [{}, {}] ⟨1, 1⟩
    (rebuilt (Dict.empty.set .main [.data [{}, {}]]) ⟨1, 1⟩) :=
  (isRebuilt_iff rfl ⟨1, 1⟩).mpr (by decide)

/-- The first of two items comes without a place for the second. -/
theorem not_isRebuilt_first : ¬ IsRebuilt [{}, {}] ⟨0, 1⟩
    (rebuilt (Dict.empty.set .main [.data [{}, {}]]) ⟨0, 1⟩) :=
  fun h => absurd h.1 (by decide)

end N8n.ChunkedInput
