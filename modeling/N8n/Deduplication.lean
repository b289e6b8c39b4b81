/-
Deduplication of items across executions: `DeduplicationHelper`.

One row of the table belongs to a scope of a workflow.  In mode `entries` it holds the hashes of
the items that were processed, in the two other modes the largest value.  A call finds the row,
reports which of its items are new, and writes the row back; the row is the state here.

* `Conversions` — what the language makes of an item, a string or a finite number, which the column
  of the table keeps as it is;
* `Sorting` — an order that sorting the items may leave them in.
-/
import N8n.Interfaces
import N8n.Runs
import Mathlib.Order.WithBot

namespace N8n.Deduplication

inductive DeduplicationMode where
  | entries
  | latestIncrementalKey
  | latestDate
  deriving DecidableEq, Repr

structure ICheckProcessedOptions where
  mode : DeduplicationMode
  maxEntries : Option ℕ := none
  deriving DecidableEq, Repr

structure IDeduplicationOutput (ι : Type) where
  new : List ι
  processed : List ι
  deriving DecidableEq

/-- `data` of a row: an array of hashes, or one value. -/
inductive ProcessedValue (ι : Type) where
  | entries (hashes : List String)
  | latest (value : Option ι)
  deriving DecidableEq

structure ProcessedData (ι : Type) where
  mode : DeduplicationMode
  data : ProcessedValue ι
  deriving DecidableEq

/-- What the language and its libraries make of an item: its text, the digest of a text, and the
number and the time that it converts to, if it does. -/
structure Conversions (ι K : Type) where
  toText : ι → String
  createHash : String → String
  number : ι → Option K
  date : ι → Option K

variable {ι K : Type} [LinearOrder K]

namespace Conversions

variable (c : Conversions ι K)

/-- What is compared in a mode; the bottom where the item is not valid. -/
def key : DeduplicationMode → ι → WithBot K
  | .entries, _ => ⊥
  | .latestIncrementalKey, item => c.number item
  | .latestDate, item => c.date item

def Valid (mode : DeduplicationMode) (item : ι) : Prop := c.key mode item ≠ ⊥

def compareValues (mode : DeduplicationMode) (value1 value2 : ι) : Except JsError ℤ :=
  match mode with
  | .latestIncrementalKey => match c.number value1, c.number value2 with
    | some num1, some num2 => .ok (if num1 = num2 then 0 else if num2 < num1 then 1 else -1)
    | _, _ => .error (.raised
      "Invalid value. Only numbers are supported in mode \"latestIncrementalKey\"")
  | .latestDate => match c.date value1, c.date value2 with
    -- two parsed dates are two objects, so they are never the same one
    | some date1, some date2 => .ok (if date2 < date1 then 1 else -1)
    | _, _ => .error (.raised
      "Invalid value. Only valid dates are supported in mode \"latestDate\"")
  | .entries => .error (.raised
      "Invalid mode. Only 'latestIncrementalKey' and 'latestDate' are supported.")

def createValueHash (value : ι) : String := c.createHash (c.toText value)

end Conversions
variable (c : Conversions ι K)

/-- `items.slice().sort(..)` for items that all compare: an order in which none of them is greater
than one behind it.  Two equal dates are each less than the other one, so it is left open how they
are ordered. -/
structure Sorting (mode : DeduplicationMode) where
  sort : List ι → List ι
  perm : ∀ items, (sort items).Perm items
  sorted : ∀ items, (∀ item ∈ items, c.Valid mode item) →
    (sort items).Pairwise fun a b => c.key mode a ≤ c.key mode b

/-- Sorting by insertion. -/
def Sorting.insertion (mode : DeduplicationMode) : Sorting c mode where
  sort items := items.insertionSort fun a b => c.key mode a ≤ c.key mode b
  perm := List.perm_insertionSort _
  sorted items _ := by
    have htotal : Std.Total fun a b : ι => c.key mode a ≤ c.key mode b :=
      ⟨fun a b => le_total _ _⟩
    have htrans : IsTrans ι fun a b => c.key mode a ≤ c.key mode b :=
      ⟨fun a b d => le_trans⟩
    exact List.pairwise_insertionSort _ items

def sortEntries {mode : DeduplicationMode} (sorting : Sorting c mode)
    (items : List ι) : Except JsError (List ι) := do
  if 1 < items.length then
    let _ ← items.mapM fun item => c.compareValues mode item item
  return sorting.sort items

def validateMode (processedData : Option (ProcessedData ι)) (options : ICheckProcessedOptions) :
    Except JsError Unit :=
  match processedData with
  | none => .ok ()
  | some row =>
    if row.mode = options.mode then .ok ()
    else .error (.raised
      "Deduplication data was originally saved with an incompatible setting of the ‘Keep Items Where’ parameter. Try ’Clean Database’ operation to reset.")

abbrev Checked (ι : Type) := IDeduplicationOutput ι × Option (ProcessedData ι)

structure LatestState (ι : Type) where
  returnData : IDeduplicationOutput ι
  largestValue : ι

def checkLatest (mode : DeduplicationMode) (stored : ι)
    (st : LatestState ι) (item : ι) : Except JsError (LatestState ι) := do
  if (← c.compareValues mode item stored) = 1 then
    let larger ← c.compareValues mode item st.largestValue
    return {
      returnData := { st.returnData with new := st.returnData.new ++ [item] }
      largestValue := if larger = 1 then item else st.largestValue }
  else
    return { st with
      returnData := { st.returnData with processed := st.returnData.processed ++ [item] } }

def handleLatestModes {mode : DeduplicationMode} (sorting : Sorting c mode)
    (items : List ι) (processedData : Option (ProcessedData ι)) :
    Except JsError (Checked ι) := do
  let incomingItems ← sortEntries c sorting items
  match processedData with
  | none => return (⟨items, []⟩, some ⟨mode, .latest incomingItems.getLast?⟩)
  | some row => match row.data with
    | .entries _ => return (⟨[], []⟩, some row)
    | .latest none =>
      -- any item is compared with `undefined`, which is neither a number nor a date
      if incomingItems = [] then return (⟨[], []⟩, some row)
      else .error (.raised (match mode with
        | .latestIncrementalKey =>
          "Invalid value. Only numbers are supported in mode \"latestIncrementalKey\""
        | .latestDate => "Invalid value. Only valid dates are supported in mode \"latestDate\""
        | .entries => "Invalid mode. Only 'latestIncrementalKey' and 'latestDate' are supported."))
    | .latest (some stored) =>
      let st ← incomingItems.foldlM (checkLatest c mode stored) ⟨⟨[], []⟩, stored⟩
      return (st.returnData, some { row with data := .latest (some st.largestValue) })

def keepLast (maxEntries : Option ℕ) (data : List String) : List String :=
  match maxEntries with
  | none | some 0 => data
  | some n =>
    -- a negative count deletes nothing
    data.drop (data.length - n)

def checkHashed (processedItemsSet : List String)
    (st : IDeduplicationOutput ι × List String) (item : ι) : IDeduplicationOutput ι × List String :=
  if c.createValueHash item ∈ processedItemsSet then
    ({ st.1 with processed := st.1.processed ++ [item] }, st.2)
  else ({ st.1 with new := st.1.new ++ [item] }, st.2 ++ [c.createValueHash item])

def handleHashedItems (items : List ι) (options : ICheckProcessedOptions)
    (processedData : Option (ProcessedData ι)) : Checked ι :=
  match processedData with
  | none => (⟨items, []⟩, some ⟨options.mode,
      .entries (keepLast options.maxEntries (items.map c.createValueHash))⟩)
  | some row => match row.data with
    | .latest _ => (⟨[], []⟩, some row)
    | .entries data =>
      let st := items.foldl (checkHashed c data) (⟨[], []⟩, data)
      (st.1, some { row with data := .entries (keepLast options.maxEntries st.2) })

def checkProcessedAndRecord (options : ICheckProcessedOptions)
    (sorting : Sorting c options.mode) (items : List ι)
    (processedData : Option (ProcessedData ι)) : Except JsError (Checked ι) := do
  validateMode processedData options
  if options.mode = .latestIncrementalKey ∨ options.mode = .latestDate then
    handleLatestModes c sorting items processedData
  else return handleHashedItems c items options processedData

def removeProcessed (options : ICheckProcessedOptions) (items : List ι)
    (processedData : Option (ProcessedData ι)) : Except JsError (Option (ProcessedData ι)) :=
  if options.mode = .latestIncrementalKey ∨ options.mode = .latestDate then
    .error (.raised "Removing processed data is not possible in mode \"latest\"")
  else match processedData with
    | none => .ok none
    | some row => match row.data with
      | .latest _ => .ok (some row)
      -- the first entry of each hash is taken out
      | .entries data => .ok (some { row with
          data := .entries ((items.map c.createValueHash).foldl List.erase data) })

end N8n.Deduplication
