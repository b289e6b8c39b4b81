/-
Rows of data tables, inserted in bulk.

The rows go to the database in batches of equal size, so that no query has too many parameters.
Both the number of batches and the number of rows in a batch are rounded up.  Quotients of lengths
of arrays are exact enough in floating point for that, so they are taken of natural numbers here.

* **`batchesRight_iff`** — the batches are complete, and no query has more than 999 parameters iff
  there are at most `⌊999 / columns⌋` rows for each 800 values.
-/
import N8n.BracketParts
import N8n.DataTableColumns
import Mathlib.Algebra.Order.Floor.Div
import Mathlib.Data.Rat.Init

namespace N8n.DataTableRows

/-- A date is its time, if it is valid. -/
inductive DataTableColumnJsType where
  | string (s : String)
  | number (n : ℚ)
  | boolean (b : Bool)
  | date (time : Option ℤ)
  | null
  deriving DecidableEq

abbrev DataTableRow := List (String × DataTableColumnJsType)

inductive DatabaseType where
  | sqlite
  | sqlitePooled
  | postgres
  | mysql
  | mariadb
  deriving DecidableEq

/-- What the language does with dates and with the texts of values. -/
structure HostTexts where
  /-- `new Date(text)`. -/
  parse : String → Option ℤ
  toISOString : ℤ → String
  numberText : ℚ → String
  dateText : Option ℤ → String

namespace DataTableColumnJsType

def typeof : DataTableColumnJsType → String
  | string _ => "string"
  | number _ => "number"
  | boolean _ => "boolean"
  | date _ => "object"
  | null => "object"

def text (host : HostTexts) : DataTableColumnJsType → String
  | string s => s
  | number n => host.numberText n
  | boolean b => if b then "true" else "false"
  | date time => host.dateText time
  | null => "null"

end DataTableColumnJsType

def formatDateForDatabase (host : HostTexts) (value : DataTableColumnJsType)
    (dbType : DatabaseType) : Except DataTableError String := do
  let date ← match value with
    | .date time => pure time
    | .string s => pure (host.parse s)
    | _ => throw (.unexpected ("Expected Date object or ISO date string, got " ++ value.typeof ++
        ": " ++ value.text host))
  match date with
  | none => throw (.unexpected ("Invalid date: " ++ value.text host))
  | some time =>
    if dbType = .sqlite ∨ dbType = .sqlitePooled then
      let iso := BracketParts.replaceFirst ['T'] [' '] (host.toISOString time).toList
      return String.ofList (BracketParts.replaceFirst ['Z'] [] iso)
    else return host.toISOString time

def normalizeValueForDatabase (host : HostTexts) (value : DataTableColumnJsType)
    (columnType : DataTableColumnType) (dbType : DatabaseType) :
    Except DataTableError DataTableColumnJsType :=
  if columnType = .date ∧ value ≠ .null then
    (formatDateForDatabase host value dbType).map .string
  else .ok value

/-- An insertion that is executed. -/
inductive InsertQuery where
  | row (table : String) (values : DataTableRow)
  | block (table : String) (columnNames : List String) (values : List (List DataTableColumnJsType))
  deriving DecidableEq

def InsertQuery.rows : InsertQuery → List (List DataTableColumnJsType)
  | row _ values => [values.map Prod.snd]
  | block _ _ values => values

def InsertQuery.parameters (q : InsertQuery) : ℕ := (q.rows.map List.length).sum

def batchSize : ℕ := 800

section
variable (host : HostTexts) (dbType : DatabaseType) (table : String)
  (columns : List DataTableColumn) (rows : List DataTableRow)

def completeRow (row : DataTableRow) : Except DataTableError (List DataTableColumnJsType) :=
  columns.mapM fun column =>
    normalizeValueForDatabase host ((row.lookup column.name).getD .null) column.type dbType

def insertBatches (rowsPerBatch : ℕ) : ℕ → ℕ → ℕ → Except DataTableError (List InsertQuery × ℕ)
  | 0, _, insertedRows => .ok ([], insertedRows)
  | batches + 1, i, insertedRows => do
    let start := i * rowsPerBatch
    let endExclusive := min rows.length ((i + 1) * rowsPerBatch)
    if endExclusive ≤ start then return ([], insertedRows)
    let completeRows ← ((rows.drop start).take (endExclusive - start)).mapM
      (completeRow host dbType columns)
    let (queries, insertedRows) ←
      insertBatches rowsPerBatch batches (i + 1) (insertedRows + completeRows.length)
    return (.block table (columns.map (·.name)) completeRows :: queries, insertedRows)

def insertRowsBulk : Except DataTableError (List InsertQuery × ℕ) :=
  if columns.length = 0 then .ok (rows.map (.row table), rows.length)
  else
    let batches := max 1 ((columns.length * rows.length) ⌈/⌉ batchSize)
    let rowsPerBatch := rows.length ⌈/⌉ batches
    insertBatches host dbType table columns rows rowsPerBatch batches 0 0

end

section

variable {ε α β : Type}

theorem exists_mapM {f : α → Except ε β} {l : List α} (h : ∀ a ∈ l, ∃ b, f a = .ok b) :
    ∃ bs, l.mapM f = .ok bs ∧ bs.map .ok = l.map f := by
  induction l with
  | nil => exact ⟨[], rfl, rfl⟩
  | cons a l ih =>
    obtain ⟨hhead, htail⟩ := List.forall_mem_cons.mp h
    obtain ⟨b, hb⟩ := hhead
    obtain ⟨bs, hbs, hmap⟩ := ih htail
    refine ⟨b :: bs, ?_, by rw [List.map_cons, List.map_cons, hb, hmap]⟩
    rw [List.mapM_cons, hb, hbs]
    rfl

theorem length_of_mapM_ok {f : α → Except ε β} {l : List α} {bs : List β}
    (h : l.mapM f = .ok bs) : bs.length = l.length := by
  induction l generalizing bs with
  | nil =>
    cases h
    rfl
  | cons a l ih =>
    rw [List.mapM_cons] at h
    cases hb : f a with
    | error e => simp [hb, bind, Except.bind] at h
    | ok b =>
      cases hbs : l.mapM f with
      | error e => simp [hb, hbs, bind, Except.bind] at h
      | ok bs' =>
        simp only [hb, hbs, bind, Except.bind, pure, Except.pure, Except.ok.injEq] at h
        rw [← h, List.length_cons, List.length_cons, ih hbs]

end

section
variable {host : HostTexts} {dbType : DatabaseType} {table : String}
  {columns : List DataTableColumn} {rows : List DataTableRow}

/-- What the batches from a position on are. -/
structure Batched (host : HostTexts) (dbType : DatabaseType) (columns : List DataTableColumn)
    (rowsPerBatch : ℕ) (rest : List DataTableRow) (queries : List InsertQuery) : Prop where
  blocks : (queries.flatMap InsertQuery.rows).map .ok = rest.map (completeRow host dbType columns)
  nonempty : ∀ q ∈ queries, q.rows ≠ []
  parameters_le : ∀ q ∈ queries, q.parameters ≤ columns.length * rowsPerBatch
  full : rowsPerBatch ≤ rest.length → 0 < rest.length →
    ∃ q ∈ queries, q.parameters = columns.length * rowsPerBatch

theorem parameters_block (table : String) (names : List String) {block : List DataTableRow}
    {values : List (List DataTableColumnJsType)}
    (h : values.map .ok = block.map (completeRow host dbType columns)) :
    (InsertQuery.block table names values).parameters = columns.length * block.length := by
  have hlengths : ∀ row ∈ values, row.length = columns.length := by
    intro row hrow
    have hok := List.mem_map_of_mem (f := Except.ok (ε := DataTableError)) hrow
    rw [h] at hok
    obtain ⟨source, -, hsource⟩ := List.mem_map.mp hok
    exact length_of_mapM_ok hsource
  have hlength : values.length = block.length := by simpa using congrArg List.length h
  show (values.map List.length).sum = _
  rw [List.map_congr_left hlengths, List.map_const', List.sum_replicate_nat, hlength,
    Nat.mul_comm]

theorem insertBatches_eq (table : String) {k : ℕ} (hk : 0 < k)
    (hvalues : ∀ row ∈ rows, ∃ values, completeRow host dbType columns row = .ok values) :
    ∀ (batches i insertedRows : ℕ), rows.length ≤ (i + batches) * k →
      ∃ queries, insertBatches host dbType table columns rows k batches i insertedRows
          = .ok (queries, insertedRows + (rows.drop (i * k)).length) ∧
        Batched host dbType columns k (rows.drop (i * k)) queries := by
  intro batches
  induction batches with
  | zero =>
    intro i insertedRows hlength
    have hdrop : rows.drop (i * k) = [] := List.drop_eq_nil_iff.mpr hlength
    rw [hdrop]
    exact ⟨[], rfl, rfl, nofun, nofun, fun _ h => absurd h (Nat.lt_irrefl 0)⟩
  | succ batches ih =>
    intro i insertedRows hlength
    rw [insertBatches]
    by_cases hend : min rows.length ((i + 1) * k) ≤ i * k
    · have hle : rows.length ≤ i * k := by
        rw [Nat.succ_mul] at hend
        omega
      have hdrop : rows.drop (i * k) = [] := List.drop_eq_nil_iff.mpr hle
      rw [if_pos hend, hdrop]
      exact ⟨[], rfl, rfl, nofun, nofun, fun _ h => absurd h (Nat.lt_irrefl 0)⟩
    · rw [if_neg hend]
      have hstep : (i + 1) * k = i * k + k := Nat.succ_mul i k
      -- The block ends with the rows, or is a full one.
      have hblock : (rows.drop (i * k)).take (min rows.length ((i + 1) * k) - i * k)
          = (rows.drop (i * k)).take k := by
        rw [List.take_eq_take_iff, List.length_drop]
        omega
      have hsplit : rows.drop (i * k)
          = (rows.drop (i * k)).take k ++ rows.drop ((i + 1) * k) := by
        rw [hstep, ← List.drop_drop, List.take_append_drop]
      have hpositive : 0 < ((rows.drop (i * k)).take k).length := by
        rw [List.length_take, List.length_drop]
        omega
      obtain ⟨values, hmap, hok⟩ := exists_mapM
        (f := completeRow host dbType columns) (l := (rows.drop (i * k)).take k)
        fun row hrow => hvalues row (List.mem_of_mem_drop (List.mem_of_mem_take hrow))
      have hlengthv : values.length = ((rows.drop (i * k)).take k).length :=
        length_of_mapM_ok hmap
      obtain ⟨queries, hqueries, hbatched⟩ := ih (i + 1) (insertedRows + values.length) (by
        rw [Nat.add_assoc, Nat.add_comm 1]
        exact hlength)
      have hparameters := parameters_block table (columns.map (·.name)) hok
      refine ⟨.block table (columns.map (·.name)) values :: queries, ?_, ?_, ?_, ?_, ?_⟩
      · rw [hblock, hmap]
        simp only [bind, Except.bind, hqueries, pure, Except.pure]
        have hrest := congrArg List.length hsplit
        rw [List.length_append] at hrest
        rw [hrest, hlengthv, Nat.add_assoc]
      · rw [List.flatMap_cons, List.map_append, hbatched.blocks, hsplit, List.map_append]
        exact congrArg (· ++ _) hok
      · refine List.forall_mem_cons.mpr ⟨?_, hbatched.nonempty⟩
        exact List.ne_nil_of_length_pos (hlengthv ▸ hpositive)
      · refine List.forall_mem_cons.mpr ⟨?_, hbatched.parameters_le⟩
        rw [hparameters]
        exact Nat.mul_le_mul_left _ (List.length_take_le k _)
      · intro hfull _
        refine ⟨_, List.mem_cons_self, ?_⟩
        rw [hparameters, List.length_take, Nat.min_eq_left hfull]

/-- The lowest limit of the databases. -/
def parameterLimit : ℕ := 999

/-- What the batches of an insertion should be: complete, and within the limit. -/
structure BatchesRight (host : HostTexts) (dbType : DatabaseType) (columns : List DataTableColumn)
    (rows : List DataTableRow) (result : List InsertQuery × ℕ) : Prop where
  blocks : (result.1.flatMap InsertQuery.rows).map .ok
    = rows.map (completeRow host dbType columns)
  nonempty : ∀ q ∈ result.1, q.rows ≠ []
  inserted : result.2 = rows.length
  limited : ∀ q ∈ result.1, q.parameters ≤ parameterLimit

/-- There are at most as many rows for each 800 values as a query may have. -/
def RowsFit (columns rows : ℕ) : Prop :=
  rows ≤ parameterLimit / columns * ((columns * rows) ⌈/⌉ batchSize)

theorem ceilDiv_pos {n d : ℕ} (hd : 0 < d) (hn : 0 < n) : 0 < n ⌈/⌉ d := by
  rw [Nat.pos_iff_ne_zero]
  intro hzero
  have hle := le_smul_ceilDiv (b := n) hd
  rw [hzero, smul_zero] at hle
  omega

theorem rowsPerBatch_le_iff {c r : ℕ} (hc : 0 < c) (hr : 0 < r) :
    c * (r ⌈/⌉ max 1 ((c * r) ⌈/⌉ batchSize)) ≤ parameterLimit ↔ RowsFit c r := by
  have hpositive : 0 < (c * r) ⌈/⌉ batchSize := ceilDiv_pos (by decide) (Nat.mul_pos hc hr)
  rw [Nat.max_eq_right hpositive, RowsFit, Nat.mul_comm c, ← Nat.le_div_iff_mul_le hc,
    ceilDiv_le_iff_le_smul hpositive, smul_eq_mul, Nat.mul_comm]

/-- **When the batches of a bulk insertion are right.**  They are always complete; no query has
more than 999 parameters iff the rows fit. -/
theorem batchesRight_iff (host : HostTexts) (dbType : DatabaseType) (table : String)
    {columns : List DataTableColumn} {rows : List DataTableRow} (hrows : rows ≠ [])
    (hcolumns : columns ≠ [])
    (hvalues : ∀ row ∈ rows, ∃ values, completeRow host dbType columns row = .ok values) :
    ∃ result, insertRowsBulk host dbType table columns rows = .ok result ∧
      (BatchesRight host dbType columns rows result ↔ RowsFit columns.length rows.length) := by
  have hr := List.length_pos_of_ne_nil hrows
  have hc := List.length_pos_of_ne_nil hcolumns
  set batches := max 1 ((columns.length * rows.length) ⌈/⌉ batchSize) with hbatches
  set k := rows.length ⌈/⌉ batches with hk
  have hb : 0 < batches := Nat.lt_of_lt_of_le Nat.one_pos (Nat.le_max_left 1 _)
  have hkpos : 0 < k := ceilDiv_pos hb hr
  have henough : rows.length ≤ (0 + batches) * k := by
    rw [Nat.zero_add]
    exact le_smul_ceilDiv hb
  obtain ⟨queries, hqueries, hbatched⟩ :=
    insertBatches_eq table hkpos hvalues batches 0 0 henough
  rw [Nat.zero_mul, List.drop_zero] at hqueries hbatched
  refine ⟨(queries, 0 + rows.length), ?_, ?_⟩
  · rw [insertRowsBulk, if_neg (Nat.ne_of_gt hc)]
    exact hqueries
  · rw [← rowsPerBatch_le_iff hc hr]
    constructor
    · intro h
      have hkle : k ≤ rows.length :=
        (ceilDiv_le_iff_le_smul hb).mpr (Nat.le_mul_of_pos_left rows.length hb)
      obtain ⟨q, hq, hparameters⟩ := hbatched.full hkle hr
      rw [← hk, ← hparameters]
      exact h.limited q hq
    · intro h
      exact ⟨hbatched.blocks, hbatched.nonempty, Nat.zero_add _,
        fun q hq => (hbatched.parameters_le q hq).trans h⟩

def plainTexts : HostTexts where
  parse _ := none
  toISOString _ := ""
  numberText _ := ""
  dateText _ := "Invalid Date"

/-- So many columns of strings. -/
def stringColumns (count : ℕ) : List DataTableColumn :=
  (List.range count).map fun i =>
    { id := "c" ++ toString i, dataTableId := "t", name := "c" ++ toString i, type := .string,
      index := i }

theorem batchesRight_twoColumns :
    ∃ result, insertRowsBulk plainTexts .sqlite "t" (stringColumns 2)
        [[("c0", .string "a")], [("c1", .null)]] = .ok result ∧
      (BatchesRight plainTexts .sqlite (stringColumns 2)
        [[("c0", .string "a")], [("c1", .null)]] result ↔ RowsFit 2 2) :=
  batchesRight_iff plainTexts .sqlite "t" (by decide) (by decide) (by
    intro row hrow
    rcases List.mem_pair.mp hrow with rfl | rfl
    · exact ⟨[.string "a", .null], rfl⟩
    · exact ⟨[.null, .null], rfl⟩)

/-- Three rows of 500 columns are two batches, the first one of two rows. -/
theorem not_batchesRight_wide :
    ∃ result, insertRowsBulk plainTexts .sqlite "t" (stringColumns 500) [[], [], []] = .ok result ∧
      ¬ BatchesRight plainTexts .sqlite (stringColumns 500) [[], [], []] result := by
  have hparameters : (insertRowsBulk plainTexts .sqlite "t" (stringColumns 500) [[], [], []]).map
      (fun result => result.1.map InsertQuery.parameters) = .ok [1000, 500] := by
    decide +kernel
  cases hresult : insertRowsBulk plainTexts .sqlite "t" (stringColumns 500) [[], [], []] with
  | error e =>
    rw [hresult] at hparameters
    cases hparameters
  | ok result =>
    rw [hresult] at hparameters
    have hmap : result.1.map InsertQuery.parameters = [1000, 500] := Except.ok.inj hparameters
    refine ⟨result, rfl, fun h => ?_⟩
    have hmem : 1000 ∈ result.1.map InsertQuery.parameters := by
      rw [hmap]
      exact List.mem_cons_self
    obtain ⟨q, hq, heq⟩ := List.mem_map.mp hmem
    exact absurd (heq ▸ h.limited q hq) (by decide)

end

end N8n.DataTableRows
