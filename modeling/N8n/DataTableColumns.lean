/-
The columns of data tables, kept in order by an index on each.

`addColumn`, `deleteColumn` and `moveColumn` shift the indexes of the other columns of
the table in bulk.  `moveColumn` checks its target; `addColumn` does not check the index
it is given.

* **`denselyOrdered_iff`** — along every run of calls on existing columns the columns of
  a table stay densely ordered iff each column added with an index is added at one of at
  most the number of columns.
-/
import N8n.DenseOrder
import N8n.Dict
import N8n.Runs

namespace N8n

inductive DataTableColumnType where
  | string
  | number
  | boolean
  | date
  deriving DecidableEq, Repr

structure DataTableColumn where
  id : String
  dataTableId : String
  name : String
  type : DataTableColumnType
  index : ℤ
  deriving DecidableEq

structure DataTableCreateColumnSchema where
  name : String
  type : DataTableColumnType
  index : Option ℤ := none
  deriving DecidableEq

inductive DataTableError where
  | systemColumnNameConflict (columnName type : String)
  | columnNameConflict (columnName dataTableName : String)
  | unexpected (message : String)
  | validation (msg : String)
  /-- The database refuses a statement. -/
  | query (message : String)
  deriving DecidableEq

def DataTableError.message : DataTableError → String
  | systemColumnNameConflict columnName type =>
    "Column name \"" ++ columnName ++ "\" is reserved as a " ++ type ++ " column name."
  | columnNameConflict columnName dataTableName =>
    "Data table column with name '" ++ columnName ++ "' already exists in data table '" ++
      dataTableName ++ "'"
  | unexpected message => message
  | validation msg => "Validation error with data table request: " ++ msg
  | query message => message

def DATA_TABLE_SYSTEM_COLUMNS : List String := ["id", "createdAt", "updatedAt"]

def DATA_TABLE_SYSTEM_TESTING_COLUMN : String := "dryRunState"

namespace DataTableColumn

/-- The columns of the unique index of the entity. -/
def tableAndName (c : DataTableColumn) : String × String := (c.dataTableId, c.name)

def shifted (lowestIndex delta : ℤ) (c : DataTableColumn) : DataTableColumn :=
  { c with index := shift lowestIndex delta c.index }

def shiftIndex (dataTableId : String) (lowestIndex delta : ℤ) (c : DataTableColumn) :
    DataTableColumn :=
  if c.dataTableId = dataTableId then c.shifted lowestIndex delta else c

def updateIndex (id : String) (index : ℤ) (c : DataTableColumn) : DataTableColumn :=
  if c.id = id then { c with index } else c

end DataTableColumn

structure DataTableColumns where
  columns : List DataTableColumn
  dataTables : Dict String String
  nodup : (columns.map (·.id)).Nodup
  unique : (columns.map (·.tableAndName)).Nodup
  deriving DecidableEq

namespace DataTableColumns

open DataTableColumn

variable (s : DataTableColumns) (dataTableId : String)

def ofTable : List DataTableColumn :=
  s.columns.filter fun c => decide (c.dataTableId = dataTableId)

def getColumns : List DataTableColumn :=
  byPlace (·.index) (s.ofTable dataTableId)

/-- A bulk update that leaves the keys as they are. -/
def update (f : DataTableColumn → DataTableColumn)
    (hid : ∀ c, (f c).id = c.id) (hkey : ∀ c, (f c).tableAndName = c.tableAndName) :
    DataTableColumns where
  columns := s.columns.map f
  dataTables := s.dataTables
  nodup := by
    rw [List.map_map, show (·.id) ∘ f = (·.id) from funext hid]
    exact s.nodup
  unique := by
    rw [List.map_map, show (·.tableAndName) ∘ f = (·.tableAndName) from funext hkey]
    exact s.unique

def shiftColumns (lowestIndex delta : ℤ) : DataTableColumns :=
  s.update (shiftIndex dataTableId lowestIndex delta)
    (fun c => by unfold shiftIndex; split <;> rfl) (fun c => by unfold shiftIndex; split <;> rfl)

def setIndex (id : String) (index : ℤ) : DataTableColumns :=
  s.update (updateIndex id index)
    (fun c => by unfold updateIndex; split <;> rfl) (fun c => by unfold updateIndex; split <;> rfl)

/-- `em.insert`: the keys of the table are checked. -/
def insert (c : DataTableColumn) : Except DataTableError DataTableColumns :=
  if hid : c.id ∈ s.columns.map (·.id) then .error (.query "UNIQUE constraint failed: id")
  else if hkey : c.tableAndName ∈ s.columns.map (·.tableAndName) then
    .error (.query "UNIQUE constraint failed: dataTableId, name")
  else .ok {
    columns := s.columns ++ [c]
    dataTables := s.dataTables
    nodup := by
      rw [List.map_append]
      exact s.nodup.append (List.nodup_singleton _) (List.disjoint_singleton.mpr hid)
    unique := by
      rw [List.map_append]
      exact s.unique.append (List.nodup_singleton _) (List.disjoint_singleton.mpr hkey) }

def remove (id : String) : DataTableColumns where
  columns := s.columns.filter fun c => decide (c.id ≠ id)
  dataTables := s.dataTables
  nodup := s.nodup.sublist (List.filter_sublist.map _)
  unique := s.unique.sublist (List.filter_sublist.map _)

def validateNotSystemColumn (columnName : String) : Except DataTableError Unit :=
  if columnName ∈ DATA_TABLE_SYSTEM_COLUMNS then
    .error (.systemColumnNameConflict columnName "system")
  else if columnName = DATA_TABLE_SYSTEM_TESTING_COLUMN then
    .error (.systemColumnNameConflict columnName "testing")
  else .ok ()

def validateUniqueColumnName (columnName dataTableId : String) : Except DataTableError Unit :=
  if s.columns.any fun c => c.name = columnName ∧ c.dataTableId = dataTableId then
    match s.dataTables.get? dataTableId with
    | none => .error (.unexpected "Data table not found")
    | some name => .error (.columnNameConflict columnName name)
  else .ok ()

/-- The column gets a generated `id`; `ddl` is how the statement on the table of the rows
ends, which the transaction waits for. -/
def addColumn (schema : DataTableCreateColumnSchema)
    (id : String) (ddl : Except DataTableError Unit) :
    Except DataTableError (DataTableColumns × DataTableColumn) := do
  validateNotSystemColumn schema.name
  s.validateUniqueColumnName schema.name dataTableId
  let (s, index) := match schema.index with
    | none => (s, ((s.getColumns dataTableId).length : ℤ))
    | some index => (s.shiftColumns dataTableId index 1, index)
  let column : DataTableColumn :=
    { id, dataTableId, name := schema.name, type := schema.type, index }
  let s ← s.insert column
  ddl
  pure (s, column)

def deleteColumn (column : DataTableColumn)
    (ddl : Except DataTableError Unit) : Except DataTableError DataTableColumns := do
  let s := s.remove column.id
  ddl
  pure (s.shiftColumns dataTableId column.index (-1))

def moveColumn (column : DataTableColumn)
    (targetIndex : ℤ) : Except DataTableError DataTableColumns :=
  let columnCount := (s.ofTable dataTableId).length
  if targetIndex < 0 then
    .error (.validation "tried to move column to negative index")
  else if (columnCount : ℤ) ≤ targetIndex then
    .error (.validation "tried to move column to an index larger than column count")
  else
    .ok (((s.shiftColumns dataTableId column.index (-1)).shiftColumns dataTableId targetIndex
      1).setIndex column.id targetIndex)

end DataTableColumns

/-- A call on the columns of a data table. -/
inductive ColumnCall where
  | addColumn (dataTableId : String) (schema : DataTableCreateColumnSchema) (id : String)
      (ddl : Except DataTableError Unit)
  | deleteColumn (dataTableId : String) (column : DataTableColumn)
      (ddl : Except DataTableError Unit)
  | moveColumn (dataTableId : String) (column : DataTableColumn) (targetIndex : ℤ)

namespace DataTableColumns

/-- The state after the call; one that throws is rolled back. -/
def step (s : DataTableColumns) : ColumnCall → Except DataTableError DataTableColumns
  | .addColumn dataTableId schema id ddl =>
    (s.addColumn dataTableId schema id ddl).map Prod.fst
  | .deleteColumn dataTableId column ddl => s.deleteColumn dataTableId column ddl
  | .moveColumn dataTableId column targetIndex => s.moveColumn dataTableId column targetIndex

def order (s : DataTableColumns) (dataTableId : String) : List String :=
  (s.getColumns dataTableId).map (·.id)

/-- The indexes of the columns of a table are `0, …, n - 1`. -/
def DenselyIndexed (s : DataTableColumns) (dataTableId : String) : Prop :=
  Dense ((s.ofTable dataTableId).map (·.index))

instance (s : DataTableColumns) (dataTableId : String) :
    Decidable (s.DenselyIndexed dataTableId) := inferInstanceAs (Decidable (Dense _))

def HasIndex (s : DataTableColumns) (dataTableId id : String) (index : ℤ) : Prop :=
  ∃ c ∈ s.ofTable dataTableId, c.id = id ∧ c.index = index

end DataTableColumns

namespace ColumnCall

def dataTableId : ColumnCall → String
  | addColumn dataTableId .. => dataTableId
  | deleteColumn dataTableId .. => dataTableId
  | moveColumn dataTableId .. => dataTableId

def columnId : ColumnCall → String
  | addColumn _ _ id _ => id
  | deleteColumn _ column _ => column.id
  | moveColumn _ column _ => column.id

/-- The column of the call is where the call says. -/
def InPlace (s : DataTableColumns) : ColumnCall → Prop
  | addColumn dataTableId schema id _ => match schema.index with
    | none => (s.order dataTableId).getLast? = some id
    | some index => s.HasIndex dataTableId id index
  | deleteColumn dataTableId column _ => column.id ∉ s.order dataTableId
  | moveColumn dataTableId column targetIndex => s.HasIndex dataTableId column.id targetIndex

/-- The column that is deleted or moved is one of the table. -/
def OnExisting (s : DataTableColumns) : ColumnCall → Prop
  | addColumn .. => True
  | deleteColumn dataTableId column _ => column ∈ s.ofTable dataTableId
  | moveColumn dataTableId column _ => column ∈ s.ofTable dataTableId

/-- A column is added at an index of at most the number of columns. -/
def WithinCount (s : DataTableColumns) : ColumnCall → Prop
  | addColumn dataTableId schema _ _ =>
    ∀ index ∈ schema.index, 0 ≤ index ∧ index ≤ (s.ofTable dataTableId).length
  | _ => True

instance (s : DataTableColumns) (call : ColumnCall) : Decidable (call.OnExisting s) := by
  cases call <;> unfold OnExisting <;> infer_instance

instance (s : DataTableColumns) (call : ColumnCall) : Decidable (call.WithinCount s) := by
  cases call <;> unfold WithinCount <;> infer_instance

end ColumnCall

namespace DataTableColumns

open DataTableColumn

/-- What a call does to the order of the columns of a table. -/
structure KeepsOrder (dataTableId : String) (s : DataTableColumns) (call : ColumnCall)
    (s' : DataTableColumns) : Prop where
  dense : s'.DenselyIndexed dataTableId
  inPlace : call.dataTableId = dataTableId → call.InPlace s'
  others : (s'.order dataTableId).filter (fun id => decide (id ≠ call.columnId)) =
    (s.order dataTableId).filter fun id => decide (id ≠ call.columnId)

section Statements

variable {s s' : DataTableColumns} {dataTableId : String}

theorem nodup_ofTable (s : DataTableColumns) (dataTableId : String) :
    ((s.ofTable dataTableId).map (·.id)).Nodup :=
  s.nodup.sublist (List.filter_sublist.map _)

variable {c : DataTableColumn}

theorem mem_ofTable : c ∈ s.ofTable dataTableId ↔ c ∈ s.columns ∧ c.dataTableId = dataTableId := by
  rw [ofTable, List.mem_filter, decide_eq_true_iff]

theorem ofTable_update {f : DataTableColumn → DataTableColumn} {hid hkey} :
    (s.update f hid hkey).ofTable dataTableId = (s.ofTable dataTableId).map f := by
  have htable : ∀ c, (f c).dataTableId = c.dataTableId := fun c => congrArg Prod.fst (hkey c)
  rw [ofTable, update, List.filter_map]
  congr 1
  exact List.filter_congr fun c _ => by rw [Function.comp_apply, htable]

theorem ofTable_insert (h : s.insert c = .ok s') : s'.ofTable dataTableId =
      s.ofTable dataTableId ++ if c.dataTableId = dataTableId then [c] else [] := by
  rw [insert] at h
  split at h
  · cases h
  · split at h
    · cases h
    · cases h
      rw [ofTable, ofTable, List.filter_append, List.filter_singleton]
      congr 1
      simp

theorem id_notMem_of_insert (h : s.insert c = .ok s') : c.id ∉ s.columns.map (·.id) := by
  rw [insert] at h
  split at h
  · cases h
  · rename_i hid
    exact hid

theorem ofTable_remove (id : String) :
    (s.remove id).ofTable dataTableId =
      (s.ofTable dataTableId).filter fun c => decide (c.id ≠ id) := by
  rw [ofTable, remove, List.filter_comm, ofTable]

theorem shiftIndex_of_mem (h : c ∈ s.ofTable dataTableId) (lowestIndex delta : ℤ) :
    shiftIndex dataTableId lowestIndex delta c = c.shifted lowestIndex delta :=
  if_pos (mem_ofTable.mp h).2

theorem shiftIndex_of_ne {other : String} (h : c ∈ s.ofTable dataTableId)
    (hne : other ≠ dataTableId) (lowestIndex delta : ℤ) :
    shiftIndex other lowestIndex delta c = c :=
  if_neg fun hc => hne (hc.symm.trans (mem_ofTable.mp h).2)

theorem perm_cons_others (h : c ∈ s.ofTable dataTableId) : (s.ofTable dataTableId).Perm
      (c :: (s.ofTable dataTableId).filter fun d => decide (d.id ≠ c.id)) := by
  have hids := s.nodup_ofTable dataTableId
  have hnodup := hids.of_map
  refine (List.perm_ext_iff_of_nodup hnodup (List.nodup_cons.mpr ⟨?_, hnodup.filter _⟩)).mpr ?_
  · intro hmem
    exact of_decide_eq_true (List.mem_filter.mp hmem).2 rfl
  · intro d
    rw [List.mem_cons, List.mem_filter, decide_eq_true_iff]
    constructor
    · intro hd
      by_cases hid : d.id = c.id
      · exact .inl (List.inj_on_of_nodup_map hids hd h hid)
      · exact .inr ⟨hd, hid⟩
    · rintro (rfl | hd)
      · exact h
      · exact hd.1

end Statements

section Calls

variable {s s' : DataTableColumns} {dataTableId : String} {id : String}

theorem mem_order :
    id ∈ s.order dataTableId ↔ ∃ c ∈ s.ofTable dataTableId, c.id = id := by
  rw [order, List.mem_map]
  exact exists_congr fun c => and_congr_left fun _ => (perm_byPlace _ _).mem_iff

variable {f : DataTableColumn → DataTableColumn}

theorem order_others
    (h : s.DenselyIndexed dataTableId) (h' : s'.DenselyIndexed dataTableId)
    (hothers : ((s'.ofTable dataTableId).filter fun c => decide (c.id ≠ id)) =
      ((s.ofTable dataTableId).filter fun c => decide (c.id ≠ id)).map f)
    (hid : ∀ c, (f c).id = c.id)
    (hf : ∀ c ∈ s.ofTable dataTableId, ∀ d ∈ s.ofTable dataTableId, c.id ≠ id → d.id ≠ id →
      (c.index ≤ d.index ↔ (f c).index ≤ (f d).index)) :
    (s'.order dataTableId).filter (fun i => decide (i ≠ id)) =
      (s.order dataTableId).filter fun i => decide (i ≠ id) := by
  have hsorted : ∀ t : DataTableColumns, t.DenselyIndexed dataTableId →
      (t.order dataTableId).filter (fun i => decide (i ≠ id)) =
        (byPlace (·.index) ((t.ofTable dataTableId).filter fun c => decide (c.id ≠ id))).map
          (·.id) := by
    intro t ht
    rw [order, getColumns, List.filter_map, ← filter_byPlace _ ht.nodup]
    rfl
  rw [hsorted s' h', hsorted s h, hothers, ← map_byPlace, List.map_map]
  · exact congrArg (fun g => List.map g _) (funext hid)
  · intro c hc d hd
    obtain ⟨hc, hcid⟩ := List.mem_filter.mp hc
    obtain ⟨hd, hdid⟩ := List.mem_filter.mp hd
    exact hf c hc d hd (of_decide_eq_true hcid) (of_decide_eq_true hdid)

variable {call : ColumnCall}

theorem keepsOrder_of_ofTable_eq (hne : call.dataTableId ≠ dataTableId)
    (h : s.DenselyIndexed dataTableId) (heq : s'.ofTable dataTableId = s.ofTable dataTableId) :
    KeepsOrder dataTableId s call s' where
  dense := by
    rw [DenselyIndexed, heq]
    exact h
  inPlace := fun h => absurd h hne
  others := by rw [order, order, getColumns, getColumns, heq]

theorem ofTable_shiftColumns (lowestIndex delta : ℤ) :
    (s.shiftColumns dataTableId lowestIndex delta).ofTable dataTableId =
      (s.ofTable dataTableId).map (shifted lowestIndex delta) := by
  rw [shiftColumns, ofTable_update]
  exact List.map_congr_left fun c hc => shiftIndex_of_mem hc lowestIndex delta

variable {other : String}

theorem ofTable_shiftColumns_of_ne (hne : other ≠ dataTableId)
    (lowestIndex delta : ℤ) :
    (s.shiftColumns other lowestIndex delta).ofTable dataTableId = s.ofTable dataTableId := by
  rw [shiftColumns, ofTable_update]
  exact (List.map_congr_left fun c hc => shiftIndex_of_ne hc hne lowestIndex delta).trans
    (List.map_id _)

variable {ddl : Except DataTableError Unit} {schema : DataTableCreateColumnSchema}

theorem exists_of_addColumn
    (h : s.step (.addColumn dataTableId schema id ddl) = .ok s') :
    ∃ column t, column.id = id ∧ column.dataTableId = dataTableId ∧ t.insert column = .ok s' ∧
      (schema.index = none ∧ t = s ∧ column.index = ((s.ofTable dataTableId).length : ℤ) ∨
        schema.index = some column.index ∧ t = s.shiftColumns dataTableId column.index 1) := by
  obtain ⟨⟨t', column⟩, hadd, rfl⟩ :
      ∃ p, s.addColumn dataTableId schema id ddl = .ok p ∧ p.1 = s' := by
    rw [step] at h
    cases hadd : s.addColumn dataTableId schema id ddl with
    | error e =>
      rw [hadd] at h
      cases h
    | ok p =>
      rw [hadd] at h
      exact ⟨p, rfl, Except.ok.inj h⟩
  obtain ⟨-, -, hadd⟩ := exists_of_bind_eq_ok hadd
  obtain ⟨-, -, hadd⟩ := exists_of_bind_eq_ok hadd
  cases hindex : schema.index with
  | none =>
    rw [hindex] at hadd
    obtain ⟨t, hinsert, hadd⟩ := exists_of_bind_eq_ok hadd
    obtain ⟨-, -, hadd⟩ := exists_of_bind_eq_ok hadd
    cases hadd
    exact ⟨_, s, rfl, rfl, hinsert,
      .inl ⟨rfl, rfl, congrArg Int.ofNat (perm_byPlace _ _).length_eq⟩⟩
  | some index =>
    rw [hindex] at hadd
    obtain ⟨t, hinsert, hadd⟩ := exists_of_bind_eq_ok hadd
    obtain ⟨-, -, hadd⟩ := exists_of_bind_eq_ok hadd
    cases hadd
    exact ⟨_, _, rfl, rfl, hinsert, .inr ⟨rfl, rfl⟩⟩

variable {c : DataTableColumn}

theorem filter_id_ne_append {cs : List DataTableColumn}
    (h : c.id ∉ cs.map (·.id)) :
    (cs ++ [c]).filter (fun d => decide (d.id ≠ c.id)) = cs := by
  have hself : [c].filter (fun d => decide (d.id ≠ c.id)) = [] := by simp
  rw [List.filter_append, hself, List.append_nil]
  refine List.filter_eq_self.mpr fun d hd => decide_eq_true fun hid => h ?_
  exact hid ▸ List.mem_map_of_mem hd

variable {column : DataTableColumn}

theorem ofTable_of_insert {t : DataTableColumns} (hid : ∀ c, (f c).id = c.id)
    (ht : t.ofTable column.dataTableId = (s.ofTable column.dataTableId).map f)
    (h : t.insert column = .ok s') :
    s'.ofTable column.dataTableId = (s.ofTable column.dataTableId).map f ++ [column] ∧
      (s'.ofTable column.dataTableId).filter (fun d => decide (d.id ≠ column.id)) =
        ((s.ofTable column.dataTableId).filter fun d => decide (d.id ≠ column.id)).map f := by
  have htable : s'.ofTable column.dataTableId = _ := ofTable_insert h
  rw [if_pos rfl, ht] at htable
  have hnotMem : column.id ∉ ((s.ofTable column.dataTableId).map f).map (·.id) := by
    rw [← ht]
    exact fun hmem => id_notMem_of_insert h ((List.filter_sublist.map _).subset hmem)
  refine ⟨htable, ?_⟩
  rw [htable, filter_id_ne_append hnotMem, List.filter_eq_self.mpr]
  intro d hd
  refine decide_eq_true fun heq => hnotMem ?_
  rw [← heq, ← hid]
  exact List.mem_map_of_mem (List.mem_map_of_mem hd)

theorem order_append (hdense : s'.DenselyIndexed dataTableId)
    (htable : s'.ofTable dataTableId = s.ofTable dataTableId ++ [column])
    (hlast : ∀ c ∈ s.ofTable dataTableId, c.index ≤ column.index) :
    s'.order dataTableId = s.order dataTableId ++ [column.id] := by
  have hsorted : s.getColumns dataTableId ++ [column] = s'.getColumns dataTableId := by
    refine eq_byPlace _ hdense.nodup ?_ (List.pairwise_append.mpr
      ⟨pairwise_byPlace _ _, List.pairwise_singleton _ _, fun c hc d hd => ?_⟩)
    · rw [htable]
      exact (perm_byPlace _ _).append_right _
    · rw [List.mem_singleton.mp hd]
      exact hlast c ((perm_byPlace _ _).subset hc)
  rw [order, ← hsorted, List.map_append]
  rfl

/-- Step lemma: a column is added without a gap iff its index is at most the number of
columns. -/
theorem addColumn_iff (hdense : s.DenselyIndexed dataTableId)
    (h : s.step (.addColumn dataTableId schema id ddl) = .ok s') :
    KeepsOrder dataTableId s (.addColumn dataTableId schema id ddl) s' ↔
      (ColumnCall.addColumn dataTableId schema id ddl).WithinCount s := by
  obtain ⟨column, t, rfl, rfl, hinsert, ⟨hindex, rfl, hlen⟩ | ⟨hindex, rfl⟩⟩ :=
    exists_of_addColumn h
  · -- behind the last column
    obtain ⟨htable, hothers⟩ :=
      ofTable_of_insert (s := t) (f := id) (fun _ => rfl) (List.map_id _).symm hinsert
    rw [List.map_id] at htable
    have hdense' : s'.DenselyIndexed column.dataTableId := by
      rw [DenselyIndexed, htable, List.map_append, List.map_singleton, hlen,
        ← List.length_map (·.index)]
      exact hdense.append_length
    refine iff_of_true ⟨hdense', fun _ => ?_, ?_⟩ fun index hi => by rw [hindex] at hi; cases hi
    · rw [ColumnCall.InPlace, hindex]
      show (s'.order column.dataTableId).getLast? = some column.id
      rw [order_append hdense' htable, List.getLast?_concat]
      intro c hc
      have hbound := (hdense.mem_iff.mp (List.mem_map_of_mem hc)).2
      rw [List.length_map] at hbound
      omega
    · exact order_others hdense hdense' hothers (fun _ => rfl) fun _ _ _ _ _ _ => Iff.rfl
  · -- at an index
    obtain ⟨htable, hothers⟩ := ofTable_of_insert (f := shifted column.index 1) (fun _ => rfl)
      (ofTable_shiftColumns column.index 1) hinsert
    have hiff : s'.DenselyIndexed column.dataTableId ↔
        0 ≤ column.index ∧ column.index ≤ (s.ofTable column.dataTableId).length := by
      have hcons : Dense (column.index :: _) ↔ _ := dense_cons_shift_iff hdense
      rw [List.length_map, List.map_map] at hcons
      rw [← hcons, DenselyIndexed, htable, List.map_append, List.map_map]
      have hp := List.perm_append_singleton column.index
        ((s.ofTable column.dataTableId).map (shift column.index 1 ∘ (·.index)))
      exact ⟨fun hd => hd.perm hp.symm, fun hd => hd.perm hp⟩
    constructor
    · intro hkeeps index hi
      rw [hindex] at hi
      cases hi
      exact hiff.mp hkeeps.dense
    · intro hwithin
      have hdense' := hiff.mpr (hwithin _ hindex)
      refine ⟨hdense', fun _ => ?_, ?_⟩
      · rw [ColumnCall.InPlace, hindex]
        exact ⟨column, htable ▸ List.mem_append_right _ List.mem_cons_self, rfl, rfl⟩
      · exact order_others hdense hdense' hothers (fun _ => rfl)
          fun _ _ _ _ _ _ => shift_one_le_iff.symm

theorem filter_id_map (hid : ∀ c, (f c).id = c.id)
    (cs : List DataTableColumn) (id : String) :
    (cs.map f).filter (fun c => decide (c.id ≠ id)) =
      (cs.filter fun c => decide (c.id ≠ id)).map f := by
  rw [List.filter_map]
  congr 1
  exact List.filter_congr fun c _ => by rw [Function.comp_apply, hid]

theorem dense_cons_others (hdense : s.DenselyIndexed dataTableId)
    (hc : c ∈ s.ofTable dataTableId) :
    Dense (c.index ::
      ((s.ofTable dataTableId).filter fun d => decide (d.id ≠ c.id)).map (·.index)) :=
  hdense.perm ((perm_cons_others hc).map DataTableColumn.index).symm

variable {d : DataTableColumn}

theorem index_ne (hdense : s.DenselyIndexed dataTableId)
    (hc : c ∈ s.ofTable dataTableId) (hd : d ∈ s.ofTable dataTableId) (hne : d.id ≠ c.id) :
    d.index ≠ c.index :=
  fun h => hne (congrArg (·.id) (List.inj_on_of_nodup_map hdense.nodup hd hc h))

/-- Step lemma: deleting a column closes the gap it leaves. -/
theorem deleteColumn_keeps
    (hdense : s.DenselyIndexed dataTableId) (hc : c ∈ s.ofTable dataTableId)
    (h : s.step (.deleteColumn dataTableId c ddl) = .ok s') :
    KeepsOrder dataTableId s (.deleteColumn dataTableId c ddl) s' := by
  obtain ⟨-, -, h⟩ := exists_of_bind_eq_ok h
  cases h
  have htable : ((s.remove c.id).shiftColumns dataTableId c.index (-1)).ofTable dataTableId =
      ((s.ofTable dataTableId).filter fun d => decide (d.id ≠ c.id)).map
        (shifted c.index (-1)) := by
    rw [ofTable_shiftColumns, ofTable_remove]
  have hdense' : ((s.remove c.id).shiftColumns dataTableId c.index (-1)).DenselyIndexed
      dataTableId := by
    have hshifted := (dense_cons_others hdense hc).of_cons
    rw [List.map_map] at hshifted
    rw [DenselyIndexed, htable, List.map_map]
    exact hshifted
  refine ⟨hdense', fun _ hmem => ?_, order_others (f := shifted c.index (-1)) hdense hdense' ?_
    (fun _ => rfl) fun a ha b hb hna hnb => ?_⟩
  · obtain ⟨d, hd, hid⟩ := mem_order.mp hmem
    rw [htable] at hd
    obtain ⟨a, ha, rfl⟩ := List.mem_map.mp hd
    exact of_decide_eq_true (List.mem_filter.mp ha).2 hid
  · rw [htable, filter_id_map (f := shifted c.index (-1)) (fun _ => rfl), List.filter_filter]
    congr 1
    exact List.filter_congr fun d _ => Bool.and_self _
  · exact (shift_neg_one_le_iff (index_ne hdense hc ha hna) (index_ne hdense hc hb hnb)).symm

def moved (id : String) (index targetIndex : ℤ) (c : DataTableColumn) : DataTableColumn :=
  updateIndex id targetIndex ((c.shifted index (-1)).shifted targetIndex 1)

variable {targetIndex : ℤ} {index : ℤ}

theorem moved_id (c : DataTableColumn) :
    (moved id index targetIndex c).id = c.id := by
  unfold moved updateIndex
  split <;> rfl

theorem moved_index_self :
    (moved c.id index targetIndex c).index = targetIndex :=
  congrArg DataTableColumn.index (if_pos rfl)

theorem moved_index_of_ne
    (hne : c.id ≠ id) :
    (moved id index targetIndex c).index = shift targetIndex 1 (shift index (-1) c.index) :=
  congrArg DataTableColumn.index (if_neg hne)

/-- Step lemma: moving a column takes it out and puts it in. -/
theorem moveColumn_keeps
    (hdense : s.DenselyIndexed dataTableId) (hc : c ∈ s.ofTable dataTableId)
    (h : s.step (.moveColumn dataTableId c targetIndex) = .ok s') :
    KeepsOrder dataTableId s (.moveColumn dataTableId c targetIndex) s' := by
  rw [step, moveColumn] at h
  split at h
  · cases h
  split at h
  · cases h
  rename_i hneg hlarge
  cases h
  have htable : (((s.shiftColumns dataTableId c.index (-1)).shiftColumns dataTableId targetIndex
      1).setIndex c.id targetIndex).ofTable dataTableId =
        (s.ofTable dataTableId).map (moved c.id c.index targetIndex) := by
    rw [setIndex, ofTable_update, ofTable_shiftColumns, ofTable_shiftColumns, List.map_map,
      List.map_map]
    rfl
  have hself : (moved c.id c.index targetIndex c).index = targetIndex := moved_index_self
  have hdense' : (((s.shiftColumns dataTableId c.index (-1)).shiftColumns dataTableId targetIndex
      1).setIndex c.id targetIndex).DenselyIndexed dataTableId := by
    have hout := (dense_cons_others hdense hc).of_cons
    have hin : Dense (targetIndex :: _) := (dense_cons_shift_iff hout).mpr ?_
    · rw [DenselyIndexed, htable, List.map_map]
      refine hin.perm (((perm_cons_others hc).map _).trans (List.Perm.of_eq ?_))
      rw [List.map_cons, List.map_map, List.map_map, Function.comp_apply, hself]
      congr 1
      exact List.map_congr_left fun d hd =>
        moved_index_of_ne (of_decide_eq_true (List.mem_filter.mp hd).2)
    · have hlen := (perm_cons_others hc).length_eq
      rw [List.length_cons] at hlen
      rw [List.length_map, List.length_map]
      omega
  refine ⟨hdense', fun _ => ?_, order_others (f := moved c.id c.index targetIndex) hdense hdense'
    ?_ moved_id fun a ha b hb hna hnb => ?_⟩
  · exact ⟨_, htable ▸ List.mem_map_of_mem hc, moved_id c, hself⟩
  · rw [htable, filter_id_map moved_id]
  · have hna : a.id ≠ c.id := hna
    have hnb : b.id ≠ c.id := hnb
    rw [moved_index_of_ne hna, moved_index_of_ne hnb, shift_one_le_iff]
    exact (shift_neg_one_le_iff (index_ne hdense hc ha hna) (index_ne hdense hc hb hnb)).symm

theorem id_ne_of_mem (hne : other ≠ dataTableId)
    (hc : c ∈ s.ofTable other) (hd : d ∈ s.ofTable dataTableId) : d.id ≠ c.id := by
  intro hid
  obtain ⟨hc, hcTable⟩ := mem_ofTable.mp hc
  obtain ⟨hd, hdTable⟩ := mem_ofTable.mp hd
  have heq : d = c := List.inj_on_of_nodup_map s.nodup hd hc hid
  exact hne (hcTable.symm.trans (heq ▸ hdTable))

theorem ofTable_of_ne (hne : call.dataTableId ≠ dataTableId)
    (hcall : call.OnExisting s) (h : s.step call = .ok s') :
    s'.ofTable dataTableId = s.ofTable dataTableId := by
  cases call with
  | addColumn other schema id ddl =>
    obtain ⟨column, t, rfl, rfl, hinsert, hcases⟩ := exists_of_addColumn h
    have hne : column.dataTableId ≠ dataTableId := hne
    rw [ofTable_insert hinsert, if_neg hne, List.append_nil]
    rcases hcases with ⟨-, rfl, -⟩ | ⟨-, rfl⟩
    · rfl
    · exact ofTable_shiftColumns_of_ne hne _ _
  | deleteColumn other c ddl =>
    obtain ⟨-, -, h⟩ := exists_of_bind_eq_ok h
    cases h
    have hne : other ≠ dataTableId := hne
    rw [ofTable_shiftColumns_of_ne hne, ofTable_remove]
    exact List.filter_eq_self.mpr fun d hd => decide_eq_true (id_ne_of_mem hne hcall hd)
  | moveColumn other c targetIndex =>
    rw [step, moveColumn] at h
    split at h
    · cases h
    split at h
    · cases h
    cases h
    have hne : other ≠ dataTableId := hne
    rw [setIndex, ofTable_update, ofTable_shiftColumns_of_ne hne, ofTable_shiftColumns_of_ne hne]
    exact (List.map_congr_left fun d hd => if_neg (id_ne_of_mem hne hcall hd)).trans
      (List.map_id _)

end Calls

/-- **When the columns of a table stay densely ordered.**  Along a run of calls on existing
columns they do iff each column that is added with an index is added at one of at most
the number of columns. -/
theorem denselyOrdered_iff {s : DataTableColumns} {dataTableId : String}
    {calls : List ColumnCall} (hdense : s.DenselyIndexed dataTableId)
    (hcalls : Along step (fun s call _ => call.OnExisting s) s calls) :
    Along step (KeepsOrder dataTableId) s calls ↔
      Along step (fun s call _ => call.dataTableId = dataTableId → call.WithinCount s) s calls := by
  refine Along.iff_of_step (I := fun s => s.DenselyIndexed dataTableId)
    (V := fun s call _ => call.OnExisting s) ?_ (fun _ _ _ _ _ _ hkeeps => hkeeps.dense)
    hdense hcalls
  intro s call s' hdense hstep hcall
  by_cases htable : call.dataTableId = dataTableId
  · subst htable
    rw [imp_iff_right rfl]
    cases call with
    | addColumn => exact addColumn_iff hdense hstep
    | deleteColumn => exact iff_of_true (deleteColumn_keeps hdense hcall hstep) trivial
    | moveColumn => exact iff_of_true (moveColumn_keeps hdense hcall hstep) trivial
  · exact iff_of_true (keepsOrder_of_ofTable_eq htable hdense (ofTable_of_ne htable hcall hstep))
      fun h => absurd h htable

def people : DataTableColumns where
  columns := [⟨"a", "people", "name", .string, 0⟩, ⟨"b", "people", "age", .number, 1⟩]
  dataTables := { entries := [("people", "People")], nodup := by decide }
  nodup := by decide
  unique := by decide

/-- A column is added between the two, the first is moved behind them, the second deleted,
and one more is added. -/
theorem keepsOrder_people :
    Along step (KeepsOrder "people") people
      [.addColumn "people" ⟨"email", .string, some 1⟩ "c" (.ok ()),
        .moveColumn "people" ⟨"a", "people", "name", .string, 0⟩ 2,
        .deleteColumn "people" ⟨"b", "people", "age", .number, 1⟩ (.ok ()),
        .addColumn "people" ⟨"born", .date, none⟩ "d" (.ok ())] :=
  (denselyOrdered_iff (by decide) (by decide)).mpr (by decide)

/-- A column that is added at an index behind the last one leaves a gap. -/
theorem not_keepsOrder_gap :
    ¬ Along step (KeepsOrder "people") people
      [.addColumn "people" ⟨"email", .string, some 5⟩ "c" (.ok ())] := by
  intro h
  have hdense : Along step (fun _ _ s' => s'.DenselyIndexed "people") people
      [.addColumn "people" ⟨"email", .string, some 5⟩ "c" (.ok ())] :=
    h.mono fun _ _ _ hkeeps => hkeeps.dense
  exact absurd hdense (by decide)

end DataTableColumns

end N8n
