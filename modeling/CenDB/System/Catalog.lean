import CenDB.Lib.Table
import CenDB.Lib.Transition

/-! # The system catalog

Tables, views and procedures are kept by name; the indexes are kept apart from the tables, in one
list, and name their table and column.  Nothing is checked when an index or a table is registered.

`Consistent` says that every index names a column that is there. -/

namespace CenDB.System

open List Option

structure ColumnInfo where
  name : String
  dataType : String
  nullable : Bool
  isPrimaryKey : Bool
  isIndexed : Bool
  deriving DecidableEq

structure TableInfo where
  name : String
  model : String
  rowCount : UInt64
  columns : List ColumnInfo
  createdAt : UInt64
  deriving DecidableEq

structure IndexInfo where
  name : String
  table : String
  column : String
  indexType : String
  entryCount : UInt64
  deriving DecidableEq

structure ViewInfo where
  name : String
  definition : String
  createdAt : UInt64
  deriving DecidableEq

structure StoredProcedure where
  name : String
  body : String
  params : List String
  createdAt : UInt64
  deriving DecidableEq

structure SystemCatalog where
  tables : Table String TableInfo
  indexes : List IndexInfo
  views : Table String ViewInfo
  procedures : Table String StoredProcedure

namespace SystemCatalog

def new : SystemCatalog := ⟨∅, [], ∅, ∅⟩

/-! ### Tables and columns -/

def registerTable (info : TableInfo) (catalog : SystemCatalog) : SystemCatalog :=
  { catalog with tables := catalog.tables.insert info.name info }

def dropTable (name : String) (catalog : SystemCatalog) : Bool × SystemCatalog :=
  if (catalog.tables.lookup name).isSome then
    (true, { catalog with
      tables := catalog.tables.erase name
      indexes := catalog.indexes.filter (·.table ≠ name) })
  else (false, catalog)

/-- A table that is there gets other columns. -/
def setColumns (table : String) (info : TableInfo) (columns : List ColumnInfo)
    (catalog : SystemCatalog) : SystemCatalog :=
  { catalog with tables := catalog.tables.insert table { info with columns := columns } }

def addColumn (table : String) (col : ColumnInfo) (catalog : SystemCatalog) :
    Except String Unit × SystemCatalog :=
  match catalog.tables.lookup table with
  | none => (.error "table not found", catalog)
  | some info => (.ok (), catalog.setColumns table info (info.columns ++ [col]))

def dropColumn (table colName : String) (catalog : SystemCatalog) : Except String Unit × SystemCatalog :=
  match catalog.tables.lookup table with
  | none => (.error "table not found", catalog)
  | some info => (.ok (), catalog.setColumns table info (info.columns.filter (·.name ≠ colName)))

/-- The first column of the old name is renamed; `none` if there is none. -/
def renameFirst (oldName newName : String) : List ColumnInfo → Option (List ColumnInfo)
  | [] => none
  | col :: rest =>
    if col.name = oldName then some ({ col with name := newName } :: rest)
    else (renameFirst oldName newName rest).map (col :: ·)

def renameColumn (table oldName newName : String) (catalog : SystemCatalog) :
    Except String Unit × SystemCatalog :=
  match catalog.tables.lookup table with
  | none => (.error "table not found", catalog)
  | some info =>
    match renameFirst oldName newName info.columns with
    | none => (.error "column not found", catalog)
    | some columns => (.ok (), catalog.setColumns table info columns)

/-! ### Indexes -/

def registerIndex (info : IndexInfo) (catalog : SystemCatalog) : SystemCatalog :=
  { catalog with indexes := catalog.indexes ++ [info] }

def dropIndex (name : String) (catalog : SystemCatalog) : Bool × SystemCatalog :=
  let kept := catalog.indexes.filter (·.name ≠ name)
  (kept.length < catalog.indexes.length, { catalog with indexes := kept })

/-! ### Views and procedures -/

def createView (info : ViewInfo) (catalog : SystemCatalog) : SystemCatalog :=
  { catalog with views := catalog.views.insert info.name info }

def dropView (name : String) (catalog : SystemCatalog) : Bool × SystemCatalog :=
  ((catalog.views.lookup name).isSome, { catalog with views := catalog.views.erase name })

def createProcedure (proc : StoredProcedure) (catalog : SystemCatalog) : SystemCatalog :=
  { catalog with procedures := catalog.procedures.insert proc.name proc }

def dropProcedure (name : String) (catalog : SystemCatalog) : Bool × SystemCatalog :=
  ((catalog.procedures.lookup name).isSome,
    { catalog with procedures := catalog.procedures.erase name })

/-! ### Calls -/

/-- The calls that can change the catalog. -/
inductive Call
  | registerTable (info : TableInfo)
  | dropTable (name : String)
  | addColumn (table : String) (col : ColumnInfo)
  | dropColumn (table colName : String)
  | renameColumn (table oldName newName : String)
  | registerIndex (info : IndexInfo)
  | dropIndex (name : String)
  | createView (info : ViewInfo)
  | dropView (name : String)
  | createProcedure (proc : StoredProcedure)
  | dropProcedure (name : String)

/-- What a call returns, and the catalog it leaves; a call without a result returns `ok true`. -/
def call (catalog : SystemCatalog) : Call → Except String Bool × SystemCatalog
  | .registerTable info => (.ok true, catalog.registerTable info)
  | .dropTable name => (catalog.dropTable name).map .ok id
  | .addColumn table col => (catalog.addColumn table col).map (·.map fun _ => true) id
  | .dropColumn table colName => (catalog.dropColumn table colName).map (·.map fun _ => true) id
  | .renameColumn table oldName newName =>
    (catalog.renameColumn table oldName newName).map (·.map fun _ => true) id
  | .registerIndex info => (.ok true, catalog.registerIndex info)
  | .dropIndex name => (catalog.dropIndex name).map .ok id
  | .createView info => (.ok true, catalog.createView info)
  | .dropView name => (catalog.dropView name).map .ok id
  | .createProcedure proc => (.ok true, catalog.createProcedure proc)
  | .dropProcedure name => (catalog.dropProcedure name).map .ok id

def step (catalog : SystemCatalog) (c : Call) : Option SystemCatalog := some (catalog.call c).2

/-! ### Consistency -/

def HasColumn (catalog : SystemCatalog) (table column : String) : Prop :=
  ∃ info, catalog.tables.lookup table = some info ∧ column ∈ info.columns.map ColumnInfo.name

def Consistent (catalog : SystemCatalog) : Prop :=
  ∀ index ∈ catalog.indexes, catalog.HasColumn index.table index.column

/-- No column that an index names is missing afterwards, and an index is for a column there is. -/
def Keeps (catalog : SystemCatalog) : Call → Prop
  | .registerTable info => ∀ index ∈ catalog.indexes, index.table = info.name →
    index.column ∈ info.columns.map ColumnInfo.name
  | .dropColumn table colName => ∀ index ∈ catalog.indexes, index.table = table → index.column ≠ colName
  | .renameColumn table oldName _ =>
    ∀ index ∈ catalog.indexes, index.table = table → index.column ≠ oldName
  | .registerIndex info => catalog.HasColumn info.table info.column
  | _ => True

theorem mem_renameFirst {oldName newName column : String} {cols cols' : List ColumnInfo}
    (h : renameFirst oldName newName cols = some cols') (hne : column ≠ oldName)
    (hmem : column ∈ cols.map ColumnInfo.name) : column ∈ cols'.map ColumnInfo.name := by
  induction cols generalizing cols' with
  | nil => cases hmem
  | cons col rest ih =>
    rw [renameFirst] at h
    rw [map_cons, mem_cons] at hmem
    split at h
    case isTrue hcol =>
      rw [← some_inj.mp h, map_cons]
      exact mem_cons_of_mem _ (hmem.resolve_left (hcol ▸ hne))
    case isFalse hcol =>
      obtain ⟨rest', hrest, rfl⟩ := map_eq_some_iff.mp h
      rw [map_cons, mem_cons]
      exact hmem.imp_right fun hmem => ih hrest hmem

section consistent
variable {catalog : SystemCatalog}

variable {table name : String} {info : TableInfo} {c : Call}

theorem hasColumn_insert {column : String} :
    HasColumn { catalog with tables := catalog.tables.insert name info } table column ↔
      if table = name then column ∈ info.columns.map ColumnInfo.name
      else catalog.HasColumn table column := by
  unfold HasColumn
  split
  case isTrue h =>
    subst h
    simp
  case isFalse h => simp [AList.lookup_insert_ne h]

/-- A table takes the place of another one. -/
theorem Consistent.insert (h : catalog.Consistent)
    (hinfo : ∀ index ∈ catalog.indexes, index.table = name → index.column ∈ info.columns.map ColumnInfo.name) :
    Consistent { catalog with tables := catalog.tables.insert name info } := by
  intro index hindex
  rw [hasColumn_insert]
  split
  case isTrue hname => exact hinfo index hindex hname
  case isFalse hname => exact h index hindex

theorem Consistent.setColumns (h : catalog.Consistent) {columns : List ColumnInfo}
    (hinfo : catalog.tables.lookup table = some info)
    (hkept : ∀ index ∈ catalog.indexes, index.table = table → index.column ∈ info.columns.map ColumnInfo.name → index.column ∈ columns.map ColumnInfo.name) :
    (catalog.setColumns table info columns).Consistent := by
  refine h.insert fun index hindex htable => hkept index hindex htable ?_
  obtain ⟨info', hinfo', hcolumn⟩ := h index hindex
  rw [htable, hinfo] at hinfo'
  rw [some_inj.mp hinfo']
  exact hcolumn

theorem Consistent.dropTable (h : catalog.Consistent) (name : String) :
    (catalog.dropTable name).2.Consistent := by
  unfold SystemCatalog.dropTable
  split
  · intro index hindex
    obtain ⟨hindex, hname⟩ := mem_filter.mp hindex
    obtain ⟨info, hinfo, hcolumn⟩ := h index hindex
    refine ⟨info, ?_, hcolumn⟩
    rw [← hinfo]
    exact AList.lookup_erase_ne (of_decide_eq_true hname)
  · exact h

theorem Consistent.addColumn (h : catalog.Consistent) (table : String) (col : ColumnInfo) :
    (catalog.addColumn table col).2.Consistent := by
  unfold SystemCatalog.addColumn
  split
  case h_1 => exact h
  case h_2 info hinfo =>
    refine h.setColumns hinfo fun index _ _ hcolumn => ?_
    rw [map_append]
    exact mem_append_left _ hcolumn

theorem Consistent.dropColumn (h : catalog.Consistent) {colName : String}
    (hkeeps : ∀ index ∈ catalog.indexes, index.table = table → index.column ≠ colName) :
    (catalog.dropColumn table colName).2.Consistent := by
  unfold SystemCatalog.dropColumn
  split
  case h_1 => exact h
  case h_2 info hinfo =>
    refine h.setColumns hinfo fun index hindex htable hcolumn => ?_
    obtain ⟨col, hcol, hname⟩ := List.mem_map.mp hcolumn
    refine List.mem_map.mpr ⟨col, mem_filter.mpr ⟨hcol, decide_eq_true ?_⟩, hname⟩
    rw [hname]
    exact hkeeps index hindex htable

theorem Consistent.renameColumn (h : catalog.Consistent) {oldName newName : String}
    (hkeeps : ∀ index ∈ catalog.indexes, index.table = table → index.column ≠ oldName) :
    (catalog.renameColumn table oldName newName).2.Consistent := by
  unfold SystemCatalog.renameColumn
  split
  case h_1 => exact h
  case h_2 info hinfo =>
    split
    case h_1 => exact h
    case h_2 columns hcolumns =>
      exact h.setColumns hinfo fun index hindex htable hcolumn =>
        mem_renameFirst hcolumns (hkeeps index hindex htable) hcolumn

theorem Consistent.registerIndex (h : catalog.Consistent) {info : IndexInfo}
    (hinfo : catalog.HasColumn info.table info.column) : (catalog.registerIndex info).Consistent := by
  intro index hindex
  cases mem_append.mp hindex with
  | inl hold => exact h index hold
  | inr hnew => rw [mem_singleton.mp hnew]; exact hinfo

theorem Consistent.dropIndex (h : catalog.Consistent) (name : String) : (catalog.dropIndex name).2.Consistent :=
  fun index hindex => h index (mem_filter.mp hindex).1

theorem Consistent.call (h : catalog.Consistent) (hkeeps : catalog.Keeps c) :
    (catalog.call c).2.Consistent := by
  cases c with
  | registerTable info => exact h.insert hkeeps
  | dropTable name => exact h.dropTable name
  | addColumn table col => exact h.addColumn table col
  | dropColumn table colName => exact h.dropColumn hkeeps
  | renameColumn table oldName newName => exact h.renameColumn hkeeps
  | registerIndex info => exact h.registerIndex hkeeps
  | dropIndex name => exact h.dropIndex name
  | createView info | dropView name | createProcedure proc | dropProcedure name => exact h

/-! ### Calls that fail -/

theorem erase_of_lookup_isNone {α : Type*} {s : Table String α} (h : (s.lookup name).isSome = false) :
    s.erase name = s := by
  have hkeys : name ∉ s.entries.keys := by
    intro hname
    rw [AList.lookup_isSome.mpr hname] at h
    cases h
  exact AList.ext (kerase_of_notMem_keys hkeys)

/-- An operation that returns an error, or that nothing was found, leaves the catalog as it was. -/
theorem call_eq_self (h : (catalog.call c).1 ≠ .ok true) : (catalog.call c).2 = catalog := by
  cases c with
  | registerTable info | registerIndex info | createView info | createProcedure proc => exact absurd rfl h
  | dropTable name =>
    simp only [SystemCatalog.call, SystemCatalog.dropTable] at h ⊢
    split at h
    case isTrue => exact absurd rfl h
    case isFalse hnone => rw [if_neg hnone]; rfl
  | addColumn table col =>
    simp only [SystemCatalog.call, SystemCatalog.addColumn] at h ⊢
    split at h
    case h_1 => rfl
    case h_2 => exact absurd rfl h
  | dropColumn table colName =>
    simp only [SystemCatalog.call, SystemCatalog.dropColumn] at h ⊢
    split at h
    case h_1 => rfl
    case h_2 => exact absurd rfl h
  | renameColumn table oldName newName =>
    simp only [SystemCatalog.call, SystemCatalog.renameColumn] at h ⊢
    split at h
    case h_1 => rfl
    case h_2 info hinfo =>
      split at h
      case h_1 => rfl
      case h_2 => exact absurd rfl h
  | dropIndex name =>
    have hkept : ∀ index ∈ catalog.indexes, index.name ≠ name := by
      simpa [SystemCatalog.call, SystemCatalog.dropIndex] using h
    have hsame : catalog.indexes.filter (·.name ≠ name) = catalog.indexes :=
      filter_eq_self.mpr fun index hindex => decide_eq_true (hkept index hindex)
    simp only [SystemCatalog.call, SystemCatalog.dropIndex, hsame]
    rfl
  | dropView name =>
    have hnone : (catalog.views.lookup name).isSome = false := by
      simpa [SystemCatalog.call, SystemCatalog.dropView] using h
    simp only [SystemCatalog.call, SystemCatalog.dropView, erase_of_lookup_isNone hnone]
    rfl
  | dropProcedure name =>
    have hnone : (catalog.procedures.lookup name).isSome = false := by
      simpa [SystemCatalog.call, SystemCatalog.dropProcedure] using h
    simp only [SystemCatalog.call, SystemCatalog.dropProcedure, erase_of_lookup_isNone hnone]
    rfl

end consistent

/-! ### Runs -/

/-- **The catalog stays consistent** in every run that registers indexes for columns there are,
replaces no table by one without an indexed column, and drops or renames no indexed column. -/
theorem consistent_throughout {calls : List Call} (h : Transition.Along step Keeps new calls) :
    Transition.Throughout step Consistent new calls ∧
      ∀ catalog : SystemCatalog, ∀ c, (catalog.call c).1 ≠ .ok true → (catalog.call c).2 = catalog := by
  refine ⟨?_, fun _ _ => call_eq_self⟩
  refine Transition.throughout_of_along (I := Consistent) ?_ (fun _ => id) nofun h
  intro catalog c catalog' hcatalog hkeeps hstep
  rw [← Option.some_inj.mp hstep]
  exact hcatalog.call hkeeps

/-- The table and the index of the usual example. -/
def usersTable : TableInfo :=
  ⟨"users", "relational", 1000,
    [⟨"id", "i64", false, true, true⟩, ⟨"name", "bytes", false, false, false⟩], 1000⟩

def usersNameIndex : IndexInfo := ⟨"idx_users_name", "users", "name", "secondary", 1000⟩

/-- An index can be registered before any table. -/
theorem dangling_index : ¬ Transition.Throughout step Consistent new [.registerIndex usersNameIndex] := by
  intro h
  obtain ⟨info, hinfo, -⟩ := h [.registerIndex usersNameIndex] (new.registerIndex usersNameIndex)
    prefix_rfl rfl usersNameIndex mem_cons_self
  cases hinfo

theorem consistent_throughout_users : Transition.Throughout step Consistent new
        [.registerTable usersTable, .registerIndex usersNameIndex, .renameColumn "users" "id" "key"] ∧
      ∀ catalog : SystemCatalog, ∀ c, (catalog.call c).1 ≠ .ok true → (catalog.call c).2 = catalog := by
  refine consistent_throughout ?_
  refine Transition.along_cons_of nofun rfl (Transition.along_cons_of ?_ rfl ?_)
  · exact ⟨usersTable, rfl, by decide⟩
  · refine Transition.along_single.mpr fun index hindex _ => ?_
    rw [mem_singleton.mp hindex]
    decide

end SystemCatalog
end CenDB.System
