import Ecat.OrmInsert

/-! Upserting an entity: the statement takes its columns from the insert, which leaves out a
generated key, and its conflict from the key. It writes the row with the entity's key exactly when
the row that the database finds or makes for it has that key. -/

namespace Ecat.Orm

variable {V : Type}

/-- The rows of a table with a primary key: no two rows have one key. -/
structure KeyedTable (V : Type) (pk : String) where
  rows : Table V
  nodup : (rows.filterMap fun row => row pk).Nodup

section Statement

variable [DecidableEq V]

def collides (index : List String) (row row' : Row V) : Bool :=
  index.all fun column => (row column).isSome && decide (row' column = row column)

namespace Rdbms

variable {pk : String} (db : Rdbms V pk)

/-- The row an INSERT of the row conflicts with: on MySQL in any unique index, elsewhere in that
of the key, which the statement names. -/
def conflict (dialect : Dialect) (table : Table V) (row : Row V) : Option (Row V) :=
  match dialect with
  | .mysql => ([pk] :: db.uniques).findSome? fun index => table.find? (collides index row)
  | .standard | .sqlite | .postgres | .mssql => table.find? (collides [pk] row)

/-- The table after `INSERT … ON CONFLICT`, `ON DUPLICATE KEY` or `MERGE`. -/
def upserted (dialect : Dialect) (table : Table V) (cells : List (String × Option V)) : Table V :=
  match db.conflict dialect table (db.fill table cells) with
  | some old => table.map fun row =>
      if row pk = old pk then Sql.setCells row (cells.filter fun cell => cell.1 ≠ pk) else row
  | none => table ++ [db.fill table cells]

def target (dialect : Dialect) (table : Table V) (cells : List (String × Option V)) : Option V :=
  match db.conflict dialect table (db.fill table cells) with
  | some old => old pk
  | none => db.fill table cells pk

end Rdbms

/-- The source of a `MERGE` has only the columns of the statement, and its condition needs the key. -/
def Dialect.mergesWithoutKey (dialect : Dialect) (pk : String) (cells : List (String × Option V)) : Bool :=
  dialect = .mssql ∧ (cells.lookup pk).isNone

def upsert (dialect : Dialect) (m : TableMeta) (db : Rdbms V m.pk) (now : String → V) (e : Row V)
    (table : Table V) : Except OrmError Nat × Table V :=
  let cells := insertParts m now e
  if cells.isEmpty then (.error (.rdbms "entity has no insertable columns"), table)
  else if dialect.mergesWithoutKey m.pk cells || !db.allows table (db.upserted dialect table cells) then
    (.error (.rdbms "rejected"), table)
  else (.ok (db.affected table (db.upserted dialect table cells)), db.upserted dialect table cells)

end Statement

def filled (m : TableMeta) (now : String → V) (e : Row V) (column : String) : Option V :=
  let v := (autoTimestamp m.createdAt column (e column) false (now column)).or (e column)
  if column = m.pk then e column else (autoTimestamp m.updatedAt column v true (now column)).or v

def Holds (m : TableMeta) (now : String → V) (e row : Row V) : Prop :=
  ∀ column ∈ m.columns, row column.name = filled m now e column.name

/-- The row with the key is the entity's, and there is nothing else new. -/
def UpsertsByKey [DecidableEq V] (m : TableMeta) (now : String → V) (e : Row V) (k : V)
    (table table' : Table V) : Prop :=
  (∃ row, table'.filter (fun row => row m.pk = some k) = [row] ∧ Holds m now e row) ∧
    table'.filter (fun row => row m.pk ≠ some k) = table.filter fun row => row m.pk ≠ some k

/-- The row the statement updates holds its values already, and so does the row with the key. -/
def AlreadyStored [DecidableEq V] (dialect : Dialect) (m : TableMeta) (db : Rdbms V m.pk)
    (now : String → V) (e : Row V) (k : V) (table : Table V) : Prop :=
  (∃ old, db.conflict dialect table (db.fill table (insertParts m now e)) = some old ∧
    ∀ row ∈ table, row m.pk = old m.pk →
      ∀ column ∈ m.columns, column.name ≠ m.pk → row column.name = filled m now e column.name) ∧
  ∃ row ∈ table, row m.pk = some k ∧ Holds m now e row

/-! ### The columns -/

section Columns

variable (m : TableMeta) (now : String → V) (e row : Row V) {c : ColumnMeta}

def assigned : List (String × Option V) := (insertParts m now e).filter fun cell => cell.1 ≠ m.pk

theorem pk_eq_false (hc : c ∈ m.columns) (hname : c.name ≠ m.pk) : c.pk = false := by
  rw [Bool.eq_false_iff]
  exact fun h => hname ((m.key c hc).1 h)

theorem filled_of_ne {column : String} (h : column ≠ m.pk) : filled m now e column =
    (autoTimestamp m.updatedAt column
      ((autoTimestamp m.createdAt column (e column) false (now column)).or (e column)) true (now column)).or
      ((autoTimestamp m.createdAt column (e column) false (now column)).or (e column)) := by
  simp [filled, h]

theorem insertParts_lookup (hc : c ∈ m.columns) (hname : c.name ≠ m.pk) :
    (insertParts m now e).lookup c.name = some (filled m now e c.name) := by
  rw [insertParts, m.lookup_written _ _ hc (by simp [pk_eq_false m hc hname]), filled_of_ne m now e hname]

theorem assigned_lookup (hc : c ∈ m.columns) :
    (assigned m now e).lookup c.name = if c.name = m.pk then none else some (filled m now e c.name) := by
  rw [assigned, insertParts, List.filter_map, List.filter_filter]
  by_cases hname : c.name = m.pk
  · rw [m.lookup_skipped _ _ hc (by simp [hname]), if_pos hname]
  · rw [m.lookup_written _ _ hc (by simp [hname, pk_eq_false m hc hname]), if_neg hname,
      filled_of_ne m now e hname]

theorem setCells_assigned_key : Sql.setCells row (assigned m now e) m.pk = row m.pk := by
  obtain ⟨c, hc, hname, _⟩ := m.exists_key
  rw [Sql.setCells, ← hname, assigned_lookup m now e hc, if_pos hname, Option.getD_none]

theorem setCells_assigned (hc : c ∈ m.columns) (hname : c.name ≠ m.pk) :
    Sql.setCells row (assigned m now e) c.name = filled m now e c.name := by
  rw [Sql.setCells, assigned_lookup m now e hc, if_neg hname, Option.getD_some]

theorem setCells_assigned_eq_self :
    Sql.setCells row (assigned m now e) = row ↔
      ∀ c ∈ m.columns, c.name ≠ m.pk → row c.name = filled m now e c.name := by
  constructor
  · intro h c hc hname
    rw [← setCells_assigned m now e row hc hname, h]
  · intro h
    funext column
    by_cases hmem : column ∈ m.columns.map ColumnMeta.name
    · obtain ⟨c, hc, rfl⟩ := List.mem_map.1 hmem
      by_cases hname : c.name = m.pk
      · rw [hname, setCells_assigned_key]
      · rw [setCells_assigned m now e row hc hname, h c hc hname]
    · have hnone : (assigned m now e).lookup column = none := by
        rw [List.lookup_eq_none_iff]
        rintro ⟨name, v⟩ hcell
        obtain ⟨c, hc, heq⟩ := List.mem_map.1 (List.mem_of_mem_filter hcell)
        cases heq
        simp only [bne_iff_ne, ne_eq]
        rintro rfl
        exact hmem (List.mem_map_of_mem (List.mem_of_mem_filter hc))
      rw [Sql.setCells, hnone, Option.getD_none]

theorem holds_iff {k : V} (hk : e m.pk = some k) : Holds m now e row ↔
    row m.pk = some k ∧ ∀ c ∈ m.columns, c.name ≠ m.pk → row c.name = filled m now e c.name := by
  obtain ⟨c, hc, hname, _⟩ := m.exists_key
  have hkey : filled m now e m.pk = some k := by simp [filled, hk]
  constructor
  · intro h
    exact ⟨by rw [← hkey, ← hname, h c hc], fun d hd _ => h d hd⟩
  · rintro ⟨hpk, h⟩ d hd
    by_cases hd' : d.name = m.pk
    · rw [hd', hpk, hkey]
    · exact h d hd hd'

end Columns

/-! ### The rows -/

section Rows

variable [DecidableEq V] {pk : String} {k : V}

theorem KeyedTable.filter_key (table : KeyedTable V pk) {old : Row V} (hold : old ∈ table.rows)
    (hkey : old pk = some k) : table.rows.filter (fun row => row pk = some k) = [old] := by
  obtain ⟨rows, hnodup⟩ := table
  induction rows with
  | nil => simp at hold
  | cons row rows ih =>
    have hrest : (rows.filterMap fun row => row pk).Nodup :=
      hnodup.sublist ((List.sublist_cons_self row rows).filterMap fun row => row pk)
    by_cases hrow : row pk = some k
    · have hfresh : ∀ row' ∈ rows, row' pk ≠ some k := by
        simp only [List.filterMap_cons, hrow, List.nodup_cons] at hnodup
        intro row' hmem hrow'
        exact hnodup.1 (List.mem_filterMap.2 ⟨row', hmem, hrow'⟩)
      have hnil : rows.filter (fun row => row pk = some k) = [] := by simpa using hfresh
      rcases List.mem_cons.1 hold with rfl | hold
      · simp [hrow, hnil]
      · exact absurd hkey (hfresh old hold)
    · have hold : old ∈ rows := by
        rcases List.mem_cons.1 hold with rfl | hold
        · exact absurd hkey hrow
        · exact hold
      rw [List.filter_cons_of_neg (by simpa using hrow)]
      exact ih hrest hold

variable {db : Rdbms V pk} {dialect : Dialect} {table : Table V} {row old : Row V}

theorem mem_of_conflict (h : db.conflict dialect table row = some old) : old ∈ table := by
  cases dialect with
  | mysql =>
    obtain ⟨index, _, hfind⟩ := List.exists_of_findSome?_eq_some h
    exact List.mem_of_find?_eq_some hfind
  | standard => exact List.mem_of_find?_eq_some h
  | sqlite => exact List.mem_of_find?_eq_some h
  | postgres => exact List.mem_of_find?_eq_some h
  | mssql => exact List.mem_of_find?_eq_some h

theorem find?_key_of_no_conflict (h : db.conflict dialect table row = none) :
    table.find? (collides [pk] row) = none := by
  cases dialect with
  | mysql => exact List.findSome?_eq_none_iff.1 h [pk] (by simp)
  | standard => exact h
  | sqlite => exact h
  | postgres => exact h
  | mssql => exact h

theorem filter_key_of_no_conflict (h : db.conflict dialect table row = none) (hkey : row pk = some k) :
    table.filter (fun row => row pk = some k) = [] := by
  rw [List.filter_eq_nil_iff]
  intro old hold
  have hnot := List.find?_eq_none.1 (find?_key_of_no_conflict h) old hold
  simpa [collides, hkey] using hnot

end Rows

/-! ### The statement -/

section Upsert

variable [DecidableEq V] {m : TableMeta} {db : Rdbms V m.pk} {dialect : Dialect} {now : String → V}
  {e row old : Row V} {k : V} (table : KeyedTable V m.pk)

def overwrite (m : TableMeta) (now : String → V) (e old row : Row V) : Row V :=
  if row m.pk = old m.pk then Sql.setCells row (assigned m now e) else row

theorem overwrite_key : overwrite m now e old row m.pk = row m.pk := by
  unfold overwrite
  split
  · exact setCells_assigned_key m now e row
  · rfl

theorem filter_overwrite (p : Option V → Bool) (rows : Table V) :
    (rows.map (overwrite m now e old)).filter (fun row => p (row m.pk)) =
      (rows.filter fun row => p (row m.pk)).map (overwrite m now e old) := by
  rw [List.filter_map]
  simp only [Function.comp_def, overwrite_key]

theorem map_overwrite_of_ne (p : Option V → Bool) (hp : p (old m.pk) = false) (rows : Table V) :
    (rows.filter fun row => p (row m.pk)).map (overwrite m now e old) =
      rows.filter fun row => p (row m.pk) := by
  conv_rhs => rw [← List.map_id (rows.filter fun row => p (row m.pk))]
  refine List.map_congr_left fun row hrow => ?_
  have hne : row m.pk ≠ old m.pk := by
    intro heq
    rw [List.mem_filter, heq, hp] at hrow
    cases hrow.2
  exact if_neg hne

theorem upserts_inserted (hk : e m.pk = some k)
    (hnone : db.conflict dialect table.rows (db.fill table.rows (insertParts m now e)) = none) :
    UpsertsByKey m now e k table.rows (table.rows ++ [db.fill table.rows (insertParts m now e)]) ↔
      db.fill table.rows (insertParts m now e) m.pk = some k := by
  constructor
  · rintro ⟨_, hothers⟩
    by_contra hkey
    rw [List.filter_append] at hothers
    simp [hkey] at hothers
  · intro hkey
    have hnew : Holds m now e (db.fill table.rows (insertParts m now e)) := by
      rw [holds_iff m now e _ hk]
      exact ⟨hkey, fun c hc hname =>
        db.fill_given _ _ _ _ (.inl hname) (insertParts_lookup m now e hc hname)⟩
    refine ⟨⟨_, ?_, hnew⟩, ?_⟩
    · rw [List.filter_append, filter_key_of_no_conflict hnone hkey]
      simp [hkey]
    · rw [List.filter_append]
      simp [hkey]

theorem upserts_own_row (hk : e m.pk = some k) (hmem : old ∈ table.rows) (hkey : old m.pk = some k) :
    UpsertsByKey m now e k table.rows (table.rows.map (overwrite m now e old)) := by
  have hnew : Holds m now e (Sql.setCells old (assigned m now e)) := by
    rw [holds_iff m now e _ hk, setCells_assigned_key]
    exact ⟨hkey, fun c hc hname => setCells_assigned m now e old hc hname⟩
  refine ⟨⟨_, ?_, hnew⟩, ?_⟩
  · rw [filter_overwrite fun key => key = some k, table.filter_key hmem hkey]
    simp [overwrite]
  · rw [filter_overwrite fun key => key ≠ some k]
    exact map_overwrite_of_ne (fun key => key ≠ some k) (by simp [hkey]) table.rows

theorem overwrite_eq_self : overwrite m now e old row = row ↔
    (row m.pk = old m.pk →
      ∀ c ∈ m.columns, c.name ≠ m.pk → row c.name = filled m now e c.name) := by
  unfold overwrite
  split
  next h => simp [h, setCells_assigned_eq_self]
  next h => simp [h]

theorem upserts_other_row
    (hold : db.conflict dialect table.rows (db.fill table.rows (insertParts m now e)) = some old)
    (hkey : old m.pk ≠ some k) :
    UpsertsByKey m now e k table.rows (table.rows.map (overwrite m now e old)) ↔
      AlreadyStored dialect m db now e k table.rows := by
  constructor
  · rintro ⟨⟨row, hrows, hholds⟩, hothers⟩
    rw [filter_overwrite fun key => key = some k,
      map_overwrite_of_ne (fun key => key = some k) (by simpa using hkey)] at hrows
    rw [filter_overwrite fun key => key ≠ some k] at hothers
    refine ⟨⟨old, hold, fun row hrow heq => ?_⟩, ?_⟩
    · have hmem : row ∈ table.rows.filter fun row => row m.pk ≠ some k :=
        List.mem_filter.2 ⟨hrow, by simpa [heq] using hkey⟩
      have hself := List.map_eq_map_iff.1 (hothers.trans (List.map_id _).symm) row hmem
      exact overwrite_eq_self.1 hself heq
    · have hmem : row ∈ table.rows.filter fun row => row m.pk = some k := by
        rw [hrows]
        exact List.mem_singleton_self row
      obtain ⟨hrow, hpk⟩ := List.mem_filter.1 hmem
      exact ⟨row, hrow, by simpa using hpk, hholds⟩
  · rintro ⟨⟨old', hold', hstored⟩, row, hrow, hpk, hholds⟩
    cases hold.symm.trans hold'
    have hsame : table.rows.map (overwrite m now e old) = table.rows := by
      conv_rhs => rw [← List.map_id table.rows]
      exact List.map_congr_left fun row hrow => overwrite_eq_self.2 (hstored row hrow)
    rw [hsame]
    exact ⟨⟨row, table.filter_key hrow hpk, hholds⟩, rfl⟩

theorem upsert_by_key_iff (hk : e m.pk = some k) {n : Nat} {table' : Table V}
    (hok : upsert dialect m db now e table.rows = (.ok n, table')) :
    UpsertsByKey m now e k table.rows table' ↔
      db.target dialect table.rows (insertParts m now e) = some k ∨
        AlreadyStored dialect m db now e k table.rows := by
  have htable : table' = db.upserted dialect table.rows (insertParts m now e) := by
    simp only [upsert] at hok
    split at hok
    · cases hok
    · split at hok <;> cases hok
      rfl
  rw [htable, Rdbms.upserted, Rdbms.target]
  cases hconflict : db.conflict dialect table.rows (db.fill table.rows (insertParts m now e)) with
  | none =>
    simp only [upserts_inserted table hk hconflict, AlreadyStored, hconflict]
    simp
  | some old =>
    change UpsertsByKey m now e k table.rows (table.rows.map (overwrite m now e old)) ↔ _
    by_cases hkey : old m.pk = some k
    · simp [hkey, upserts_own_row table hk (mem_of_conflict hconflict) hkey]
    · rw [upserts_other_row table hconflict hkey]
      simp [hkey]

/-- A key that the database does not generate is the key of the row that is written, except where
MySQL takes another row for its duplicate. -/
theorem target_of_given (hk : e m.pk = some k) (hauto : ∀ c ∈ m.columns, c.pk → c.autoIncrement = false)
    (hupdated : m.updatedAt ≠ some m.pk) (hdialect : dialect ≠ .mysql) (rows : Table V) :
    db.target dialect rows (insertParts m now e) = some k := by
  have hlookup : (insertParts m now e).lookup m.pk = some (some k) := by
    obtain ⟨c, hc, hname, hpk⟩ := m.exists_key
    rw [insertParts, ← hname, m.lookup_written _ _ hc (by simp [hauto c hc hpk])]
    simp [autoTimestamp, hname, hk, hupdated]
  have hfill : db.fill rows (insertParts m now e) m.pk = some k :=
    db.fill_given _ _ _ _ (.inr rfl) hlookup
  have hfind : db.conflict dialect rows (db.fill rows (insertParts m now e)) =
      rows.find? (collides [m.pk] (db.fill rows (insertParts m now e))) := by
    cases dialect <;> first | rfl | exact absurd rfl hdialect
  rw [Rdbms.target, hfind]
  split
  next old hold =>
    have hold := List.find?_some hold
    simpa [collides, hfill] using hold
  next => exact hfill

end Upsert

/-! ### A generated key -/

def label : TableMeta where
  softDelete := none
  table := "labels"
  pk := "id"
  columns := [⟨"id", .i64, false, true, false⟩, ⟨"name", .i64, false, false, false⟩]
  createdAt := none
  updatedAt := none
  version := none
  nodup := by decide
  key := by decide
  key_mem := by decide
  softDelete_mem := by decide

theorem label_upsert :
    UpsertsByKey label (fun _ => 0) (widgetRow 1 6) 1 [widgetRow 1 5]
      [Sql.setCells (widgetRow 1 5) [("name", some 6)]] := by
  have hok : upsert .sqlite label (counted "id") (fun _ => 0) (widgetRow 1 6) [widgetRow 1 5] =
    (.ok 1, [Sql.setCells (widgetRow 1 5) [("name", some 6)]]) := rfl
  have hauto : ∀ c ∈ label.columns, c.pk → c.autoIncrement = false := by decide
  have hupdated : label.updatedAt ≠ some label.pk := by decide
  have hkey : widgetRow 1 6 label.pk = some 1 := rfl
  exact (upsert_by_key_iff ⟨[widgetRow 1 5], by decide⟩ hkey hok).2
    (.inl (target_of_given hkey hauto hupdated (show Dialect.sqlite ≠ .mysql by decide) _))

theorem generated_key_upsert_adds_row :
    ∃ n table', upsert .sqlite widget (counted "id") (fun _ => 0) (widgetRow 1 6) [widgetRow 1 5] =
        (.ok n, table') ∧
      ¬ UpsertsByKey widget (fun _ => 0) (widgetRow 1 6) 1 [widgetRow 1 5] table' := by
  refine ⟨1, _, rfl, ?_⟩
  rintro ⟨_, hothers⟩
  exact absurd (congrArg List.length hothers) (by decide)

end Ecat.Orm
