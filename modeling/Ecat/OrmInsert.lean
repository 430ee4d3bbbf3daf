import Ecat.OrmSoftDelete

/-! Inserting an entity and reading its key back. The row is there before the key is read, so an
insert is all or nothing exactly when the key that comes back can be read. -/

namespace Ecat.Orm

variable {V : Type}

abbrev ResultRow (V : Type) := List (String × Option V)

/-- What a database does with the cells of an INSERT into a table with this key: the row it makes of
them, with defaults and generated keys in the columns left out, and whether it lets a statement turn
the one table into the other. Only the key may be filled in for NULL. -/
structure Rdbms (V : Type) (pk : String) where
  fill : Table V → List (String × Option V) → Row V
  fill_given : ∀ table cells column v, column ≠ pk ∨ v.isSome → cells.lookup column = some v →
    fill table cells column = v
  allows : Table V → Table V → Bool
  /-- The answer to `SELECT LAST_INSERT_ID()` on the connection that sent the INSERT. -/
  lastInsertId : Table V → List (String × Option V) → Option V
  /-- The columns of the unique indexes other than that of the key. -/
  uniques : List (List String)
  affected : Table V → Table V → Nat

inductive InsertPlan
  | single (returning : String)
  | insertThen (fetch : String)
  deriving DecidableEq, Repr

def Dialect.insertPlan (pk : String) : Dialect → InsertPlan
  | .mysql => .insertThen "LAST_INSERT_ID()"
  | .standard | .sqlite | .postgres | .mssql => .single pk

/-- Only MySQL has an INSERT without columns. -/
def Dialect.insertsNothing : Dialect → Bool
  | .mysql => true
  | .standard | .sqlite | .postgres | .mssql => false

namespace Rdbms

variable {pk : String} (db : Rdbms V pk)

def inserted (dialect : Dialect) (table : Table V) (cells : List (String × Option V)) : Option (Row V) :=
  if (cells.isEmpty && !dialect.insertsNothing) || !db.allows table (table ++ [db.fill table cells]) then none
  else some (db.fill table cells)

/-- `INSERT … RETURNING column`: the result column has the name of the column. -/
def queryWrite (dialect : Dialect) (table : Table V) (cells : List (String × Option V)) (column : String) :
    Except OrmError (List (ResultRow V)) × Table V :=
  match db.inserted dialect table cells with
  | none => (.error (.rdbms "rejected"), table)
  | some row => (.ok [[(column, row column)]], table ++ [row])

/-- Both statements in one transaction, which is committed before the rows are returned. The result
column has the name of the expression. -/
def executeThenQuery (dialect : Dialect) (table : Table V) (cells : List (String × Option V))
    (expression : String) : Except OrmError (List (ResultRow V)) × Table V :=
  match db.inserted dialect table cells with
  | none => (.error (.rdbms "rejected"), table)
  | some row => (.ok [[(expression, db.lastInsertId table cells)]], table ++ [row])

end Rdbms

def readReturnedPk (vals : Values V) (pk : String) (rows : List (ResultRow V)) : Except OrmError Int :=
  match rows with
  | [] => .error (.rdbms "INSERT returned no row for the generated primary key")
  | row :: _ =>
    match fromRowCol vals .i64 false row pk with
    | .error error => .error error
    | .ok v => .ok ((v.bind vals.asI64).getD 0)

def insert (vals : Values V) (dialect : Dialect) (m : TableMeta) (db : Rdbms V m.pk) (now : String → V)
    (e : Row V) (table : Table V) : Except OrmError Int × Table V :=
  let cells := insertParts m now e
  let (answer, table') := match dialect.insertPlan m.pk with
    | .single returning => db.queryWrite dialect table cells returning
    | .insertThen fetch => db.executeThenQuery dialect table cells fetch
  match answer with
  | .error error => (.error error, table')
  | .ok rows => (readReturnedPk vals m.pk rows, table')

def AllOrNothing (vals : Values V) (pk : String) (table : Table V) :
    Except OrmError Int × Table V → Prop
  | (.ok k, table') => ∃ row, table' = table ++ [row] ∧ (row pk).bind vals.asI64 = some k
  | (.error _, table') => table' = table

/-- The key comes back as an integer under the name of the key column. -/
def KeyReadable (vals : Values V) (dialect : Dialect) (m : TableMeta) (db : Rdbms V m.pk)
    (now : String → V) (e : Row V) (table : Table V) : Prop :=
  let key := (db.fill table (insertParts m now e) m.pk).bind vals.asI64
  match dialect with
  | .mysql => m.pk = "LAST_INSERT_ID()" ∧ key.isSome ∧
      (db.lastInsertId table (insertParts m now e)).bind vals.asI64 = key
  | _ => key.isSome

theorem readReturnedPk_named (vals : Values V) (pk : String) (cell : Option V) :
    (∃ k, readReturnedPk vals pk [[(pk, cell)]] = .ok k ∧ cell.bind vals.asI64 = some k) ∨
      ((∃ error, readReturnedPk vals pk [[(pk, cell)]] = .error error) ∧ cell.bind vals.asI64 = none) := by
  cases cell with
  | none => simp [readReturnedPk, fromRowCol]
  | some v => cases hv : vals.asI64 v <;> simp [readReturnedPk, fromRowCol, fromJson, readInt, hv]

theorem readReturnedPk_other (vals : Values V) {pk name : String} (hname : pk ≠ name) (cell : Option V) :
    readReturnedPk vals pk [[(name, cell)]] = .error (.unknownColumn pk) := by
  have hbeq : (pk == name) = false := by simpa using hname
  simp [readReturnedPk, fromRowCol, List.lookup_cons, hbeq]

section Insert

variable (vals : Values V) (dialect : Dialect) (m : TableMeta) (db : Rdbms V m.pk) (now : String → V)
  (e : Row V) (table : Table V)

theorem eq_fill_of_inserted {pk : String} {db : Rdbms V pk} {cells : List (String × Option V)}
    {row : Row V} (h : db.inserted dialect table cells = some row) : row = db.fill table cells := by
  unfold Rdbms.inserted at h
  split at h
  · cases h
  · exact (Option.some.inj h).symm

theorem insert_of_refused (h : db.inserted dialect table (insertParts m now e) = none) :
    insert vals dialect m db now e table = (.error (.rdbms "rejected"), table) := by
  cases dialect <;>
    simp [insert, Dialect.insertPlan, Rdbms.queryWrite, Rdbms.executeThenQuery, h]

theorem insert_of_mysql {row : Row V} (h : db.inserted .mysql table (insertParts m now e) = some row) :
    insert vals .mysql m db now e table = (readReturnedPk vals m.pk
      [[("LAST_INSERT_ID()", db.lastInsertId table (insertParts m now e))]], table ++ [row]) := by
  simp [insert, Dialect.insertPlan, Rdbms.executeThenQuery, h]

theorem insert_of_returning {row : Row V} (hd : dialect ≠ .mysql)
    (h : db.inserted dialect table (insertParts m now e) = some row) :
    insert vals dialect m db now e table =
      (readReturnedPk vals m.pk [[(m.pk, row m.pk)]], table ++ [row]) := by
  have hplan : dialect.insertPlan m.pk = .single m.pk := by
    cases dialect <;> simp_all [Dialect.insertPlan]
  simp [insert, hplan, Rdbms.queryWrite, h]

theorem allOrNothing_named (pk : String) (row : Row V) (cell : Option V) :
    AllOrNothing vals pk table (readReturnedPk vals pk [[(pk, cell)]], table ++ [row]) ↔
      (cell.bind vals.asI64).isSome ∧ cell.bind vals.asI64 = (row pk).bind vals.asI64 := by
  rcases readReturnedPk_named vals pk cell with ⟨k, hread, hcell⟩ | ⟨⟨error, hread⟩, hcell⟩
  · rw [hread, hcell]
    simp [AllOrNothing, eq_comm]
  · rw [hread, hcell]
    simp [AllOrNothing]

theorem insert_all_or_nothing_iff :
    AllOrNothing vals m.pk table (insert vals dialect m db now e table) ↔
      db.inserted dialect table (insertParts m now e) = none ∨
        KeyReadable vals dialect m db now e table := by
  cases h : db.inserted dialect table (insertParts m now e) with
  | none =>
    rw [insert_of_refused vals dialect m db now e table h]
    simp [AllOrNothing]
  | some row =>
    have hrow := eq_fill_of_inserted dialect table h
    by_cases hd : dialect = .mysql
    · subst hd
      rw [insert_of_mysql vals m db now e table h]
      by_cases hname : m.pk = "LAST_INSERT_ID()"
      · rw [← hname, allOrNothing_named]
        simp only [KeyReadable, hname, hrow, reduceCtorEq, false_or, true_and]
        constructor
        · rintro ⟨hsome, heq⟩
          exact ⟨heq ▸ hsome, heq⟩
        · rintro ⟨hsome, heq⟩
          exact ⟨heq ▸ hsome, heq⟩
      · rw [readReturnedPk_other vals hname]
        simp [AllOrNothing, KeyReadable, hname]
    · rw [insert_of_returning vals dialect m db now e table hd h, allOrNothing_named]
      cases dialect <;> simp_all [KeyReadable]

end Insert

/-! ### A key that is not found -/

def widget : TableMeta where
  softDelete := none
  table := "widgets"
  pk := "id"
  columns := [⟨"id", .i64, false, true, true⟩, ⟨"name", .i64, false, false, false⟩]
  createdAt := none
  updatedAt := none
  version := none
  nodup := by decide
  key := by decide
  key_mem := by decide
  softDelete_mem := by decide

def counted (pk : String) : Rdbms Int pk where
  fill table cells column :=
    match cells.lookup column with
    | some (some v) => some v
    | _ => if column = pk then some (table.length + 1) else none
  fill_given table cells column v h hlookup := by
    rw [hlookup]
    cases v with
    | some v => rfl
    | none => simpa using h
  allows _ _ := true
  lastInsertId table _ := some (table.length + 1)
  uniques := []
  affected _ _ := 1

def widgetRow (id name : Int) : Row Int := fun column =>
  if column = "id" then some id else if column = "name" then some name else none

def firstWidget : Except OrmError Int × Table Int :=
  insert intValues .mysql widget (counted "id") (fun _ => 0) (widgetRow 0 5) []

/-- On MySQL the key comes back under the name of the expression, and is not found. -/
theorem mysql_insert_reports_failure :
    firstWidget.1 = .error (.unknownColumn "id") ∧ ¬ AllOrNothing intValues "id" [] firstWidget := by
  refine ⟨by decide, ?_⟩
  intro h
  have hnil : firstWidget.2 = [] := h
  have hlength : firstWidget.2.length = 1 := by decide
  rw [hnil] at hlength
  cases hlength

end Ecat.Orm
