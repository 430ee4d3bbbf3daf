import Ecat.OrmInsert
import Ecat.Results

/-! Reading entities: the query that the builder collects, the SELECT it becomes, pages, and the
relations that are loaded for the rows it returns. -/

namespace Ecat.Orm

variable {V : Type}

inductive JoinType
  | inner | left
  deriving DecidableEq, Repr

inductive Order
  | asc | desc
  deriving DecidableEq, Repr

structure OrderBy where
  column : String
  dir : Order
  deriving DecidableEq, Repr

inductive RelationKind
  | hasMany | hasOne | belongsTo
  deriving DecidableEq, Repr

structure RelationMeta where
  name : String
  kind : RelationKind
  target : TableMeta
  foreignKey : String
  localKey : String

/-- A relation is a field of the entity, so no two have one name. -/
structure Entity extends TableMeta where
  relations : List RelationMeta
  relations_nodup : (relations.map RelationMeta.name).Nodup

def TableMeta.names (m : TableMeta) : List String := m.columns.map ColumnMeta.name

def Expr.column? : Expr V → Option String
  | .cmp column _ _ | .in column _ _ | .null column _ => some column
  | .raw .. => none

/-- `filter` and `order_by` check the columns they are given. -/
structure Query (V : Type) (E : Entity) where
  filters : List (Expr V)
  orders : List OrderBy
  joins : List (JoinType × String × String)
  limit : Option Nat
  offset : Option Nat
  withTrashed : Bool
  relations : List String
  filters_checked : ∀ f ∈ filters, ∀ column ∈ f.column?, column ∈ E.names
  orders_checked : ∀ o ∈ orders, o.column ∈ E.names

/-- The tables, and what the database makes of SQL. It may put rows in any order that the ORDER BY
allows. -/
structure Database (V : Type) where
  sql : Sql V
  vals : Values V
  dialect : Dialect
  rows : String → Table V
  columns : String → List String
  arrange : List OrderBy → Table V → Table V
  arrange_perm : ∀ orders table, (arrange orders table).Perm table

/-- SQLite and MySQL have no OFFSET without LIMIT, and SQL Server no `FETCH NEXT 0`. -/
def Dialect.takesWindow (limit : Option Nat) (offset : Nat) : Dialect → Bool
  | .sqlite | .mysql => limit.isSome || offset == 0
  | .mssql => limit != some 0 || offset == 0
  | .standard | .postgres => true

/-! ### The SELECT -/

/-- The columns of a joined row, by their names and qualified by that of the table. -/
def combine (columns : List String) (table : String) (left right : Row V) : Row V := fun name =>
  if name ∈ columns then right name
  else match columns.find? fun column => name = table ++ "." ++ column with
    | some column => right column
    | none => left name

namespace Database

variable (db : Database V)

def join (main : Table V) (source : Table V) : JoinType × String × String → Table V
  | (kind, table, on) => source.flatMap fun left =>
    let joined := ((db.rows table).map (combine (db.columns table) table left)).filter (db.sql.raw on main)
    if kind = .left ∧ joined.isEmpty then [combine (db.columns table) table left fun _ => none] else joined

variable {E : Entity} (q : Query V E)

def ambiguous (columns : List String) : Bool :=
  q.joins.any fun j => columns.any fun column => (db.columns j.2.1).contains column

def chosen : Table V :=
  let main := db.rows E.table
  let source := q.joins.foldl (db.join main) main
  match renderWhere E.toEntityMeta q.filters q.withTrashed with
  | none => source
  | some conds => source.filter (db.sql.selects conds main)

def select : Except OrmError (Table V) :=
  if db.ambiguous q E.names then .error (.rdbms "ambiguous column name")
  else if !db.dialect.takesWindow q.limit (q.offset.getD 0) then .error (.rdbms "syntax error")
  else
    let rows := (db.arrange q.orders (db.chosen q)).drop (q.offset.getD 0)
    .ok (match q.limit with
      | none => rows
      | some n => rows.take n)

def count : Except OrmError Nat :=
  let gate := (E.softDelete.filter fun _ => !q.withTrashed).toList
  if db.ambiguous q (gate ++ q.filters.filterMap Expr.column?) then .error (.rdbms "ambiguous column name")
  else .ok (db.chosen q).length

end Database

/-! ### Entities -/

def errorOf {α : Type} : Except OrmError α → Option OrmError
  | .error error => some error
  | .ok _ => none

def fromRow (vals : Values V) (m : TableMeta) (row : ResultRow V) : Except OrmError (Row V) :=
  match m.columns.findSome? fun c => errorOf (fromRowCol vals c.ty c.nullable row c.name) with
  | some error => .error error
  | none => .ok fun column => (row.lookup column).getD none

/-- An entity with the fields of its relations, which are empty until they are loaded. -/
structure Item (V : Type) where
  values : Row V
  attached : String → List (Row V)

def resultRow (columns : List String) (row : Row V) : ResultRow V := columns.map fun c => (c, row c)

def readItem (vals : Values V) (E : Entity) (row : Row V) : Except OrmError (Item V) := do
  let values ← fromRow vals E.toTableMeta (resultRow E.names row)
  return ⟨values, fun _ => []⟩

/-! ### Relations -/

section Relations

variable [DecidableEq V]

def Entity.relation (E : Entity) (name : String) : Option RelationMeta :=
  E.relations.find? fun r => r.name = name

/-- The column of the subject that has the keys, and the column of the target to look them up in. -/
def RelationMeta.joinSides (r : RelationMeta) : String × String :=
  match r.kind with
  | .hasMany | .hasOne => (r.localKey, r.foreignKey)
  | .belongsTo => (r.foreignKey, r.localKey)

def RelationMeta.isSingleValued (r : RelationMeta) : Bool :=
  match r.kind with
  | .hasMany => false
  | .hasOne | .belongsTo => true

def subjectValue (E : Entity) (column : String) (item : Item V) : Option V :=
  if column ∈ E.names then item.values column else none

def distinctKeys (keys : List (Option V)) : List V :=
  keys.foldl (fun out key =>
    match key with
    | none => out
    | some k => if out.contains k then out else out ++ [k]) []

/-- `SELECT * FROM target WHERE column IN (…)`, as often as the keys need. -/
def Database.related (db : Database V) (r : RelationMeta) (keys : List V) : Table V :=
  (chunks (chunkSize db.dialect.maxParamsPerStmt 1) keys).flatMap fun slice =>
    (db.rows r.target.table).filter fun row => db.sql.inList row r.joinSides.2 slice false

def setRelation (db : Database V) (E : Entity) (r : RelationMeta) (found : Table V) (item : Item V) :
    Except OrmError (Item V) := do
  let bucket := found.filter fun row => row r.joinSides.2 = subjectValue E r.joinSides.1 item
  let bucket := if r.isSingleValued then bucket.take 1 else bucket
  let rows ← bucket.mapM fun row =>
    fromRow db.vals r.target (resultRow (db.columns r.target.table) row)
  return { item with attached := Function.update item.attached r.name rows }

def loadRelation (db : Database V) (E : Entity) (items : List (Item V)) (name : String) :
    Except OrmError (List (Item V)) :=
  match E.relation name with
  | none => .error (.unknownColumn ("unknown relation `" ++ name ++ "`"))
  | some r =>
    let keys := distinctKeys (items.map (subjectValue E r.joinSides.1))
    let found := db.related r keys
    if !found.isEmpty && !(db.columns r.target.table).contains r.joinSides.2 then
      .error (.unknownColumn ("relation `" ++ name ++ "`: target column `" ++ r.joinSides.2 ++
        "` missing from the result set; the relation's foreign_key / local_key may be swapped"))
    else items.mapM (setRelation db E r found)

/-! ### The ways to read -/

variable {E : Entity}

def Query.fetch (db : Database V) (q : Query V E) : Except OrmError (List (Item V)) := do
  let rows ← db.select q
  let items ← rows.mapM (readItem db.vals E)
  q.relations.foldlM (loadRelation db E) items

def Query.cloneWithLimit (q : Query V E) (limit offset : Nat) : Query V E :=
  { q with limit := some limit, offset := some offset }

def u64Max : Nat := 2 ^ 64 - 1

def Query.page (q : Query V E) (page perPage : Nat) : Query V E :=
  q.cloneWithLimit perPage (min ((page - 1) * perPage) u64Max)

def Query.all (V : Type) (E : Entity) : Query V E where
  filters := []
  orders := []
  joins := []
  limit := none
  offset := none
  withTrashed := false
  relations := []
  filters_checked := by simp
  orders_checked := by simp

def Query.byId (E : Entity) (key : V) : Query V E where
  filters := [.cmp E.pk .eq key]
  orders := []
  joins := []
  limit := none
  offset := none
  withTrashed := false
  relations := []
  filters_checked f hf := by
    cases List.mem_singleton.1 hf
    intro column hcolumn
    cases hcolumn
    exact E.key_mem
  orders_checked := by simp

structure Page (V : Type) where
  items : List (Item V)
  total : Option Nat
  page : Nat
  perPage : Nat

def Query.paginate (db : Database V) (q : Query V E) (page perPage : Nat) : Except OrmError (Page V) := do
  let total ← db.count q
  let items ← (q.page page perPage).fetch db
  return { items, total := some total, page, perPage }

def Query.paginateWithoutCount (db : Database V) (q : Query V E) (page perPage : Nat) :
    Except OrmError (Page V) := do
  let items ← (q.page page perPage).fetch db
  return { items, total := none, page, perPage }

inductive Read (V : Type) (E : Entity)
  | fetch (q : Query V E)
  | findById (key : V)
  | findAll
  | paginate (q : Query V E) (page perPage : Nat)
  | paginateWithoutCount (q : Query V E) (page perPage : Nat)

def Read.query : Read V E → Query V E
  | .fetch q => q
  | .findById key => .byId E key
  | .findAll => .all V E
  | .paginate q page perPage | .paginateWithoutCount q page perPage => q.page page perPage

def Read.run (db : Database V) : Read V E → Except OrmError (List (Item V))
  | .fetch q => q.fetch db
  | .findById key => do return (← (Query.byId E key).fetch db).take 1
  | .findAll => (Query.all V E).fetch db
  | .paginate q page perPage => do return (← q.paginate db page perPage).items
  | .paginateWithoutCount q page perPage => do return (← q.paginateWithoutCount db page perPage).items

end Relations

end Ecat.Orm
