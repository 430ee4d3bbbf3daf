import Ecat.Chunks
import Mathlib

/-! Deleting by filter: the WHERE clause the ORM renders, how a database reads it,
and `delete_where`, which cuts long `IN` lists to fit the dialect's parameter limit
and sends one statement for every combination of pieces. -/

namespace Ecat.Orm

/-- The operators with an infix SQL form; `filter` turns the other four into `in` and `null`. -/
inductive Op
  | eq | ne | lt | le | gt | ge | like
  deriving DecidableEq, Repr

/-- A raw fragment is a boolean SQL expression, kept as the operands of its outermost ORs. -/
inductive Expr (V : Type)
  | cmp (column : String) (op : Op) (value : V)
  | in (column : String) (values : List V) (negated : Bool)
  | null (column : String) (negated : Bool)
  | raw (operand : String) (alternatives : List String)
  deriving DecidableEq, Repr

structure EntityMeta where
  softDelete : Option String
  deriving DecidableEq, Repr

/-- A cell is `none` for NULL. -/
abbrev Row (V : Type) := String → Option V

abbrev Table (V : Type) := List (Row V)

/-- What the database makes of values and of raw text. A comparison may be unknown. A raw
operand is read in the row at hand and may query the table the statement is about. -/
structure Sql (V : Type) where
  cmp : Op → V → V → Option Bool
  raw : String → Table V → Row V → Bool

/-- One operand of the rendered clause, between two ANDs. -/
inductive Cond (V : Type)
  | null (column : String) (negated : Bool)
  | cmp (column : String) (op : Op) (value : V)
  | in (column : String) (values : List V) (negated : Bool)
  | constant (value : Bool)
  | raw (operand : String) (alternatives : List String)
  deriving DecidableEq, Repr

inductive Statement (V : Type)
  | update (column : String) (value : V) (conds : List (Cond V))
  | delete (conds : List (Cond V))
  deriving DecidableEq, Repr

variable {V : Type}

/-! ### The database -/

namespace Sql

variable (sql : Sql V)

def compare (row : Row V) (column : String) (op : Op) (value : V) : Option Bool :=
  (row column).bind fun cell => sql.cmp op cell value

def inList (row : Row V) (column : String) (values : List V) (negated : Bool) : Bool :=
  if negated then values.all fun v => sql.compare row column .eq v == some false
  else values.any fun v => sql.compare row column .eq v == some true

/-- The truth of the operands an OR separates; only raw text has more than one. -/
def operands (table : Table V) (row : Row V) : Cond V → List Bool
  | .null column negated => [(row column).isSome == negated]
  | .cmp column op value => [sql.compare row column op value == some true]
  | .in column values negated => [sql.inList row column values negated]
  | .constant value => [value]
  | .raw operand alternatives => (operand :: alternatives).map fun text => sql.raw text table row

/-- Joining by AND without parentheses: AND binds the last operand on its left to the
first on its right. -/
def joinAnd : List Bool → List Bool → List Bool
  | [], ds => ds
  | [x], [] => [x]
  | [x], d :: ds => (x && d) :: ds
  | x :: y :: xs, ds => x :: joinAnd (y :: xs) ds

def readAnd (conds : List (List Bool)) : Bool := (conds.foldr joinAnd [true]).any id

def selects (conds : List (Cond V)) (table : Table V) (row : Row V) : Bool :=
  readAnd (conds.map (sql.operands table row))

def setCell (row : Row V) (column : String) (value : V) : Row V :=
  fun c => if c = column then some value else row c

def exec (table : Table V) : Statement V → Nat × Table V
  | .update column value conds =>
    (table.countP (sql.selects conds table),
      table.map fun row => if sql.selects conds table row then setCell row column value else row)
  | .delete conds =>
    (table.countP (sql.selects conds table), table.filter fun row => !sql.selects conds table row)

end Sql

/-! ### Rendering and splitting -/

def renderFilter : Expr V → Cond V
  | .cmp column op value => .cmp column op value
  | .in column values negated =>
    if values.isEmpty then .constant negated else .in column values negated
  | .null column negated => .null column negated
  | .raw operand alternatives => .raw operand alternatives

def renderWhere (entity : EntityMeta) (filters : List (Expr V)) (withTrashed : Bool) :
    Option (List (Cond V)) :=
  let gate := (entity.softDelete.filter fun _ => !withTrashed).toList.map fun sd => Cond.null sd false
  let conds := gate ++ filters.map renderFilter
  if conds.isEmpty then none else some conds

def fixedParamCost : Expr V → Nat
  | .cmp .. => 1
  | .in .. | .null .. | .raw .. => 0

def Expr.isIn : Expr V → Bool
  | .in .. => true
  | _ => false

def Expr.values : Expr V → List V
  | .in _ values _ => values
  | _ => []

def Expr.withValues : Expr V → List V → Expr V
  | .in column _ negated, values => .in column values negated
  | f, _ => f

/-- An empty list gives one empty piece, so that the always false `IN ()` is still sent. -/
def slices (share : Nat) (values : List V) : List (List V) :=
  if values.isEmpty then [[]] else chunks share values

def inShare (filters : List (Expr V)) (budget : Nat) : Nat :=
  max ((budget - (filters.map fixedParamCost).sum) / (filters.filter Expr.isIn).length) 1

def splitInFilters (filters : List (Expr V)) (budget : Nat) : List (List (Expr V)) :=
  let ins := (List.range filters.length).filter fun i => (filters[i]?.map Expr.isIn).getD false
  if ins.isEmpty then [filters]
  else
    ins.foldl (fun out idx =>
      out.flatMap fun base =>
        (slices (inShare filters budget) ((filters[idx]?.map Expr.values).getD [])).map fun chunk =>
          base.modify idx fun f => f.withValues chunk) [filters]

/-! ### Deleting -/

/-- The loop over the chunks from the `k`-th statement on; `now k` is the time it takes. -/
def deleteChunks (sql : Sql V) (entity : EntityMeta) (soft : Option String) (withTrashed : Bool)
    (now : Nat → V) : Nat → List (List (Expr V)) → Nat → Table V → Except String (Nat × Table V)
  | _, [], total, table => .ok (total, table)
  | k, chunk :: rest, total, table =>
    match renderWhere entity chunk withTrashed with
    | none => .error "delete_where requires at least one filter"
    | some conds =>
      let statement := match soft with
        | some sd => Statement.update sd (now k) conds
        | none => .delete conds
      let (affected, table') := sql.exec table statement
      deleteChunks sql entity soft withTrashed now (k + 1) rest (total + affected) table'

/-- `limit` is the dialect's `max_params_per_stmt`. -/
def deleteWhere (sql : Sql V) (limit : Nat) (entity : EntityMeta) (filters : List (Expr V))
    (hard : Bool) (now : Nat → V) (table : Table V) : Except String (Nat × Table V) :=
  let soft := entity.softDelete.filter fun _ => !hard
  let budget := limit - soft.isSome.toNat
  deleteChunks sql entity soft hard now 0 (splitInFilters filters budget) 0 table

/-- A query in state `Filtered` has been given at least one filter. -/
structure FilteredQuery (V : Type) where
  filters : List (Expr V)
  filtered : filters ≠ []

namespace FilteredQuery

def deleteWhere (q : FilteredQuery V) (sql : Sql V) (limit : Nat) (entity : EntityMeta) (now : Nat → V)
    (table : Table V) : Except String (Nat × Table V) :=
  Orm.deleteWhere sql limit entity q.filters false now table

def hardDeleteWhere (q : FilteredQuery V) (sql : Sql V) (limit : Nat) (entity : EntityMeta)
    (now : Nat → V) (table : Table V) : Except String (Nat × Table V) :=
  Orm.deleteWhere sql limit entity q.filters true now table

def delete (q : FilteredQuery V) (hard : Bool) (sql : Sql V) (limit : Nat) (entity : EntityMeta)
    (now : Nat → V) (table : Table V) : Except String (Nat × Table V) :=
  if hard then q.hardDeleteWhere sql limit entity now table else q.deleteWhere sql limit entity now table

end FilteredQuery

end Ecat.Orm
