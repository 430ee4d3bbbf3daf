import Ecat.ArchiveJobs
import Ecat.Calendar
import Ecat.Json
import Ecat.SortedList

/-! Queries across the hot and the cold store: the range statements of both sides, how a store
reads them, and `query_range`, which asks one side or merges both around the boundary. -/

namespace Ecat.Tier

open Json
open Archive (TieringError validateIdent)

/-! ### Instants -/

def second : Int := 1000000000

/-- An instant in UTC, in nanoseconds from the Unix epoch, of the years -9999 to 9999. -/
structure OffsetDateTime where
  nanos : Int
  ge : -377705116800 * second ≤ nanos
  lt : nanos < 253402300800 * second

/-- The instant cut to whole seconds. -/
def OffsetDateTime.cut (t : OffsetDateTime) : Int := t.nanos / second * second

def fmtTime (t : OffsetDateTime) : String := Calendar.timeText (t.nanos / second)

theorem readTime_fmtTime (t : OffsetDateTime) : Calendar.readTime (fmtTime t) = some (t.nanos / second) := by
  have hge := t.ge
  have hlt := t.lt
  rw [second] at hge hlt
  rw [fmtTime, second]
  exact Calendar.readTime_timeText (by omega) (by omega)

/-! ### Statements -/

inductive Cmp
  | ge | le | lt
  deriving DecidableEq, Repr

def Cmp.sql : Cmp → String
  | ge => ">="
  | le => "<="
  | lt => "<"

def Cmp.holds : Cmp → Int → Int → Bool
  | ge, a, b => b ≤ a
  | le, a, b => a ≤ b
  | lt, a, b => a < b

/-- `SELECT * FROM table WHERE timeCol lower from AND timeCol upper to ORDER BY idCol LIMIT limit
OFFSET offset`. The hot side binds its four values, the cold side renders them into the text. -/
structure RangeStatement where
  table : String
  timeCol : String
  idCol : String
  lower : Cmp
  low : String
  upper : Cmp
  high : String
  limit : Nat
  offset : Nat
  deriving DecidableEq, Repr

def escapeSql (c : Char) : List Char := if c.toNat = 92 ∨ c.toNat = 39 then ['\\', c] else [c]

def sqlString (text : String) : String :=
  String.ofList (Char.ofNat 39 :: text.toList.flatMap escapeSql ++ [Char.ofNat 39])

def RangeStatement.hotText (st : RangeStatement) : String :=
  s!"SELECT * FROM `{st.table}` WHERE `{st.timeCol}` {st.lower.sql} ? AND `{st.timeCol}` " ++
    s!"{st.upper.sql} ? ORDER BY `{st.idCol}` LIMIT ? OFFSET ?"

def RangeStatement.coldText (st : RangeStatement) : String :=
  s!"SELECT * FROM {st.table} WHERE {st.timeCol} {st.lower.sql} {sqlString st.low} AND {st.timeCol} " ++
    s!"{st.upper.sql} {sqlString st.high} ORDER BY {st.idCol} ASC LIMIT {st.limit} OFFSET {st.offset}"

/-- Both stores read a time text as the instant it names. -/
def RangeStatement.selects (st : RangeStatement) (ts : Int) : Bool :=
  match Calendar.readTime st.low, Calendar.readTime st.high with
  | some low, some high => st.lower.holds ts (low * second) && st.upper.holds ts (high * second)
  | _, _ => false

structure TieredTable where
  name : String
  timeCol : String
  idCol : String
  hotDays : Nat
  deriving DecidableEq, Repr

def asI64 (n : Nat) (what : String) : Except TieringError Nat :=
  if (n : Int) ≤ i64Max then .ok n else .error (.config s!"{what} out of range: {n}")

def hotStatement (t : TieredTable) (low high : OffsetDateTime) (limit offset : Nat) :
    Except TieringError RangeStatement := do
  let limit ← asI64 limit "limit"
  let offset ← asI64 offset "offset"
  return ⟨t.name, t.timeCol, t.idCol, .ge, fmtTime low, .le, fmtTime high, limit, offset⟩

def buildRangeSql (table timeCol idCol low high : String) (limit offset : Nat) :
    Except TieringError RangeStatement := do
  validateIdent table
  validateIdent timeCol
  validateIdent idCol
  return ⟨table, timeCol, idCol, .ge, low, .lt, high, limit, offset⟩

/-- The table a ClickHouse cold query is bound to. -/
structure ClickhouseColdQuery where
  table : String
  timeCol : String
  idCol : String
  deriving DecidableEq, Repr

def ClickhouseColdQuery.statement (q : ClickhouseColdQuery) (table : String) (low high : OffsetDateTime)
    (params : List Value) (limit offset : Nat) : Except TieringError RangeStatement :=
  if table ≠ q.table then
    .error (.config s!"ClickHouse cold query is bound to table `{q.table}`, got `{table}`")
  else if params ≠ [] then
    .error (.config "ClickHouse cold query does not support bound parameters")
  else buildRangeSql q.table q.timeCol q.idCol (fmtTime low) (fmtTime high) limit offset

/-! ### Stores -/

/-- A stored row with the time in its time column. -/
structure Entry where
  row : Row
  ts : Int

def Entry.key (idCol : String) (e : Entry) : Value := (e.row.get idCol).getD .null

/-- `ORDER BY idCol LIMIT limit OFFSET offset` over the given rows. -/
def page (le : Value → Value → Bool) (idCol : String) (limit offset : Nat) (entries : List Entry) :
    List Row :=
  (((entries.insertionSort fun a b => le (a.key idCol) (b.key idCol)).drop offset).take limit).map (·.row)

/-- A hot table and the order its primary keys are sorted in. -/
structure HotStore where
  entries : List Entry
  le : Value → Value → Bool

def HotStore.query (hot : HotStore) (st : RangeStatement) : List Row :=
  page hot.le st.idCol st.limit st.offset (hot.entries.filter fun e => st.selects e.ts)

abbrev ColdQuery := String → OffsetDateTime → OffsetDateTime → List Value → Nat → Nat →
  Except TieringError (List Row)

structure TieredQuery where
  mySql : Bool
  hot : HotStore
  cold : ColdQuery
  tables : List TieredTable

/-! ### Merging -/

def typeRank : Value → Nat
  | .number _ => 0
  | .string _ => 1
  | .bool _ => 2
  | .null => 3
  | .array _ => 4
  | .object _ => 5

def cmpNumber (a b : Number) : Ordering :=
  match a.asI64, b.asI64 with
  | some a, some b => compare a b
  | _, _ => compare a.asF64 b.asF64

def cmpPk (a b : Value) : Ordering :=
  match a, b with
  | .number a, .number b => cmpNumber a b
  | .string a, .string b => compare a b
  | _, _ => (compare (typeRank a) (typeRank b)).then (compare a.toText b.toText)

def keyed (t : TieredTable) : List Row → Except TieringError (List (Value × Row))
  | [] => .ok []
  | row :: rows =>
    match row.get t.idCol with
    | none => .error (.state s!"row has no `{t.idCol}` column")
    | some key =>
      if key.isNull then .error (.state s!"row has a NULL `{t.idCol}` primary key")
      else do return (key, row) :: (← keyed t rows)

def sortDedupePaginate (t : TieredTable) (rows : List Row) (limit offset : Nat) :
    Except TieringError (List Row) := do
  let sorted := (← keyed t rows).insertionSort fun a b => (cmpPk a.1 b.1).isLE
  return (((dedupBy (fun a b => cmpPk a.1 b.1 = .eq) sorted).drop offset).take limit).map (·.2)

/-! ### The query -/

def day : Int := 86400 * second

/-- An instant out of range is a panic. -/
def OffsetDateTime.sub (t : OffsetDateTime) (nanos : Int) : Option OffsetDateTime :=
  if h : -377705116800 * second ≤ t.nanos - nanos ∧ t.nanos - nanos < 253402300800 * second then
    some ⟨t.nanos - nanos, h.1, h.2⟩
  else none

def TieredQuery.hotRange (q : TieredQuery) (t : TieredTable) (low high : OffsetDateTime) (limit offset : Nat) :
    Except TieringError (List Row) := do
  return q.hot.query (← hotStatement t low high limit offset)

/-- The part after the table has been found, for a known boundary. -/
def TieredQuery.queryAround (q : TieredQuery) (t : TieredTable) (boundary low high : OffsetDateTime)
    (params : List Value) (limit offset : Nat) : Except TieringError (List Row) :=
  if boundary.nanos ≤ high.nanos ∧ params ≠ [] then
    .error (.config (s!"params are cold-side only; the hot side cannot apply them " ++
      s!"(table `{t.name}`)"))
  else if boundary.nanos ≤ low.nanos then q.hotRange t low high limit offset
  else if high.nanos < boundary.nanos then q.cold t.name low high params limit offset
  else do
    let pushdown := Archive.saturatingAdd limit offset
    let hot ← q.hotRange t boundary high pushdown 0
    let cold ← q.cold t.name low boundary params pushdown 0
    sortDedupePaginate t (hot ++ cold) limit offset

/-- No result is a panic. -/
def TieredQuery.queryRange (q : TieredQuery) (now : OffsetDateTime) (table : String)
    (low high : OffsetDateTime) (params : List Value) (limit offset : Nat) :
    Option (Except TieringError (List Row)) :=
  if q.mySql then
    match q.tables.find? (·.name = table) with
    | none => some (.error (.config s!"unknown tiered table `{table}`"))
    | some t =>
      match (do validateIdent t.name; validateIdent t.timeCol; validateIdent t.idCol) with
      | .error e => some (.error e)
      | .ok _ => (now.sub (t.hotDays * day)).map fun boundary =>
          q.queryAround t boundary low high params limit offset
  else some (.error .unsupportedDialect)

end Ecat.Tier
