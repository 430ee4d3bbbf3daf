import Ecat.ShardJobs

/-! The migrator: the check of the source columns, backfill as a machine that makes at most one
call to a shard in a step, and verify over the data as it stands. Without a fence. -/

namespace Ecat.Shard

open Json

/-! ### Databases -/

/-- How the databases order primary keys, and how the text of a cursor is read. -/
structure Engine (K : Type) where
  pos : Value → K
  parse : String → Except String Value

/-- The rows of each table on each shard, the columns each shard reports for a table, and the jobs. -/
structure World where
  data : String → String → List Row
  columns : String → Option String → String → List Row
  jobs : Jobs

def World.setData (w : World) (shard table : String) (rows : List Row) : World :=
  { w with data := Function.update w.data shard (Function.update (w.data shard) table rows) }

/-- The number a database compares a column of numbers by. -/
def sqlNumber : Value → Option ℚ
  | .number (.int n _ _) => some n
  | .number (.float value _) => some value
  | _ => none

def keyWithin (range : Option KeyRange) (key : Option Value) : Bool :=
  range.all fun r =>
    r.low.all (fun low => (key.bind sqlNumber).any (low ≤ ·)) &&
      r.high.all (fun high => (key.bind sqlNumber).any (· < high))

section

variable {K : Type} [LinearOrder K]

def Engine.rowPos (E : Engine K) (pk : String) (row : Row) : K := E.pos ((row.get pk).getD .null)

/-- `SELECT * … WHERE pk > cursor AND key within range ORDER BY pk LIMIT limit`. -/
def Engine.select (E : Engine K) (t : ShardTable) (range : Option KeyRange) (cursor : Option Value)
    (limit : Nat) (rows : List Row) : List Row :=
  ((rows.filter fun row => cursor.all (E.pos · < E.rowPos t.pk row) && keyWithin range (row.get t.key)).insertionSort
    (E.rowPos t.pk · ≤ E.rowPos t.pk ·)).take limit

/-- `INSERT … ON CONFLICT (pk) DO UPDATE`. -/
def Engine.put (E : Engine K) (pk : String) (row : Row) (rows : List Row) : List Row :=
  rows.filter (fun other => E.rowPos pk other ≠ E.rowPos pk row) ++ [row]

end

/-! ### The migrator -/

structure ShardMigrator where
  plan : ShardPlan
  clients : List (String × Dialect)
  state : Dialect
  old : ShardCatalog
  new : ShardCatalog
  chunkSize : Nat

def checkMove (clients : List (String × Dialect)) (old new : ShardCatalog) (mv : ShardMove) :
    Except ShardError Unit := do
  let oldTable ← old.table mv.table
  let newTable ← new.table mv.table
  if oldTable.key ≠ newTable.key ∨ oldTable.pk ≠ newTable.pk then
    .error (.config s!"table `{mv.table}` changes key/pk; migration is unsupported")
  else if mv.fromShard ∉ oldTable.shardNames then
    .error (.config s!"move source shard `{mv.fromShard}` is not in the old catalog")
  else if mv.toShard ∉ newTable.shardNames then
    .error (.config s!"move target shard `{mv.toShard}` is not in the new catalog")
  else
    match [mv.fromShard, mv.toShard].find? (fun shard => !clients.any (·.1 = shard)) with
    | some shard => .error (.config s!"move references shard `{shard}` without a client")
    | none => .ok ()

def ShardMigrator.build (plan : ShardPlan) (clients : List (String × Dialect)) (state : Dialect)
    (old new : ShardCatalog) : Except ShardError ShardMigrator := do
  old.validate
  new.validate
  plan.moves.forM (checkMove clients old new)
  return ⟨plan, clients, state, old, new, 1000⟩

def ShardMigrator.withChunkSize (m : ShardMigrator) (n : Nat) : ShardMigrator := { m with chunkSize := max n 1 }

def ShardMigrator.client (m : ShardMigrator) (shard : String) : Except ShardError Dialect :=
  match m.clients.find? (·.1 = shard) with
  | some c => .ok c.2
  | none => .error (.config s!"no client for shard `{shard}`")

/-! ### Source columns -/

def Dialect.debug : Dialect → String
  | mySql => "MySql"
  | postgres => "Postgres"
  | sqlite => "Sqlite"
  | mssql => "Mssql"
  | standard => "Standard"

def rsplitOnce (sep : Char) (cs : List Char) : Option (List Char × List Char) :=
  if sep ∈ cs then
    some ((cs.reverse.dropWhile (· ≠ sep)).tail.reverse, (cs.reverse.takeWhile (· ≠ sep)).reverse)
  else none

def splitTable (table : String) : Except ShardError (Option String × String) :=
  let cs := table.toList
  let quoted := cs.any fun c => c.toNat ∈ [0x22, 0x60, 0x5B, 0x5D]
  if 1 < cs.count '.' ∨ (quoted ∧ '.' ∈ cs) then
    .error (.config (s!"migration preflight: table name `{table}` is not supported; only unquoted `table` " ++
      "or two-part `schema.table` / `db.table` names can be inspected. Three-part " ++
      "`db.schema.table` names and quoted identifiers containing dots are not supported; refusing to copy."))
  else
    match rsplitOnce '.' cs with
    | some (schema, name) => .ok (some (.ofList schema), .ofList name)
    | none => .ok (none, table)

def trimmed (text : String) : List Char :=
  ((text.toList.dropWhile isWhitespace).reverse.dropWhile isWhitespace).reverse

def mySqlBinary : List String :=
  ["binary", "varbinary", "tinyblob", "blob", "mediumblob", "longblob", "bit", "geometry", "point",
    "linestring", "polygon", "multipoint", "multilinestring", "multipolygon", "geometrycollection",
    "geomcollection", "vector"]

def isBinaryType (dialect : Dialect) (typeName : String) : Bool :=
  let normalized := (trimmed typeName).map Char.toLower
  match dialect with
  | .mySql => mySqlBinary.any (·.toList = normalized)
  | .postgres => normalized = "bytea".toList
  | .sqlite => normalized = [] ∨ "blob".toList <:+: normalized ∨ "binary".toList <:+: normalized
  | .mssql | .standard => false

def column (row : Row) : Except ShardError (String × String) := do
  return (← rowText "name" ((row.get "name").getD .null), ← rowText "data_type" ((row.get "data_type").getD .null))

def sourceColumns (w : World) (dialect : Dialect) (shard table : String) :
    Except ShardError (List (String × String)) := do
  let (schema, name) ← splitTable table
  if dialect = .mssql ∨ dialect = .standard then
    .error (.config (s!"migration preflight: dialect `{dialect.debug}` cannot be inspected for binary " ++
      "columns; refusing to copy"))
  else if w.columns shard schema name = [] then
    .error (.config (s!"migration preflight: cannot inspect source schema for table `{table}`; " ++
      "refusing to copy without column metadata"))
  else (w.columns shard schema name).mapM column

def checkColumn (dialect : Dialect) (table : String) (c : String × String) : Except ShardError Unit :=
  if isBinaryType dialect c.2 then
    .error (.config (s!"migration preflight: binary column `{table}`.`{c.1}` has type `{c.2}`; " ++
      "BLOB/BYTEA would be copied as base64 text and corrupted. " ++
      "Refusing to copy; use a native dump/restore tool for this table."))
  else .ok ()

def preflightMoves (m : ShardMigrator) (w : World) (inspected : List (String × String)) :
    List ShardMove → Except ShardError Unit
  | [] => .ok ()
  | mv :: moves =>
    if (mv.fromShard, mv.table) ∈ inspected then preflightMoves m w inspected moves
    else do
      let dialect ← m.client mv.fromShard
      (← sourceColumns w dialect mv.fromShard mv.table).forM (checkColumn dialect mv.table)
      preflightMoves m w ((mv.fromShard, mv.table) :: inspected) moves

def ShardMigrator.preflightSchema (m : ShardMigrator) (w : World) : Except ShardError Unit :=
  preflightMoves m w [] m.plan.moves

/-! ### Rows -/

def rowValue (row : Row) (col : String) : Except ShardError Value :=
  match row.get col with
  | some v => .ok v
  | none => .error (.database s!"migration row missing column `{col}`")

def rowChecksum (row : Row) : Except ShardError UInt64 := stableHash64 row.toObject

/-- Moves of a key range are filtered by the statement, full copies row by row. -/
def ShardMigrator.routesTo (m : ShardMigrator) (mv : ShardMove) (row : Row) : Except ShardError Bool :=
  if mv.keyRange.isSome then .ok true
  else do
    let table ← m.new.table mv.table
    return (← m.new.owner mv.table (← rowValue row table.key)) = mv.toShard

section

variable {K : Type} [LinearOrder K]

def ShardMigrator.scanChunk (m : ShardMigrator) (E : Engine K) (w : World) (shard : String) (t : ShardTable)
    (range : Option KeyRange) (cursor : Option Value) : List Row :=
  E.select t range cursor m.chunkSize (w.data shard t.name)

def ShardMigrator.upsertRow (m : ShardMigrator) (E : Engine K) (w : World) (mv : ShardMove) (row : Row) :
    Except ShardError World := do
  if (← m.client mv.toShard) = .mssql then .error .unsupportedDialect
  else
    let t ← m.new.table mv.table
    if row.columns = [] then .error (.database s!"row from `{mv.table}` has no columns")
    else return w.setData mv.toShard mv.table (E.put t.pk row (w.data mv.toShard mv.table))

/-! ### Backfill -/

structure MigrationReport where
  movedRows : Nat
  chunks : Nat
  verified : Bool
  deriving DecidableEq, Repr

/-- Before a move, before a scan, and among the rows of a batch. -/
inductive Point
  | next
  | scan (mv : ShardMove) (job : JobState) (cursor : Option Value)
  | copy (mv : ShardMove) (job : JobState) (last : Row) (batch : List Row) (copied : Nat)

/-- A running backfill, with the moves it has not started. -/
structure Backfill where
  point : Point
  moves : List ShardMove
  report : MigrationReport

def Backfill.begin (m : ShardMigrator) : Backfill := ⟨.next, m.plan.moves, ⟨0, 0, false⟩⟩

def u64Max : Nat := 2 ^ 64 - 1

def saturatingAdd (a b : Nat) : Nat := min (a + b) u64Max

def parseCursor (E : Engine K) (cursor : Option String) : Except ShardError (Option Value) :=
  match cursor with
  | none => .ok none
  | some text =>
    match E.parse text with
    | .ok v => .ok (some v)
    | .error e => .error (.database s!"migration cursor is invalid JSON: {e}")

def ShardMigrator.startMove (m : ShardMigrator) (E : Engine K) (w : World) (mv : ShardMove) :
    Except ShardError (Point × World) := do
  let (job, jobs) ← ensureJob m.state w.jobs mv
  if job.phase = .verified ∨ job.phase = .cutover ∨ job.phase = .done then return (.next, { w with jobs })
  else
    let again := { job with phase := .backfilling }
    let (job, jobs) ←
      if job.phase = .rolledBack then (do return (again, ← saveJob m.state jobs mv again)) else .ok (job, jobs)
    let _ ← m.client mv.fromShard
    let _ ← m.client mv.toShard
    let _ ← m.new.table mv.table
    return (.scan mv job (← parseCursor E job.cursor), { w with jobs })

def ShardMigrator.scanMove (m : ShardMigrator) (E : Engine K) (w : World) (mv : ShardMove) (job : JobState)
    (cursor : Option Value) : Except ShardError Point := do
  let t ← m.new.table mv.table
  let batch := m.scanChunk E w mv.fromShard t mv.keyRange cursor
  match batch.getLast? with
  | none => return .next
  | some last => return .copy mv job last batch 0

def JobState.count (job : JobState) (row : Row) : Except ShardError JobState := do
  if job.rows + 1 ≤ u64Max then
    return { job with rows := job.rows + 1, checksum := job.checksum ^^^ (← rowChecksum row) }
  else .error (.database "migration row count overflow")

def ShardMigrator.copyRow (m : ShardMigrator) (E : Engine K) (w : World) (mv : ShardMove) (job : JobState)
    (row : Row) : Except ShardError (Option JobState × World) := do
  if ← m.routesTo mv row then
    let w ← m.upsertRow E w mv row
    return (some (← job.count row), w)
  else return (none, w)

def ShardMigrator.saveChunk (m : ShardMigrator) (w : World) (mv : ShardMove) (job : JobState) (last : Row) :
    Except ShardError (Point × World) := do
  let t ← m.new.table mv.table
  let lastPk ← rowValue last t.pk
  let job := { job with cursor := some lastPk.toText, phase := .backfilling }
  return (.scan mv job (some lastPk), { w with jobs := ← saveJob m.state w.jobs mv job })

def ShardMigrator.step (m : ShardMigrator) (E : Engine K) (b : Backfill) (w : World) :
    Except ShardError (Backfill × World) :=
  match b.point, b.moves with
  | .next, [] => .ok (b, w)
  | .next, mv :: moves => do
    let (point, w) ← m.startMove E w mv
    return ({ b with point, moves }, w)
  | .scan mv job cursor, _ => do
    return ({ b with point := ← m.scanMove E w mv job cursor }, w)
  | .copy mv job last (row :: batch) copied, _ => do
    match ← m.copyRow E w mv job row with
    | (some job, w) => return ({ b with point := .copy mv job last batch (copied + 1) }, w)
    | (none, w) => return ({ b with point := .copy mv job last batch copied }, w)
  | .copy mv job last [] copied, _ => do
    let (point, w) ← m.saveChunk w mv job last
    let report := { b.report with
      movedRows := saturatingAdd b.report.movedRows copied, chunks := b.report.chunks + 1 }
    return ({ b with point, report }, w)

def Backfill.finished (b : Backfill) : Prop := b.point = .next ∧ b.moves = []

def ShardMigrator.Steps (m : ShardMigrator) (E : Engine K) (s s' : Backfill × World) : Prop :=
  ¬ s.1.finished ∧ m.step E s.1 s.2 = .ok s'

def ShardMigrator.Backfills (m : ShardMigrator) (E : Engine K) (w w' : World) : Prop :=
  m.preflightSchema w = .ok () ∧ ensureSchema m.state = .ok () ∧
    ∃ b, b.finished ∧ Relation.ReflTransGen (m.Steps E) (.begin m, w) (b, w')

end

end Ecat.Shard
