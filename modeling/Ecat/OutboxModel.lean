import Ecat.Safety
import Ecat.Trace
import Mathlib

/-! The transactional outbox: the table, `append`, `claim` and the two marks as single
steps on it, and the relay's `run_once` as a program over them. Payloads are stored as
they are: base64 gives back what it was given. -/

namespace Ecat.Outbox

inductive Dialect
  | standard | sqlite | postgres | mySql | mssql
  deriving DecidableEq, Repr

/-- The errors of `ShardError` that the outbox returns. -/
inductive ShardError
  | config (text : String)
  | unsupportedDialect
  | database (text : String)
  deriving DecidableEq, Repr

inductive OutboxStatus
  | pending | processing | done | failed
  deriving DecidableEq, Repr

def OutboxStatus.asStr : OutboxStatus → String
  | pending => "pending"
  | processing => "processing"
  | done => "done"
  | failed => "failed"

/-! ### Times -/

/-- Instants and durations are in nanoseconds, instants from the Unix epoch on. -/
def second : Int := 1000000000

/-- The range of an instant is the years -9999 to 9999. -/
def minTime : Int := -377705116800 * second

def yearZero : Int := -62167219200 * second

def maxTime : Int := 253402300800 * second - 1

def staleBackoff : Int := 30 * second

def checkedAdd (t d : Int) : Option Int :=
  if minTime ≤ t + d ∧ t + d ≤ maxTime then some (t + d) else none

/-- The order of the stored timestamps, which the database compares as text. From year zero on
their width is fixed and the order is that of time; before it they start with a minus sign, which
sorts before the digits. -/
structure Stamps where
  le : Int → Int → Bool
  le_iff : ∀ a b, yearZero ≤ a → yearZero ≤ b → (le a b = true ↔ a ≤ b)
  le_of_signed : ∀ a b, a < yearZero → yearZero ≤ b → le a b = true

/-! ### The table -/

structure OutboxRecord where
  id : String
  aggregate : String
  payload : List UInt8
  status : OutboxStatus
  attempts : UInt32
  nextAttemptAt : Int
  deriving DecidableEq, Repr

structure Row where
  id : String
  aggregate : String
  payload : List UInt8
  status : OutboxStatus
  attempts : Nat
  nextAttemptAt : Int
  claimedAt : Option Int
  deriving DecidableEq, Repr

def u32Max : Nat := 4294967295

/-- The largest value the `attempts` column holds. -/
def Dialect.capacity : Dialect → Nat
  | .mySql => 2147483647
  | _ => 9223372036854775807

def outOfRange : ShardError := .database "attempts out of range for its column"

/-- RFC 3339 has no years before zero. -/
def fromRow (row : Row) : Except ShardError OutboxRecord :=
  if u32Max < row.attempts then .error (.database "outbox attempts out of range")
  else if row.nextAttemptAt < yearZero then .error (.database "outbox timestamp is not RFC3339")
  else .ok ⟨row.id, row.aggregate, row.payload, row.status, UInt32.ofNat row.attempts, row.nextAttemptAt⟩

def fromRows : List Row → Except ShardError (List OutboxRecord)
  | [] => .ok []
  | row :: rows =>
    match fromRow row with
    | .error e => .error e
    | .ok record =>
      match fromRows rows with
      | .error e => .error e
      | .ok records => .ok (record :: records)

def append (dialect : Dialect) (r : OutboxRecord) (rows : List Row) : Except ShardError (List Row) :=
  if r.status ≠ .pending then
    .error (.config s!"outbox append requires Pending status, got `{r.status.asStr}`")
  else if dialect = .mssql then .error .unsupportedDialect
  else if dialect.capacity < r.attempts.toNat then .error outOfRange
  else if rows.any (·.id == r.id) then .error (.database "duplicate id")
  else .ok (rows ++ [⟨r.id, r.aggregate, r.payload, .pending, r.attempts.toNat, r.nextAttemptAt, none⟩])

section Claim

variable (stamps : Stamps)

def Row.stale (cutoff : Int) (row : Row) : Bool :=
  row.status == .processing && row.claimedAt.any fun c => !stamps.le cutoff c

def Row.reclaim (staleNext : Int) (row : Row) : Row :=
  { row with status := .pending, claimedAt := none, attempts := row.attempts + 1, nextAttemptAt := staleNext }

def Row.due (now : Int) (row : Row) : Bool :=
  (row.status == .pending || row.status == .failed) && stamps.le row.nextAttemptAt now

/-- `ORDER BY next_attempt_at, id`. -/
def Row.before (a b : Row) : Bool :=
  if stamps.le a.nextAttemptAt b.nextAttemptAt && stamps.le b.nextAttemptAt a.nextAttemptAt then
    decide (a.id ≤ b.id)
  else stamps.le a.nextAttemptAt b.nextAttemptAt

def reclaimStale (cutoff staleNext : Int) (rows : List Row) : List Row :=
  rows.map fun row => if row.stale stamps cutoff then row.reclaim staleNext else row

def selectDue (limit : Nat) (now : Int) (rows : List Row) : List Row :=
  ((rows.filter (·.due stamps now)).insertionSort fun a b => a.before stamps b = true).take limit

def leaseRows (ids : List String) (now : Int) (rows : List Row) : List Row :=
  rows.map fun row =>
    if row.id ∈ ids then { row with status := .processing, claimedAt := some now } else row

/-- The transaction of `claim`; on an error it is rolled back. -/
def claimTx (dialect : Dialect) (limit : Nat) (now cutoff staleNext : Int) (rows : List Row) :
    Except ShardError (List OutboxRecord × List Row) :=
  if rows.any fun row => row.stale stamps cutoff && decide (dialect.capacity ≤ row.attempts) then
    .error outOfRange
  else
    let reclaimed := reclaimStale stamps cutoff staleNext rows
    match fromRows (selectDue stamps limit now reclaimed) with
    | .error e => .error e
    | .ok records =>
      if records.isEmpty then .ok ([], reclaimed)
      else .ok (records.map fun r => { r with status := .processing },
        leaseRows (records.map (·.id)) now reclaimed)

def claim (dialect : Dialect) (limit : UInt32) (lease now : Int) (rows : List Row) :
    Except ShardError (List OutboxRecord × List Row) :=
  if limit = 0 then .ok ([], rows)
  else if dialect = .mssql then .error .unsupportedDialect
  else
    match checkedAdd now (-lease) with
    | none => .error (.config "outbox lease out of range")
    | some cutoff =>
      match checkedAdd now staleBackoff with
      | none => .error (.config "outbox stale backoff out of range")
      | some staleNext => claimTx stamps dialect limit.toNat now cutoff staleNext rows

end Claim

def Row.markedDone (row : Row) : Row := { row with status := .done }

def Row.markedFailed (next : Int) (row : Row) : Row :=
  { row with status := .failed, attempts := row.attempts + 1, nextAttemptAt := next, claimedAt := none }

def updateProcessing (id : String) (f : Row → Row) (rows : List Row) : List Row :=
  rows.map fun row => if row.id = id ∧ row.status = .processing then f row else row

def markDone (dialect : Dialect) (id : String) (rows : List Row) : Except ShardError (List Row) :=
  if dialect = .mssql then .error .unsupportedDialect
  else .ok (updateProcessing id Row.markedDone rows)

def markFailed (dialect : Dialect) (id : String) (retryAfter now : Int) (rows : List Row) :
    Except ShardError (List Row) :=
  if dialect = .mssql then .error .unsupportedDialect
  else
    match checkedAdd now retryAfter with
    | none => .error (.config "outbox retry_after out of range")
    | some next =>
      if rows.any fun row => row.id == id && row.status == .processing &&
          decide (dialect.capacity ≤ row.attempts) then
        .error outOfRange
      else .ok (updateProcessing id (·.markedFailed next) rows)

/-! ### Calls -/

/-- What happened, in order. A mark is kept with the row of its id before and after it. -/
inductive Event (T : Type)
  | appended (record : OutboxRecord)
  | claimed (worker : T) (id : String)
  | handled (record : OutboxRecord) (ok : Bool)
  | marked (worker : T) (id : String) (before after : Option Row)
  deriving DecidableEq, Repr

/-- `log` is a history that no program reads. -/
structure World (T : Type) where
  now : Int
  rows : List Row
  log : List (Event T)

inductive Op
  | append (r : OutboxRecord)
  | claim (limit : UInt32) (lease : Int)
  | handle (record : OutboxRecord)
  | markDone (id : String)
  | markFailed (id : String) (retryAfter : Int)

abbrev Res : Op → Type
  | .append _ | .markDone _ | .markFailed .. => Except ShardError Unit
  | .claim .. => Except ShardError (List OutboxRecord)
  | .handle _ => Except String Unit

/-- What the surroundings choose at a call: how a handler ends, or whether a call of the
store is lost, before or after its effect. -/
inductive Reply
  | ok
  | lost (applied : Bool) (e : ShardError)
  | handled (outcome : Except String Unit)

def Reply.outcome : Reply → Except String Unit
  | .handled outcome => outcome
  | _ => .ok ()

variable {T : Type}

/-- A call of the store takes effect as a whole or not at all. -/
def attempt {α : Type} (c : Reply) (w : World T) : Except ShardError (α × World T) →
    Except ShardError α × World T
  | .error e => (.error e, w)
  | .ok (answer, w') =>
    match c with
    | .lost applied e => (.error e, if applied then w' else w)
    | _ => (.ok answer, w')

def findRow (id : String) (rows : List Row) : Option Row := rows.find? (·.id == id)

def World.update (w : World T) (rows : List Row) (events : List (Event T)) : World T :=
  { w with rows, log := w.log ++ events }

def World.mark (w : World T) (t : T) (id : String) (rows : List Row) : World T :=
  w.update rows [.marked t id (findRow id w.rows) (findRow id rows)]

def exec (stamps : Stamps) (dialect : Dialect) (t : T) : (o : Op) → Reply → World T → Res o × World T
  | .append r, c, w => attempt c w ((append dialect r w.rows).map fun rows =>
      ((), w.update rows [.appended r]))
  | .claim limit lease, c, w => attempt c w ((claim stamps dialect limit lease w.now w.rows).map
      fun result => (result.1, w.update result.2 (result.1.map fun r => .claimed t r.id)))
  | .handle record, c, w =>
    (c.outcome, w.update w.rows [.handled record c.outcome.isOk])
  | .markDone id, c, w => attempt c w ((markDone dialect id w.rows).map fun rows => ((), w.mark t id rows))
  | .markFailed id retryAfter, c, w => attempt c w
      ((markFailed dialect id retryAfter w.now w.rows).map fun rows => ((), w.mark t id rows))

/-! ### The relay -/

abbrev Proc := CallTree Op Res

abbrev perform (o : Op) : Proc (Res o) := CallTree.perform o

structure RelayReport where
  claimed : Nat
  done : Nat
  failed : Nat
  deriving DecidableEq, Repr

def baseBackoff : Int := second

def maxBackoff : Int := 3600 * second

def backoff (attempts : UInt32) : Int := min (baseBackoff * 2 ^ min attempts.toNat 20) maxBackoff

def deliver : List OutboxRecord → RelayReport → Proc (Except ShardError RelayReport)
  | [], report => return .ok report
  | record :: rest, report => do
    match ← perform (.handle record) with
    | .ok _ =>
      match ← perform (.markDone record.id) with
      | .error e => return .error e
      | .ok _ => deliver rest { report with done := report.done + 1 }
    | .error _ =>
      match ← perform (.markFailed record.id (backoff record.attempts)) with
      | .error e => return .error e
      | .ok _ => deliver rest { report with failed := report.failed + 1 }

def runOnce (batch : UInt32) (lease : Int) : Proc (Except ShardError RelayReport) :=
  if batch = 0 then return .error (.config "outbox relay batch must be > 0")
  else if lease = 0 then return .error (.config "outbox relay lease must be > 0")
  else do
    match ← perform (.claim batch lease) with
    | .error e => return .error e
    | .ok records => deliver records ⟨min records.length u32Max, 0, 0⟩

end Ecat.Outbox
