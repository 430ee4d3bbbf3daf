import Ecat.Safety
import Mathlib

/-! Archiving one partition: the chunk state table, the cold sink, and
`archive_partition` as a program over them. The sink may keep something else than
it was given; what it is trusted with is that `verify_chunk` returns true only
when the stored rows have the given checksum. -/

namespace Ecat.Archive

structure Row where
  id : Int
  data : String
  deriving DecidableEq, Repr

inductive Phase
  | pending | copied | verified | dropped
  deriving DecidableEq, Repr

def Phase.asStr : Phase → String
  | pending => "pending"
  | copied => "copied"
  | verified => "verified"
  | dropped => "dropped"

def Phase.predecessor : Phase → Option Phase
  | pending => none
  | copied => some pending
  | verified => some copied
  | dropped => some verified

structure JobState (S : Type) where
  lowId : Int
  highId : Int
  rows : Nat
  checksum : Option S
  phase : Phase
  updatedAt : Nat
  deriving DecidableEq, Repr

inductive TieringError
  | config (text : String)
  | db (text : String)
  | cold (text : String)
  | state (text : String)
  | unsupportedDialect
  deriving DecidableEq, Repr

structure Report where
  chunks : Nat
  rows : Nat
  droppedPartitions : Nat
  skippedDrops : Nat
  deriving DecidableEq, Repr

/-- The settings `archive_partition` reads; durations and times are in nanoseconds. -/
structure Config where
  table : String
  partition : String
  idCol : String
  batchSize : Nat
  runTimeout : Nat
  maxRowsPerSec : Option Nat
  retainDays : Nat
  filter : Option (Row → Bool)
  dryRun : Bool

/-- `hot` is the partition, gone once dropped; `counted` remembers what the last
row count saw and is read by no program. -/
structure World (S : Type) where
  hot : Option (List Row)
  jobs : Nat → Option (JobState S)
  cold : Nat → List Row
  counted : List Row

inductive Op (S : Type)
  | elapsed
  | now
  | wait (delay : Nat)
  | load (n : Nat)
  | upsert (n : Nat) (st : JobState S)
  | update (n : Nat) (target : Phase) (checksum : Option S) (time : Nat)
  | readChunk (cursor : Int)
  | writeChunk (n : Nat) (rows : List Row)
  | verifyChunk (n : Nat) (checksum : S)
  | countRows
  | dropPartition

abbrev Res {S : Type} : Op S → Type
  | .elapsed | .now => Nat
  | .wait _ => Unit
  | .load _ => Except TieringError (Option (JobState S))
  | .upsert .. | .dropPartition => Except TieringError Unit
  | .update .. | .countRows => Except TieringError Nat
  | .readChunk _ => Except TieringError (List Row)
  | .writeChunk .. => Except TieringError S
  | .verifyChunk .. => Except TieringError Bool

/-- What the surroundings choose at a call: the time, whether it is lost (before
or after its effect), what the sink keeps of a written chunk, and whether it
doubts a chunk that does match. -/
structure Reply where
  time : Nat
  lost : Option (Bool × TieringError)
  stored : Option (List Row)
  doubt : Bool

def Reply.ok : Reply := ⟨0, none, none, false⟩

def Reply.at (time : Nat) : Reply := ⟨time, none, none, false⟩

def i64Min : Int := -2 ^ 63
def i64Max : Int := 2 ^ 63 - 1
def u64Max : Nat := 2 ^ 64 - 1

def asI64 (v : Int) : Option Int := if i64Min ≤ v ∧ v ≤ i64Max then some v else none

variable {S : Type}

def World.setJob (w : World S) (n : Nat) (st : JobState S) : World S :=
  { w with jobs := Function.update w.jobs n (some st) }

/-- `UPDATE … SET phase, checksum = COALESCE(?, checksum), updated_at WHERE … AND phase = ?`. -/
def JobState.enter (st : JobState S) (target : Phase) (checksum : Option S) (time : Nat) : JobState S :=
  { st with phase := target, checksum := checksum.or st.checksum, updatedAt := time }

def World.update (w : World S) (n : Nat) (target : Phase) (checksum : Option S) (time : Nat) :
    Nat × World S :=
  match w.jobs n with
  | some st =>
    if some st.phase = target.predecessor then (1, w.setJob n (st.enter target checksum time)) else (0, w)
  | none => (0, w)

def selectChunk (cfg : Config) (cursor : Int) (rows : List Row) : List Row :=
  ((rows.filter fun r => cursor < r.id ∧ cfg.filter.all (· r)).insertionSort (·.id ≤ ·.id)).take cfg.batchSize

def attempt {α : Type} (c : Reply) (answer : Except TieringError α) (w w' : World S) :
    Except TieringError α × World S :=
  match c.lost with
  | none => (answer, w')
  | some (applied, e) => (.error e, if applied then w' else w)

def unknownPartition (cfg : Config) : TieringError := .db s!"Unknown partition '{cfg.partition}'"

def exec [DecidableEq S] (cfg : Config) (digest : List Row → S) :
    (o : Op S) → Reply → World S → Res o × World S
  | .elapsed, c, w => (c.time, w)
  | .now, c, w => (c.time, w)
  | .wait _, _, w => ((), w)
  | .load n, c, w => attempt c (.ok (w.jobs n)) w w
  | .upsert n st, c, w => attempt c (.ok ()) w (w.setJob n st)
  | .update n target checksum time, c, w =>
    attempt c (.ok (w.update n target checksum time).1) w (w.update n target checksum time).2
  | .readChunk cursor, c, w =>
    attempt c (w.hot.elim (.error (unknownPartition cfg)) fun rows => .ok (selectChunk cfg cursor rows)) w w
  | .writeChunk n rows, c, w =>
    attempt c (.ok (digest rows)) w { w with cold := Function.update w.cold n (c.stored.getD rows) }
  | .verifyChunk n checksum, c, w => attempt c (.ok (digest (w.cold n) = checksum ∧ c.doubt = false)) w w
  | .countRows, c, w =>
    match w.hot with
    | none => attempt c (.error (unknownPartition cfg)) w w
    | some rows => attempt c (if rows.length < 2 ^ 63 then .ok rows.length
        else .error (.state "total_rows query returned no count")) w { w with counted := rows }
  | .dropPartition, c, w =>
    attempt c (w.hot.elim (.error (unknownPartition cfg)) fun _ => .ok ()) w { w with hot := none }

abbrev Proc (S : Type) := CallTree (Op S) Res

abbrev perform (o : Op S) : Proc S (Res o) := CallTree.perform o

def outOfRange (col : String) : TieringError := .state s!"archive state `{col}` exceeds i64 range"

def load (n : Nat) : Proc S (Except TieringError (Option (JobState S))) :=
  if i64Max < n then return .error (outOfRange "chunk") else perform (.load n)

def upsert (n : Nat) (st : JobState S) : Proc S (Except TieringError Unit) :=
  if i64Max < n then return .error (outOfRange "chunk")
  else if i64Max < st.rows then return .error (outOfRange "rows")
  else perform (.upsert n st)

def advance (cfg : Config) (n : Nat) (target : Phase) (checksum : Option S) :
    Proc S (Except TieringError Unit) := do
  if target.predecessor = none then
    return .error (.state s!"archive phase `{target.asStr}` has no legal predecessor")
  else
    let time ← perform .now
    if i64Max < n then return .error (outOfRange "chunk")
    else
      match ← perform (.update n target checksum time) with
      | .error e => return .error e
      | .ok (_ + 1) => return .ok ()
      | .ok 0 =>
        match ← load (S := S) n with
        | .error e => return .error e
        | .ok none => return .error (.state s!"archive job {cfg.table}/{cfg.partition}/{n} not found")
        | .ok (some current) => return .error (.state
            (s!"invalid archive phase transition {current.phase.asStr} -> {target.asStr} " ++
              s!"for {cfg.table}/{cfg.partition}/{n}"))

def idBoundsFrom (cfg : Config) (bounds : Option (Int × Int)) :
    List Row → Except TieringError (Option (Int × Int))
  | [] => .ok bounds
  | row :: rows =>
    match asI64 row.id with
    | none => .error (.state s!"archive chunk row has no integer `{cfg.idCol}`")
    | some id =>
      match bounds with
      | none => idBoundsFrom cfg (some (id, id)) rows
      | some (low, high) => idBoundsFrom cfg (some (min low id, max high id)) rows

def idBounds (cfg : Config) (rows : List Row) : Except TieringError (Option (Int × Int)) :=
  idBoundsFrom cfg none rows

def saturatingAdd (a b : Nat) : Nat := min (a + b) u64Max

/-- The variables of the chunk loop. -/
structure Walk where
  cursor : Int
  chunk : Nat
  allVerified : Bool
  verifiedAt : Option Nat
  copiedAny : Bool
  archivedRows : Nat
  report : Report
  deriving DecidableEq, Repr

def Walk.begin (report : Report) : Walk := ⟨i64Min, 0, true, none, false, 0, report⟩

def Walk.pass (k : Walk) (rows : Nat) (high : Int) : Walk :=
  { k with
    archivedRows := saturatingAdd k.archivedRows rows
    copiedAny := true
    cursor := high
    chunk := k.chunk + 1 }

def Walk.sight (k : Walk) (time : Nat) : Walk :=
  { k with verifiedAt := some (match k.verifiedAt with | some t => max t time | none => time) }

def Walk.settle (k : Walk) : Option Nat → Walk
  | some time => { k with verifiedAt := some time }
  | none => { k with allVerified := false }

def Walk.reported (k : Walk) (rows : Nat) : Walk :=
  { k with report := { k.report with chunks := k.report.chunks + 1, rows := k.report.rows + rows } }

inductive Turn
  | next (k : Walk)
  | done (k : Walk) (complete : Bool)
  | dropped (k : Walk)

def verifyAndAdvance (cfg : Config) (n : Nat) (checksum : S) :
    Proc S (Except TieringError (Option Nat)) := do
  match ← perform (.verifyChunk n checksum) with
  | .error e => return .error e
  | .ok false => return .ok none
  | .ok true =>
    match ← advance (S := S) cfg n .verified none with
    | .error e => return .error e
    | .ok _ => return .ok (some (← perform .now))

def resumeCopied (cfg : Config) (k : Walk) (st : JobState S) : Proc S (Except TieringError Turn) := do
  if cfg.dryRun then return .ok (.next { k with cursor := st.highId, chunk := k.chunk + 1 })
  else
    match st.checksum with
    | none => return .error (.state s!"{cfg.table} {cfg.partition}/{k.chunk} is copied without checksum")
    | some checksum =>
      match ← verifyAndAdvance cfg k.chunk checksum with
      | .error e => return .error e
      | .ok outcome => return .ok (.next ((k.settle outcome).pass st.rows st.highId))

def throttleDelay (rows rowsPerSec elapsed : Nat) : Nat :=
  if rowsPerSec = 0 then 0 else rows * 10 ^ 9 / rowsPerSec - elapsed

def throttle (cfg : Config) (k : Walk) : Proc S Unit := do
  match cfg.maxRowsPerSec with
  | some (rate + 1) =>
    let delay := throttleDelay k.report.rows (rate + 1) (← perform .elapsed)
    if delay ≠ 0 then perform (.wait delay) else return ()
  | _ => return ()

/-- `upsert` only seeds a new state row; an existing one moves by `advance` alone. -/
def seedChunk (n : Nat) (seeded : Bool) (rows : Nat) (low high : Int) (checksum : S) :
    Proc S (Except TieringError Unit) :=
  if seeded then return .ok ()
  else do
    let time ← perform .now
    upsert n ⟨low, high, rows, some checksum, .pending, time⟩

def storeChunk (cfg : Config) (k : Walk) (seeded : Bool) (rows : List Row) (low high : Int) :
    Proc S (Except TieringError Turn) := do
  match ← perform (.writeChunk k.chunk rows) with
  | .error e => return .error e
  | .ok checksum =>
    match ← seedChunk k.chunk seeded rows.length low high checksum with
    | .error e => return .error e
    | .ok _ =>
      match ← advance cfg k.chunk .copied (some checksum) with
      | .error e => return .error e
      | .ok _ =>
        match ← verifyAndAdvance cfg k.chunk checksum with
        | .error e => return .error e
        | .ok outcome =>
          let k' := ((k.settle outcome).pass rows.length high).reported rows.length
          throttle cfg k'
          return .ok (.next k')

def copyChunk (cfg : Config) (k : Walk) (seeded : Bool) : Proc S (Except TieringError Turn) := do
  match ← perform (.readChunk k.cursor) with
  | .error e => return .error e
  | .ok rows =>
    match idBounds cfg rows with
    | .error e => return .error e
    | .ok none => return .ok (.done k true)
    | .ok (some (low, high)) =>
      if cfg.dryRun then
        return .ok (.next { k.reported rows.length with cursor := high, chunk := k.chunk + 1 })
      else storeChunk cfg k seeded rows low high

def turn (cfg : Config) (k : Walk) : Proc S (Except TieringError Turn) := do
  if cfg.runTimeout ≤ (← perform .elapsed) then return .ok (.done k false)
  else
    match ← load (S := S) k.chunk with
    | .error e => return .error e
    | .ok none => copyChunk cfg k false
    | .ok (some st) =>
      match st.phase with
      | .dropped => return .ok (.dropped k)
      | .verified => return .ok (.next ((k.sight st.updatedAt).pass st.rows st.highId))
      | .copied => resumeCopied cfg k st
      | .pending => copyChunk cfg k true

def retentionPassed (cfg : Config) : Option Nat → Proc S Bool
  | none => return false
  | some verifiedAt => return verifiedAt + cfg.retainDays * (86400 * 10 ^ 9) ≤ (← perform .now)

def rowCountMatches (archivedRows : Nat) : Proc S (Except TieringError Bool) := do
  match ← perform .countRows with
  | .error e => return .error e
  | .ok actual => return .ok (actual = archivedRows)

def markDropped (cfg : Config) : List Nat → Proc S (Except TieringError Unit)
  | [] => return .ok ()
  | n :: ns => do
    match ← advance (S := S) cfg n .dropped none with
    | .error e => return .error e
    | .ok _ => markDropped cfg ns

def dropAndMark (cfg : Config) (k : Walk) : Proc S (Except TieringError Report) := do
  match ← perform .dropPartition with
  | .error e => return .error e
  | .ok _ =>
    match ← markDropped (S := S) cfg (List.range k.chunk) with
    | .error e => return .error e
    | .ok _ => return .ok { k.report with droppedPartitions := k.report.droppedPartitions + 1 }

def finish (cfg : Config) (k : Walk) (complete : Bool) : Proc S (Except TieringError Report) := do
  if complete ∧ k.allVerified ∧ k.copiedAny ∧ cfg.filter.isNone ∧ ¬cfg.dryRun then
    if ← retentionPassed cfg k.verifiedAt then
      match ← rowCountMatches k.archivedRows with
      | .error e => return .error e
      | .ok false => return .ok { k.report with skippedDrops := k.report.skippedDrops + 1 }
      | .ok true => dropAndMark cfg k
    else return .ok k.report
  else return .ok k.report

/-- The chunk loop. A chunk number beyond `i64` makes `load` fail, so `2 ^ 63 + 1`
turns are enough for every run. -/
def walk (cfg : Config) : Nat → Walk → Proc S (Except TieringError Report)
  | 0, k => return .ok k.report
  | fuel + 1, k => do
    match ← turn cfg k with
    | .error e => return .error e
    | .ok (.next k') => walk cfg fuel k'
    | .ok (.done k' complete) => finish cfg k' complete
    | .ok (.dropped k') => return .ok k'.report

def archivePartition (cfg : Config) (report : Report) : Proc S (Except TieringError Report) :=
  walk cfg (2 ^ 63 + 1) (Walk.begin report)

end Ecat.Archive
