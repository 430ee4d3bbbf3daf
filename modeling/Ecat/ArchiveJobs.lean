import Ecat.ArchiveModel

/-! `ArchiveJob::run_once`: the window, the optional lock and the walk over all tables and
partitions, with any number of such runs over one state table. What the lock answers, which
partitions exist and how many of their rows are hot is up to the surroundings. -/

namespace Ecat.Archive

structure TableTieringConfig where
  name : String
  timeCol : String
  idCol : String
  retentionDays : Nat
  filter : Option (Row → Bool)

/-- The configuration with the job's own settings: whether it has a lock, whether its hot store
speaks MySQL, and how long a run may take. -/
structure TieringConfig where
  hotDays : Nat
  partitionMonths : Nat
  tables : List TableTieringConfig
  batchSize : Nat
  maxRowsPerSec : Option Nat
  retainS3Days : Nat
  window : Option String
  dryRun : Bool
  lock : Bool
  mySql : Bool
  runTimeout : Nat

/-! ### Validation -/

def isIdentHead (c : Char) : Bool := c.isAlpha || c = '_'

def isIdentTail (c : Char) : Bool := c.isAlphanum || c = '_'

def validateIdent (s : String) : Except TieringError Unit :=
  match s.toList with
  | c :: cs =>
    if isIdentHead c && cs.all isIdentTail then .ok ()
    else .error (.config s!"invalid identifier `{s}`: expected ^[A-Za-z_][A-Za-z0-9_]*$")
  | [] => .error (.config s!"invalid identifier `{s}`: expected ^[A-Za-z_][A-Za-z0-9_]*$")

def splitOnce (sep : Char) : List Char → Option (List Char × List Char)
  | [] => none
  | c :: cs => if c = sep then some ([], cs) else (splitOnce sep cs).map fun p => (c :: p.1, p.2)

def digitsToNat (cs : List Char) : Option Nat :=
  cs.foldlM (fun n c => if c.isDigit then some (n * 10 + (c.toNat - '0'.toNat)) else none) 0

def parseU32 (cs : List Char) : Option Nat :=
  let digits := if cs.head? = some '+' then cs.tail else cs
  if digits = [] then none else (digitsToNat digits).filter (· < 2 ^ 32)

def windowError (window : String) : TieringError :=
  .config s!"invalid window `{window}`: expected `HH:MM-HH:MM` in UTC"

def parseHhmm (part : List Char) (window : String) : Except TieringError Nat :=
  match splitOnce ':' part with
  | none => .error (windowError window)
  | some (hour, minute) =>
    match parseU32 hour, parseU32 minute with
    | some h, some m =>
      if hour.length ≠ 2 ∨ minute.length ≠ 2 ∨ 23 < h ∨ 59 < m then .error (windowError window)
      else .ok (h * 60 + m)
    | _, _ => .error (windowError window)

def parseWindow (window : String) : Except TieringError (Nat × Nat) := do
  match splitOnce '-' window.toList with
  | none => .error (windowError window)
  | some (first, last) =>
    let first ← parseHhmm first window
    let last ← parseHhmm last window
    if first = last then .error (windowError window) else .ok (first, last)

def TieringConfig.windowBounds (c : TieringConfig) : Except TieringError (Option (Nat × Nat)) :=
  match c.window with
  | none => .ok none
  | some window => (parseWindow window).map some

def validateTables (hotDays : Nat) : List TableTieringConfig → Except TieringError Unit
  | [] => .ok ()
  | table :: tables => do
    validateIdent table.name
    validateIdent table.timeCol
    validateIdent table.idCol
    if table.retentionDays < hotDays then
      .error (.config (s!"table `{table.name}`: retention_days ({table.retentionDays}) " ++
        s!"must be >= hot_days ({hotDays})"))
    else validateTables hotDays tables

def TieringConfig.validate (c : TieringConfig) : Except TieringError Unit := do
  let _ ← c.windowBounds
  if c.hotDays = 0 then .error (.config "hot_days must be > 0")
  else if c.partitionMonths = 0 then .error (.config "partition_months must be > 0")
  else validateTables c.hotDays c.tables

/-- Bounds are minutes of the UTC day; a window that ends before it starts spans midnight. -/
def windowAllows (window : Option (Nat × Nat)) (now : Nat) : Bool :=
  match window with
  | none => true
  | some (first, last) =>
    let minute := now / (60 * 10 ^ 9) % 1440
    if first < last then first ≤ minute ∧ minute < last else first ≤ minute ∨ minute < last

/-! ### A run -/

inductive JobOp (S : Type)
  | nowUtc
  | acquire
  | release (token : String)
  | partitions (table : String)
  | hotRows (table partition : String) (cutoff : Int)
  | part (cfg : Config) (o : Op S)

abbrev JobRes {S : Type} : JobOp S → Type
  | .nowUtc => Nat
  | .acquire => Except String (Option String)
  | .release _ => Except String Unit
  | .partitions _ => Except TieringError (List String)
  | .hotRows .. => Except TieringError Int
  | .part _ o => Res o

structure JobReply where
  time : Nat
  acquired : Except String (Option String)
  released : Except String Unit
  names : Except TieringError (List String)
  hot : Except TieringError Int
  inner : Reply

/-- The state table and the partitions, by table and partition name. -/
abbrev Store (S : Type) := String × String → World S

variable {S : Type}

def jobExec [DecidableEq S] (digest : List Row → S) :
    (o : JobOp S) → JobReply → Store S → JobRes o × Store S
  | .nowUtc, c, w => (c.time, w)
  | .acquire, c, w => (c.acquired, w)
  | .release _, c, w => (c.released, w)
  | .partitions _, c, w => (c.names, w)
  | .hotRows .., c, w => (c.hot, w)
  | .part cfg o, c, w =>
    let answer := exec cfg digest o c.inner (w (cfg.table, cfg.partition))
    (answer.1, Function.update w (cfg.table, cfg.partition) answer.2)

abbrev JobProc (S : Type) := CallTree (JobOp S) JobRes

def ask (o : JobOp S) : JobProc S (JobRes o) := CallTree.perform o

def inPartition {α : Type} (cfg : Config) : Proc S α → JobProc S α
  | .ret a => .ret a
  | .call o k => .call (.part cfg o) fun r => inPartition cfg (k r)

def TieringConfig.partitionConfig (c : TieringConfig) (table : TableTieringConfig) (partition : String) :
    Config :=
  ⟨table.name, partition, table.idCol, c.batchSize, c.runTimeout, c.maxRowsPerSec, c.retainS3Days,
    table.filter, c.dryRun⟩

def archivePartitions (c : TieringConfig) (table : TableTieringConfig) :
    List String → Report → JobProc S (Except TieringError Report)
  | [], report => return .ok report
  | partition :: rest, report => do
    match validateIdent partition with
    | .error e => return .error e
    | .ok _ =>
      let now ← ask .nowUtc
      match ← ask (.hotRows table.name partition (now - c.hotDays * (86400 * 10 ^ 9))) with
      | .error e => return .error e
      | .ok hot =>
        if 0 < hot then archivePartitions c table rest report
        else
          match ← inPartition (c.partitionConfig table partition)
              (archivePartition (S := S) (c.partitionConfig table partition) report) with
          | .error e => return .error e
          | .ok report' => archivePartitions c table rest report'

def listPartitions (c : TieringConfig) (table : String) : JobProc S (Except TieringError (List String)) :=
  if c.mySql then ask (.partitions table) else return .error .unsupportedDialect

def archiveTables (c : TieringConfig) :
    List TableTieringConfig → Report → JobProc S (Except TieringError Report)
  | [], report => return .ok report
  | table :: tables, report => do
    match (do validateIdent table.name; validateIdent table.timeCol; validateIdent table.idCol) with
    | .error e => return .error e
    | .ok _ =>
      match ← listPartitions c table.name with
      | .error e => return .error e
      | .ok names =>
        match ← archivePartitions c table names report with
        | .error e => return .error e
        | .ok report' => archiveTables c tables report'

structure RunReport where
  report : Report
  dryRun : Bool
  skipped : Bool
  deriving DecidableEq, Repr

def archiveAll (c : TieringConfig) (token : Option String) : JobProc S (Except TieringError RunReport) := do
  let result ← archiveTables (S := S) c c.tables ⟨0, 0, 0, 0⟩
  match token with
  | some token => let _ ← ask (.release token)
  | none => pure ()
  return result.map fun report => ⟨report, c.dryRun, false⟩

def runOnce (c : TieringConfig) : JobProc S (Except TieringError RunReport) := do
  let skipped : RunReport := ⟨⟨0, 0, 0, 0⟩, c.dryRun, true⟩
  match c.validate with
  | .error e => return .error e
  | .ok _ =>
    if c.batchSize = 0 then return .error (.config "batch_size must be > 0")
    else
      match c.windowBounds with
      | .error e => return .error e
      | .ok window =>
        if windowAllows window (← ask .nowUtc) then
          if c.lock then
            match ← ask .acquire with
            | .error e => return .error (.state s!"archive lock acquire failed: {e}")
            | .ok none => return .ok skipped
            | .ok (some token) => archiveAll c (some token)
          else archiveAll c none
        else return .ok skipped

/-- Any number of runs, each with a configuration of its own; others change the partitions'
rows meanwhile. A crash loses the runs and keeps the stores. -/
def jobsHost [DecidableEq S] (T : Type) (digest : List Row → S) :
    Host T (JobOp S) JobRes (Except TieringError RunReport) (Store S) JobReply TieringConfig where
  exec _ := jobExec digest
  prog _ := runOnce
  admits _ _ _ := True
  crash := id
  env _ w w' := ∀ key, (w' key).jobs = (w key).jobs

end Ecat.Archive
