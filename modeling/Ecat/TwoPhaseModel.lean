import Ecat.Safety

/-! The two-phase coordinator: its log table, the XA participants' branches, and
`begin`, `commit`, `rollback`, `abort` and `recover` as programs over them.
Every call may be lost, before or after it took effect. The participant passed
to `begin` under a name is the one registered under that name. -/

namespace Ecat.TwoPhase

abbrev Name := String
abbrev Xid := String

inductive XaError
  | unsupportedDialect
  | unknownParticipant (name : String)
  | unknownXid (xid : String)
  | state (text : String)
  | database (text : String)
  | lock (text : String)
  deriving DecidableEq, Repr

def XaError.text : XaError → String
  | unsupportedDialect => "unsupported dialect for XA"
  | unknownParticipant name => s!"unknown XA participant `{name}`"
  | unknownXid xid => s!"XA transaction `{xid}` is not active"
  | state text => s!"XA state: {text}"
  | database text => s!"XA database: {text}"
  | lock text => s!"XA lock: {text}"

inductive Status
  | started | prepared | committing | committed | rollingBack | rolledBack
  deriving DecidableEq, Repr

inductive Decision
  | commit | rollback
  deriving DecidableEq, Repr

structure LogRow where
  id : Xid
  status : Status
  participants : List Name
  decision : Option Decision
  deriving DecidableEq, Repr

structure RecoveryReport where
  recovered : Nat
  failed : Nat
  deriving DecidableEq, Repr

structure DistributedTx where
  id : Xid
  participants : List Name

inductive Branch
  | none | active | prepared | committed | rolledBack
  deriving DecidableEq, Repr

/-- `cleanup` marks the rollback of the participant whose own START failed;
the mark has no effect on the call. -/
inductive Site
  | cleanup | replay
  deriving DecidableEq, Repr

inductive XaCall
  | start | fin | prepare | commit
  | rollback (site : Site)
  deriving DecidableEq, Repr

/-- What a participant does with a call that reaches it; `none` is an error.
COMMIT and ROLLBACK of an unknown transaction succeed. -/
def Branch.apply : XaCall → Branch → Option Branch
  | .start, .none | .start, .active => some .active
  | .start, _ => Option.none
  | .fin, .active => some .active
  | .fin, _ => Option.none
  | .prepare, .active => some .prepared
  | .prepare, _ => Option.none
  | .commit, .prepared => some .committed
  | .commit, .active => Option.none
  | .commit, b => some b
  | .rollback _, .active | .rollback _, .prepared => some .rolledBack
  | .rollback _, b => some b

inductive Op
  | ensureSchema
  | insertLog (row : LogRow)
  | setLog (id : Xid) (status : Status) (decision : Option Decision)
  | status (id : Xid)
  | recoverableLogs
  | acquireFence
  | releaseFence
  | xa (call : XaCall) (p : Name) (id : Xid)
  | xaRecover (p : Name)
  | execute (p : Name) (id : Xid)

/-- The in-doubt list of `xa_recover` is only searched, so it is a predicate. -/
def Val : Op → Type
  | .status _ => Option Status
  | .recoverableLogs => List LogRow
  | .xaRecover _ => Xid → Bool
  | .execute .. => Nat
  | _ => Unit

abbrev Res (o : Op) : Type := Except XaError (Val o)

structure World where
  log : List LogRow
  branch : Name → Xid → Branch

def World.row (w : World) (x : Xid) : Option LogRow := w.log.find? (·.id == x)

def World.setBranch (w : World) (p : Name) (x : Xid) (b : Branch) : World :=
  { w with branch := fun q y => if q = p ∧ y = x then b else w.branch q y }

/-- `UPDATE distributed_tx SET status = ?, decision = ? WHERE id = ?`. -/
def World.setLog (w : World) (x : Xid) (status : Status) (decision : Option Decision) : World :=
  { w with log := w.log.map fun r => if r.id = x then { r with status, decision } else r }

def World.insertLog (w : World) (row : LogRow) : World :=
  if (w.row row.id).isSome then w else { w with log := w.log ++ [row] }

def recoverable (r : LogRow) : Bool :=
  r.status ∈ [Status.started, .prepared, .committing, .rollingBack]

def World.effect (w : World) : Op → World
  | .insertLog row => w.insertLog row
  | .setLog x status decision => w.setLog x status decision
  | .xa call p x => ((w.branch p x).apply call).elim w (w.setBranch p x)
  | _ => w

def World.answer (w : World) : (o : Op) → Res o
  | .ensureSchema | .setLog .. | .acquireFence | .releaseFence => .ok ()
  | .insertLog row => if (w.row row.id).isSome then .error (.database "duplicate key") else .ok ()
  | .status x => .ok ((w.row x).map (·.status))
  | .recoverableLogs => .ok (w.log.filter recoverable)
  | .xa call p x => if ((w.branch p x).apply call).isSome then .ok () else .error (.unknownXid x)
  | .xaRecover p => .ok fun x => w.branch p x == .prepared
  | .execute p x => if w.branch p x = .active then .ok (1 : Nat) else .error (.unknownXid x)

/-- The surroundings let a call through, or lose it before or after its effect. -/
inductive Reply
  | ok
  | lost (applied : Bool) (e : XaError)

def exec (o : Op) (c : Reply) (w : World) : Res o × World :=
  match c with
  | .ok => (w.answer o, w.effect o)
  | .lost applied e => (.error e, if applied then w.effect o else w)

abbrev Proc := CallTree Op Res

abbrev perform (o : Op) : Proc (Res o) := CallTree.perform o

def xaEach (call : XaCall) (id : Xid) : List Name → Proc (Except (Name × XaError) Unit)
  | [] => return .ok ()
  | p :: ps => do
    match ← perform (.xa call p id) with
    | .error e => return .error (p, e)
    | .ok _ => xaEach call id ps

def alreadyResolved (p : Name) (id : Xid) : Proc Bool := do
  match ← perform (.xaRecover p) with
  | .ok inDoubt => return !inDoubt id
  | .error _ => return false

def commitEach (crossCheck : Bool) (id : Xid) : List Name → Proc (Except (Name × XaError) Unit)
  | [] => return .ok ()
  | p :: ps => do
    if ← (if crossCheck then alreadyResolved p id else return false) then
      commitEach crossCheck id ps
    else
      match ← perform (.xa .commit p id) with
      | .error e => return .error (p, e)
      | .ok _ => commitEach crossCheck id ps

def rollbackEach (crossCheck : Bool) (id : Xid) : List Name → Proc (Except (Name × XaError) Unit)
  | [] => return .ok ()
  | p :: ps => do
    if ← (if crossCheck then alreadyResolved p id else return false) then
      rollbackEach crossCheck id ps
    else
      let _ ← perform (.xa .fin p id)
      match ← perform (.xa (.rollback .replay) p id) with
      | .error e => return .error (p, e)
      | .ok _ => rollbackEach crossCheck id ps

def rollbackStarted (id : Xid) (started : List Name) : Proc (Except XaError Unit) := do
  return (← rollbackEach false id started.reverse).mapError Prod.snd

/-- The START loop of `begin`, with the participants started so far. -/
def startEach (id : Xid) : List Name → List Name → Proc (Except XaError DistributedTx)
  | started, [] => return .ok ⟨id, started⟩
  | started, p :: ps => do
    match ← perform (.xa .start p id) with
    | .ok _ => startEach id (started ++ [p]) ps
    | .error e =>
      let _ ← perform (.xa .fin p id)
      let _ ← perform (.xa (.rollback .cleanup) p id)
      match ← rollbackStarted id started with
      | .ok _ =>
        let _ ← perform (.setLog id .rolledBack (some .rollback))
        return .error (.state s!"participant `{p}` XA START failed: {e.text}")
      | .error _ => return .error (.state s!"participant `{p}` XA START failed: {e.text}")

/-- The checks `begin` makes on the names before it touches anything. -/
def checkNames (registered seen : List Name) : List Name → Except XaError Unit
  | [] => .ok ()
  | p :: ps =>
    if p ∈ seen then .error (.state s!"duplicate participant `{p}`")
    else if p ∉ registered then
      .error (.state s!"participant `{p}` is not registered with the coordinator")
    else checkNames registered (p :: seen) ps

def begin (registered : List Name) (id : Xid) (participants : List Name) :
    Proc (Except XaError DistributedTx) := do
  if participants.isEmpty then
    return .error (.state "2PC requires at least one participant")
  match checkNames registered [] participants with
  | .error e => return .error e
  | .ok _ =>
    match ← perform .ensureSchema with
    | .error e => return .error e
    | .ok _ =>
      match ← perform (.insertLog ⟨id, .started, participants, none⟩) with
      | .error e => return .error e
      | .ok _ => startEach id [] participants

def abort (tx : DistributedTx) (original : XaError) : Proc (Except XaError Unit) := do
  match ← perform (.setLog tx.id .rollingBack (some .rollback)) with
  | .error e => return .error e
  | .ok _ =>
    match ← rollbackEach false tx.id tx.participants.reverse with
    | .error (_, e) => return .error (.state s!"{original.text}; rollback failed: {e.text}")
    | .ok _ =>
      match ← perform (.setLog tx.id .rolledBack (some .rollback)) with
      | .error e => return .error e
      | .ok _ => return .error original

def decideCommit (tx : DistributedTx) : Proc (Except XaError Unit) := do
  match ← perform (.setLog tx.id .prepared none) with
  | .error e => return .error e
  | .ok _ =>
    match ← perform (.setLog tx.id .committing (some .commit)) with
    | .error e => return .error e
    | .ok _ =>
      match ← commitEach false tx.id tx.participants with
      | .error (p, e) => return .error (.state s!"participant `{p}` XA COMMIT failed: {e.text}")
      | .ok _ => perform (.setLog tx.id .committed (some .commit))

def commit (tx : DistributedTx) : Proc (Except XaError Unit) := do
  match ← perform (.status tx.id) with
  | .error e => return .error e
  | .ok (some .committed) => return .ok ()
  | .ok (some .rolledBack) => return .error (.state s!"distributed tx `{tx.id}` was rolled back")
  | .ok _ =>
    match ← xaEach .fin tx.id tx.participants with
    | .error (p, e) => abort tx (.state s!"participant `{p}` XA END failed: {e.text}")
    | .ok _ =>
      match ← xaEach .prepare tx.id tx.participants with
      | .error (p, e) => abort tx (.state s!"participant `{p}` XA PREPARE failed: {e.text}")
      | .ok _ => decideCommit tx

def rollback (tx : DistributedTx) : Proc (Except XaError Unit) := do
  match ← perform (.status tx.id) with
  | .error e => return .error e
  | .ok (some .rolledBack) => return .ok ()
  | .ok (some .committed) => return .error (.state s!"distributed tx `{tx.id}` was committed")
  | .ok _ =>
    match ← perform (.setLog tx.id .rollingBack (some .rollback)) with
    | .error e => return .error e
    | .ok _ =>
      match ← rollbackEach false tx.id tx.participants.reverse with
      | .error (p, e) => return .error (.state s!"participant `{p}` XA ROLLBACK failed: {e.text}")
      | .ok _ => perform (.setLog tx.id .rolledBack (some .rollback))

def DistributedTx.execute (tx : DistributedTx) (p : Name) : Proc (Res (.execute p tx.id)) :=
  if p ∈ tx.participants then perform (.execute p tx.id)
  else return .error (.unknownParticipant p)

def shouldCommit (row : LogRow) : Bool :=
  match row.status, row.decision with
  | .started, _ => false
  | .rollingBack, _ | .prepared, some .rollback => false
  | .prepared, _ | .committing, _ => true
  | _, _ => false

def recoverCommit (id : Xid) (participants : List Name) (crossCheck : Bool) :
    Proc (Except XaError Unit) := do
  match ← commitEach crossCheck id participants with
  | .error (_, e) => return .error e
  | .ok _ => perform (.setLog id .committed (some .commit))

def recoverRollback (id : Xid) (participants : List Name) (crossCheck : Bool) :
    Proc (Except XaError Unit) := do
  match ← rollbackEach crossCheck id participants.reverse with
  | .error (_, e) => return .error e
  | .ok _ => perform (.setLog id .rolledBack (some .rollback))

def recoverRow (row : LogRow) : Proc (Except XaError Unit) :=
  let crossCheck := row.status = .prepared ∨ row.status = .committing
  if shouldCommit row then recoverCommit row.id row.participants crossCheck
  else recoverRollback row.id row.participants crossCheck

def recoverRows (registered : List Name) (report : RecoveryReport) :
    List LogRow → Proc RecoveryReport
  | [] => return report
  | row :: rows => do
    if row.participants.all (· ∈ registered) then
      match ← recoverRow row with
      | .ok _ => recoverRows registered { report with recovered := report.recovered + 1 } rows
      | .error _ => recoverRows registered { report with failed := report.failed + 1 } rows
    else recoverRows registered { report with failed := report.failed + 1 } rows

def recoverLocked (registered : List Name) : Proc (Except XaError RecoveryReport) := do
  match ← perform .recoverableLogs with
  | .error e => return .error e
  | .ok rows => return .ok (← recoverRows registered ⟨0, 0⟩ rows)

def recover (registered : List Name) : Proc (Except XaError RecoveryReport) := do
  match ← perform .ensureSchema with
  | .error e => return .error e
  | .ok _ =>
    match ← perform .acquireFence with
    | .error e => return .error e
    | .ok _ =>
      let outcome ← recoverLocked registered
      let released ← perform .releaseFence
      match outcome, released with
      | .ok report, .ok _ => return .ok report
      | .ok _, .error e => return .error e
      | .error e, _ => return .error e

end Ecat.TwoPhase
