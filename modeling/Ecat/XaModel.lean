import Ecat.TwoPhaseHost
import Mathlib

/-! The participants of the two-phase coordinator over MySQL and Postgres: a transaction is pinned to one
pooled connection until its end, and a prepared branch belongs to its server. A database is a parameter with
what is documented of it, MySQL from 8.0.29 on, where XA PREPARE detaches the branch from its session. Calls
on one participant take turns. -/

namespace Ecat.TwoPhase

inductive XaDialect
  | mySql | postgres
  deriving DecidableEq, Repr

abbrev Conn := Nat

/-- A session outside of any transaction, at work for one, or closed. `ended` is said of XA END, and a
doomed transaction can only be rolled back. -/
inductive Session
  | idle
  | work (x : Xid) (ended doomed : Bool)
  | dead
  deriving DecidableEq, Repr

/-- `durable` names the transactions whose work has been committed, `stray` those of which a statement
was carried out outside of a transaction. -/
structure Server where
  session : Conn → Session
  inDoubt : List Xid
  durable : List Xid
  stray : List Xid

/-- The statements a participant sends. For Postgres `start` is BEGIN, `prepare` PREPARE TRANSACTION,
`commit` and `rollback` are COMMIT PREPARED and ROLLBACK PREPARED, and `rollbackOpen` is ROLLBACK. -/
inductive Stmt
  | start (x : Xid)
  | fin (x : Xid)
  | prepare (x : Xid)
  | commit (x : Xid)
  | rollback (x : Xid)
  | rollbackOpen
  | work (x : Xid)
  deriving DecidableEq, Repr

namespace Server

def fresh : Server := ⟨fun _ => .idle, [], [], []⟩

@[simp] theorem fresh_session (c : Conn) : fresh.session c = .idle := rfl

def setSession (s : Server) (c : Conn) (new : Session) : Server :=
  { s with session := Function.update s.session c new }

theorem setSession_of_eq {s : Server} {c : Conn} {σ : Session} (h : s.session c = σ) : s.setSession c σ = s := by
  rw [setSession, ← h, Function.update_eq_self]

@[simp] theorem setSession_setSession (s : Server) (c : Conn) (a b : Session) :
    (s.setSession c a).setSession c b = s.setSession c b := by
  simp [setSession]

@[simp] theorem setSession_session (s : Server) (c : Conn) (a : Session) : (s.setSession c a).session c = a := by
  simp [setSession]

/-- A closed session takes its transaction with it. -/
def close (s : Server) (c : Conn) : Server := s.setSession c .dead

/-- The server with a branch to decide on. -/
def prepared (s : Server) (x : Xid) : Server := { s with inDoubt := x :: s.inDoubt }

/-- The server after the end of a prepared branch. -/
def settled (s : Server) (x : Xid) (durable : Bool) : Server :=
  { s with
    inDoubt := s.inDoubt.filter (· ≠ x)
    durable := if durable then x :: s.durable else s.durable }

end Server

def contains (text part : String) : Bool := decide (part.toList <:+: text.toList)

def unknownXid (error : XaError) : Bool :=
  let text := error.text.map Char.toLower
  contains text "xaer_nota" || contains text "does not exist" || contains text "unknown xid"

def mysqlXid (data : String) : String :=
  match data.toList.reverse.dropWhile (· ≠ ',') with
  | [] => data
  | _ :: gtrid => String.ofList gtrid.reverse

/-- COMMIT or ROLLBACK of a prepared branch. -/
def lastStmt (x : Xid) (durable : Bool) : Stmt := if durable then .commit x else .rollback x

/-- A database as its participants meet it. What a statement over a connection answers and leaves behind is
up to `F` within what is documented: a transaction is at work over its session until it is prepared, ended or
lost with the connection, a prepared one stays until it is decided, and only the error of a transaction that is
not prepared reads like one of an unknown transaction. -/
structure Database (F : Type) where
  dialect : XaDialect
  run : F → Conn → Stmt → Server → Except XaError Nat × Server
  recover : F → Conn → Server → Except XaError (List Xid) × Server
  run_dead : ∀ {f c stmt s}, s.session c = .dead → ∃ e, run f c stmt s = (.error e, s) ∧ unknownXid e = false
  run_start : ∀ {f c x s}, s.session c = .idle →
    (∃ n, run f c (.start x) s = (.ok n, s.setSession c (.work x false false))) ∨
    ∃ e new, run f c (.start x) s = (.error e, s.setSession c new) ∧ (new = .idle ∨ new = .dead)
  run_fin : ∀ {f c x ended doomed s}, dialect = .mySql → s.session c = .work x ended doomed →
    ∃ r new, run f c (.fin x) s = (r, s.setSession c new) ∧ (new = .dead ∨ ∃ doomed', new = .work x true doomed')
  run_fin_idle : ∀ {f c x s}, dialect = .mySql → s.session c = .idle →
    ∃ e new, run f c (.fin x) s = (.error e, s.setSession c new) ∧ (new = .idle ∨ new = .dead)
  run_work : ∀ {f c x ended doomed s}, s.session c = .work x ended doomed →
    ∃ r new, run f c (.work x) s = (r, s.setSession c new) ∧ (∀ n, r = .ok n → n = 1) ∧
      (new = .dead ∨ ∃ doomed', new = .work x ended doomed')
  run_prepare : ∀ {f c x ended doomed s}, s.session c = .work x ended doomed →
    (dialect = .postgres → doomed = false) → x ∉ s.inDoubt →
    (∃ n, run f c (.prepare x) s = (.ok n, (s.setSession c .idle).prepared x)) ∨
    (∃ e new, run f c (.prepare x) s = (.error e, s.setSession c new) ∧
      (new = .idle ∨ new = .dead ∨ ∃ doomed', new = .work x ended doomed')) ∨
    ∃ e, run f c (.prepare x) s = (.error e, (s.setSession c .dead).prepared x)
  run_last : ∀ {f c x s} durable, s.session c = .idle → x ∈ s.inDoubt →
    (∃ n, run f c (lastStmt x durable) s = (.ok n, s.settled x durable)) ∨
    (∃ e new, run f c (lastStmt x durable) s = (.error e, s.setSession c new) ∧ unknownXid e = false ∧
      (new = .idle ∨ new = .dead)) ∨
    ∃ e, run f c (lastStmt x durable) s = (.error e, (s.setSession c .dead).settled x durable) ∧ unknownXid e = false
  run_last_unknown : ∀ {f c x s} durable, s.session c = .idle → x ∉ s.inDoubt →
    ∃ r new, run f c (lastStmt x durable) s = (r, s.setSession c new) ∧ (new = .idle ∨ new = .dead)
  run_rollbackOpen : ∀ {f c s}, dialect = .postgres → s.session c ≠ .dead →
    ∃ r new, run f c .rollbackOpen s = (r, s.setSession c new) ∧ (new = .idle ∨ new = .dead)
  run_rollback : ∀ {f c x doomed s}, dialect = .mySql → s.session c = .work x true doomed →
    ∃ r new, run f c (.rollback x) s = (r, s.setSession c new) ∧
      (new = .idle ∨ new = .dead ∨ ∃ doomed', new = .work x true doomed')
  recover_keeps : ∀ {f c s}, (recover f c s).2 = s ∨ (recover f c s).2 = s.close c
  recover_ok : ∀ {f c s found}, (recover f c s).1 = .ok found → ∀ x, x ∈ found ↔ x ∈ s.inDoubt

/-- What else is documented of Postgres: after a statement that fails, PREPARE TRANSACTION rolls back and
reports no error, and the transaction does not exist. -/
structure Database.DropsFailed {F : Type} (D : Database F) : Prop where
  starts : ∀ c x s, s.session c = .idle → ∃ f n, D.run f c (.start x) s = (.ok n, s.setSession c (.work x false false))
  fails : ∀ c x s, s.session c = .work x false false →
    ∃ f e, D.run f c (.work x) s = (.error e, s.setSession c (.work x false true))
  drops : ∀ c x s, s.session c = .work x false true → ∃ f n, D.run f c (.prepare x) s = (.ok n, s.setSession c .idle)
  unknown : ∀ c x s, s.session c = .idle → x ∉ s.inDoubt →
    ∃ f e, D.run f c (.commit x) s = (.error e, s) ∧ unknownXid e = true

structure Pinned where
  guard : Conn
  prepared : Bool
  deriving DecidableEq, Repr

/-- What the surroundings choose for a call: the connection the pool hands out, if one is needed, how the
statement fares, and the reply of the coordinator's own database. -/
structure Luck (F : Type) where
  conn : Except String Conn
  fate : F
  reply : Reply

/-- A participant with its database and the state of the server. -/
structure SqlxXaParticipant (F : Type) where
  db : Database F
  conns : Xid → Option Pinned
  server : Server

variable {F : Type}

namespace SqlxXaParticipant

def dialect (p : SqlxXaParticipant F) : XaDialect := p.db.dialect

def acquire (l : Luck F) : Except XaError Conn := l.conn.mapError .database

def execGuard (p : SqlxXaParticipant F) (c : Conn) (l : Luck F) (stmt : Stmt) :
    Except XaError Nat × SqlxXaParticipant F :=
  ((p.db.run l.fate c stmt p.server).1, { p with server := (p.db.run l.fate c stmt p.server).2 })

def pin (p : SqlxXaParticipant F) (x : Xid) (pinned : Option Pinned) : SqlxXaParticipant F :=
  { p with conns := Function.update p.conns x pinned }

def xaStart (p : SqlxXaParticipant F) (x : Xid) (l : Luck F) : Except XaError Unit × SqlxXaParticipant F :=
  match p.conns x with
  | some _ => (.ok (), p)
  | none =>
    match acquire l with
    | .error e => (.error e, p)
    | .ok guard =>
      match p.execGuard guard l (.start x) with
      | (.error e, p) => (.error e, p)
      | (.ok _, p) => (.ok (), p.pin x (some ⟨guard, false⟩))

def xaEnd (p : SqlxXaParticipant F) (x : Xid) (l : Luck F) : Except XaError Unit × SqlxXaParticipant F :=
  match p.conns x with
  | none => (.error (.unknownXid x), p)
  | some pinned =>
    match p.dialect with
    | .mySql => ((p.execGuard pinned.guard l (.fin x)).1.map fun _ => (), (p.execGuard pinned.guard l (.fin x)).2)
    | .postgres => (.ok (), p)

def xaPrepare (p : SqlxXaParticipant F) (x : Xid) (l : Luck F) : Except XaError Unit × SqlxXaParticipant F :=
  match p.conns x with
  | none => (.error (.unknownXid x), p)
  | some pinned =>
    match p.execGuard pinned.guard l (.prepare x) with
    | (.error e, p) => (.error e, p)
    | (.ok _, p) => (.ok (), p.pin x (some { pinned with prepared := true }))

/-- An unknown transaction counts as ended. -/
def resolved : Except XaError Nat → Except XaError Unit
  | .ok _ => .ok ()
  | .error e => if unknownXid e then .ok () else .error e

/-- The last statement goes over the pinned connection, which is given back, or else over another one. -/
def finish (p : SqlxXaParticipant F) (x : Xid) (l : Luck F) (stmt : Stmt) : Except XaError Unit × SqlxXaParticipant F :=
  match (p.conns x).elim (acquire l) fun pinned => .ok pinned.guard with
  | .error e => (.error e, p.pin x none)
  | .ok guard =>
    (resolved ((p.pin x none).execGuard guard l stmt).1, ((p.pin x none).execGuard guard l stmt).2)

def xaCommit (p : SqlxXaParticipant F) (x : Xid) (l : Luck F) : Except XaError Unit × SqlxXaParticipant F :=
  p.finish x l (.commit x)

def rollbackStmt (dialect : XaDialect) (x : Xid) (active : Bool) : Stmt :=
  match dialect with
  | .mySql => .rollback x
  | .postgres => if active then .rollbackOpen else .rollback x

def xaRollback (p : SqlxXaParticipant F) (x : Xid) (l : Luck F) : Except XaError Unit × SqlxXaParticipant F :=
  p.finish x l (rollbackStmt p.dialect x ((p.conns x).any fun pinned => !pinned.prepared))

/-- XA RECOVER and `pg_prepared_xacts`. -/
def xaRecover (p : SqlxXaParticipant F) (l : Luck F) : Except XaError (List Xid) × SqlxXaParticipant F :=
  match acquire l with
  | .error e => (.error e, p)
  | .ok guard =>
    ((p.db.recover l.fate guard p.server).1.map fun found =>
      match p.dialect with
      | .mySql => found.map mysqlXid
      | .postgres => found,
      { p with server := (p.db.recover l.fate guard p.server).2 })

def execute (p : SqlxXaParticipant F) (x : Xid) (l : Luck F) : Except XaError Nat × SqlxXaParticipant F :=
  match p.conns x with
  | none => (.error (.unknownXid x), p)
  | some pinned => p.execGuard pinned.guard l (.work x)

def xa (p : SqlxXaParticipant F) (x : Xid) (l : Luck F) : XaCall → Except XaError Unit × SqlxXaParticipant F
  | .start => p.xaStart x l
  | .fin => p.xaEnd x l
  | .prepare => p.xaPrepare x l
  | .commit => p.xaCommit x l
  | .rollback _ => p.xaRollback x l

/-- A connection the pool may hand out: nobody holds it, and the pool has just found it alive. -/
def Spare (p : SqlxXaParticipant F) (c : Conn) : Prop :=
  (∀ x pinned, p.conns x = some pinned → pinned.guard ≠ c) ∧ p.server.session c ≠ .dead

/-- A statement of the transaction has failed, and Postgres will only roll it back. -/
def Failed (p : SqlxXaParticipant F) (x : Xid) : Prop :=
  p.dialect = .postgres ∧ ∃ pinned y ended, p.conns x = some pinned ∧
    p.server.session pinned.guard = .work y ended true

/-- The server refuses XA ROLLBACK of an open branch and keeps its session. -/
def Refuses (p : SqlxXaParticipant F) (x : Xid) (l : Luck F) : Prop :=
  p.dialect = .mySql ∧ ∃ pinned y doomed, p.conns x = some pinned ∧
    (p.db.run l.fate pinned.guard (.rollback x) p.server).2.session pinned.guard = .work y true doomed

/-- The process ends: its sessions close, and later ones are new. -/
def restart (p : SqlxXaParticipant F) : SqlxXaParticipant F :=
  { p with conns := fun _ => none, server := { p.server with session := fun _ => .idle } }

end SqlxXaParticipant

structure SqlxWorld (F : Type) where
  log : List LogRow
  site : Name → SqlxXaParticipant F

namespace SqlxWorld

def setSite (w : SqlxWorld F) (p : Name) (site : SqlxXaParticipant F) : SqlxWorld F :=
  { w with site := Function.update w.site p site }

/-- The coordinator's log alone. -/
def ledger (w : SqlxWorld F) : World := ⟨w.log, fun _ _ => .none⟩

end SqlxWorld

def sqlxExec (o : Op) (l : Luck F) (w : SqlxWorld F) : Res o × SqlxWorld F :=
  match o with
  | .xa call p x => (((w.site p).xa x l call).1, w.setSite p ((w.site p).xa x l call).2)
  | .xaRecover p =>
    (((w.site p).xaRecover l).1.map fun inDoubt y => inDoubt.any (· = y), w.setSite p ((w.site p).xaRecover l).2)
  | .execute p x => (((w.site p).execute x l).1, w.setSite p ((w.site p).execute x l).2)
  | .ensureSchema => ((exec .ensureSchema l.reply w.ledger).1, w)
  | .insertLog row =>
    ((exec (.insertLog row) l.reply w.ledger).1, { w with log := (exec (.insertLog row) l.reply w.ledger).2.log })
  | .setLog x status decision => ((exec (.setLog x status decision) l.reply w.ledger).1,
      { w with log := (exec (.setLog x status decision) l.reply w.ledger).2.log })
  | .status x => ((exec (.status x) l.reply w.ledger).1, w)
  | .recoverableLogs => ((exec .recoverableLogs l.reply w.ledger).1, w)
  | .acquireFence => ((exec .acquireFence l.reply w.ledger).1, w)
  | .releaseFence => ((exec .releaseFence l.reply w.ledger).1, w)

/-- Transactions and recovery of one process over these participants. A UUID has no comma, and a
connection may break at any time. -/
def sqlxHost : Host Thread Op Res Outcome (SqlxWorld F) (Luck F) Cmd where
  exec _ := sqlxExec
  prog := prog
  admits s t c := admits ⟨s.world.ledger, s.thread⟩ t c ∧ ∀ id, t = .tx id → ',' ∉ id.toList
  crash w := { w with site := fun p => (w.site p).restart }
  env _ w w' := ∃ p c, w' = w.setSite p { w.site p with server := (w.site p).server.close c }

def sqlxInit (dbs : Name → Database F) : Sys Thread Op Res Outcome (SqlxWorld F) :=
  ⟨⟨[], fun p => ⟨dbs p, fun _ => none, .fresh⟩⟩, fun _ => none⟩

/-- The pool hands out spare connections, no server refuses to roll back an open branch and keeps its session,
and PREPARE is sent in a failed transaction of Postgres only where `failed` allows it. -/
def Proper (failed : Prop) (_ : Thread) (o : Op) (l : Luck F) (w : SqlxWorld F) : Prop :=
  match o with
  | .xa call p x => (∀ c, l.conn = .ok c → (w.site p).Spare c) ∧ (call = .prepare → (w.site p).Failed x → failed) ∧
      ∀ cause, call = .rollback cause → ¬ (w.site p).Refuses x l
  | .xaRecover p => ∀ c, l.conn = .ok c → (w.site p).Spare c
  | _ => True

end Ecat.TwoPhase
