import Ecat.Runs
import Mathlib.Logic.Function.Basic

/-! The connection pool of SQL Server. A transaction is a state of the session on the server, and the
connection only notes that one was begun; what is left open is rolled back when the connection is
taken from the pool again. -/

namespace Ecat.Mssql

/-- The server's side of a connection: without a transaction, or with one that was begun `depth + 1`
times and holds the statements so far. -/
inductive Session (S : Type)
  | idle
  | opened (depth : Nat) (pending : List S)
  deriving DecidableEq, Repr

namespace Session

variable {S : Type}

def trancount : Session S → Nat
  | idle => 0
  | opened depth _ => depth + 1

/-- A statement neither opens nor ends a transaction, and outside of one it is committed at once. -/
def run (s : S) (committed : List S) : Session S → Session S × List S
  | idle => (idle, committed ++ [s])
  | opened depth pending => (opened depth (pending ++ [s]), committed)

def begin : Session S → Session S
  | idle => opened 0 []
  | opened depth pending => opened (depth + 1) pending

def commit (committed : List S) : Session S → Option (Session S × List S)
  | idle => none
  | opened 0 pending => some (idle, committed ++ pending)
  | opened (depth + 1) pending => some (opened depth pending, committed)

def rollback : Session S → Option (Session S)
  | idle => none
  | opened _ _ => some idle

/-- `IF @@TRANCOUNT > 0 ROLLBACK`. -/
def rollbackIfOpen (x : Session S) : Session S := if 0 < x.trancount then x.rollback.getD x else x

@[simp] theorem rollbackIfOpen_eq (x : Session S) : x.rollbackIfOpen = idle := by cases x <;> rfl

end Session

/-- `recycled` is when the pool last let the connection through. -/
structure MssqlConnection (S : Type) where
  session : Session S
  inTransaction : Bool
  recycled : Option Nat
  deriving DecidableEq, Repr

/-- A connection just made. -/
def MssqlConnection.new {S : Type} : MssqlConnection S := ⟨.idle, false, none⟩

structure MssqlManager where
  recycleIdleThreshold : Nat

/-- Five seconds. -/
def MssqlManager.default : MssqlManager := ⟨5000000000⟩

variable {T S : Type}

namespace MssqlManager

variable (m : MssqlManager)

def probeDue (now : Nat) (c : MssqlConnection S) : Bool :=
  m.recycleIdleThreshold ≤ c.recycled.elim 0 (now - ·)

/-- `rollback` and `probe` say whether the two batches succeed; without a result the pool discards the
connection, and the server ends its session. -/
def recycle (now : Nat) (rollback probe : Bool) (c : MssqlConnection S) : Option (MssqlConnection S) := do
  let c ← if c.inTransaction then
      if rollback then some { c with session := c.session.rollbackIfOpen, inTransaction := false } else none
    else some c
  let c ← if m.probeDue now c then
      if probe then some { c with session := c.session.rollbackIfOpen } else none
    else some c
  return { c with recycled := some now }

end MssqlManager

/-- What a caller holds a connection for: one statement, the start of a transaction, a transaction. -/
inductive Held (S : Type)
  | call (c : MssqlConnection S)
  | beginning (c : MssqlConnection S)
  | transaction (c : MssqlConnection S)
  deriving DecidableEq, Repr

inductive Purpose
  | call | transaction
  deriving DecidableEq, Repr

def Purpose.hold (c : MssqlConnection S) : Purpose → Held S
  | call => .call c
  | transaction => .beginning c

/-- What the server makes of a request. -/
inductive Effect
  | applied | refused | aborted
  deriving DecidableEq, Repr

/-- The caller of a request that times out or is dropped is not `told` what became of it. -/
inductive Act (T S : Type)
  | tick (nanos : Nat)
  | create (t : T) (purpose : Purpose)
  | get (t : T) (purpose : Purpose) (rollback probe : Bool)
  | run (t : T) (s : S) (effect : Effect)
  | begin (t : T) (effect : Effect) (told : Bool)
  | commit (t : T) (effect : Effect) (told : Bool)
  | rollback (t : T) (effect : Effect) (told : Bool)
  | drop (t : T)

structure MssqlClient (T S : Type) where
  now : Nat
  idle : List (MssqlConnection S)
  held : T → Option (Held S)
  committed : List S

def init (T S : Type) : MssqlClient T S := ⟨0, [], fun _ => none, []⟩

variable [DecidableEq T]

def MssqlClient.hold (p : MssqlClient T S) (t : T) (h : Held S) : MssqlClient T S :=
  { p with held := Function.update p.held t (some h) }

/-- The connection goes back to the pool as it is. -/
def MssqlClient.release (p : MssqlClient T S) (t : T) (c : MssqlConnection S) : MssqlClient T S :=
  { p with idle := p.idle ++ [c], held := Function.update p.held t none }

def MssqlConnection.served (c : MssqlConnection S) (s : S) (committed : List S) : Effect → MssqlConnection S × List S
  | .applied => ({ c with session := (c.session.run s committed).1 }, (c.session.run s committed).2)
  | .refused => (c, committed)
  | .aborted => ({ c with session := .idle }, committed)

def Held.conn : Held S → MssqlConnection S
  | call c | beginning c | transaction c => c

namespace MssqlClient

variable (p : MssqlClient T S)

def get (m : MssqlManager) (t : T) (purpose : Purpose) (rollback probe : Bool) : Option (MssqlClient T S) :=
  match p.held t, p.idle with
  | none, c :: idle =>
    match m.recycle p.now rollback probe c with
    | none => some { p with idle }
    | some c => some (hold { p with idle } t (purpose.hold c))
  | _, _ => none

/-- A call gives its connection back after its one statement. -/
def run (t : T) (s : S) (effect : Effect) : Option (MssqlClient T S) :=
  match p.held t with
  | some (.call c) =>
    let (c, committed) := c.served s p.committed effect
    some (release { p with committed } t c)
  | some (.transaction c) =>
    let (c, committed) := c.served s p.committed effect
    some (hold { p with committed } t (.transaction c))
  | _ => none

/-- The mark is set when the server's answer is there. -/
def begin (t : T) (effect : Effect) (told : Bool) : Option (MssqlClient T S) :=
  match p.held t, effect with
  | some (.beginning c), .applied =>
    if told then some (p.hold t (.transaction { c with session := c.session.begin, inTransaction := true }))
    else some (p.release t { c with session := c.session.begin })
  | some (.beginning c), .refused => some (p.release t c)
  | some (.beginning c), .aborted => some (p.release t { c with session := .idle })
  | _, _ => none

/-- `commit` and `rollback`: the mark is cleared after a success only. -/
def close (t : T) (effect : Effect) (told : Bool) (result : Session S → Option (Session S × List S)) :
    Option (MssqlClient T S) :=
  match p.held t, effect with
  | some (.transaction c), .applied =>
    match result c.session with
    | none => none
    | some (session, committed) =>
      let c := { c with session, inTransaction := if told then false else c.inTransaction }
      some (release { p with committed } t c)
  | some (.transaction c), .refused => some (p.release t c)
  | some (.transaction c), .aborted => some (p.release t { c with session := .idle })
  | _, _ => none

end MssqlClient

def step (m : MssqlManager) (p : MssqlClient T S) : Act T S → Option (MssqlClient T S)
  | .tick nanos => some { p with now := p.now + nanos }
  | .create t purpose => if (p.held t).isSome then none else some (p.hold t (purpose.hold .new))
  | .get t purpose rollback probe => p.get m t purpose rollback probe
  | .run t s effect => p.run t s effect
  | .begin t effect told => p.begin t effect told
  | .commit t effect told => p.close t effect told (Session.commit p.committed)
  | .rollback t effect told => p.close t effect told fun x => x.rollback.map (·, p.committed)
  | .drop t => (p.held t).map fun h => p.release t h.conn

end Ecat.Mssql
