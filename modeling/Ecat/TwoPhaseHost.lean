import Ecat.TwoPhaseModel

/-! Transactions and recovery running against one log and one set of participants.
A transaction is a client that begins, works, and then commits, rolls back or
drops the transaction; recovery starts only while no transaction is live. -/

namespace Ecat.TwoPhase

inductive Finish
  | commit | rollback | drop
  deriving DecidableEq, Repr

inductive Thread
  | tx (id : Xid)
  | recovery
  deriving DecidableEq, Repr

inductive Cmd
  | transact (registered participants work : List Name) (finish : Finish)
  | recover (registered : List Name)

inductive Outcome
  | beginFailed (e : XaError)
  | committed (tx : DistributedTx) (r : Except XaError Unit)
  | rolledBack (tx : DistributedTx) (r : Except XaError Unit)
  | dropped (tx : DistributedTx)
  | recovered (r : Except XaError RecoveryReport)

def executeAll (tx : DistributedTx) : List Name → Proc Unit
  | [] => return ()
  | p :: ps => do
    let _ ← tx.execute p
    executeAll tx ps

def finish (tx : DistributedTx) : Finish → Proc Outcome
  | .commit => return .committed tx (← commit tx)
  | .rollback => return .rolledBack tx (← rollback tx)
  | .drop => return .dropped tx

def client (id : Xid) (registered participants work : List Name) (f : Finish) : Proc Outcome := do
  match ← begin registered id participants with
  | .error e => return .beginFailed e
  | .ok tx =>
    executeAll tx work
    finish tx f

def prog : Thread → Cmd → Proc Outcome
  | .tx id, .transact registered participants work f => client id registered participants work f
  | _, .recover registered => return .recovered (← recover registered)
  | .recovery, .transact .. => return .beginFailed .unsupportedDialect

/-- A new transaction has an id that is not in the log, and none begins while
recovery runs; recovery begins when no transaction is live. -/
def admits (s : Sys Thread Op Res Outcome World) : Thread → Cmd → Prop
  | .tx id, .transact .. => s.world.row id = none ∧ s.thread .recovery = none
  | .recovery, .recover _ => ∀ id, s.thread (.tx id) = none
  | _, _ => False

/-- A crash loses the branches that were active and not yet prepared. -/
def crash (w : World) : World :=
  { w with branch := fun p x => if w.branch p x = .active then .none else w.branch p x }

def host : Host Thread Op Res Outcome World Reply Cmd where
  exec _ := exec
  prog := prog
  admits := admits
  crash := crash
  env _ _ _ := False

def init : Sys Thread Op Res Outcome World := ⟨⟨[], fun _ _ => .none⟩, fun _ => none⟩

/-- The failing participant's own rollback in `begin` does not fail with its
branch left active. -/
def CleanupEffective (_ : Thread) (o : Op) (c : Reply) (w : World) : Prop :=
  match o, c with
  | .xa (.rollback .cleanup) p x, .lost false _ => w.branch p x ≠ .active
  | _, _ => True

structure View where
  row : Option LogRow
  branch : Name → Branch

def World.view (w : World) (x : Xid) : View := ⟨w.row x, fun p => w.branch p x⟩

def View.setBranch (v : View) (p : Name) (b : Branch) : View :=
  { v with branch := fun q => if q = p then b else v.branch q }

def View.setLog (v : View) (status : Status) (decision : Option Decision) : View :=
  { v with row := v.row.map fun r => { r with status, decision } }

theorem row_setLog (w : World) (x y : Xid) (status : Status) (decision : Option Decision) :
    (w.setLog x status decision).row y =
      if y = x then (w.row y).map fun r => { r with status, decision } else w.row y := by
  obtain ⟨l, b⟩ := w
  simp only [World.row, World.setLog]
  induction l with
  | nil => simp
  | cons r l ih =>
    by_cases hx : r.id = x <;> by_cases hy : r.id = y <;> by_cases hxy : y = x <;>
      simp_all

theorem view_setLog_self (w : World) (x : Xid) (status : Status) (decision : Option Decision) :
    (w.setLog x status decision).view x = (w.view x).setLog status decision := by
  simp only [World.view, View.setLog, row_setLog, if_true]
  rfl

theorem view_setLog_ne (w : World) {x y : Xid} (h : y ≠ x) (status : Status) (decision : Option Decision) :
    (w.setLog x status decision).view y = w.view y := by
  simp only [World.view, row_setLog, if_neg h]
  rfl

theorem view_setBranch_self (w : World) (p : Name) (x : Xid) (b : Branch) :
    (w.setBranch p x b).view x = (w.view x).setBranch p b := by
  simp [World.view, World.row, World.setBranch, View.setBranch]

theorem view_setBranch_ne (w : World) (p : Name) {x y : Xid} (h : y ≠ x) (b : Branch) :
    (w.setBranch p x b).view y = w.view y := by
  simp [World.view, World.row, World.setBranch, h]

theorem view_insertLog_ne (w : World) (row : LogRow) {y : Xid} (h : y ≠ row.id) :
    (w.insertLog row).view y = w.view y := by
  unfold World.insertLog
  split
  · rfl
  · simp [World.view, World.row, List.find?_append, h.symm]

theorem view_insertLog_self (w : World) (row : LogRow) (h : w.row row.id = none) :
    (w.insertLog row).view row.id = ⟨some row, fun p => w.branch p row.id⟩ := by
  have hf : w.log.find? (·.id == row.id) = none := h
  simp [World.insertLog, World.view, World.row, List.find?_append, hf]

theorem setLog_ids (w : World) (x : Xid) (status : Status) (decision : Option Decision) :
    (w.setLog x status decision).log.map (·.id) = w.log.map (·.id) := by
  simp only [World.setLog, List.map_map]
  apply List.map_congr_left
  intro r _
  by_cases h : r.id = x <;> simp [h]

theorem insertLog_ids_nodup {w : World} (h : (w.log.map (·.id)).Nodup) (row : LogRow) :
    ((w.insertLog row).log.map (·.id)).Nodup := by
  unfold World.insertLog
  split
  · exact h
  · next hn =>
    have hf : w.log.find? (·.id == row.id) = none := by simpa [World.row] using hn
    have hm : ∀ r ∈ w.log, r.id ≠ row.id := by simpa using hf
    simp only [List.map_append, List.map_cons, List.map_nil]
    exact List.nodup_append.mpr ⟨h, by simp, by simpa using hm⟩

end Ecat.TwoPhase
