import Ecat.XaModel

/-! A server after the documentation of MySQL and Postgres, as a database that a participant can meet. -/

namespace Ecat.TwoPhase

namespace Server

def closedText : String := "error communicating with database: connection closed"

def nota (dialect : XaDialect) (x : Xid) : String :=
  match dialect with
  | .mySql => "error returned from database: 1397 (XAE04): XAER_NOTA: Unknown XID"
  | .postgres =>
    "error returned from database: prepared transaction with identifier \"" ++ x ++ "\" does not exist"

def rmfail : String :=
  "error returned from database: 1399 (XAE07): XAER_RMFAIL: The command cannot be executed in this state"

def rolledBackText : String :=
  "error returned from database: 1402 (XA100): XA_RBROLLBACK: Transaction branch was rolled back"

def inBlock : String := "error returned from database: command cannot run inside a transaction block"

def inUse : String := "error returned from database: transaction identifier is already in use"

def abortedText : String :=
  "error returned from database: current transaction is aborted, commands ignored until end of transaction block"

def refusedText : String := "error returned from database: the statement was refused"

/-- COMMIT and ROLLBACK of a prepared branch. -/
def settle (s : Server) (dialect : XaDialect) (x : Xid) (durable : Bool) : Except String Nat × Server :=
  if x ∈ s.inDoubt then (.ok 0, s.settled x durable) else (.error (nota dialect x), s)

/-- What the server does with a statement that reaches it. PREPARE TRANSACTION in a failed transaction
rolls it back and reports no error, and outside of a transaction there is only a warning. -/
def serve (dialect : XaDialect) (c : Conn) (stmt : Stmt) (s : Server) : Except String Nat × Server :=
  match stmt, dialect, s.session c with
  | _, _, .dead => (.error closedText, s)
  | .start x, _, .idle => (.ok 0, s.setSession c (.work x false false))
  | .start _, .mySql, .work .. => (.error rmfail, s)
  | .start _, .postgres, .work _ _ doomed => (if doomed then .error abortedText else .ok 0, s)
  | .fin x, _, .work y ended doomed =>
    if x ≠ y then (.error (nota dialect x), s)
    else if ended then (.error rmfail, s)
    else (if doomed then .error rolledBackText else .ok 0, s.setSession c (.work y true doomed))
  | .fin x, _, .idle => (.error (nota dialect x), s)
  | .prepare x, .mySql, .work y ended doomed =>
    if x ≠ y then (.error (nota dialect x), s)
    else if !ended then (.error rmfail, s)
    else if doomed then (.error rolledBackText, s)
    else (.ok 0, { s.setSession c .idle with inDoubt := x :: s.inDoubt })
  | .prepare x, .mySql, .idle => (.error (nota dialect x), s)
  | .prepare x, .postgres, .work _ _ doomed =>
    if doomed then (.ok 0, s.setSession c .idle)
    else if x ∈ s.inDoubt then (.error inUse, s.setSession c .idle)
    else (.ok 0, { s.setSession c .idle with inDoubt := x :: s.inDoubt })
  | .prepare _, .postgres, .idle => (.ok 0, s)
  | .commit x, dialect, .idle => s.settle dialect x true
  | .commit _, .mySql, .work .. => (.error rmfail, s)
  | .commit _, .postgres, .work y ended _ => (.error inBlock, s.setSession c (.work y ended true))
  | .rollback x, dialect, .idle => s.settle dialect x false
  | .rollback x, .mySql, .work y ended _ =>
    if x = y ∧ ended then (.ok 0, s.setSession c .idle) else (.error rmfail, s)
  | .rollback _, .postgres, .work y ended _ => (.error inBlock, s.setSession c (.work y ended true))
  | .rollbackOpen, _, _ => (.ok 0, s.setSession c .idle)
  | .work _, .mySql, .work _ ended doomed => (if ended || doomed then .error rmfail else .ok 1, s)
  | .work _, .postgres, .work _ _ doomed => (if doomed then .error abortedText else .ok 1, s)
  | .work x, _, .idle => (.ok 1, { s with stray := x :: s.stray })

/-- What is left when the server refuses a statement it could have carried out. -/
def refuse (dialect : XaDialect) (c : Conn) (dooms : Bool) (stmt : Stmt) (s : Server) : Option Server :=
  match stmt, dialect, s.session c with
  | .start _, _, .idle | .commit _, _, .idle | .rollback _, _, .idle | .work _, _, .idle => some s
  | .fin x, _, .work y false _ => if x = y then some (s.setSession c (.work y true true)) else none
  | .prepare x, .mySql, .work y true _ => if x = y then some (s.setSession c (.work y true true)) else none
  | .prepare _, .postgres, .work .. => some (s.setSession c .idle)
  | .rollback x, .mySql, .work y true _ => if x = y then some s else none
  | .work _, .mySql, .work y ended doomed => some (s.setSession c (.work y ended (doomed || dooms)))
  | .work _, .postgres, .work y ended _ => some (s.setSession c (.work y ended true))
  | _, _, _ => none

end Server

/-- How a statement fares: it is served, refused, or its connection breaks before or after it took effect. -/
inductive Fate
  | served
  | refused (dooms : Bool)
  | lost (applied : Bool)

namespace Server

def run (dialect : XaDialect) (fate : Fate) (c : Conn) (stmt : Stmt) (s : Server) : Except XaError Nat × Server :=
  match fate with
  | .served => ((s.serve dialect c stmt).1.mapError .database, (s.serve dialect c stmt).2)
  | .refused dooms =>
    match s.refuse dialect c dooms stmt with
    | some s' => (.error (.database refusedText), s')
    | none => ((s.serve dialect c stmt).1.mapError .database, (s.serve dialect c stmt).2)
  | .lost applied => (.error (.database closedText), (if applied then (s.serve dialect c stmt).2 else s).close c)

def recover (fate : Fate) (c : Conn) (s : Server) : Except XaError (List Xid) × Server :=
  match fate with
  | .served => (.ok s.inDoubt, s)
  | .refused _ => (.error (.database refusedText), s)
  | .lost _ => (.error (.database closedText), s.close c)

variable {s : Server} {dialect : XaDialect} {c : Conn} {fate : Fate} {x : Xid} {ended doomed : Bool}

theorem database_text (text : String) : (XaError.database text).text = "XA database: " ++ text := rfl

theorem unknownXid_closed : unknownXid (.database closedText) = false := by
  decide +kernel

theorem unknownXid_refused : unknownXid (.database refusedText) = false := by
  decide +kernel

theorem unknownXid_missing (a b : String) : unknownXid (.database (a ++ b ++ "\" does not exist")) = true := by
  have hend : "does not exist".toList <:+: "\" does not exist".toList.map Char.toLower := by
    decide +kernel
  have hinfix : "does not exist".toList <:+:
      ((XaError.database (a ++ b ++ "\" does not exist")).text.map Char.toLower).toList := by
    rw [String.toList_map, database_text, String.toList_append, String.toList_append, List.map_append, List.map_append]
    exact (hend.trans (List.suffix_append _ _).isInfix).trans (List.suffix_append _ _).isInfix
  unfold unknownXid contains
  simp only [decide_eq_true hinfix, Bool.or_true, Bool.true_or]

/-- Postgres does not know a transaction that it has rolled back. -/
theorem unknownXid_nota (x : Xid) : unknownXid (.database (nota .postgres x)) = true := unknownXid_missing _ x

theorem run_dead (stmt : Stmt) (h : s.session c = .dead) :
    ∃ e, run dialect fate c stmt s = (.error e, s) ∧ unknownXid e = false := by
  have hserve : s.serve dialect c stmt = (.error closedText, s) := by
    unfold serve
    rw [h]
  have hclose : s.close c = s := setSession_of_eq h
  refine ⟨.database closedText, ?_, unknownXid_closed⟩
  cases fate with
  | served => simp [run, hserve, Except.mapError]
  | refused dooms =>
    have hrefuse : s.refuse dialect c dooms stmt = none := by
      unfold refuse
      rw [h]
      cases stmt <;> cases dialect <;> rfl
    simp [run, hrefuse, hserve, Except.mapError]
  | lost applied => cases applied <;> simp [run, hserve, hclose]

/-- A connection that breaks closes its session, whether the statement took effect or not. -/
theorem run_lost {stmt : Stmt} (applied : Bool) (h : (s.serve dialect c stmt).2.close c = s.close c) :
    run dialect (.lost applied) c stmt s = (.error (.database closedText), s.setSession c .dead) := by
  cases applied with
  | false => rfl
  | true => exact congrArg _ h

theorem run_refused {stmt : Stmt} {dooms : Bool} (h : s.refuse dialect c dooms stmt = none) :
    run dialect (.refused dooms) c stmt s = run dialect .served c stmt s := by
  simp [run, h]

theorem run_start (h : s.session c = .idle) :
    (∃ n, run dialect fate c (.start x) s = (.ok n, s.setSession c (.work x false false))) ∨
    ∃ e new, run dialect fate c (.start x) s = (.error e, s.setSession c new) ∧ (new = .idle ∨ new = .dead) := by
  have hserve : s.serve dialect c (.start x) = (.ok 0, s.setSession c (.work x false false)) := by
    unfold serve
    rw [h]
  cases fate with
  | served => exact .inl ⟨0, by simp [run, hserve, Except.mapError]⟩
  | refused dooms =>
    have hrefuse : s.refuse dialect c dooms (.start x) = some s := by
      unfold refuse
      rw [h]
    refine .inr ⟨.database refusedText, .idle, ?_, .inl rfl⟩
    simp [run, hrefuse, setSession_of_eq h]
  | lost applied => exact .inr ⟨_, .dead, run_lost applied (by simp [hserve, close]), .inr rfl⟩

theorem run_fin (h : s.session c = .work x ended doomed) :
    ∃ r new, run dialect fate c (.fin x) s = (r, s.setSession c new) ∧
      (new = .dead ∨ ∃ doomed', new = .work x true doomed') := by
  have hserve : ∃ r doomed', s.serve dialect c (.fin x) = (r, s.setSession c (.work x true doomed')) := by
    unfold serve
    rw [h]
    cases ended with
    | false => exact ⟨_, doomed, by simp; rfl⟩
    | true => exact ⟨_, doomed, by simp [setSession_of_eq h]; rfl⟩
  obtain ⟨r, doomed', hserve⟩ := hserve
  cases fate with
  | served => exact ⟨_, _, by simp [run, hserve]; rfl, .inr ⟨doomed', rfl⟩⟩
  | refused dooms =>
    cases ended with
    | false =>
      have hrefuse : s.refuse dialect c dooms (.fin x) = some (s.setSession c (.work x true true)) := by
        unfold refuse
        rw [h]
        exact if_pos rfl
      exact ⟨_, _, by simp [run, hrefuse]; rfl, .inr ⟨true, rfl⟩⟩
    | true =>
      have hrefuse : s.refuse dialect c dooms (.fin x) = none := by
        unfold refuse
        rw [h]
      exact ⟨_, _, by rw [run_refused hrefuse, run, hserve], .inr ⟨doomed', rfl⟩⟩
  | lost applied => exact ⟨_, .dead, run_lost applied (by simp [hserve, close]), .inl rfl⟩

theorem run_fin_idle (h : s.session c = .idle) :
    ∃ e new, run dialect fate c (.fin x) s = (.error e, s.setSession c new) ∧ (new = .idle ∨ new = .dead) := by
  have hserve : s.serve dialect c (.fin x) = (.error (nota dialect x), s) := by
    unfold serve
    rw [h]
  cases fate with
  | served => exact ⟨_, .idle, by simp [run, hserve, Except.mapError, setSession_of_eq h]; rfl, .inl rfl⟩
  | refused dooms =>
    have hrefuse : s.refuse dialect c dooms (.fin x) = none := by
      unfold refuse
      rw [h]
    exact ⟨_, .idle, by simp [run, hrefuse, hserve, Except.mapError, setSession_of_eq h]; rfl, .inl rfl⟩
  | lost applied => exact ⟨_, .dead, run_lost applied (by simp [hserve, close]), .inr rfl⟩

theorem serve_prepare (h : s.session c = .work x ended doomed) (hfailed : dialect = .postgres → doomed = false)
    (hfresh : x ∉ s.inDoubt) : s.serve dialect c (.prepare x) = (.ok 0, (s.setSession c .idle).prepared x) ∨
      ∃ text, s.serve dialect c (.prepare x) = (.error text, s.setSession c (.work x ended doomed)) := by
  unfold serve
  rw [h]
  cases dialect with
  | postgres =>
    obtain rfl : doomed = false := hfailed rfl
    exact .inl (by simp [hfresh, prepared, setSession])
  | mySql =>
    rw [setSession_of_eq h]
    cases ended with
    | false => exact .inr ⟨_, by simp; rfl⟩
    | true =>
      cases doomed with
      | false => exact .inl (by simp [prepared, setSession])
      | true => exact .inr ⟨_, by simp; rfl⟩

/-- A refused PREPARE leaves the branch open on MySQL, and rolls it back on Postgres. -/
theorem refuse_prepare (dooms : Bool) (h : s.session c = .work x ended doomed) :
    s.refuse dialect c dooms (.prepare x) = none ∨ ∃ new, s.refuse dialect c dooms (.prepare x) = some (s.setSession c new) ∧
      (new = .idle ∨ new = .work x ended true) := by
  unfold refuse
  rw [h]
  cases dialect with
  | postgres => exact .inr ⟨.idle, rfl, .inl rfl⟩
  | mySql =>
    cases ended with
    | false => exact .inl rfl
    | true => exact .inr ⟨.work x true true, if_pos rfl, .inr rfl⟩

theorem run_prepare (h : s.session c = .work x ended doomed) (hfailed : dialect = .postgres → doomed = false)
    (hfresh : x ∉ s.inDoubt) :
    (∃ n, run dialect fate c (.prepare x) s = (.ok n, (s.setSession c .idle).prepared x)) ∨
    (∃ e new, run dialect fate c (.prepare x) s = (.error e, s.setSession c new) ∧
      (new = .idle ∨ new = .dead ∨ ∃ doomed', new = .work x ended doomed')) ∨
    ∃ e, run dialect fate c (.prepare x) s = (.error e, (s.setSession c .dead).prepared x) := by
  have hserve := serve_prepare h hfailed hfresh
  have hserved : (∃ n, run dialect .served c (.prepare x) s = (.ok n, (s.setSession c .idle).prepared x)) ∨
      ∃ e new, run dialect .served c (.prepare x) s = (.error e, s.setSession c new) ∧
        (new = .idle ∨ new = .dead ∨ ∃ doomed', new = .work x ended doomed') := by
    rcases hserve with hserve | ⟨text, hserve⟩
    · exact .inl ⟨0, by rw [run, hserve]; rfl⟩
    · exact .inr ⟨.database text, _, by rw [run, hserve]; rfl, .inr (.inr ⟨doomed, rfl⟩)⟩
  cases fate with
  | served => exact hserved.imp_right .inl
  | refused dooms =>
    rcases refuse_prepare dooms h with hrefuse | ⟨new, hrefuse, hnew⟩
    · rw [run_refused hrefuse]
      exact hserved.imp_right .inl
    · refine .inr (.inl ⟨.database refusedText, new, by simp [run, hrefuse], ?_⟩)
      exact hnew.imp_right fun hwork => .inr ⟨true, hwork⟩
  | lost applied =>
    rcases hserve with hserve | ⟨text, hserve⟩
    · cases applied with
      | false => exact .inr (.inl ⟨.database closedText, .dead, rfl, .inr (.inl rfl)⟩)
      | true =>
        refine .inr (.inr ⟨.database closedText, ?_⟩)
        simp [run, hserve, close, prepared, setSession]
    · exact .inr (.inl ⟨_, .dead, run_lost applied (by simp [hserve, close]), .inr (.inl rfl)⟩)

theorem serve_lastStmt (durable : Bool) (h : s.session c = .idle) :
    s.serve dialect c (lastStmt x durable) = s.settle dialect x durable := by
  unfold serve
  rw [h]
  cases durable <;> rfl

theorem refuse_lastStmt (durable dooms : Bool) (h : s.session c = .idle) :
    s.refuse dialect c dooms (lastStmt x durable) = some s := by
  unfold refuse
  rw [h]
  cases durable <;> rfl

theorem run_last (durable : Bool) (h : s.session c = .idle) (hx : x ∈ s.inDoubt) :
    (∃ n, run dialect fate c (lastStmt x durable) s = (.ok n, s.settled x durable)) ∨
    (∃ e new, run dialect fate c (lastStmt x durable) s = (.error e, s.setSession c new) ∧ unknownXid e = false ∧
      (new = .idle ∨ new = .dead)) ∨
    ∃ e, run dialect fate c (lastStmt x durable) s = (.error e, (s.setSession c .dead).settled x durable) ∧
      unknownXid e = false := by
  have hserve : s.serve dialect c (lastStmt x durable) = (.ok 0, s.settled x durable) := by
    rw [serve_lastStmt durable h, settle, if_pos hx]
  cases fate with
  | served => exact .inl ⟨0, by simp [run, hserve, Except.mapError]⟩
  | refused dooms =>
    refine .inr (.inl ⟨.database refusedText, .idle, ?_, unknownXid_refused, .inl rfl⟩)
    simp [run, refuse_lastStmt durable dooms h, setSession_of_eq h]
  | lost applied =>
    cases applied with
    | false => exact .inr (.inl ⟨.database closedText, .dead, by simp [run, close], unknownXid_closed, .inr rfl⟩)
    | true =>
      refine .inr (.inr ⟨.database closedText, ?_, unknownXid_closed⟩)
      simp [run, hserve, close, settled, setSession]

theorem run_last_unknown (durable : Bool) (h : s.session c = .idle) (hx : x ∉ s.inDoubt) :
    ∃ r new, run dialect fate c (lastStmt x durable) s = (r, s.setSession c new) ∧ (new = .idle ∨ new = .dead) := by
  have hserve : s.serve dialect c (lastStmt x durable) = (.error (nota dialect x), s) := by
    rw [serve_lastStmt durable h, settle, if_neg hx]
  cases fate with
  | served => exact ⟨_, .idle, by simp [run, hserve, setSession_of_eq h]; rfl, .inl rfl⟩
  | refused dooms =>
    exact ⟨_, .idle, by simp [run, refuse_lastStmt durable dooms h, setSession_of_eq h]; rfl, .inl rfl⟩
  | lost applied => exact ⟨_, .dead, run_lost applied (by simp [hserve, close]), .inr rfl⟩

theorem run_rollbackOpen (h : s.session c ≠ .dead) :
    ∃ r new, run dialect fate c .rollbackOpen s = (r, s.setSession c new) ∧ (new = .idle ∨ new = .dead) := by
  have hserve : s.serve dialect c .rollbackOpen = (.ok 0, s.setSession c .idle) := by
    unfold serve
    cases hσ : s.session c with
    | dead => exact absurd hσ h
    | _ => rfl
  cases fate with
  | served => exact ⟨_, .idle, by simp [run, hserve]; rfl, .inl rfl⟩
  | refused dooms =>
    have hrefuse : s.refuse dialect c dooms .rollbackOpen = none := by
      unfold refuse
      cases s.session c <;> rfl
    exact ⟨_, .idle, by simp [run, hrefuse, hserve]; rfl, .inl rfl⟩
  | lost applied => exact ⟨_, .dead, run_lost applied (by simp [hserve, close]), .inr rfl⟩

theorem run_rollback (h : s.session c = .work x true doomed) :
    ∃ r new, run .mySql fate c (.rollback x) s = (r, s.setSession c new) ∧
      (new = .idle ∨ new = .dead ∨ ∃ doomed', new = .work x true doomed') := by
  have hserve : s.serve .mySql c (.rollback x) = (.ok 0, s.setSession c .idle) := by
    unfold serve
    rw [h]
    exact if_pos ⟨rfl, rfl⟩
  cases fate with
  | served => exact ⟨_, .idle, by simp [run, hserve]; rfl, .inl rfl⟩
  | refused dooms =>
    have hrefuse : s.refuse .mySql c dooms (.rollback x) = some s := by
      unfold refuse
      rw [h]
      exact if_pos rfl
    exact ⟨_, _, by simp [run, hrefuse, setSession_of_eq h]; rfl, .inr (.inr ⟨doomed, rfl⟩)⟩
  | lost applied => exact ⟨_, .dead, run_lost applied (by simp [hserve, close]), .inr (.inl rfl)⟩

theorem run_work (h : s.session c = .work x ended doomed) :
    ∃ r new, run dialect fate c (.work x) s = (r, s.setSession c new) ∧ (∀ n, r = .ok n → n = 1) ∧
      (new = .dead ∨ ∃ doomed', new = .work x ended doomed') := by
  have hserve : ∃ r, s.serve dialect c (.work x) = (r, s) ∧ ∀ n, r = .ok n → n = 1 := by
    unfold serve
    rw [h]
    cases dialect with
    | mySql =>
      refine ⟨_, rfl, fun n hn => ?_⟩
      split at hn <;> cases hn
      rfl
    | postgres =>
      refine ⟨_, rfl, fun n hn => ?_⟩
      split at hn <;> cases hn
      rfl
  obtain ⟨r, hserve, hone⟩ := hserve
  have hmap : ∀ n, r.mapError XaError.database = .ok n → n = 1 := by
    intro n hn
    cases r with
    | error e => cases hn
    | ok m =>
      cases hn
      exact hone n rfl
  cases fate with
  | served =>
    refine ⟨_, .work x ended doomed, ?_, hmap, .inr ⟨doomed, rfl⟩⟩
    simp [run, hserve, setSession_of_eq h]
  | refused dooms =>
    have hno : ∀ n, (.error (.database refusedText) : Except XaError Nat) = .ok n → n = 1 := fun n hn => by cases hn
    cases dialect with
    | mySql =>
      have hrefuse : s.refuse .mySql c dooms (.work x) = some (s.setSession c (.work x ended (doomed || dooms))) := by
        unfold refuse
        rw [h]
      exact ⟨_, .work x ended (doomed || dooms), by simp [run, hrefuse], hno, .inr ⟨_, rfl⟩⟩
    | postgres =>
      have hrefuse : s.refuse .postgres c dooms (.work x) = some (s.setSession c (.work x ended true)) := by
        unfold refuse
        rw [h]
      exact ⟨_, .work x ended true, by simp [run, hrefuse], hno, .inr ⟨_, rfl⟩⟩
  | lost applied =>
    exact ⟨_, .dead, run_lost applied (by simp [hserve, close]), fun n hn => (by cases hn), .inl rfl⟩

end Server

open Server

/-- The database of the documentation. -/
def documented (dialect : XaDialect) : Database Fate where
  dialect := dialect
  run := Server.run dialect
  recover := Server.recover
  run_dead h := Server.run_dead _ h
  run_start h := Server.run_start h
  run_fin _ h := Server.run_fin h
  run_fin_idle _ h := Server.run_fin_idle h
  run_work h := Server.run_work h
  run_prepare h hfailed hfresh := Server.run_prepare h hfailed hfresh
  run_last durable h hx := Server.run_last durable h hx
  run_last_unknown durable h hx := Server.run_last_unknown durable h hx
  run_rollbackOpen _ h := Server.run_rollbackOpen h
  run_rollback hdialect h := hdialect ▸ Server.run_rollback h
  recover_keeps {f c s} := by
    cases f with
    | lost applied => exact .inr rfl
    | _ => exact .inl rfl
  recover_ok {f c s found} h x := by
    cases f with
    | served => rw [Except.ok.inj h]
    | _ => cases h

theorem documented_dropsFailed : (documented .postgres).DropsFailed where
  starts c x s h := ⟨.served, 0, by simp [documented, run, serve, h, Except.mapError]⟩
  fails c x s h := ⟨.refused true, .database refusedText, by simp [documented, run, refuse, h]⟩
  drops c x s h := ⟨.served, 0, by simp [documented, run, serve, h, Except.mapError]⟩
  unknown c x s h hx := by
    refine ⟨.served, .database (nota .postgres x), ?_, unknownXid_nota x⟩
    simp [documented, run, serve, settle, h, hx, Except.mapError]

end Ecat.TwoPhase
