import Ecat.XaMatches
import Ecat.XaServer

/-! The coordinator over MySQL and Postgres participants does what its model does over branches, so its
transactions are atomic in these databases. -/

namespace Ecat.TwoPhase

open SqlxXaParticipant

variable {F : Type} {w : SqlxWorld F} {v : World} {t : Thread} {q : Phase} {l : Luck F}

theorem matched {o : Op} (hm : Mirrors w v) (hi : Inv False v) (hl : Linked t q w v) (hmay : q.may t o)
    (hproper : Proper False t o l w) : Matched t q o l w v := by
  cases o with
  | xa call p x =>
    obtain ⟨hspare, hsound, hends⟩ := hproper
    cases call with
    | start => exact matched_start hm hl hmay hspare
    | fin => exact matched_fin hm hl hmay
    | prepare => exact matched_prepare hm hl hmay (hsound rfl)
    | commit => exact matched_commit hm hi hl hmay.1 hmay.2 hspare
    | rollback cause => exact matched_rollback hm hl hmay.1 hmay.2 hspare (hends cause rfl) cause
  | xaRecover p => exact matched_xaRecover hm hi hl
  | execute p x => exact matched_execute hm hl hmay
  | insertLog row => exact matched_insertLog hm hl hmay
  | setLog x status decision => exact matched_setLog hm hl hmay
  | recoverableLogs => exact matched_recoverableLogs hm hi hl
  | _ => exact matched_read trivial (fun _ => rfl) rfl hm hl trivial hl.decided

theorem ok_of_idle {p : SqlxXaParticipant F} (hconns : ∀ x, p.conns x = none) (hidle : ∀ c, p.server.session c = .idle) :
    p.Ok := by
  refine ⟨fun x y a b ha => ?_, fun c x ended doomed hc => ?_⟩
  · rw [hconns] at ha
    cases ha
  · rw [hidle] at hc
    cases hc

/-- A crash closes the sessions with their open transactions, and keeps what is prepared. -/
theorem Mirrors.crash (h : Mirrors w v) : Mirrors (sqlxHost.crash w) (crash v) := by
  refine ⟨h.log, fun p => ok_of_idle (fun _ => rfl) fun _ => rfl, fun p x => ?_,
    h.stray, h.commas⟩
  have hold := h.holds p x
  simp only [TwoPhase.crash]
  cases hb : v.branch p x with
  | active =>
    rw [hb] at hold
    exact ⟨rfl, hold.2⟩
  | prepared =>
    rw [hb] at hold
    exact ⟨hold.1, hold.2.1, fun c hc => by cases hc⟩
  | committed =>
    rw [hb] at hold
    exact ⟨rfl, hold.2⟩
  | _ =>
    rw [hb] at hold
    exact ⟨rfl, hold.2⟩

theorem linked_start {thread : Thread → Option (Proc Outcome)} {c : Cmd} (hm : Mirrors w v) (hi : Inv False v)
    (ok : sqlxHost.admits ⟨w, thread⟩ t c) : Linked t .start w v := by
  obtain ⟨hadmits, hcomma⟩ := ok
  have hnone : ∀ x p, t = .tx x → v.branch p x = .none := by
    rintro x p rfl
    cases c with
    | recover registered => exact hadmits.elim
    | transact registered participants work f =>
      have hrow : v.row x = none := by
        rw [World.row, hm.log]
        exact hadmits.1
      exact row_none hi hrow p
  refine ⟨hcomma, fun x p ht _ => ?_, fun x p ht _ => hnone x p ht, fun p y _ hp => (by cases hp), fun y r _ hy => by cases hy⟩
  have hholds := hm.holds p x
  rw [hnone x p ht] at hholds ⊢
  refine ⟨fun a ha => ?_, Branch.noConfusion⟩
  rw [hholds.1] at ha
  cases ha

def sqlxRefinement : sqlxHost.Refinement (Proper (F := F) False) host (certificate False) typestate where
  rel := Mirrors
  link := Linked
  start s v t c hm hi ok := by
    refine ⟨rfl, ?_, .start, ?_, linked_start hm hi ok⟩
    · obtain ⟨hadmits, -⟩ := ok
      cases t with
      | recovery => cases c <;> exact hadmits
      | tx x =>
        cases c with
        | recover registered => exact hadmits
        | transact registered participants work f =>
          refine ⟨?_, hadmits.2⟩
          change v.log.find? _ = none
          rw [hm.log]
          exact hadmits.1
    · obtain ⟨hadmits, -⟩ := ok
      cases t with
      | tx x =>
        cases c with
        | transact registered participants work f => exact keeps_client registered participants work f
        | recover registered => exact hadmits.elim
      | recovery =>
        cases c with
        | transact registered participants work f => exact hadmits.elim
        | recover registered => exact (keeps_recover registered).bind fun _ _ _ => trivial
  call t o l w v q hm hi hl hmay hproper := by
    obtain ⟨d, r, v', hexec, hanswer, hm', hgiven, hl', hothers⟩ := matched hm hi hl hmay hproper
    exact ⟨d, r, v', fun h => h.elim, hexec, hanswer, hm', hgiven, hl', hothers⟩
  crash _ _ := Mirrors.crash
  env := by
    rintro next w _ v ⟨p, c, rfl⟩ hm
    exact ⟨hm.close p c, fun t q hl => hl.close p c⟩

theorem mirrors_init (dbs : Name → Database F) : Mirrors (sqlxInit dbs).world init.world :=
  ⟨rfl, fun p => ok_of_idle (fun _ => rfl) fun _ => rfl,
    fun p x => ⟨rfl, List.not_mem_nil, List.not_mem_nil⟩, fun _ => rfl, fun r hr => by cases hr⟩

variable {dbs : Name → Database F} {s : Sys Thread Op Res Outcome (SqlxWorld F)}

theorem mirrored (h : sqlxHost.Reach (Proper False) (sqlxInit dbs) s) :
    ∃ v, host.Reach Host.Free init ⟨v, s.thread⟩ ∧ Mirrors s.world v := by
  obtain ⟨v, hreach, hm, -⟩ := sqlxRefinement.reach (mirrors_init dbs) inv_init h
  exact ⟨v, hreach.mono fun _ _ _ _ _ => trivial, hm⟩

/-- One statement of work and a commit. A caller may commit without a look at the answer of the statement. -/
def workAndCommit (start work prepare commit : F) : List (Luck F) :=
  let quiet : Luck F := ⟨.error "no connection needed", start, .ok⟩
  [quiet, quiet, { quiet with conn := .ok 0 }, { quiet with fate := work }, quiet, quiet, { quiet with fate := prepare },
    quiet, quiet, { quiet with fate := commit }, quiet]

/-- Over Postgres such a run sends four statements, and it reports success when the last one counts as done. -/
theorem workAndCommit_run (dbs : Name → Database F) (p : Name) (f₁ f₂ f₃ f₄ : F) {failed : Prop} {n₁ n₃ : Nat}
    {r₂ r₄ : Except XaError Nat} {s₁ s₂ s₃ s₄ : Server} (hp : (dbs p).dialect = .postgres)
    (hstart : (dbs p).run f₁ 0 (.start "x") .fresh = (.ok n₁, s₁))
    (hwork : (dbs p).run f₂ 0 (.work "x") s₁ = (r₂, s₂)) (hsound : s₂.session 0 = .work "x" false false ∨ failed)
    (hprepare : (dbs p).run f₃ 0 (.prepare "x") s₂ = (.ok n₃, s₃))
    (hcommit : (dbs p).run f₄ 0 (.commit "x") s₃ = (r₄, s₄)) (hdone : resolved r₄ = .ok ()) :
    ∃ s, sqlxHost.Reach (Proper failed) (sqlxInit dbs) s ∧
      s.thread (.tx "x") = some (.ret (.committed ⟨"x", [p]⟩ (.ok ()))) ∧ (s.world.site p).server = s₄ := by
  have hfailed : ∀ y ended, s₂.session 0 = .work y ended true → failed := by
    intro y ended hy
    rcases hsound with hsound | hfailed
    · rw [hsound] at hy
      cases hy
    · exact hfailed
  have hrun : (prog (.tx "x") (.transact [p] [p] [p] .commit)).Permits sqlxExec (Proper failed (.tx "x"))
        (workAndCommit f₁ f₂ f₃ f₄) (sqlxInit dbs).world ∧
      ((prog (.tx "x") (.transact [p] [p] [p] .commit)).advance sqlxExec (workAndCommit f₁ f₂ f₃ f₄)
        (sqlxInit dbs).world).1 = .ret (.committed ⟨"x", [p]⟩ (.ok ())) ∧
      (((prog (.tx "x") (.transact [p] [p] [p] .commit)).advance sqlxExec (workAndCommit f₁ f₂ f₃ f₄)
        (sqlxInit dbs).world).2.site p).server = s₄ := by
    simp [sqlxInit, workAndCommit, CallTree.advance, CallTree.Permits, CallTree.bind, CallTree.perform, perform, bind,
      pure, prog, client, begin, checkNames, startEach, executeAll, DistributedTx.execute, TwoPhase.finish, commit,
      xaEach, decideCommit, commitEach, sqlxExec, exec, World.answer, World.effect, World.insertLog, World.setLog,
      World.row, SqlxWorld.ledger, SqlxWorld.setSite, xa, xaStart, xaEnd, xaPrepare, xaCommit,
      SqlxXaParticipant.finish, SqlxXaParticipant.execute, execGuard, acquire, pin, Except.mapError, Proper, Spare,
      Failed, SqlxXaParticipant.dialect, hp, hstart, hwork, hprepare, hcommit, hdone]
    exact ⟨fun y hy => hy.elim (hfailed y false) (hfailed y true), rfl⟩
  obtain ⟨hpermits, hret, hserver⟩ := hrun
  have hadmits : sqlxHost.admits (sqlxInit dbs) (.tx "x") (.transact [p] [p] [p] .commit) :=
    ⟨⟨rfl, rfl⟩, fun id hid => by cases hid; decide⟩
  refine ⟨_, Host.Reach.launch sqlxHost (Proper failed) (.tx "x") (.transact [p] [p] [p] .commit)
    (workAndCommit f₁ f₂ f₃ f₄) (sqlxInit dbs) rfl hadmits hpermits, ?_, hserver⟩
  simp only [Function.update_self]
  exact congrArg some hret

/-- A transaction is durable at one participant only when each of them has it or has prepared it, and
`commit` and `rollback` return what became of it. -/
structure Atomic (s : Sys Thread Op Res Outcome (SqlxWorld F)) : Prop where
  whole : ∀ x p, x ∈ (s.world.site p).server.durable → ∃ r ∈ s.world.log, r.id = x ∧ p ∈ r.participants ∧
    ∀ q ∈ r.participants, x ∈ (s.world.site q).server.durable ∨ x ∈ (s.world.site q).server.inDoubt
  committed : ∀ x tx, s.thread (.tx x) = some (.ret (.committed tx (.ok ()))) →
    ∀ p ∈ tx.participants, tx.id ∈ (s.world.site p).server.durable
  rolledBack : ∀ x tx, s.thread (.tx x) = some (.ret (.rolledBack tx (.ok ()))) →
    ∀ p, tx.id ∉ (s.world.site p).server.durable

theorem committed_row (hi : Inv False v) {p : Name} {x : Xid} (hp : v.branch p x = .committed) :
    ∃ r ∈ v.log, r.id = x ∧ p ∈ r.participants ∧
      ∀ q ∈ r.participants, v.branch q x = .committed ∨ v.branch q x = .prepared := by
  cases hrow : v.row x with
  | none =>
    rw [row_none hi hrow] at hp
    cases hp
  | some r =>
    obtain ⟨hothers, hstatus⟩ := (View.ok_row hrow).1 (hi.views x)
    have hmem : p ∈ r.participants := by
      by_contra hn
      have hnone : v.branch p x = .none := hothers p hn
      rw [hp] at hnone
      cases hnone
    have hdecided : (∀ q ∈ r.participants, (v.view x).branch q = .prepared ∨ (v.view x).branch q = .committed) →
        ∀ q ∈ r.participants, v.branch q x = .committed ∨ v.branch q x = .prepared :=
      fun hall q hq => (hall q hq).symm
    refine ⟨r, List.mem_of_find?_eq_some hrow, by simpa using List.find?_some hrow, hmem, ?_⟩
    cases hst : r.status <;> rw [hst] at hstatus
    · exact absurd hp (hstatus p)
    · exact hdecided hstatus.2
    · exact hdecided hstatus.2
    · exact fun q hq => .inl (hstatus q hq)
    · exact absurd hp (hstatus p)
    · exact absurd hp (hstatus p).1

theorem atomic_of_reach (h : sqlxHost.Reach (Proper False) (sqlxInit dbs) s) : Atomic s := by
  obtain ⟨v, hreach, hm⟩ := mirrored h
  have hgood := good_of_run hreach
  refine ⟨fun x p hx => ?_, fun x tx ht p hp => ?_, fun x tx ht p hx => ?_⟩
  · obtain ⟨r, hr, hid, hp, hall⟩ := committed_row hgood.inv ((durable_iff hm p x).1 hx)
    refine ⟨r, hm.log ▸ hr, hid, hp, fun q hq => ?_⟩
    rw [durable_iff hm, inDoubt_iff hm]
    exact hall q hq
  · have hkept : tx.id = x ∧ ∀ p ∈ tx.participants, v.branch p x = .committed := hgood.safe (.tx x) _ ht
    rw [durable_iff hm, hkept.1]
    exact hkept.2 p hp
  · have hkept : tx.id = x ∧ ∀ p, v.branch p x ≠ .committed := hgood.safe (.tx x) _ ht
    rw [durable_iff hm, hkept.1] at hx
    exact hkept.2 p hx

/-! ### PREPARE in a failed transaction -/

theorem finish_db (p : SqlxXaParticipant F) (x : Xid) (l : Luck F) (stmt : Stmt) : (p.finish x l stmt).2.db = p.db := by
  unfold SqlxXaParticipant.finish
  split <;> rfl

theorem xa_db (p : SqlxXaParticipant F) (x : Xid) (l : Luck F) (call : XaCall) : (p.xa x l call).2.db = p.db := by
  cases call with
  | start =>
    simp only [xa, xaStart]
    split
    · rfl
    · split
      · rfl
      · split
        · next heq => exact congrArg (fun r => r.2.db) heq.symm
        · next heq => exact congrArg (fun r => r.2.db) heq.symm
  | fin =>
    simp only [xa, xaEnd]
    split
    · rfl
    · split <;> rfl
  | prepare =>
    simp only [xa, xaPrepare]
    split
    · rfl
    · split
      · next heq => exact congrArg (fun r => r.2.db) heq.symm
      · next heq => exact congrArg (fun r => r.2.db) heq.symm
  | commit => exact finish_db ..
  | rollback cause => exact finish_db ..

/-- Each participant has its own database. -/
def Serves (dbs : Name → Database F) (w : SqlxWorld F) : Prop := ∀ p, (w.site p).db = dbs p

theorem Serves.setSite (h : Serves dbs w) {p : Name} {site : SqlxXaParticipant F} (hsite : site.db = (w.site p).db) :
    Serves dbs (w.setSite p site) := by
  intro r
  rw [setSite_site]
  split
  · next he => rw [hsite, he, h p]
  · exact h r

theorem serves_exec (o : Op) (l : Luck F) (h : Serves dbs w) : Serves dbs (sqlxExec o l w).2 := by
  cases o with
  | xa call p x => exact h.setSite (xa_db ..)
  | xaRecover p =>
    refine h.setSite ?_
    unfold xaRecover
    split <;> rfl
  | execute p x =>
    refine h.setSite ?_
    unfold SqlxXaParticipant.execute
    split <;> rfl
  | _ => exact h

/-- On MySQL a failed statement leaves nothing that PREPARE could lose. -/
theorem reach_mySql {failed : Prop} (hdialects : failed → ∀ p, (dbs p).dialect = .mySql)
    (h : sqlxHost.Reach (Proper failed) (sqlxInit dbs) s) :
    sqlxHost.Reach (Proper False) (sqlxInit dbs) s ∧ Serves dbs s.world := by
  induction h with
  | refl => exact ⟨.refl, fun _ => rfl⟩
  | tail _ hstep ih =>
    obtain ⟨hreach, hd⟩ := ih
    cases hstep with
    | start t c free ok => exact ⟨hreach.tail (.start t c free ok), hd⟩
    | @call t o k l hcall ok =>
      refine ⟨hreach.tail (.call l hcall ?_), serves_exec o l hd⟩
      cases o with
      | xa call p x =>
        refine ⟨ok.1, fun hprepare hfailed => ?_, ok.2.2⟩
        have hpostgres : (dbs p).dialect = .postgres := hd p ▸ hfailed.1
        rw [hdialects (ok.2.1 hprepare hfailed) p] at hpostgres
        cases hpostgres
      | _ => exact ok
    | stop t => exact ⟨hreach.tail (.stop t), hd⟩
    | crash => exact ⟨hreach.tail .crash, hd⟩
    | env w ok =>
      refine ⟨hreach.tail (.env w ok), ?_⟩
      obtain ⟨p, c, rfl⟩ := ok
      exact hd.setSite rfl

/-- The caller who goes on to commit after a failed statement is told of success, and nothing is durable. -/
theorem failed_run {p : Name} (hp : (dbs p).dialect = .postgres) (hdrops : (dbs p).DropsFailed) {failed : Prop}
    (hfailed : failed) : ∃ s, sqlxHost.Reach (Proper failed) (sqlxInit dbs) s ∧
      s.thread (.tx "x") = some (.ret (.committed ⟨"x", [p]⟩ (.ok ()))) ∧ (s.world.site p).server.durable = [] := by
  have hset : ∀ σ, (Server.fresh.setSession 0 σ).session 0 = σ := fun σ => Server.setSession_session ..
  obtain ⟨f₁, n₁, hstart⟩ := hdrops.starts 0 "x" .fresh rfl
  obtain ⟨f₂, e, hwork⟩ := hdrops.fails 0 "x" (Server.fresh.setSession 0 (.work "x" false false)) (hset _)
  rw [Server.setSession_setSession] at hwork
  obtain ⟨f₃, n₃, hprepare⟩ := hdrops.drops 0 "x" (Server.fresh.setSession 0 (.work "x" false true)) (hset _)
  rw [Server.setSession_setSession] at hprepare
  obtain ⟨f₄, e', hcommit, hunknown⟩ := hdrops.unknown 0 "x" (Server.fresh.setSession 0 .idle) (hset _) List.not_mem_nil
  have hdone : resolved (.error e') = .ok () := if_pos hunknown
  obtain ⟨s, hrun, hthread, hserver⟩ :=
    workAndCommit_run dbs p f₁ f₂ f₃ f₄ hp hstart hwork (.inr hfailed) hprepare hcommit hdone
  exact ⟨s, hrun, hthread, by rw [hserver]; rfl⟩

/-- Postgres rolls back a transaction whose statement failed when it is to prepare it, and reports no error:
the transactions are atomic exactly where none of them goes on to PREPARE after that. -/
theorem sqlx_atomic_iff (dbs : Name → Database F) (hdrops : ∀ p, (dbs p).dialect = .postgres → (dbs p).DropsFailed)
    (failed : Prop) :
    (∀ s, sqlxHost.Reach (Proper failed) (sqlxInit dbs) s → Atomic s) ↔ (failed → ∀ p, (dbs p).dialect = .mySql) := by
  constructor
  · intro hall hfailed p
    cases hp : (dbs p).dialect with
    | mySql => rfl
    | postgres =>
      obtain ⟨s, hrun, hthread, hdurable⟩ := failed_run hp (hdrops p hp) hfailed
      have hlost := (hall s hrun).committed "x" ⟨"x", [p]⟩ hthread p (List.mem_singleton_self p)
      rw [hdurable] at hlost
      cases hlost
  · intro hdialects s h
    exact atomic_of_reach (reach_mySql hdialects h).1

theorem sqlx_atomic_iff_documented :
    (∀ s, sqlxHost.Reach (Proper True) (sqlxInit fun _ => documented .mySql) s → Atomic s) ∧
      ¬ ∀ s, sqlxHost.Reach (Proper True) (sqlxInit fun _ => documented .postgres) s → Atomic s := by
  constructor
  · exact (sqlx_atomic_iff (fun _ => documented .mySql) (fun _ h => by cases h) True).2 fun _ _ => rfl
  · intro hall
    have hmySql := (sqlx_atomic_iff (fun _ => documented .postgres) (fun _ _ => documented_dropsFailed) True).1 hall
    cases hmySql trivial "a"

end Ecat.TwoPhase
