import Ecat.XaBranches
import Ecat.XaTypestate

/-! Each call of the coordinator's programs, made over MySQL and Postgres participants, is one of its model over
branches. -/

namespace Ecat.TwoPhase

open SqlxXaParticipant

variable {F : Type}

/-- The databases stand for the branches of the coordinator's model. -/
structure Mirrors (w : SqlxWorld F) (v : World) : Prop where
  log : v.log = w.log
  ok : ∀ p, (w.site p).Ok
  holds : ∀ p x, (w.site p).Holds x (v.branch p x)
  stray : ∀ p, (w.site p).server.stray = []
  commas : ∀ r ∈ w.log, ',' ∉ r.id.toList

/-- What the phase of a thread says about the transactions it acts on. -/
structure Linked (t : Thread) (q : Phase) (w : SqlxWorld F) (v : World) : Prop where
  comma : ∀ x, t = .tx x → ',' ∉ x.toList
  unsent : ∀ x p, t = .tx x → p ∉ q.prepared → (w.site p).Unsent x ∧ v.branch p x ≠ .prepared
  fresh : ∀ x p, t = .tx x → p ∉ q.started → v.branch p x = .none
  ended : ∀ p y, t.Acts y → (p, y) ∈ q.ended → (w.site p).Ended y
  decided : ∀ y r, t.Acts y → y ∈ q.decided → v.row y = some r →
    r.status = .prepared ∨ r.status = .committing ∨ r.status = .committed

variable {w w' : SqlxWorld F} {v v' : World} {t u : Thread} {q q' : Phase} {p : Name} {x y : Xid} {b' : Branch}
  {site : SqlxXaParticipant F}

theorem setBranch_self (v : World) (p : Name) (x : Xid) : v.setBranch p x (v.branch p x) = v := by
  have hbranch : (fun r y => if r = p ∧ y = x then v.branch p x else v.branch r y) = v.branch := by
    funext r y
    split
    · next h => rw [h.1, h.2]
    · rfl
  rw [World.setBranch, hbranch]

theorem setBranch_branch (v : World) (p r : Name) (x y : Xid) (b : Branch) :
    (v.setBranch p x b).branch r y = if r = p ∧ y = x then b else v.branch r y := rfl

theorem setSite_site (w : SqlxWorld F) (p r : Name) (site : SqlxXaParticipant F) :
    (w.setSite p site).site r = if r = p then site else w.site r :=
  Function.update_apply ..

/-- A call on one participant for one transaction. -/
theorem Mirrors.call (h : Mirrors w v) (hok : site.Ok) (hkept : Kept y (w.site p) site) (hholds : site.Holds y b') :
    Mirrors (w.setSite p site) (v.setBranch p y b') := by
  refine ⟨h.log, fun r => ?_, fun r x => ?_, fun r => ?_, h.commas⟩
  · rw [setSite_site]
    split
    · exact hok
    · exact h.ok r
  · rw [setSite_site, setBranch_branch]
    by_cases hr : r = p
    · subst hr
      by_cases hx : x = y
      · subst hx
        simpa using hholds
      · simpa [hx] using hkept.holds hx (h.holds r x)
    · simpa [hr] using h.holds r x
  · rw [setSite_site]
    split
    · exact hkept.stray.trans (h.stray p)
    · exact h.stray r

theorem Linked.call (h : Linked t q w v) (hkept : Kept y (w.site p) site)
    (hended : ∀ r z, (r, z) ∈ q'.ended → (r, z) ∈ q.ended ∨ r = p ∧ z = y)
    (hself : t.Acts y → (p, y) ∈ q'.ended → site.Ended y) (hdecided : q'.decided = q.decided)
    (hunsent : t = .tx y → p ∉ q'.prepared → site.Unsent y ∧ b' ≠ .prepared)
    (hprepared : ∀ r, r ∉ q'.prepared → r ∉ q.prepared)
    (hfresh : t = .tx y → p ∉ q'.started → b' = .none) (hstarted : ∀ r, r ∉ q'.started → r ∉ q.started) :
    Linked t q' (w.setSite p site) (v.setBranch p y b') := by
  refine ⟨h.comma, fun x r ht hq => ?_, fun x r ht hr => ?_, fun r z hz hr => ?_, fun z r hz hq hr => ?_⟩
  · have hold := h.unsent x r ht (hprepared r hq)
    rw [setSite_site, setBranch_branch]
    by_cases hr : r = p
    · subst hr
      by_cases hx : x = y
      · subst hx
        simpa using hunsent ht hq
      · simpa [hx] using ⟨hkept.unsent hx hold.1, hold.2⟩
    · simpa [hr] using hold
  · rw [setBranch_branch]
    split
    · next he =>
      obtain ⟨rfl, rfl⟩ := he
      exact hfresh ht hr
    · exact h.fresh x r ht (hstarted r hr)
  · rw [setSite_site]
    split
    · next he =>
      subst he
      by_cases hzy : z = y
      · subst hzy
        exact hself hz hr
      · rcases hended r z hr with hold | ⟨-, hzy'⟩
        · exact hkept.ended hzy (h.ended r z hz hold)
        · exact absurd hzy' hzy
    · next he =>
      rcases hended r z hr with hold | ⟨hrp, -⟩
      · exact h.ended r z hz hold
      · exact absurd hrp he
  · rw [hdecided] at hq
    exact h.decided z r hz hq hr

/-- Other threads do not notice. -/
theorem Linked.others (h : Linked u q w v) (hkept : Kept y (w.site p) site) (hne : ∀ z, u.Acts z → z ≠ y) :
    Linked u q (w.setSite p site) (v.setBranch p y b') := by
  have hnot : ∀ {z}, u = .tx z → z ≠ y := by
    rintro z rfl
    exact hne z rfl
  exact h.call hkept (fun _ _ hr => .inl hr) (fun hy => absurd rfl (hne y hy)) rfl (fun hu => absurd rfl (hnot hu))
    (fun _ hr => hr) (fun hu => absurd rfl (hnot hu)) fun _ hr => hr

theorem Mirrors.close (h : Mirrors w v) (p : Name) (c : Conn) :
    Mirrors (w.setSite p { w.site p with server := (w.site p).server.close c }) v := by
  refine ⟨h.log, fun r => ?_, fun r x => ?_, fun r => ?_, h.commas⟩
  · rw [setSite_site]
    split
    · exact (h.ok p).close c
    · exact h.ok r
  · rw [setSite_site]
    split
    · next he =>
      subst he
      exact (h.holds r x).close c
    · exact h.holds r x
  · rw [setSite_site]
    split
    · exact h.stray p
    · exact h.stray r

theorem Linked.close (h : Linked t q w v) (p : Name) (c : Conn) :
    Linked t q (w.setSite p { w.site p with server := (w.site p).server.close c }) v := by
  refine ⟨h.comma, fun x r ht hq => ?_, h.fresh, fun r z hz hr => ?_, h.decided⟩
  · obtain ⟨hunsent, hprepared⟩ := h.unsent x r ht hq
    refine ⟨?_, hprepared⟩
    rw [setSite_site]
    split
    · next he =>
      subst he
      exact hunsent.close c
    · exact hunsent
  · rw [setSite_site]
    split
    · next he =>
      subst he
      exact (h.ended r z hz hr).close c
    · exact h.ended r z hz hr

/-- The reply of the coordinator's model that matches a call. -/
theorem exec_answers {call : XaCall} {r : Except XaError Unit} (h : Answers call (v.branch p y) r b') :
    ∃ d, exec (.xa call p y) d v = (r, v.setBranch p y b') := by
  rcases h with ⟨rfl, happly⟩ | ⟨e, rfl, rfl | happly⟩
  · exact ⟨.ok, by simp [exec, World.answer, World.effect, happly]; rfl⟩
  · exact ⟨.lost false e, by simp [exec, setBranch_self]; rfl⟩
  · exact ⟨.lost true e, by simp [exec, World.effect, happly]; rfl⟩

theorem answers_none {call : XaCall} {r : Except XaError Unit} (hcall : call ≠ .start) (h : Answers call .none r b') :
    b' = .none := by
  rcases h with ⟨-, happly⟩ | ⟨e, -, rfl | happly⟩
  · cases call with
    | start => exact absurd rfl hcall
    | _ => cases happly; try rfl
  · rfl
  · cases call with
    | start => exact absurd rfl hcall
    | _ => cases happly; try rfl

theorem answers_prepared {call : XaCall} {b : Branch} {r : Except XaError Unit} (hcall : call ≠ .prepare)
    (hb : b ≠ .prepared) (h : Answers call b r b') : b' ≠ .prepared := by
  have happly : b.apply call = some b' → b' ≠ .prepared := by
    intro happly
    cases call with
    | prepare => exact absurd rfl hcall
    | _ => cases b <;> cases happly <;> exact Branch.noConfusion
  rcases h with ⟨-, hs⟩ | ⟨e, -, rfl | hs⟩
  · exact happly hs
  · exact hb
  · exact happly hs

theorem apart_of_compat (hcompat : compat t u) (hne : u ≠ t) (hacts : t.Acts y) : ∀ z, u.Acts z → z ≠ y := by
  intro z hz he
  cases t with
  | recovery => exact hcompat
  | tx a =>
    cases u with
    | recovery => exact hcompat
    | tx b =>
      have hya : y = a := hacts
      have hzb : z = b := hz
      exact hne (by rw [← hzb, he, hya])

/-- The call of a thread is one of the coordinator's model, and every thread stands where its phase says. -/
def Matched (t : Thread) (q : Phase) (o : Op) (l : Luck F) (w : SqlxWorld F) (v : World) : Prop :=
  ∃ d r v', exec o d v = (r, v') ∧ (r = (sqlxExec o l w).1 ∨ q.blind t o) ∧ Mirrors (sqlxExec o l w).2 v' ∧
    LogGiven o (sqlxExec o l w).1 ∧ Linked t (q.next o (sqlxExec o l w).1) (sqlxExec o l w).2 v' ∧
    ∀ u q', u ≠ t → compat t u → Linked u q' w v → Linked u q' (sqlxExec o l w).2 v'

variable {l : Luck F} {call : XaCall}

theorem matched_call (hm : Mirrors w v) (hacts : t.Acts y)
    (hsim : Simulates (w.site p) y call (v.branch p y) ((w.site p).xa y l call))
    (hlinked : ∀ b', Answers call (v.branch p y) ((w.site p).xa y l call).1 b' →
      Linked t (q.next (.xa call p y) ((w.site p).xa y l call).1) (w.setSite p ((w.site p).xa y l call).2)
        (v.setBranch p y b')) : Matched t q (.xa call p y) l w v := by
  obtain ⟨b', hanswers, hholds⟩ := hsim.branch
  obtain ⟨d, hexec⟩ := exec_answers hanswers
  exact ⟨d, _, _, hexec, .inl rfl, hm.call hsim.ok hsim.kept hholds, trivial, hlinked b' hanswers,
    fun u q' hne hcompat hu => hu.others hsim.kept (apart_of_compat hcompat hne hacts)⟩

theorem matched_start (hm : Mirrors w v) (hl : Linked t q w v) (hmay : q.may t (.xa .start p y))
    (hspare : ∀ c, l.conn = .ok c → (w.site p).Spare c) : Matched t q (.xa .start p y) l w v := by
  obtain ⟨rfl, hp, hended, hpreparing⟩ := hmay
  have hnone : v.branch p y = .none := hl.fresh y p rfl hp
  have hholds := hm.holds p y
  rw [hnone] at hholds
  obtain ⟨hsim, hunsent⟩ := simulates_start (hm.ok p) hholds hspare
  rw [← hnone] at hsim
  refine matched_call hm (acts_self y) hsim fun b' hanswers => ?_
  refine hl.call hsim.kept (fun r z hr => .inl hr) (fun _ hr => ?_) rfl (fun _ _ => ⟨hunsent, ?_⟩) (fun _ hr => hr)
    (fun _ hr => absurd List.mem_cons_self hr) fun r hr hs => hr (List.mem_cons_of_mem p hs)
  · change (p, y) ∈ q.ended at hr
    rw [hended] at hr
    cases hr
  · exact answers_prepared (by decide) (by rw [hnone]; exact Branch.noConfusion) hanswers

theorem matched_fin (hm : Mirrors w v) (hl : Linked t q w v) (hacts : t.Acts y) :
    Matched t q (.xa .fin p y) l w v := by
  obtain ⟨hok, hkept, hholds, hended, hunsent, hanswers⟩ := xaEnd_spec (hm.ok p) (hm.holds p y)
  have hlinked : Linked t (q.next (.xa .fin p y) ((w.site p).xaEnd y l).1) (w.setSite p ((w.site p).xaEnd y l).2)
      (v.setBranch p y (v.branch p y)) := by
    refine hl.call hkept (fun r z hr => ?_) (fun _ _ => hended) rfl (fun ht hq => ?_) (fun _ hr => hr)
      (fun ht hr => ?_) fun _ hr => hr
    · rcases List.mem_cons.1 hr with he | hr
      · exact .inr (Prod.mk.inj he)
      · exact .inl hr
    · obtain ⟨hsent, hprepared⟩ := hl.unsent y p ht hq
      exact ⟨hunsent hsent, hprepared⟩
    · exact hl.fresh y p ht hr
  have hmirrors := hm.call hok hkept hholds
  have hothers : ∀ u q', u ≠ t → compat t u → Linked u q' w v →
      Linked u q' (w.setSite p ((w.site p).xaEnd y l).2) (v.setBranch p y (v.branch p y)) :=
    fun u q' hne hcompat hu => hu.others hkept (apart_of_compat hcompat hne hacts)
  by_cases hprepared : v.branch p y = .prepared
  · -- only a thread that does not look at the answer sends XA END to a prepared branch
    have hblind : q.blind t (.xa .fin p y) := by
      cases t with
      | recovery => exact .inl rfl
      | tx x =>
        have hx : y = x := hacts
        subst hx
        refine .inr fun hnone => (hl.unsent y p rfl ?_).2 hprepared
        rw [hnone]
        exact List.not_mem_nil
    rw [setBranch_self] at hmirrors hlinked hothers
    exact ⟨.lost false (.unknownXid y), _, v, rfl, .inr hblind, hmirrors, trivial, hlinked, hothers⟩
  · obtain ⟨d, hexec⟩ := exec_answers (hanswers hprepared)
    exact ⟨d, _, _, hexec, .inl rfl, hmirrors, trivial, hlinked, hothers⟩

theorem matched_prepare (hm : Mirrors w v) (hl : Linked t q w v) (hmay : q.may t (.xa .prepare p y))
    (hsound : ¬ (w.site p).Failed y) : Matched t q (.xa .prepare p y) l w v := by
  obtain ⟨rfl, hp⟩ := hmay
  obtain ⟨hsim, hended⟩ := simulates_prepare (hm.ok p) (hm.holds p y) (hl.unsent y p rfl hp).1 hsound
  refine matched_call hm (acts_self y) hsim fun b' hanswers => ?_
  refine hl.call hsim.kept (fun r z hr => .inl hr) (fun hy hr => hended (hl.ended p y hy hr)) rfl
    (fun _ hq => absurd List.mem_cons_self hq) (fun r hr hq => hr (List.mem_cons_of_mem p hq)) (fun _ hr => ?_)
    fun _ hr => hr
  rw [hl.fresh y p rfl hr] at hanswers
  exact answers_none (by decide) hanswers

/-- After its last statement nothing is pinned for a transaction. -/
theorem matched_last (hm : Mirrors w v) (hl : Linked t q w v) (hacts : t.Acts y) (hstart : call ≠ .start)
    (hprepare : call ≠ .prepare) (hnext : ∀ r, q.next (.xa call p y) r = q)
    (hsim : Simulates (w.site p) y call (v.branch p y) ((w.site p).xa y l call))
    (hnone : ((w.site p).xa y l call).2.conns y = none) : Matched t q (.xa call p y) l w v := by
  refine matched_call hm hacts hsim fun b' hanswers => ?_
  have hq : q.next (.xa call p y) ((w.site p).xa y l call).1 = q := hnext _
  rw [hq]
  have hno : ∀ a, ((w.site p).xa y l call).2.conns y ≠ some a := by
    intro a ha
    rw [hnone] at ha
    cases ha
  refine hl.call hsim.kept (fun r z hr => .inl hr) (fun _ _ _ a _ ha => absurd ha (hno a)) rfl (fun ht hq => ?_)
    (fun _ hr => hr) (fun ht hr => ?_) fun _ hr => hr
  · exact ⟨fun a ha => absurd ha (hno a), answers_prepared hprepare (hl.unsent y p ht hq).2 hanswers⟩
  · rw [hl.fresh y p ht hr] at hanswers
    exact answers_none hstart hanswers

theorem matched_commit (hm : Mirrors w v) (hi : Inv False v) (hl : Linked t q w v) (hacts : t.Acts y)
    (hdecided : y ∈ q.decided) (hspare : ∀ c, l.conn = .ok c → (w.site p).Spare c) :
    Matched t q (.xa .commit p y) l w v := by
  have hactive : v.branch p y ≠ .active := by
    have hview := hi.views y
    intro hb
    have hb' : (v.view y).branch p = .active := hb
    cases hrow : v.row y with
    | none =>
      have hnone : ∀ r, (v.view y).branch r = .none := by simpa [View.Ok, World.view, hrow] using hview
      rw [hnone p] at hb'
      cases hb'
    | some r =>
      have hok := (View.ok_row hrow).1 hview
      by_cases hp : p ∈ r.participants
      · rcases hl.decided y r hacts hdecided hrow with hs | hs | hs <;> rw [RowOk, hs] at hok
        · rcases hok.2.2 p hp with h | h <;> rw [h] at hb' <;> cases hb'
        · rcases hok.2.2 p hp with h | h <;> rw [h] at hb' <;> cases hb'
        · rw [hok.2 p hp] at hb'
          cases hb'
      · rw [hok.1 p hp] at hb'
        cases hb'
  obtain ⟨hsim, hnone⟩ := simulates_commit (hm.ok p) (hm.holds p y) hspare hactive
  exact matched_last hm hl hacts (by decide) (by decide) (fun _ => rfl) hsim hnone

theorem matched_rollback (hm : Mirrors w v) (hl : Linked t q w v) (hacts : t.Acts y) (hended : (p, y) ∈ q.ended)
    (hspare : ∀ c, l.conn = .ok c → (w.site p).Spare c) (hends : ¬ (w.site p).Refuses y l) (cause : Site) :
    Matched t q (.xa (.rollback cause) p y) l w v := by
  obtain ⟨hsim, hnone⟩ := simulates_rollback (hm.ok p) (hm.holds p y) hspare (hl.ended p y hacts hended) hends cause
  exact matched_last hm hl hacts (by simp) (by simp) (fun _ => rfl) hsim hnone

/-- Before PREPARE, work answers one row inside of an active branch, or fails. -/
theorem matched_execute (hm : Mirrors w v) (hl : Linked t q w v) (hmay : q.may t (.execute p y)) :
    Matched t q (.execute p y) l w v := by
  obtain ⟨rfl, hprepared⟩ := hmay
  have hp : p ∉ q.prepared := hprepared ▸ List.not_mem_nil
  obtain ⟨hok, hkept, hholds, hended, hsent, hanswer⟩ := execute_spec (hm.ok p) (hm.holds p y) (hl.unsent y p rfl hp).1
  have hmirrors := hm.call hok hkept hholds
  have hlinked : Linked (.tx y) q (w.setSite p ((w.site p).execute y l).2) (v.setBranch p y (v.branch p y)) :=
    hl.call hkept (fun _ _ hr => .inl hr) (fun hy hr => hended (hl.ended p y hy hr)) rfl
      (fun ht _ => ⟨hsent, (hl.unsent y p ht hp).2⟩) (fun _ hr => hr) (hl.fresh y p) fun _ hr => hr
  have hothers : ∀ u q', u ≠ .tx y → compat (.tx y) u → Linked u q' w v →
      Linked u q' (w.setSite p ((w.site p).execute y l).2) (v.setBranch p y (v.branch p y)) :=
    fun u q' hne hcompat hu => hu.others hkept (apart_of_compat hcompat hne (acts_self y))
  rw [setBranch_self] at hmirrors hlinked hothers
  cases hr : ((w.site p).execute y l).1 with
  | error e => exact ⟨.lost false e, .error e, v, rfl, .inl hr.symm, hmirrors, trivial, hlinked, hothers⟩
  | ok n =>
    obtain ⟨rfl, hactive⟩ := hanswer n hr
    exact ⟨.ok, .ok (1 : Nat), v, by simp [exec, World.answer, World.effect, hactive], .inl hr.symm, hmirrors, trivial, hlinked,
      hothers⟩

theorem setSite_self (w : SqlxWorld F) (p : Name) : w.setSite p (w.site p) = w := by
  rw [SqlxWorld.setSite, Function.update_eq_self]

theorem row_none (hi : Inv False v) (hrow : v.row x = none) (p : Name) : v.branch p x = .none := by
  have hview := hi.views x
  have hnone : ∀ r, (v.view x).branch r = .none := by simpa [View.Ok, World.view, hrow] using hview
  exact hnone p

theorem inDoubt_iff (hm : Mirrors w v) (p : Name) (x : Xid) : x ∈ (w.site p).server.inDoubt ↔ v.branch p x = .prepared := by
  have hholds := hm.holds p x
  cases hb : v.branch p x with
  | prepared =>
    rw [hb] at hholds
    exact ⟨fun _ => rfl, fun _ => hholds.1⟩
  | _ =>
    rw [hb] at hholds
    exact ⟨fun hx => absurd hx hholds.2.1, fun h => by cases h⟩

theorem durable_iff (hm : Mirrors w v) (p : Name) (x : Xid) : x ∈ (w.site p).server.durable ↔ v.branch p x = .committed := by
  have hholds := hm.holds p x
  cases hb : v.branch p x with
  | committed =>
    rw [hb] at hholds
    exact ⟨fun _ => rfl, fun _ => hholds.2.2⟩
  | prepared =>
    rw [hb] at hholds
    exact ⟨fun hx => absurd hx hholds.2.1, fun h => by cases h⟩
  | _ =>
    rw [hb] at hholds
    exact ⟨fun hx => absurd hx hholds.2.2, fun h => by cases h⟩

theorem Mirrors.inDoubt_comma (hm : Mirrors w v) (hi : Inv False v) (p : Name) :
    ∀ y ∈ (w.site p).server.inDoubt, ',' ∉ y.toList := by
  intro y hy
  rw [inDoubt_iff hm] at hy
  cases hrow : v.row y with
  | none =>
    rw [row_none hi hrow] at hy
    cases hy
  | some r =>
    have hmem : r ∈ w.log := hm.log ▸ List.mem_of_find?_eq_some hrow
    have hid : r.id = y := by simpa using List.find?_some hrow
    exact hid ▸ hm.commas r hmem

theorem matched_xaRecover (hm : Mirrors w v) (hi : Inv False v) (hl : Linked t q w v) :
    Matched t q (.xaRecover p) l w v := by
  obtain ⟨hsite, hfound⟩ := xaRecover_spec (l := l) (hm.inDoubt_comma hi p)
  have hstep : Mirrors (w.setSite p ((w.site p).xaRecover l).2) v ∧
      ∀ u q', Linked u q' w v → Linked u q' (w.setSite p ((w.site p).xaRecover l).2) v := by
    rcases hsite with hsame | ⟨c, hclosed⟩
    · rw [hsame, setSite_self]
      exact ⟨hm, fun _ _ hu => hu⟩
    · rw [hclosed]
      exact ⟨hm.close p c, fun _ _ hu => hu.close p c⟩
  cases hr : ((w.site p).xaRecover l).1 with
  | error e =>
    exact ⟨.lost false e, .error e, v, rfl, .inl (by simp [sqlxExec, hr, Except.map]), hstep.1, trivial, hstep.2 t q hl,
      fun u q' _ _ hu => hstep.2 u q' hu⟩
  | ok found =>
    have hpredicate : (fun x => v.branch p x == Branch.prepared) = fun y => found.any (· = y) := by
      funext y
      rw [Bool.eq_iff_iff]
      simp [← inDoubt_iff hm, hfound found hr]
    exact ⟨.ok, _, v, rfl, .inl (by simp only [World.answer, sqlxExec, hr, Except.map, hpredicate]), hstep.1, trivial,
      hstep.2 t q hl, fun u q' _ _ hu => hstep.2 u q' hu⟩

/-! ### The coordinator's own database -/

def Op.Ledger : Op → Prop
  | .xa .. | .xaRecover _ | .execute .. => False
  | _ => True

theorem sqlxExec_ledger {o : Op} (ho : o.Ledger) (l : Luck F) (w : SqlxWorld F) :
    sqlxExec o l w = ((exec o l.reply w.ledger).1, { w with log := (exec o l.reply w.ledger).2.log }) := by
  cases o with
  | xa call p x => exact ho.elim
  | xaRecover p => exact ho.elim
  | execute p x => exact ho.elim
  | insertLog row => rfl
  | setLog x status decision => rfl
  | _ =>
    cases hc : l.reply with
    | ok => simp [sqlxExec, hc, exec, World.effect, SqlxWorld.ledger]
    | lost applied e => cases applied <;> simp [sqlxExec, hc, exec, World.effect, SqlxWorld.ledger]

/-- Its answers go by the log alone. -/
theorem exec_ledger {o : Op} (ho : o.Ledger) (c : Reply) (h : v.log = w.log) :
    exec o c v = ((exec o c w.ledger).1, ⟨(exec o c w.ledger).2.log, v.branch⟩) := by
  obtain ⟨log, branch⟩ := v
  obtain rfl : log = w.log := h
  cases o with
  | xa call p x => exact ho.elim
  | xaRecover p => exact ho.elim
  | execute p x => exact ho.elim
  | insertLog row =>
    have hinsert : World.insertLog ⟨w.log, branch⟩ row = ⟨(w.ledger.insertLog row).log, branch⟩ := by
      by_cases hfound : (w.log.find? (·.id == row.id)).isSome = true
      · simp [World.insertLog, World.row, SqlxWorld.ledger, hfound]
      · simp [World.insertLog, World.row, SqlxWorld.ledger, hfound]
    cases c with
    | ok => exact Prod.ext rfl hinsert
    | lost applied e =>
      cases applied
      · rfl
      · exact Prod.ext rfl hinsert
  | _ =>
    cases c with
    | ok => rfl
    | lost applied e => cases applied <;> rfl

theorem next_ledger {o : Op} (ho : o.Ledger) (q : Phase) (r : Res o) : (q.next o r).started = q.started ∧
    (q.next o r).ended = q.ended ∧ (q.next o r).prepared = q.prepared := by
  cases o with
  | xa call p x => exact ho.elim
  | xaRecover p => exact ho.elim
  | execute p x => exact ho.elim
  | setLog x status decision => cases status <;> cases r <;> exact ⟨rfl, rfl, rfl⟩
  | recoverableLogs => cases r <;> exact ⟨rfl, rfl, rfl⟩
  | _ => exact ⟨rfl, rfl, rfl⟩

theorem Linked.ledger (h : Linked t q w v) (log : List LogRow) (hstarted : q'.started = q.started)
    (hended : q'.ended = q.ended) (hprepared : q'.prepared = q.prepared)
    (hdecided : ∀ y r, t.Acts y → y ∈ q'.decided → World.row ⟨log, v.branch⟩ y = some r →
      r.status = .prepared ∨ r.status = .committing ∨ r.status = .committed) :
    Linked t q' { w with log } ⟨log, v.branch⟩ :=
  ⟨h.comma, fun x p ht hq => h.unsent x p ht (hprepared ▸ hq), fun x p ht hp => h.fresh x p ht (hstarted ▸ hp),
    fun p y hy hp => h.ended p y hy (hended ▸ hp), hdecided⟩

theorem matched_ledger {o : Op} (ho : o.Ledger) (hm : Mirrors w v) (hl : Linked t q w v)
    (hcommas : ∀ r ∈ (exec o l.reply v).2.log, ',' ∉ r.id.toList) (hgiven : LogGiven o (exec o l.reply v).1)
    (htarget : ∀ y, o.target = some y → t.Acts y)
    (hdecided : ∀ y r, t.Acts y → y ∈ (q.next o (exec o l.reply v).1).decided → (exec o l.reply v).2.row y = some r →
      r.status = .prepared ∨ r.status = .committing ∨ r.status = .committed) : Matched t q o l w v := by
  have hothers : ∀ u q', u ≠ t → compat t u → Linked u q' w v → ∀ y r, u.Acts y → y ∈ q'.decided →
      (exec o l.reply v).2.row y = some r → r.status = .prepared ∨ r.status = .committing ∨ r.status = .committed := by
    intro u q' hne hcompat hu y r hy hq hrow
    have hview : (exec o l.reply v).2.view y = v.view y :=
      exec_view_ne o l.reply v fun ho => apart_of_compat hcompat hne (htarget y ho) y hy rfl
    have hrow' : (exec o l.reply v).2.row y = v.row y := congrArg View.row hview
    exact hu.decided y r hy hq (hrow' ▸ hrow)
  rw [exec_ledger ho l.reply hm.log] at hcommas hgiven hdecided hothers
  obtain ⟨hstarted, hended, hprepared⟩ := next_ledger ho q (exec o l.reply w.ledger).1
  rw [Matched, sqlxExec_ledger ho]
  exact ⟨l.reply, _, _, exec_ledger ho l.reply hm.log, .inl rfl, ⟨rfl, hm.ok, hm.holds, hm.stray, hcommas⟩, hgiven,
    hl.ledger _ hstarted hended hprepared hdecided, fun u q' hne hcompat hu => hu.ledger _ rfl rfl rfl
      (hothers u q' hne hcompat hu)⟩

/-- A question about the log. -/
theorem matched_read {o : Op} (ho : o.Ledger) (hread : ∀ v : World, v.effect o = v) (htarget : o.target = none) (hm : Mirrors w v)
    (hl : Linked t q w v) (hgiven : LogGiven o (exec o l.reply v).1)
    (hdecided : ∀ y r, t.Acts y → y ∈ (q.next o (exec o l.reply v).1).decided → v.row y = some r →
      r.status = .prepared ∨ r.status = .committing ∨ r.status = .committed) : Matched t q o l w v := by
  have hsame : (exec o l.reply v).2 = v := by
    rcases exec_cases o l.reply v with he | he
    · exact he
    · exact he.trans (hread v)
  refine matched_ledger ho hm hl ?_ hgiven (fun y hy => ?_) ?_
  · rw [hsame, hm.log]
    exact hm.commas
  · rw [htarget] at hy
    cases hy
  · rw [hsame]
    exact hdecided

theorem matched_recoverableLogs (hm : Mirrors w v) (hi : Inv False v) (hl : Linked t q w v) :
    Matched t q .recoverableLogs l w v := by
  refine matched_read trivial (fun _ => rfl) rfl hm hl ?_ fun y r hy hq hrow => ?_
  · cases hc : l.reply with
    | lost applied e => trivial
    | ok => exact (List.filter_sublist.map _).nodup hi.ids
  · cases hc : l.reply with
    | lost applied e =>
      rw [hc] at hq
      exact hl.decided y r hy hq hrow
    | ok =>
      rw [hc] at hq
      obtain ⟨s, hs, hid⟩ := List.mem_map.1 hq
      obtain ⟨hs, hcommit⟩ := List.mem_filter.1 hs
      have hrow' := row_of_mem hi.ids (List.mem_of_mem_filter hs)
      rw [hid, hrow] at hrow'
      rw [Option.some.inj hrow']
      exact (shouldCommit_decided hcommit).imp_right .inl

theorem matched_insertLog {row : LogRow} (hm : Mirrors w v) (hl : Linked t q w v) (hmay : q.may t (.insertLog row)) :
    Matched t q (.insertLog row) l w v := by
  obtain ⟨rfl, hnot⟩ := hmay
  refine matched_ledger trivial hm hl (fun r hr => ?_) trivial (fun y hy => ?_) fun y r hy hq _ => ?_
  · have hcases : r ∈ w.log ∨ r = row := by
      rcases exec_cases (.insertLog row) l.reply v with he | he <;> rw [he] at hr
      · exact .inl (hm.log ▸ hr)
      · simp only [World.effect, World.insertLog] at hr
        split at hr
        · exact .inl (hm.log ▸ hr)
        · rcases List.mem_append.1 hr with hr | hr
          · exact .inl (hm.log ▸ hr)
          · exact .inr (List.mem_singleton.1 hr)
    rcases hcases with hr | rfl
    · exact hm.commas r hr
    · exact hl.comma _ rfl
  · cases hy
    exact acts_self _
  · have hy' : y = row.id := hy
    exact absurd (hy' ▸ hq) hnot

theorem matched_setLog {status : Status} {decision : Option Decision} (hm : Mirrors w v) (hl : Linked t q w v)
    (hmay : q.may t (.setLog y status decision)) : Matched t q (.setLog y status decision) l w v := by
  obtain ⟨hacts, hstatus⟩ := hmay
  refine matched_ledger trivial hm hl (fun r hr => ?_) trivial (fun z hz => ?_) fun z r hz hq hrow => ?_
  · have hids : (exec (.setLog y status decision) l.reply v).2.log.map (·.id) = v.log.map (·.id) := by
      rcases exec_cases (.setLog y status decision) l.reply v with he | he <;> rw [he]
      exact setLog_ids v y status decision
    have hid : r.id ∈ v.log.map (·.id) := hids ▸ List.mem_map_of_mem hr
    obtain ⟨r', hr', he⟩ := List.mem_map.1 hid
    exact he ▸ hm.commas r' (hm.log ▸ hr')
  · cases hz
    exact hacts
  · have hnew : z ∈ q.decided ∨ z = y ∧ status = .committing ∧ l.reply = .ok := by
      cases hc : l.reply with
      | lost applied e =>
        rw [hc] at hq
        exact .inl (by cases status <;> exact hq)
      | ok =>
        rw [hc] at hq
        cases status with
        | committing => exact (List.mem_cons.1 hq).symm.imp_right fun he => ⟨he, rfl, rfl⟩
        | _ => exact .inl hq
    have hset : (exec (.setLog y status decision) l.reply v).2 = v.setLog y status decision →
        z = y → r.status = status := by
      rintro he rfl
      rw [he, row_setLog, if_pos rfl] at hrow
      obtain ⟨r', -, rfl⟩ := Option.map_eq_some_iff.1 hrow
      rfl
    rcases hnew with hold | ⟨hzy, rfl, hc⟩
    · rcases exec_cases (.setLog y status decision) l.reply v with he | he
      · rw [he] at hrow
        exact hl.decided z r hz hold hrow
      · by_cases hzy : z = y
        · have hcommitted : status = .committed := hstatus (hzy ▸ hold)
          exact .inr (.inr ((hset he hzy).trans hcommitted))
        · have hview := exec_view_ne (.setLog y status decision) l.reply v
            (fun ho => hzy (Option.some.inj ho).symm)
          have hrow' : (exec (.setLog y status decision) l.reply v).2.row z = v.row z := congrArg View.row hview
          exact hl.decided z r hz hold (hrow' ▸ hrow)
    · exact .inr (.inl (hset (by rw [hc]; rfl) hzy))

end Ecat.TwoPhase
