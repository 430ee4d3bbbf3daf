import Ecat.XaModel

/-! Each call on a participant does to the branch of its transaction what the coordinator's model says, or fails
before or after it did, and leaves other transactions alone. -/

namespace Ecat.TwoPhase.SqlxXaParticipant

open Server

variable {F : Type} {p p' : SqlxXaParticipant F} {x y : Xid} {c : Conn} {l : Luck F} {b : Branch}

/-- No two transactions share a connection, and a session is at work only for the one it is pinned to. -/
structure Ok (p : SqlxXaParticipant F) : Prop where
  apart : ∀ x y a b, p.conns x = some a → p.conns y = some b → a.guard = b.guard → x = y
  owned : ∀ c x ended doomed, p.server.session c = .work x ended doomed → p.conns x = some ⟨c, false⟩

/-- The branch that the coordinator's model sees. -/
def Holds (p : SqlxXaParticipant F) (x : Xid) : Branch → Prop
  | .none | .rolledBack => p.conns x = none ∧ x ∉ p.server.inDoubt ∧ x ∉ p.server.durable
  | .active => (∃ c, p.conns x = some ⟨c, false⟩) ∧ x ∉ p.server.inDoubt ∧ x ∉ p.server.durable
  | .prepared => x ∈ p.server.inDoubt ∧ x ∉ p.server.durable ∧
    ∀ c, p.conns x = some ⟨c, false⟩ → p.server.session c = .dead
  | .committed => p.conns x = none ∧ x ∉ p.server.inDoubt ∧ x ∈ p.server.durable

/-- On MySQL, XA END has been sent. -/
def Ended (p : SqlxXaParticipant F) (x : Xid) : Prop :=
  p.dialect = .mySql → ∀ a doomed, p.conns x = some a → p.server.session a.guard ≠ .work x false doomed

/-- No PREPARE has been sent. -/
def Unsent (p : SqlxXaParticipant F) (x : Xid) : Prop :=
  ∀ a, p.conns x = some a → a.prepared = false ∧ p.server.session a.guard ≠ .idle

structure Kept (x : Xid) (p p' : SqlxXaParticipant F) : Prop where
  db : p'.db = p.db
  conns : ∀ y, y ≠ x → p'.conns y = p.conns y
  session : ∀ y a, y ≠ x → p.conns y = some a → p'.server.session a.guard = p.server.session a.guard
  inDoubt : ∀ y, y ≠ x → (y ∈ p'.server.inDoubt ↔ y ∈ p.server.inDoubt)
  durable : ∀ y, y ≠ x → (y ∈ p'.server.durable ↔ y ∈ p.server.durable)
  stray : p'.server.stray = p.server.stray

theorem Kept.refl (x : Xid) (p : SqlxXaParticipant F) : Kept x p p :=
  ⟨rfl, fun _ _ => rfl, fun _ _ _ _ => rfl, fun _ _ => Iff.rfl, fun _ _ => Iff.rfl, rfl⟩

theorem Kept.holds (h : Kept x p p') (hne : y ≠ x) (hy : p.Holds y b) : p'.Holds y b := by
  cases b with
  | prepared =>
    obtain ⟨hdoubt, hdurable, hdead⟩ := hy
    refine ⟨(h.inDoubt y hne).2 hdoubt, fun hd => hdurable ((h.durable y hne).1 hd), fun c hc => ?_⟩
    rw [h.conns y hne] at hc
    rw [h.session y _ hne hc]
    exact hdead c hc
  | _ => simpa only [Holds, h.conns y hne, h.inDoubt y hne, h.durable y hne] using hy

theorem Kept.ended (h : Kept x p p') (hne : y ≠ x) (hy : p.Ended y) : p'.Ended y := by
  intro hd a doomed ha
  rw [h.conns y hne] at ha
  rw [h.session y a hne ha]
  exact hy ((congrArg Database.dialect h.db).symm.trans hd) a doomed ha

theorem Kept.unsent (h : Kept x p p') (hne : y ≠ x) (hy : p.Unsent y) : p'.Unsent y := by
  intro a ha
  rw [h.conns y hne] at ha
  rw [h.session y a hne ha]
  exact hy a ha

/-- A connection that no other transaction holds. -/
structure Usable (p : SqlxXaParticipant F) (x : Xid) (c : Conn) : Prop where
  own : ∀ a, p.conns x = some a → a.guard = c
  others : ∀ y a, y ≠ x → p.conns y = some a → a.guard ≠ c

theorem Ok.usable (h : p.Ok) {a : Pinned} (ha : p.conns x = some a) : p.Usable x a.guard := by
  refine ⟨fun a' ha' => ?_, fun y a' hne ha' he => hne (h.apart y x a' a ha' ha he)⟩
  rw [ha] at ha'
  rw [Option.some.inj ha']

theorem Spare.usable (h : p.Spare c) (hx : p.conns x = none) : p.Usable x c := by
  refine ⟨fun a ha => ?_, fun y a _ ha => h.1 y a ha⟩
  rw [hx] at ha
  cases ha

theorem Usable.session (hu : p.Usable x c) (h : p.Ok) : p.server.session c = .idle ∨ p.server.session c = .dead ∨
    ∃ ended doomed, p.server.session c = .work x ended doomed ∧ p.conns x = some ⟨c, false⟩ := by
  cases hσ : p.server.session c with
  | idle => exact .inl rfl
  | dead => exact .inr (.inl rfl)
  | work y ended doomed =>
    have howned := h.owned c y ended doomed hσ
    by_cases hy : y = x
    · subst hy
      exact .inr (.inr ⟨ended, doomed, rfl, howned⟩)
    · exact absurd rfl (hu.others y _ hy howned)

/-- A call that moves one session and the connection of one transaction. -/
theorem Ok.touch (h : p.Ok) (hu : p.Usable x c) (p' : SqlxXaParticipant F) (pinned : Option Pinned) {new : Session}
    (hdb : p'.db = p.db) (hconns : p'.conns = Function.update p.conns x pinned) (hpinned : ∀ a, pinned = some a → a.guard = c)
    (hsession : p'.server.session = Function.update p.server.session c new)
    (hnew : ∀ y ended doomed, new = .work y ended doomed → y = x ∧ pinned = some ⟨c, false⟩)
    (hdoubt : ∀ y, y ≠ x → (y ∈ p'.server.inDoubt ↔ y ∈ p.server.inDoubt))
    (hdurable : ∀ y, y ≠ x → (y ∈ p'.server.durable ↔ y ∈ p.server.durable))
    (hstray : p'.server.stray = p.server.stray) : p'.Ok ∧ Kept x p p' := by
  have hother : ∀ y, y ≠ x → p'.conns y = p.conns y := by
    intro y hy
    rw [hconns, Function.update_of_ne hy]
  have hself : p'.conns x = pinned := by rw [hconns, Function.update_self]
  refine ⟨⟨?_, ?_⟩, ⟨hdb, hother, ?_, hdoubt, hdurable, hstray⟩⟩
  · intro y z a a' hy hz he
    by_cases hyx : y = x
    · by_cases hzx : z = x
      · rw [hyx, hzx]
      · rw [hyx, hself] at hy
        rw [hother z hzx] at hz
        exact absurd (he.symm.trans (hpinned a hy)) (hu.others z a' hzx hz)
    · rw [hother y hyx] at hy
      by_cases hzx : z = x
      · rw [hzx, hself] at hz
        exact absurd (he.trans (hpinned a' hz)) (hu.others y a hyx hy)
      · rw [hother z hzx] at hz
        exact h.apart y z a a' hy hz he
  · intro d y ended doomed hd
    rw [hsession] at hd
    by_cases hdc : d = c
    · subst hdc
      rw [Function.update_self] at hd
      obtain ⟨rfl, hpin⟩ := hnew y ended doomed hd
      rw [hself, hpin]
    · rw [Function.update_of_ne hdc] at hd
      have howned := h.owned d y ended doomed hd
      have hne : y ≠ x := by
        rintro rfl
        exact hdc (hu.own _ howned)
      rw [hother y hne, howned]
  · intro y a hne ha
    rw [hsession, Function.update_of_ne (hu.others y a hne ha)]

/-- A broken connection. -/
theorem Ok.close (h : p.Ok) (c : Conn) : { p with server := p.server.close c }.Ok := by
  refine ⟨h.apart, fun d x ended doomed hd => ?_⟩
  by_cases hdc : d = c
  · subst hdc
    simp [Server.close] at hd
  · exact h.owned d x ended doomed (by simpa [Server.close, setSession, hdc] using hd)

theorem close_session (p : SqlxXaParticipant F) (c d : Conn) :
    (p.server.close c).session d = .dead ∨ (p.server.close c).session d = p.server.session d := by
  by_cases hdc : d = c
  · subst hdc
    exact .inl (setSession_session ..)
  · exact .inr (by simp [Server.close, setSession, hdc])

theorem Holds.close (h : p.Holds x b) (c : Conn) : { p with server := p.server.close c }.Holds x b := by
  cases b with
  | prepared =>
    obtain ⟨hdoubt, hdurable, hdead⟩ := h
    refine ⟨hdoubt, hdurable, fun d hd => ?_⟩
    rcases close_session p c d with hσ | hσ
    · exact hσ
    · exact hσ.trans (hdead d hd)
  | _ => exact h

theorem Ended.close (h : p.Ended x) (c : Conn) : { p with server := p.server.close c }.Ended x := by
  intro hd a doomed ha
  rcases close_session p c a.guard with hσ | hσ
  · simp [hσ]
  · change (p.server.close c).session a.guard ≠ _
    rw [hσ]
    exact h hd a doomed ha

theorem Unsent.close (h : p.Unsent x) (c : Conn) : { p with server := p.server.close c }.Unsent x := by
  intro a ha
  refine ⟨(h a ha).1, ?_⟩
  rcases close_session p c a.guard with hσ | hσ
  · simp [hσ]
  · change (p.server.close c).session a.guard ≠ _
    rw [hσ]
    exact (h a ha).2

/-- How the coordinator's model may answer: the call took effect, or failed before or after it did. -/
def Answers (call : XaCall) (b : Branch) (r : Except XaError Unit) (b' : Branch) : Prop :=
  (r = .ok () ∧ b.apply call = some b') ∨ ∃ e, r = .error e ∧ (b' = b ∨ b.apply call = some b')

/-- The call is one of the coordinator's model, and leaves other transactions alone. -/
structure Simulates (p : SqlxXaParticipant F) (x : Xid) (call : XaCall) (b : Branch)
    (r : Except XaError Unit × SqlxXaParticipant F) : Prop where
  ok : r.2.Ok
  kept : Kept x p r.2
  branch : ∃ b', Answers call b r.1 b' ∧ r.2.Holds x b'

theorem simulates_failed (call : XaCall) (h : p.Ok) (hb : p.Holds x b) (e : XaError) :
    Simulates p x call b (.error e, p) := ⟨h, .refl x p, b, .inr ⟨e, rfl, .inl rfl⟩, hb⟩

/-- A statement that changes no more than the session of its connection. -/
theorem Ok.sent (h : p.Ok) (hu : p.Usable x c) (new : Session)
    (hnew : ∀ y ended doomed, new = .work y ended doomed → y = x ∧ p.conns x = some ⟨c, false⟩) :
    { p with server := p.server.setSession c new }.Ok ∧ Kept x p { p with server := p.server.setSession c new } :=
  h.touch hu _ _ rfl (Function.update_eq_self ..).symm hu.own rfl hnew (fun _ _ => Iff.rfl) (fun _ _ => Iff.rfl) rfl

theorem simulates_start (h : p.Ok) (hb : p.Holds x .none) (hspare : ∀ c, l.conn = .ok c → p.Spare c) :
    Simulates p x .start .none (p.xaStart x l) ∧ (p.xaStart x l).2.Unsent x := by
  have hx : p.conns x = none := hb.1
  have hunsent : ∀ q : SqlxXaParticipant F, q.conns x = none → q.Unsent x := by
    intro q hq a ha
    rw [hq] at ha
    cases ha
  unfold xaStart
  rw [hx]
  cases hconn : l.conn with
  | error e =>
    simp only [acquire, hconn, Except.mapError]
    exact ⟨simulates_failed _ h hb _, hunsent p hx⟩
  | ok guard =>
    have hu := (hspare guard hconn).usable hx
    have hidle : p.server.session guard = .idle := by
      rcases hu.session h with hσ | hσ | ⟨_, _, -, howned⟩
      · exact hσ
      · exact absurd hσ (hspare guard hconn).2
      · rw [hx] at howned
        cases howned
    simp only [acquire, hconn, Except.mapError, execGuard]
    rcases p.db.run_start hidle with ⟨n, hrun⟩ | ⟨e, new, hrun, hnew⟩
    · rw [hrun]
      obtain ⟨hok, hkept⟩ := h.touch hu { p with
          conns := Function.update p.conns x (some ⟨guard, false⟩)
          server := p.server.setSession guard (.work x false false) } (some ⟨guard, false⟩) rfl rfl
        (fun a ha => by cases ha; rfl) rfl (fun y _ _ hy => by cases hy; exact ⟨rfl, rfl⟩) (fun _ _ => Iff.rfl)
        (fun _ _ => Iff.rfl) rfl
      refine ⟨⟨hok, hkept, .active, .inl ⟨rfl, rfl⟩, ⟨guard, Function.update_self ..⟩, hb.2⟩, ?_⟩
      intro a ha
      simp only [pin, Function.update_self, Option.some.injEq] at ha
      subst ha
      exact ⟨rfl, by simp [pin, setSession]⟩
    · rw [hrun]
      obtain ⟨hok, hkept⟩ := h.sent hu new fun y _ _ hy => by rcases hnew with rfl | rfl <;> cases hy
      exact ⟨⟨hok, hkept, .none, .inr ⟨e, rfl, .inl rfl⟩, hb⟩, hunsent _ hx⟩

theorem Holds.pinned_none (hb : p.Holds x b) (hactive : b ≠ .active) (hprepared : b ≠ .prepared) : p.conns x = none := by
  cases b with
  | active => exact absurd rfl hactive
  | prepared => exact absurd rfl hprepared
  | _ => exact hb.1

theorem Holds.sent (hu : p.Usable x c) (hb : p.Holds x b) {new : Session}
    (hdead : b = .prepared → p.server.session c = .dead → new = .dead) :
    { p with server := p.server.setSession c new }.Holds x b := by
  cases b with
  | prepared =>
    obtain ⟨hdoubt, hdurable, hclosed⟩ := hb
    refine ⟨hdoubt, hdurable, fun d hd => ?_⟩
    obtain rfl : d = c := hu.own _ hd
    change (p.server.setSession d new).session d = .dead
    rw [setSession_session]
    exact hdead rfl (hclosed d hd)
  | _ => exact hb

/-- XA END leaves the branch as it is. On Postgres it succeeds for a prepared branch as well. -/
theorem xaEnd_spec (h : p.Ok) (hb : p.Holds x b) :
    (p.xaEnd x l).2.Ok ∧ Kept x p (p.xaEnd x l).2 ∧ (p.xaEnd x l).2.Holds x b ∧ (p.xaEnd x l).2.Ended x ∧
      (p.Unsent x → (p.xaEnd x l).2.Unsent x) ∧ (b ≠ .prepared → Answers .fin b (p.xaEnd x l).1 b) := by
  unfold xaEnd
  cases hx : p.conns x with
  | none =>
    refine ⟨h, .refl x p, hb, fun _ a _ ha => ?_, id, fun _ => .inr ⟨_, rfl, .inl rfl⟩⟩
    rw [hx] at ha
    cases ha
  | some a =>
    have hfin : b ≠ .prepared → b.apply .fin = some b := by
      intro hprepared
      by_cases hactive : b = .active
      · rw [hactive]
        rfl
      · rw [hb.pinned_none hactive hprepared] at hx
        cases hx
    have hanswers : ∀ r : Except XaError Unit, b ≠ .prepared → Answers .fin b r b := by
      rintro (e | u) hprepared
      · exact .inr ⟨e, rfl, .inl rfl⟩
      · exact .inl ⟨rfl, hfin hprepared⟩
    cases hdialect : p.dialect with
    | postgres =>
      refine ⟨h, .refl x p, hb, fun hd => ?_, id, hanswers _⟩
      rw [hdialect] at hd
      cases hd
    | mySql =>
      have hu := h.usable hx
      have hstep : ∃ r new, p.db.run l.fate a.guard (.fin x) p.server = (r, p.server.setSession a.guard new) ∧
          (∀ y ended doomed, new = .work y ended doomed → y = x ∧ ended = true ∧ p.conns x = some ⟨a.guard, false⟩) ∧
          (p.server.session a.guard = .dead → new = .dead) ∧
          (p.server.session a.guard ≠ .idle → new ≠ .idle) := by
        rcases hu.session h with hσ | hσ | ⟨ended, doomed, hσ, howned⟩
        · obtain ⟨e, new, hrun, hnew⟩ := p.db.run_fin_idle hdialect hσ
          refine ⟨_, new, hrun, fun y _ _ hy => ?_, fun hd => ?_, fun hi => absurd hσ hi⟩
          · rcases hnew with rfl | rfl <;> cases hy
          · rw [hσ] at hd
            cases hd
        · obtain ⟨e, hrun, -⟩ := p.db.run_dead hσ
          refine ⟨_, .dead, hrun.trans (by rw [setSession_of_eq hσ]), fun y _ _ hy => ?_, fun _ => rfl, fun _ => ?_⟩
          · cases hy
          · exact Session.noConfusion
        · obtain ⟨r, new, hrun, hnew⟩ := p.db.run_fin hdialect hσ
          refine ⟨r, new, hrun, fun y ended' doomed' hy => ?_, fun hd => ?_, fun _ => ?_⟩
          · rcases hnew with rfl | ⟨_, rfl⟩ <;> cases hy
            exact ⟨rfl, rfl, howned⟩
          · rw [hσ] at hd
            cases hd
          · rcases hnew with rfl | ⟨_, rfl⟩ <;> exact Session.noConfusion
      obtain ⟨r, new, hrun, hwork, hdead, hidle⟩ := hstep
      simp only [execGuard, hrun]
      obtain ⟨hok, hkept⟩ := h.sent hu new fun y ended doomed hy => ⟨(hwork y ended doomed hy).1,
        (hwork y ended doomed hy).2.2⟩
      refine ⟨hok, hkept, hb.sent hu fun _ => hdead, fun _ a' doomed ha' hσ => ?_, fun hunsent a' ha' => ?_, hanswers _⟩
      · obtain rfl : a' = a := Option.some.inj (ha'.symm.trans hx)
        rw [setSession_session] at hσ
        exact Bool.noConfusion (hwork _ _ _ hσ).2.1
      · obtain rfl : a' = a := Option.some.inj (ha'.symm.trans hx)
        refine ⟨(hunsent a' hx).1, ?_⟩
        rw [setSession_session]
        exact hidle (hunsent a' hx).2

theorem Ended.sent (he : p.Ended x) (hu : p.Usable x c) {new : Session}
    (hnew : ∀ y doomed, new = .work y false doomed → ∃ doomed', p.server.session c = .work y false doomed') :
    { p with server := p.server.setSession c new }.Ended x := by
  intro hd a doomed ha hσ
  obtain rfl : a.guard = c := hu.own a ha
  rw [setSession_session] at hσ
  obtain ⟨doomed', hold⟩ := hnew x doomed hσ
  exact he hd a doomed' ha hold

/-- PREPARE fails, and what it leaves is the branch as it was. -/
theorem simulates_refused (h : p.Ok) (hu : p.Usable x c) (hb : p.Holds x b) (call : XaCall) (e : XaError) {new : Session}
    (hnew : ∀ y ended doomed, new = .work y ended doomed → y = x ∧ p.conns x = some ⟨c, false⟩)
    (hdead : b = .prepared → p.server.session c = .dead → new = .dead) :
    Simulates p x call b (.error e, { p with server := p.server.setSession c new }) := by
  obtain ⟨hok, hkept⟩ := h.sent hu _ hnew
  exact ⟨hok, hkept, b, .inr ⟨e, rfl, .inl rfl⟩, hb.sent hu hdead⟩

theorem simulates_prepare (h : p.Ok) (hb : p.Holds x b) (hunsent : p.Unsent x) (hsound : ¬ p.Failed x) :
    Simulates p x .prepare b (p.xaPrepare x l) ∧ (p.Ended x → (p.xaPrepare x l).2.Ended x) := by
  unfold xaPrepare
  cases hx : p.conns x with
  | none => exact ⟨simulates_failed _ h hb _, id⟩
  | some a =>
    have hu := h.usable hx
    simp only [execGuard]
    rcases hu.session h with hσ | hσ | ⟨ended, doomed, hσ, howned⟩
    · exact absurd hσ (hunsent a hx).2
    · obtain ⟨e, hrun, -⟩ := p.db.run_dead hσ
      rw [hrun]
      exact ⟨simulates_failed _ h hb e, id⟩
    · have ha : a = ⟨a.guard, false⟩ := Option.some.inj (hx.symm.trans howned)
      have hactive : b = .active := by
        by_cases hactive : b = .active
        · exact hactive
        · by_cases hprepared : b = .prepared
          · subst hprepared
            have hdead := hb.2.2 a.guard howned
            rw [hσ] at hdead
            cases hdead
          · rw [hb.pinned_none hactive hprepared] at hx
            cases hx
      subst hactive
      have hfailed : p.dialect = .postgres → doomed = false := by
        intro hd
        cases doomed with
        | false => rfl
        | true => exact absurd ⟨hd, a, x, ended, hx, hσ⟩ hsound
      rcases p.db.run_prepare hσ hfailed hb.2.1 with ⟨n, hrun⟩ | ⟨e, new, hrun, hnew⟩ | ⟨e, hrun⟩
      · rw [hrun]
        obtain ⟨hok, hkept⟩ := h.touch hu { p with
            conns := Function.update p.conns x (some { a with prepared := true })
            server := (p.server.setSession a.guard .idle).prepared x }
          (some { a with prepared := true }) rfl rfl (fun a' ha' => by cases ha'; rfl) rfl
          (fun y _ _ hy => by cases hy) (fun y hne => by simp [prepared, setSession, hne]) (fun _ _ => Iff.rfl) rfl
        refine ⟨⟨hok, hkept, .prepared, .inl ⟨rfl, rfl⟩, ?_⟩, fun _ _ a' doomed ha' => ?_⟩
        · refine ⟨by simp [pin, prepared], hb.2.2, fun d hd => ?_⟩
          simp [pin] at hd
        · have ha'' : a' = { a with prepared := true } := by simpa [pin, eq_comm] using ha'
          subst ha''
          simp [pin, prepared, setSession]
      · rw [hrun]
        have hwork : ∀ y ended' doomed', new = .work y ended' doomed' → y = x ∧ ended' = ended := by
          rintro y ended' doomed' rfl
          rcases hnew with hnew | hnew | ⟨_, hnew⟩ <;> cases hnew
          exact ⟨rfl, rfl⟩
        refine ⟨simulates_refused h hu hb _ e (fun y _ _ hy => ⟨(hwork y _ _ hy).1, howned⟩) (fun hp => by cases hp),
          fun he => he.sent hu fun y doomed' hy => ?_⟩
        obtain ⟨rfl, rfl⟩ := hwork y _ _ hy
        exact ⟨doomed, hσ⟩
      · rw [hrun]
        obtain ⟨hok, hkept⟩ := h.touch hu { p with server := (p.server.setSession a.guard .dead).prepared x }
          (p.conns x) rfl (Function.update_eq_self ..).symm hu.own rfl (fun y _ _ hy => by cases hy)
          (fun y hne => by simp [prepared, setSession, hne]) (fun _ _ => Iff.rfl) rfl
        refine ⟨⟨hok, hkept, .prepared, .inr ⟨e, rfl, .inr rfl⟩, ?_⟩, fun _ _ a' doomed ha' hσ' => ?_⟩
        · refine ⟨by simp [prepared], hb.2.2, fun d hd => ?_⟩
          obtain rfl : a.guard = d := (hu.own _ hd).symm
          simp [prepared, setSession]
        · obtain rfl : a' = a := Option.some.inj (ha'.symm.trans hx)
          simp [prepared, setSession] at hσ'

/-- Nothing of the transaction is pinned, or at work, over the connection its last statement took. -/
theorem unpin (h : p.Ok) (hu : p.Usable x c) (server : Server) (new : Session)
    (hsession : server.session = Function.update p.server.session c new) (hnew : new = .idle ∨ new = .dead)
    (hdoubt : ∀ y, y ≠ x → (y ∈ server.inDoubt ↔ y ∈ p.server.inDoubt))
    (hdurable : ∀ y, y ≠ x → (y ∈ server.durable ↔ y ∈ p.server.durable)) (hstray : server.stray = p.server.stray) :
    { p.pin x none with server }.Ok ∧ Kept x p { p.pin x none with server } :=
  h.touch hu _ none rfl rfl (fun a ha => by cases ha) hsession
    (fun y _ _ hy => by rcases hnew with rfl | rfl <;> cases hy) hdoubt hdurable hstray

theorem finish_cases (h : p.Ok) (hspare : ∀ c, l.conn = .ok c → p.Spare c) (stmt : Stmt) :
    (p.conns x = none ∧ ∃ e, p.finish x l stmt = (.error e, p)) ∨
    ∃ c, p.Usable x c ∧ (p.conns x = none → p.server.session c = .idle) ∧
      (∀ a, p.conns x = some a → a.guard = c) ∧
      p.finish x l stmt = (resolved (p.db.run l.fate c stmt p.server).1,
        { p.pin x none with server := (p.db.run l.fate c stmt p.server).2 }) := by
  unfold finish
  cases hx : p.conns x with
  | none =>
    cases hconn : l.conn with
    | error e =>
      refine .inl ⟨rfl, .database e, ?_⟩
      have hpin : p.pin x none = p := by rw [pin, ← hx, Function.update_eq_self]
      simp [acquire, hconn, Except.mapError, hpin]
    | ok guard =>
      have hu := (hspare guard hconn).usable hx
      refine .inr ⟨guard, hu, fun _ => ?_, fun a ha => (by cases ha), by simp [acquire, hconn, Except.mapError, execGuard, pin]⟩
      rcases hu.session h with hσ | hσ | ⟨_, _, -, howned⟩
      · exact hσ
      · exact absurd hσ (hspare guard hconn).2
      · rw [hx] at howned
        cases howned
  | some a =>
    exact .inr ⟨a.guard, h.usable hx, fun hn => (by cases hn), fun a' ha' => congrArg Pinned.guard (Option.some.inj ha').symm,
      by simp [execGuard, pin]⟩

theorem Holds.unpin (hb : p.Holds x b) (hne : b ≠ .active) {server : Server}
    (hdoubt : x ∈ server.inDoubt ↔ x ∈ p.server.inDoubt) (hdurable : x ∈ server.durable ↔ x ∈ p.server.durable) :
    { p.pin x none with server }.Holds x b := by
  have hnone : (p.pin x none).conns x = none := Function.update_self ..
  cases b with
  | active => exact absurd rfl hne
  | prepared =>
    refine ⟨hdoubt.2 hb.1, fun hd => hb.2.1 (hdurable.1 hd), fun d hd => ?_⟩
    have hd' : (p.pin x none).conns x = some ⟨d, false⟩ := hd
    rw [hnone] at hd'
    cases hd'
  | _ =>
    obtain ⟨-, hdoubt', hdurable'⟩ := hb
    simp only [Holds, hdoubt, hdurable]
    exact ⟨hnone, hdoubt', hdurable'⟩

theorem settled_mem (s : Server) (durable : Bool) (hne : y ≠ x) :
    (y ∈ (s.settled x durable).inDoubt ↔ y ∈ s.inDoubt) ∧ (y ∈ (s.settled x durable).durable ↔ y ∈ s.durable) := by
  cases durable <;> simp [settled, hne]

/-- What a prepared branch becomes. -/
def outcome (durable : Bool) : Branch := if durable then .committed else .rolledBack

theorem holds_settled (hdurable : x ∉ p.server.durable) (durable : Bool) (s : Server) (hs : s.durable = p.server.durable) :
    { p.pin x none with server := s.settled x durable }.Holds x (outcome durable) := by
  cases durable <;> simp [outcome, Holds, settled, pin, hs, hdurable]

/-- The last statement of a transaction that is not active. -/
theorem simulates_last (h : p.Ok) (hb : p.Holds x b) (hspare : ∀ c, l.conn = .ok c → p.Spare c)
    (hactive : b ≠ .active) {call : XaCall} (durable : Bool) {stmt : Stmt}
    (hprepared : Branch.prepared.apply call = some (outcome durable))
    (hothers : b ≠ .prepared → b.apply call = some b)
    (hstmt : stmt = lastStmt x durable ∨ ∃ c, p.conns x = some ⟨c, false⟩) :
    Simulates p x call b (p.finish x l stmt) ∧ (p.finish x l stmt).2.conns x = none := by
  rcases finish_cases h hspare stmt with ⟨hx, e, hfinish⟩ | ⟨c, hu, hidle, hguard, hfinish⟩
  · rw [hfinish]
    exact ⟨simulates_failed call h hb e, hx⟩
  rw [hfinish]
  refine ⟨?_, Function.update_self ..⟩
  have hclosed : ∀ d, p.conns x = some ⟨d, false⟩ → p.server.session d = .dead := by
    intro d hd
    by_cases hp : b = .prepared
    · subst hp
      exact hb.2.2 d hd
    · rw [hb.pinned_none hactive hp] at hd
      cases hd
  rcases hu.session h with hσ | hσ | ⟨ended, doomed, hσ, howned⟩
  · have hlast : stmt = lastStmt x durable := by
      rcases hstmt with hstmt | ⟨d, hd⟩
      · exact hstmt
      · have hdead := hclosed d hd
        obtain rfl : d = c := hguard _ hd
        rw [hσ] at hdead
        cases hdead
    subst hlast
    by_cases hp : b = .prepared
    · subst hp
      rcases p.db.run_last durable hσ hb.1 with ⟨n, hrun⟩ | ⟨e, new, hrun, hread, hnew⟩ | ⟨e, hrun, hread⟩
      · rw [hrun]
        obtain ⟨hok, hkept⟩ := unpin h hu (p.server.settled x durable) .idle
          (by rw [← hσ, Function.update_eq_self]; rfl) (.inl rfl) (fun y hne => (settled_mem _ _ hne).1)
          (fun y hne => (settled_mem _ _ hne).2) rfl
        exact ⟨hok, hkept, _, .inl ⟨rfl, hprepared⟩, holds_settled hb.2.1 durable _ rfl⟩
      · rw [hrun]
        obtain ⟨hok, hkept⟩ := unpin h hu (p.server.setSession c new) new rfl hnew (fun _ _ => Iff.rfl)
          (fun _ _ => Iff.rfl) rfl
        exact ⟨hok, hkept, _, .inr ⟨e, by simp [resolved, hread], .inl rfl⟩, hb.unpin hactive Iff.rfl Iff.rfl⟩
      · rw [hrun]
        obtain ⟨hok, hkept⟩ := unpin h hu ((p.server.setSession c .dead).settled x durable) .dead rfl
          (.inr rfl) (fun y hne => (settled_mem _ _ hne).1) (fun y hne => (settled_mem _ _ hne).2) rfl
        exact ⟨hok, hkept, _, .inr ⟨e, by simp [resolved, hread], .inr hprepared⟩, holds_settled hb.2.1 durable _ rfl⟩
    · have hdoubt : x ∉ p.server.inDoubt := by
        cases b with
        | prepared => exact absurd rfl hp
        | _ => exact hb.2.1
      obtain ⟨r, new, hrun, hnew⟩ := p.db.run_last_unknown durable hσ hdoubt
      rw [hrun]
      obtain ⟨hok, hkept⟩ := unpin h hu (p.server.setSession c new) new rfl hnew (fun _ _ => Iff.rfl)
        (fun _ _ => Iff.rfl) rfl
      refine ⟨hok, hkept, b, ?_, hb.unpin hactive Iff.rfl Iff.rfl⟩
      cases resolved r with
      | error e => exact .inr ⟨e, rfl, .inl rfl⟩
      | ok u => exact .inl ⟨rfl, hothers hp⟩
  · obtain ⟨e, hrun, hread⟩ := p.db.run_dead hσ
    rw [hrun]
    obtain ⟨hok, hkept⟩ := unpin h hu (p.server) .dead (by rw [← hσ, Function.update_eq_self])
      (.inr rfl) (fun _ _ => Iff.rfl) (fun _ _ => Iff.rfl) rfl
    exact ⟨hok, hkept, b, .inr ⟨e, by simp [resolved, hread], .inl rfl⟩, hb.unpin hactive Iff.rfl Iff.rfl⟩
  · rw [hclosed c howned] at hσ
    cases hσ

theorem simulates_commit (h : p.Ok) (hb : p.Holds x b)
    (hspare : ∀ c, l.conn = .ok c → p.Spare c) (hactive : b ≠ .active) :
    Simulates p x .commit b (p.xaCommit x l) ∧ (p.xaCommit x l).2.conns x = none := by
  refine simulates_last h hb hspare hactive true rfl (fun hp => ?_) (.inl rfl)
  cases b with
  | active => exact absurd rfl hactive
  | prepared => exact absurd rfl hp
  | _ => rfl

theorem simulates_rollback (h : p.Ok) (hb : p.Holds x b)
    (hspare : ∀ c, l.conn = .ok c → p.Spare c) (hended : p.Ended x) (hends : ¬ p.Refuses x l) (site : Site) :
    Simulates p x (.rollback site) b (p.xaRollback x l) ∧ (p.xaRollback x l).2.conns x = none := by
  unfold xaRollback
  by_cases hactive : b = .active
  · subst hactive
    obtain ⟨⟨d, hd⟩, hdoubt, hdurable⟩ := hb
    have hopen : (p.conns x).any (fun pinned => !pinned.prepared) = true := by rw [hd]; rfl
    rw [hopen]
    rcases finish_cases h hspare (rollbackStmt p.dialect x true) with ⟨hx, -⟩ | ⟨c, hu, -, hguard, hfinish⟩
    · rw [hx] at hd
      cases hd
    · obtain rfl : d = c := hguard _ hd
      rw [hfinish]
      refine ⟨?_, Function.update_self ..⟩
      have hend : ∀ r : Except XaError Unit, Answers (.rollback site) .active r .rolledBack := by
        rintro (e | u)
        · exact .inr ⟨e, rfl, .inr rfl⟩
        · exact .inl ⟨rfl, rfl⟩
      have hstep : ∃ r new, p.db.run l.fate d (rollbackStmt p.dialect x true) p.server =
          (r, p.server.setSession d new) ∧ (new = .idle ∨ new = .dead) := by
        by_cases hdead : p.server.session d = .dead
        · obtain ⟨e, hrun, -⟩ := p.db.run_dead hdead
          exact ⟨_, .dead, by rw [hrun, setSession_of_eq hdead], .inr rfl⟩
        · cases hdialect : p.dialect with
          | postgres => exact p.db.run_rollbackOpen hdialect hdead
          | mySql =>
            rcases hu.session h with hσ | hσ | ⟨ended, doomed, hσ, -⟩
            · exact p.db.run_last_unknown false hσ hdoubt
            · exact absurd hσ hdead
            · cases ended with
              | false => exact absurd hσ (hended hdialect _ doomed hd)
              | true =>
                obtain ⟨r, new, hrun, hnew⟩ := p.db.run_rollback hdialect hσ
                refine ⟨r, new, hrun, hnew.imp_right fun hnew => hnew.resolve_right ?_⟩
                rintro ⟨doomed', rfl⟩
                exact hends ⟨hdialect, ⟨d, false⟩, x, doomed', hd, by rw [hrun, setSession_session]⟩
      obtain ⟨r, new, hrun, hnew⟩ := hstep
      rw [hrun]
      obtain ⟨hok, hkept⟩ := unpin h hu (p.server.setSession d new) new rfl hnew (fun _ _ => Iff.rfl)
        (fun _ _ => Iff.rfl) rfl
      exact ⟨hok, hkept, .rolledBack, hend _, Function.update_self .., hdoubt, hdurable⟩
  · refine simulates_last h hb hspare hactive false rfl (fun hp => ?_) ?_
    · cases b with
      | active => exact absurd rfl hactive
      | prepared => exact absurd rfl hp
      | _ => rfl
    · cases hx : p.conns x with
      | none => exact .inl (by cases p.dialect <;> rfl)
      | some a =>
        obtain ⟨guard, sent⟩ := a
        cases sent with
        | true => exact .inl (by cases p.dialect <;> rfl)
        | false => exact .inr ⟨guard, rfl⟩

/-- Before PREPARE, a statement is carried out inside of its transaction or not at all. -/
theorem execute_spec (h : p.Ok) (hb : p.Holds x b) (hunsent : p.Unsent x) :
    (p.execute x l).2.Ok ∧ Kept x p (p.execute x l).2 ∧ (p.execute x l).2.Holds x b ∧
      (p.Ended x → (p.execute x l).2.Ended x) ∧ (p.execute x l).2.Unsent x ∧
      ∀ n, (p.execute x l).1 = .ok n → n = 1 ∧ b = .active := by
  unfold execute
  cases hx : p.conns x with
  | none => exact ⟨h, .refl x p, hb, id, hunsent, fun n hn => by cases hn⟩
  | some a =>
    have hu := h.usable hx
    simp only [execGuard]
    rcases hu.session h with hσ | hσ | ⟨ended, doomed, hσ, howned⟩
    · exact absurd hσ (hunsent a hx).2
    · obtain ⟨e, hrun, -⟩ := p.db.run_dead hσ
      rw [hrun]
      exact ⟨h, .refl x p, hb, id, hunsent, fun n hn => by cases hn⟩
    · have hactive : b = .active := by
        cases b with
        | active => rfl
        | prepared =>
          have hdead := hb.2.2 _ howned
          rw [hσ] at hdead
          cases hdead
        | _ =>
          have hnone : p.conns x = none := hb.1
          rw [hx] at hnone
          cases hnone
      obtain ⟨r, new, hrun, hone, hnew⟩ := p.db.run_work hσ
      rw [hrun]
      have hwork : ∀ y ended' doomed', new = .work y ended' doomed' → y = x ∧ ended' = ended := by
        rintro y ended' doomed' rfl
        rcases hnew with hnew | ⟨_, hnew⟩ <;> cases hnew
        exact ⟨rfl, rfl⟩
      obtain ⟨hok, hkept⟩ := h.sent hu new fun y _ _ hy => ⟨(hwork y _ _ hy).1, howned⟩
      refine ⟨hok, hkept, hb.sent hu fun hp => ?_, fun he => he.sent hu fun y doomed' hy => ?_, fun a' ha' => ?_,
        fun n hn => ⟨hone n hn, hactive⟩⟩
      · rw [hactive] at hp
        cases hp
      · obtain ⟨rfl, rfl⟩ := hwork y _ _ hy
        exact ⟨doomed, hσ⟩
      · obtain rfl : a' = a := Option.some.inj (ha'.symm.trans hx)
        refine ⟨(hunsent a' hx).1, ?_⟩
        rw [setSession_session]
        rcases hnew with rfl | ⟨_, rfl⟩ <;> exact Session.noConfusion

theorem mysqlXid_eq (hx : ',' ∉ x.toList) : mysqlXid x = x := by
  have hall : x.toList.reverse.dropWhile (· ≠ ',') = [] := by
    rw [List.dropWhile_eq_nil_iff]
    intro d hd
    have hne : d ≠ ',' := fun he => hx (List.mem_reverse.1 (he ▸ hd))
    simpa using hne
  rw [mysqlXid, hall]

/-- XA RECOVER tells what is in doubt, or fails; the connection may break. -/
theorem xaRecover_spec (hcomma : ∀ y ∈ p.server.inDoubt, ',' ∉ y.toList) :
    ((p.xaRecover l).2 = p ∨ ∃ c, (p.xaRecover l).2 = { p with server := p.server.close c }) ∧
      ∀ found, (p.xaRecover l).1 = .ok found → ∀ y, y ∈ found ↔ y ∈ p.server.inDoubt := by
  unfold xaRecover
  cases hacquire : acquire l with
  | error e => exact ⟨.inl rfl, fun found hf => by cases hf⟩
  | ok guard =>
    dsimp only
    refine ⟨?_, fun found hf y => ?_⟩
    · rcases @p.db.recover_keeps l.fate guard p.server with hsame | hclosed
      · exact .inl (by rw [hsame])
      · exact .inr ⟨guard, by rw [hclosed]⟩
    · cases hrecover : (p.db.recover l.fate guard p.server).1 with
      | error e =>
        rw [hrecover] at hf
        cases hf
      | ok texts =>
        have htexts := p.db.recover_ok hrecover
        rw [hrecover] at hf
        obtain rfl := Except.ok.inj hf
        cases p.dialect with
        | postgres => exact htexts y
        | mySql =>
          have hsame : texts.map mysqlXid = texts :=
            (List.map_congr_left fun z hz => mysqlXid_eq (hcomma z ((htexts z).1 hz))).trans (List.map_id _)
          change y ∈ texts.map mysqlXid ↔ _
          rw [hsame]
          exact htexts y

end Ecat.TwoPhase.SqlxXaParticipant
