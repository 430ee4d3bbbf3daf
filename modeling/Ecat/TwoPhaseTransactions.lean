import Ecat.TwoPhaseRules

/-! Specifications of `begin`, `commit`, `rollback` and `abort` for the view of
their own transaction. -/

namespace Ecat.TwoPhase

variable {clean : Prop} {x : Xid}

theorem setLog_row {v : View} {r : LogRow} (h : v.row = some r) (status : Status)
    (decision : Option Decision) :
    (v.setLog status decision).row = some { r with status, decision } := by
  simp [View.setLog, h]

theorem ok_rollingBack {v : View} {r : LogRow} (hrow : v.row = some r) (hr : Undecided r)
    (hok : v.Ok clean) : (v.setLog .rollingBack (some .rollback)).Ok clean := by
  rw [View.ok_row hrow, rowOk_undecided hr] at hok
  rw [View.ok_row (setLog_row hrow _ _), rowOk_undecided (.inr rfl)]
  exact hok

theorem ok_rolledBack {v : View} {r : LogRow} (hrow : v.row = some r) (hr : Undecided r)
    (hok : v.Ok clean) (hset : clean → ∀ q ∈ r.participants, Settled (v.branch q)) :
    (v.setLog .rolledBack (some .rollback)).Ok clean := by
  rw [View.ok_row hrow, rowOk_undecided hr] at hok
  rw [View.ok_row (setLog_row hrow _ _)]
  refine ⟨hok.1, fun q => ⟨hok.2 q, fun hcl => ?_⟩⟩
  by_cases hq : q ∈ r.participants
  · exact hset hcl q hq
  · have hn : (v.setLog .rolledBack (some .rollback)).branch q = .none := hok.1 q hq
    rw [hn]
    exact ⟨by decide, by decide⟩

theorem ok_prepared {v : View} {r : LogRow} (hrow : v.row = some r) (hr : Undecided r)
    (hok : v.Ok clean) (hp : ∀ q ∈ r.participants, v.branch q = .prepared) :
    (v.setLog .prepared none).Ok clean := by
  rw [View.ok_row hrow, rowOk_undecided hr] at hok
  rw [View.ok_row (setLog_row hrow _ _), rowOk_decided (.inl rfl)]
  exact ⟨hok.1, by simp, fun q hq => .inl (hp q hq)⟩

theorem ok_committing {v : View} {r : LogRow} (hrow : v.row = some r) (hr : Decided r)
    (hok : v.Ok clean) : (v.setLog .committing (some .commit)).Ok clean := by
  rw [View.ok_row hrow, rowOk_decided hr] at hok
  rw [View.ok_row (setLog_row hrow _ _), rowOk_decided (.inr rfl)]
  exact ⟨hok.1, by simp, hok.2.2⟩

theorem ok_committed {v : View} {r : LogRow} (hrow : v.row = some r) (hr : Decided r)
    (hok : v.Ok clean) (hc : ∀ q ∈ r.participants, v.branch q = .committed) :
    (v.setLog .committed (some .commit)).Ok clean := by
  rw [View.ok_row hrow, rowOk_decided hr] at hok
  rw [View.ok_row (setLog_row hrow _ _)]
  exact ⟨hok.1, hc⟩

theorem undecided_not_committed {v : View} {r : LogRow} (hrow : v.row = some r) (hr : Undecided r)
    (hok : v.Ok clean) (q : Name) : v.branch q ≠ .committed := by
  rw [View.ok_row hrow, rowOk_undecided hr] at hok
  exact hok.2 q

def Starting (r : LogRow) (started : List Name) (v : View) : Prop :=
  v.row = some r ∧ (∀ q, v.branch q ≠ .prepared) ∧ ∀ q, q ∉ started → v.branch q = .none

theorem runs_startFailed {r : LogRow} (hr : r.status = .started) (started : List Name) (p : Name)
    {error : XaError} {Q : Except XaError DistributedTx → View → Prop} (hQ : ∀ v, Q (.error error) v) :
    Runs clean x (fun v => v.row = some r ∧
        ∀ q, (clean ∧ q = p) ∨ (q ∉ started ∧ q ≠ p) → Settled (v.branch q))
      (do
        match ← rollbackStarted x started with
        | .ok _ =>
          let _ ← perform (.setLog x .rolledBack (some .rollback))
          return .error error
        | .error _ => return .error error) Q := by
  refine runs_bind (Q := fun res v => v.row = some r ∧ (res = .ok () → clean → ∀ q, Settled (v.branch q)))
    ?_ ?_
  · refine runs_bind (runs_rollbackEach (.inl hr) started.reverse _) ?_
    rintro (e | u)
    · exact runs_ret fun v h => ⟨h.1, fun he => by cases he⟩
    · refine runs_ret fun v h => ⟨h.1, fun _ hcl q => h.2 rfl q ?_⟩
      by_cases hq : q ∈ started
      · simp [hq]
      · by_cases he : q = p <;> simp [hq, he, hcl]
  · rintro (e | u)
    · exact runs_ret fun v _ => hQ v
    · refine runs_setLog (fun _ => True) (fun _ => True) ?_ (fun _ _ _ => trivial)
        (runs_ret fun v _ => hQ v) (fun _ => runs_ret fun v _ => hQ v)
      rintro v hok ⟨hrow, hset⟩
      exact ⟨ok_rolledBack hrow (.inl hr) hok fun hcl q _ => hset rfl hcl q, trivial, trivial⟩

theorem runs_startEach {r : LogRow} (hr : r.status = .started) (ps started : List Name)
    (hps : ∀ p ∈ ps, p ∈ r.participants) :
    Runs clean x (Starting r started) (startEach x started ps) fun res v =>
      ∀ tx, res = .ok tx → tx.id = x ∧ tx.participants = started ++ ps ∧ v.row = some r := by
  induction ps generalizing started with
  | nil =>
    refine runs_ret ?_
    rintro v h tx he
    cases he
    exact ⟨rfl, by simp, h.1⟩
  | cons p ps ih =>
    have hp : p ∈ r.participants := hps p (by simp)
    refine runs_xa (Starting r (started ++ [p]))
      (fun v => v.row = some r ∧ v.branch p ≠ .prepared ∧
        ∀ q, q ∉ started ∧ q ≠ p → v.branch q = .none) ?_ ?_ ?_ ?_
    · rintro v b hok ⟨hrow, hnp, hnone⟩ ha
      have hb : b = .active := by cases hb : v.branch p <;> rw [hb] at ha <;> cases ha <;> rfl
      subst hb
      refine ⟨ok_set_undecided hrow (.inl hr) hok (by decide) (fun h => absurd hp h),
        ⟨hrow, ?_, ?_⟩, hrow, by simp [View.setBranch], ?_⟩
      · intro q
        by_cases he : q = p
        · simp [View.setBranch, he]
        · simpa [View.setBranch, he] using hnp q
      · intro q hq
        have hq' : q ∉ started ∧ q ≠ p := by simpa using hq
        simpa [View.setBranch, hq'.2] using hnone q hq'.1
      · rintro q ⟨hq, he⟩
        simpa [View.setBranch, he] using hnone q hq
    · rintro v - ⟨hrow, hnp, hnone⟩ -
      exact ⟨hrow, hnp p, fun q hq => hnone q hq.1⟩
    · refine (ih (started ++ [p]) fun q hq => hps q (by simp [hq])).post fun res v h tx he => ?_
      simpa using h tx he
    · intro e
      apply runs_fin
      intro _
      refine runs_xa (fun v => v.row = some r ∧
          ∀ q, (clean ∧ q = p) ∨ (q ∉ started ∧ q ≠ p) → Settled (v.branch q))
        (fun v => v.row = some r ∧
          ∀ q, (clean ∧ q = p) ∨ (q ∉ started ∧ q ≠ p) → Settled (v.branch q)) ?_ ?_
        (runs_startFailed hr started p fun _ _ he => by cases he)
        (fun _ => runs_startFailed hr started p fun _ _ he => by cases he)
      · rintro v b hok ⟨hrow, hnp, hnone⟩ ha
        have hS : ∀ q, (q ∉ started ∧ q ≠ p) → Settled (v.branch q) := by
          intro q hq
          rw [hnone q hq]
          exact ⟨by decide, by decide⟩
        have hset := rollback_keeps hS ha
        have hall : ∀ q, (clean ∧ q = p) ∨ (q ∉ started ∧ q ≠ p) →
            Settled ((v.setBranch p b).branch q) := by
          rintro q (⟨-, rfl⟩ | hq)
          · exact hset q (.inr rfl)
          · exact hset q (.inl hq)
        exact ⟨ok_rollback hrow (.inl hr) hok ha, ⟨hrow, hall⟩, hrow, hall⟩
      · rintro v hok ⟨hrow, hnp, hnone⟩ hactive
        refine ⟨hrow, ?_⟩
        rintro q (⟨hcl, rfl⟩ | hq)
        · exact ⟨hactive hcl rfl, hnp⟩
        · rw [hnone q hq]
          exact ⟨by decide, by decide⟩

theorem runs_insertLog {α : Type} {participants : List Name} {Q : α → View → Prop}
    {k : Res (.insertLog ⟨x, .started, participants, none⟩) → Proc α}
    (kok : Runs clean x (Starting ⟨x, .started, participants, none⟩ []) (k (.ok ())) Q)
    (kerr : ∀ e, Runs clean x (fun _ => True) (k (.error e)) Q) :
    Runs clean x (fun v => v.row = none)
      ((perform (.insertLog ⟨x, .started, participants, none⟩)).bind k) Q := by
  have fresh : ∀ w : World, (w.view x).Ok clean → (w.view x).row = none →
      ((w.insertLog ⟨x, .started, participants, none⟩).view x).Ok clean ∧
      Starting ⟨x, .started, participants, none⟩ []
        ((w.insertLog ⟨x, .started, participants, none⟩).view x) := by
    intro w hok hrow
    have hv := view_insertLog_self w ⟨x, .started, participants, none⟩ hrow
    have hn : ∀ p, (w.view x).branch p = .none := by simpa only [View.Ok, hrow] using hok
    change ∀ p, w.branch p x = .none at hn
    simp only at hv
    rw [hv]
    exact ⟨⟨fun p _ => hn p, fun p => by simp [hn]⟩, rfl, fun p => by simp [hn], fun p _ => hn p⟩
  refine runs_call (fun r v => r = .ok () → Starting ⟨x, .started, participants, none⟩ [] v)
    (.inr rfl) ?_ ?_
  · intro w c hok hrow _
    have hh := fresh w hok hrow
    have hr : w.row x = none := hrow
    cases c with
    | ok => simpa [exec, World.effect, World.answer, hr] using hh
    | lost applied e =>
      cases applied with
      | false => exact ⟨hok, fun he => by cases he⟩
      | true => exact ⟨hh.1, fun he => by cases he⟩
  · rintro (e | u)
    · exact (kerr e).weaken fun _ _ _ => trivial
    · exact kok.weaken fun _ _ h => h rfl

theorem runs_begin (registered participants : List Name) :
    Runs clean x (fun v => v.row = none) (begin registered x participants) fun res v =>
      ∀ tx, res = .ok tx → tx.id = x ∧ v.row = some ⟨x, .started, tx.participants, none⟩ := by
  unfold begin
  split
  · exact runs_ret fun _ _ _ h => by cases h
  · split
    · exact runs_ret fun _ _ _ h => by cases h
    · refine runs_read (o := .ensureSchema) rfl (fun _ => rfl) (fun _ v => v.row = none)
        (fun _ _ h => h) (fun _ _ h => h) ?_
      rintro (e | u)
      · exact runs_ret fun _ _ _ h => by cases h
      · refine runs_insertLog ?_ (fun e => runs_ret fun _ _ _ h => by cases h)
        refine (runs_startEach (r := ⟨x, .started, participants, none⟩) rfl participants []
          (fun p hp => hp)).post fun res v h tx he => ?_
        obtain ⟨hid, hps, hrow⟩ := h tx he
        exact ⟨hid, by simpa [hps] using hrow⟩

theorem runs_abort {ps : List Name} {decision : Option Decision} (original : XaError) :
    Runs clean x (fun v => v.row = some ⟨x, .started, ps, decision⟩) (abort ⟨x, ps⟩ original)
      fun res _ => res ≠ .ok () := by
  refine runs_setLog (fun v => v.row = some ⟨x, .rollingBack, ps, some .rollback⟩) (fun _ => True)
    ?_ (fun _ _ _ => trivial) ?_ (fun _ => runs_ret fun _ _ h => by cases h)
  · intro v hok hrow
    exact ⟨ok_rollingBack hrow (.inl rfl) hok, setLog_row hrow _ _, trivial⟩
  · refine runs_bind ((runs_rollbackEach (r := ⟨x, .rollingBack, ps, some .rollback⟩) (.inr rfl) ps.reverse
      fun _ => False).weaken fun v _ h => ⟨h, fun _ hf => hf.elim⟩) ?_
    rintro (⟨p, e⟩ | u)
    · exact runs_ret fun _ _ h => by cases h
    · refine runs_setLog (fun _ => True) (fun _ => True) ?_ (fun _ _ _ => trivial)
        (runs_ret fun _ _ h => by cases h) (fun _ => runs_ret fun _ _ h => by cases h)
      rintro v hok ⟨hrow, hset⟩
      exact ⟨ok_rolledBack hrow (.inr rfl) hok fun _ q hq => hset rfl q (by simpa using hq),
        trivial, trivial⟩

theorem runs_decideCommit (ps : List Name) :
    Runs clean x (fun v => v.row = some ⟨x, .started, ps, none⟩ ∧ ∀ q ∈ ps, v.branch q = .prepared)
      (decideCommit ⟨x, ps⟩) fun res v => res = .ok () → ∀ q ∈ ps, v.branch q = .committed := by
  refine runs_setLog (fun v => v.row = some ⟨x, .prepared, ps, none⟩) (fun _ => True)
    ?_ (fun _ _ _ => trivial) ?_ (fun _ => runs_ret fun _ _ h => by cases h)
  · rintro v hok ⟨hrow, hp⟩
    exact ⟨ok_prepared hrow (.inl rfl) hok hp, setLog_row hrow _ _, trivial⟩
  refine runs_setLog (fun v => v.row = some ⟨x, .committing, ps, some .commit⟩) (fun _ => True)
    ?_ (fun _ _ _ => trivial) ?_ (fun _ => runs_ret fun _ _ h => by cases h)
  · intro v hok hrow
    exact ⟨ok_committing hrow (.inl rfl) hok, setLog_row hrow _ _, trivial⟩
  refine runs_bind ((runs_commitEach (r := ⟨x, .committing, ps, some .commit⟩) (.inr rfl) false ps
    (fun q hq => hq) fun _ => False).weaken fun v _ h => ⟨h, fun _ hf => hf.elim⟩) ?_
  rintro (⟨p, e⟩ | u)
  · exact runs_ret fun _ _ h => by cases h
  · refine runs_setLog (fun v => ∀ q ∈ ps, v.branch q = .committed) (fun _ => True)
      ?_ (fun _ _ _ => trivial) (runs_ret fun v h _ => h) (fun _ => runs_ret fun _ _ h => by cases h)
    rintro v hok ⟨hrow, hc⟩
    have hall : ∀ q ∈ ps, v.branch q = .committed := fun q hq => hc rfl q (.inr hq)
    exact ⟨ok_committed hrow (.inr rfl) hok hall, hall, trivial⟩

theorem runs_status {α : Type} {r : LogRow} {Q : α → View → Prop} {k : Res (.status x) → Proc α}
    (kok : Runs clean x (fun v => v.row = some r) (k (.ok (some r.status))) Q)
    (kerr : ∀ e, Runs clean x (fun _ => True) (k (.error e)) Q) :
    Runs clean x (fun v => v.row = some r) ((perform (.status x)).bind k) Q := by
  refine runs_read (o := .status x) rfl (fun _ => rfl)
    (fun res v => v.row = some r ∧ ∀ st, res = .ok st → st = some r.status) ?_ ?_ ?_
  · intro w _ hrow
    have hr : w.row x = some r := hrow
    refine ⟨hrow, fun st hst => ?_⟩
    rw [World.answer, hr] at hst
    exact (Except.ok.inj hst).symm
  · exact fun e v h => ⟨h, fun _ he => by cases he⟩
  · rintro (e | st)
    · exact (kerr e).weaken fun _ _ _ => trivial
    · by_cases hst : st = some r.status
      · subst hst
        exact kok.weaken fun _ _ h => h.1
      · exact fun w _ h => absurd (h.2 st rfl) hst

theorem runs_commit (ps : List Name) :
    Runs clean x (fun v => v.row = some ⟨x, .started, ps, none⟩) (commit ⟨x, ps⟩)
      fun res v => res = .ok () → ∀ q ∈ ps, v.branch q = .committed := by
  refine runs_status ?_ (fun e => runs_ret fun _ _ h => by cases h)
  refine runs_bind (runs_xaEach_fin ps) ?_
  rintro (⟨p, e⟩ | u)
  · exact (runs_abort _).post fun res _ h he => absurd he h
  · refine runs_bind ((runs_xaEach_prepare (r := ⟨x, .started, ps, none⟩) rfl ps
      fun _ => False).weaken fun v _ h => ⟨h, fun _ hf => hf.elim⟩) ?_
    rintro (⟨p, e⟩ | u)
    · exact ((runs_abort _).post fun res _ h he => absurd he h).weaken fun _ _ h => h.1
    · exact (runs_decideCommit ps).weaken fun v _ h => ⟨h.1, fun q hq => h.2 rfl q (.inr hq)⟩

theorem runs_rollback (ps : List Name) :
    Runs clean x (fun v => v.row = some ⟨x, .started, ps, none⟩) (rollback ⟨x, ps⟩)
      fun res v => res = .ok () → ∀ q, v.branch q ≠ .committed := by
  refine runs_status ?_ (fun e => runs_ret fun _ _ h => by cases h)
  refine runs_setLog (fun v => v.row = some ⟨x, .rollingBack, ps, some .rollback⟩) (fun _ => True)
    ?_ (fun _ _ _ => trivial) ?_ (fun _ => runs_ret fun _ _ h => by cases h)
  · intro v hok hrow
    exact ⟨ok_rollingBack hrow (.inl rfl) hok, setLog_row hrow _ _, trivial⟩
  refine runs_bind ((runs_rollbackEach (r := ⟨x, .rollingBack, ps, some .rollback⟩) (.inr rfl) ps.reverse
    fun _ => False).weaken fun v _ h => ⟨h, fun _ hf => hf.elim⟩) ?_
  rintro (⟨p, e⟩ | u)
  · exact runs_ret fun _ _ h => by cases h
  · refine runs_setLog (fun v => ∀ q, v.branch q ≠ .committed) (fun _ => True) ?_ (fun _ _ _ => trivial)
      (runs_ret fun v h _ => h) (fun _ => runs_ret fun _ _ h => by cases h)
    rintro v hok ⟨hrow, hset⟩
    have hnc : ∀ q, v.branch q ≠ .committed := undecided_not_committed hrow (.inr rfl) hok
    exact ⟨ok_rolledBack hrow (.inr rfl) hok fun _ q hq => hset rfl q (by simpa using hq),
      hnc, trivial⟩

end Ecat.TwoPhase
