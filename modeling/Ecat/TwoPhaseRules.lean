import Ecat.TwoPhaseInvariant

/-! Rules for the calls of the coordinator and specifications of its loops over
the participants. -/

namespace Ecat.TwoPhase

variable {clean : Prop} {x : Xid} {α : Type} {P : View → Prop} {Q : α → View → Prop}

theorem View.setBranch_eq_self {v : View} {p : Name} {b : Branch} (h : v.branch p = b) :
    v.setBranch p b = v := by
  obtain ⟨row, branch⟩ := v
  simp only [View.setBranch, View.mk.injEq, true_and]
  funext q
  by_cases hq : q = p
  · simpa [hq] using h.symm
  · simp [hq]

theorem runs_xa {call : XaCall} {p : Name} {k : Res (.xa call p x) → Proc α} (Pok Perr : View → Prop)
    (took : ∀ v b, v.Ok clean → P v → (v.branch p).apply call = some b →
      (v.setBranch p b).Ok clean ∧ Pok (v.setBranch p b) ∧ Perr (v.setBranch p b))
    (kept : ∀ v, v.Ok clean → P v → (clean → call = .rollback .cleanup → v.branch p ≠ .active) → Perr v)
    (kok : Runs clean x Pok (k (.ok ())) Q) (kerr : ∀ e, Runs clean x Perr (k (.error e)) Q) :
    Runs clean x P ((perform (.xa call p x)).bind k) Q := by
  refine runs_call (fun r v => match r with | .ok _ => Pok v | .error _ => Perr v) (.inr rfl) ?_ ?_
  · intro w c hok hP hc
    have hv : w.branch p x = (w.view x).branch p := rfl
    cases c with
    | ok =>
      cases ha : (w.branch p x).apply call with
      | none =>
        have hne : clean → call = .rollback .cleanup → (w.view x).branch p ≠ .active := by
          rintro - rfl he
          rw [hv, he] at ha
          cases ha
        simpa [exec, World.effect, World.answer, ha] using ⟨hok, kept _ hok hP hne⟩
      | some b =>
        have hh := took _ b hok hP (hv ▸ ha)
        simpa [exec, World.effect, World.answer, ha, view_setBranch_self] using ⟨hh.1, hh.2.1⟩
    | lost applied e =>
      cases applied with
      | false =>
        refine ⟨hok, kept _ hok hP ?_⟩
        rintro hcl rfl
        exact hc hcl
      | true =>
        cases ha : (w.branch p x).apply call with
        | none =>
          have hne : clean → call = .rollback .cleanup → (w.view x).branch p ≠ .active := by
            rintro - rfl he
            rw [hv, he] at ha
            cases ha
          simpa [exec, World.effect, ha] using ⟨hok, kept _ hok hP hne⟩
        | some b =>
          have hh := took _ b hok hP (hv ▸ ha)
          simpa [exec, World.effect, ha, view_setBranch_self] using ⟨hh.1, hh.2.2⟩
  · rintro (e | u)
    · exact kerr e
    · exact kok

theorem runs_setLog {status : Status} {decision : Option Decision}
    {k : Res (.setLog x status decision) → Proc α} (Pok Perr : View → Prop)
    (took : ∀ v, v.Ok clean → P v → (v.setLog status decision).Ok clean ∧
      Pok (v.setLog status decision) ∧ Perr (v.setLog status decision))
    (kept : ∀ v, v.Ok clean → P v → Perr v)
    (kok : Runs clean x Pok (k (.ok ())) Q) (kerr : ∀ e, Runs clean x Perr (k (.error e)) Q) :
    Runs clean x P ((perform (.setLog x status decision)).bind k) Q := by
  refine runs_call (fun r v => match r with | .ok _ => Pok v | .error _ => Perr v) (.inr rfl) ?_ ?_
  · intro w c hok hP _
    have hh := took _ hok hP
    cases c with
    | ok => simpa [exec, World.effect, World.answer, view_setLog_self] using ⟨hh.1, hh.2.1⟩
    | lost applied e =>
      cases applied with
      | false => exact ⟨hok, kept _ hok hP⟩
      | true => simpa [exec, World.effect, view_setLog_self] using ⟨hh.1, hh.2.2⟩
  · rintro (e | u)
    · exact kerr e
    · exact kok

theorem runs_read {o : Op} {k : Res o → Proc α} (ho : o.target = none)
    (quiet : ∀ w : World, w.effect o = w) (P' : Res o → View → Prop)
    (answer : ∀ w : World, (w.view x).Ok clean → P (w.view x) → P' (w.answer o) (w.view x))
    (error : ∀ e v, P v → P' (.error e) v) (hk : ∀ r, Runs clean x (P' r) (k r) Q) :
    Runs clean x P ((perform o).bind k) Q := by
  refine runs_call P' (.inl ho) ?_ hk
  intro w c hok hP _
  cases c with
  | ok => simpa [exec, quiet] using ⟨hok, answer w hok hP⟩
  | lost applied e => simpa [exec, quiet] using ⟨hok, error e _ hP⟩

def Undecided (r : LogRow) : Prop := r.status = .started ∨ r.status = .rollingBack

def Decided (r : LogRow) : Prop := r.status = .prepared ∨ r.status = .committing

def Settled (b : Branch) : Prop := b ≠ .active ∧ b ≠ .prepared

theorem rowOk_undecided {b : Name → Branch} {r : LogRow} (hr : Undecided r) :
    RowOk clean b r ↔ (∀ p, p ∉ r.participants → b p = .none) ∧ ∀ p, b p ≠ .committed := by
  rcases hr with h | h <;> simp [RowOk, h]

theorem rowOk_decided {b : Name → Branch} {r : LogRow} (hr : Decided r) :
    RowOk clean b r ↔ (∀ p, p ∉ r.participants → b p = .none) ∧
      r.decision ≠ some .rollback ∧ ∀ p ∈ r.participants, b p = .prepared ∨ b p = .committed := by
  rcases hr with h | h <;> simp [RowOk, h]

theorem ok_set_undecided {v : View} {r : LogRow} {p : Name} {b : Branch} (hv : v.row = some r)
    (hr : Undecided r) (hok : v.Ok clean) (hb : b ≠ .committed)
    (hp : p ∉ r.participants → b = .none) : (v.setBranch p b).Ok clean := by
  have hv' : (v.setBranch p b).row = some r := hv
  rw [View.ok_row hv, rowOk_undecided hr] at hok
  rw [View.ok_row hv', rowOk_undecided hr]
  constructor
  · intro q hq
    by_cases he : q = p
    · subst he
      simpa [View.setBranch] using hp hq
    · simpa [View.setBranch, he] using hok.1 q hq
  · intro q
    by_cases he : q = p
    · simpa [View.setBranch, he] using hb
    · simpa [View.setBranch, he] using hok.2 q

theorem ok_set_decided {v : View} {r : LogRow} {p : Name} (hv : v.row = some r)
    (hr : Decided r) (hok : v.Ok clean) (hp : p ∈ r.participants) :
    (v.setBranch p .committed).Ok clean := by
  have hv' : (v.setBranch p .committed).row = some r := hv
  rw [View.ok_row hv, rowOk_decided hr] at hok
  rw [View.ok_row hv', rowOk_decided hr]
  refine ⟨?_, hok.2.1, ?_⟩
  · intro q hq
    have he : q ≠ p := fun he => hq (he ▸ hp)
    simpa [View.setBranch, he] using hok.1 q hq
  · intro q hq
    by_cases he : q = p
    · simp [View.setBranch, he]
    · simpa [View.setBranch, he] using hok.2.2 q hq

theorem rollback_settled {site : Site} {b b' : Branch} (h : b.apply (.rollback site) = some b') :
    Settled b' := by
  cases b <;> cases h <;> exact ⟨by decide, by decide⟩

theorem fin_unchanged {b b' : Branch} (h : b.apply .fin = some b') : b = b' := by
  cases b <;> cases h
  rfl

theorem runs_fin {p : Name} {k : Res (.xa .fin p x) → Proc α} (hk : ∀ r, Runs clean x P (k r) Q) :
    Runs clean x P ((perform (.xa .fin p x)).bind k) Q := by
  refine runs_xa P P ?_ (fun v _ hP _ => hP) (hk _) (fun e => hk _)
  intro v b hok hP ha
  have he : v.setBranch p b = v := View.setBranch_eq_self (fin_unchanged ha)
  rw [he]
  exact ⟨hok, hP, hP⟩

theorem runs_xaEach_fin (ps : List Name) : Runs clean x P (xaEach .fin x ps) fun _ => P := by
  induction ps with
  | nil => exact runs_ret fun _ h => h
  | cons p ps ih =>
    apply runs_fin
    rintro (e | u)
    · exact runs_ret fun _ h => h
    · exact ih

theorem runs_xaEach_prepare {r : LogRow} (hr : r.status = .started) (ps : List Name) (S : Name → Prop) :
    Runs clean x (fun v => v.row = some r ∧ ∀ q, S q → v.branch q = .prepared)
      (xaEach .prepare x ps) fun res v => v.row = some r ∧
        (res = .ok () → ∀ q, S q ∨ q ∈ ps → v.branch q = .prepared) := by
  induction ps generalizing S with
  | nil => exact runs_ret fun v h => ⟨h.1, fun _ q hq => h.2 q (by simpa using hq)⟩
  | cons p ps ih =>
    refine runs_xa (fun v => v.row = some r ∧ ∀ q, S q ∨ q = p → v.branch q = .prepared)
      (fun v => v.row = some r) ?_ (fun v _ hP _ => hP.1) ?_ ?_
    · rintro v b hok ⟨hrow, hS⟩ ha
      have hb : v.branch p = .active ∧ b = .prepared := by
        cases hb : v.branch p <;> rw [hb] at ha <;> cases ha
        exact ⟨rfl, rfl⟩
      obtain ⟨hact, rfl⟩ := hb
      have hp : p ∉ r.participants → Branch.prepared = .none := by
        intro hp
        rw [View.ok_row hrow, rowOk_undecided (.inl hr)] at hok
        rw [hok.1 p hp] at hact
        cases hact
      refine ⟨ok_set_undecided hrow (.inl hr) hok (by decide) hp, ⟨hrow, ?_⟩, hrow⟩
      intro q hq
      by_cases he : q = p
      · simp [View.setBranch, he]
      · simpa [View.setBranch, he] using hS q (hq.resolve_right he)
    · refine (ih fun q => S q ∨ q = p).post fun res v h => ⟨h.1, fun hres q hq => h.2 hres q ?_⟩
      simpa [or_assoc] using hq
    · exact fun e => runs_ret fun v h => ⟨h, fun he => by cases he⟩

theorem runs_alreadyResolved {p : Name} :
    Runs clean x P (alreadyResolved p x) fun b v => P v ∧ (b = true → v.branch p ≠ .prepared) := by
  refine runs_read (o := .xaRecover p) rfl (fun _ => rfl)
    (fun r v => P v ∧ ∀ inDoubt, r = .ok inDoubt → inDoubt x = false → v.branch p ≠ .prepared) ?_ ?_ ?_
  · intro w _ hP
    refine ⟨hP, ?_⟩
    intro inDoubt hr hx
    cases hr
    simpa [World.view] using hx
  · exact fun e v hP => ⟨hP, fun _ he => by cases he⟩
  · rintro (e | inDoubt)
    · exact runs_ret fun v h => ⟨h.1, fun he => by cases he⟩
    · exact runs_ret fun v h => ⟨h.1, fun hb => h.2 inDoubt rfl (by simpa using hb)⟩

theorem runs_crossCheck {p : Name} {crossCheck : Bool} :
    Runs clean x P (if crossCheck then alreadyResolved p x else return false)
      fun b v => P v ∧ (b = true → v.branch p ≠ .prepared) := by
  cases crossCheck with
  | false => exact runs_ret fun v h => ⟨h, fun he => by cases he⟩
  | true => exact runs_alreadyResolved

theorem runs_commitEach {r : LogRow} (hr : Decided r) (crossCheck : Bool) (ps : List Name)
    (hps : ∀ p ∈ ps, p ∈ r.participants) (S : Name → Prop) :
    Runs clean x (fun v => v.row = some r ∧ ∀ q, S q → v.branch q = .committed)
      (commitEach crossCheck x ps) fun res v => v.row = some r ∧
        (res = .ok () → ∀ q, S q ∨ q ∈ ps → v.branch q = .committed) := by
  induction ps generalizing S with
  | nil => exact runs_ret fun v h => ⟨h.1, fun _ q hq => h.2 q (by simpa using hq)⟩
  | cons p ps ih =>
    have hp : p ∈ r.participants := hps p (by simp)
    have hrest : Runs clean x (fun v => v.row = some r ∧ ∀ q, S q ∨ q = p → v.branch q = .committed)
        (commitEach crossCheck x ps) fun res v => v.row = some r ∧
          (res = .ok () → ∀ q, S q ∨ q ∈ p :: ps → v.branch q = .committed) := by
      refine (ih (fun q hq => hps q (by simp [hq])) fun q => S q ∨ q = p).post fun res v h => ?_
      exact ⟨h.1, fun hres q hq => h.2 hres q (by simpa [or_assoc] using hq)⟩
    have known : ∀ v : View, v.Ok clean → v.row = some r →
        v.branch p = .prepared ∨ v.branch p = .committed := by
      intro v hok hrow
      rw [View.ok_row hrow, rowOk_decided hr] at hok
      exact hok.2.2 p hp
    refine runs_bind runs_crossCheck ?_
    rintro (_ | _)
    · refine runs_xa (fun v => v.row = some r ∧ ∀ q, S q ∨ q = p → v.branch q = .committed)
        (fun v => v.row = some r) ?_ (fun v _ hP _ => hP.1.1) hrest ?_
      · rintro v b hok ⟨⟨hrow, hS⟩, -⟩ ha
        have hb : b = .committed := by
          rcases known v hok hrow with hb | hb <;> rw [hb] at ha <;> cases ha <;> rfl
        subst hb
        refine ⟨ok_set_decided hrow hr hok hp, ⟨hrow, ?_⟩, hrow⟩
        intro q hq
        by_cases he : q = p
        · simp [View.setBranch, he]
        · simpa [View.setBranch, he] using hS q (hq.resolve_right he)
      · exact fun e => runs_ret fun v h => ⟨h, fun he => by cases he⟩
    · refine hrest.weaken ?_
      rintro v hok ⟨⟨hrow, hS⟩, hres⟩
      refine ⟨hrow, ?_⟩
      rintro q (hq | rfl)
      · exact hS q hq
      · exact (known v hok hrow).resolve_left (hres rfl)

theorem rollback_keeps {v : View} {p : Name} {b : Branch} {site : Site} {S : Name → Prop}
    (hS : ∀ q, S q → Settled (v.branch q)) (ha : (v.branch p).apply (.rollback site) = some b) :
    ∀ q, S q ∨ q = p → Settled ((v.setBranch p b).branch q) := by
  intro q hq
  by_cases he : q = p
  · simpa [View.setBranch, he] using rollback_settled ha
  · simpa [View.setBranch, he] using hS q (hq.resolve_right he)

theorem ok_rollback {v : View} {r : LogRow} {p : Name} {b : Branch} {site : Site} (hrow : v.row = some r)
    (hr : Undecided r) (hok : v.Ok clean) (ha : (v.branch p).apply (.rollback site) = some b) :
    (v.setBranch p b).Ok clean := by
  have hok' := hok
  rw [View.ok_row hrow, rowOk_undecided hr] at hok'
  refine ok_set_undecided hrow hr hok ?_ ?_
  · rintro rfl
    have hc := hok'.2 p
    cases hb : v.branch p <;> rw [hb] at ha hc <;> cases ha
    exact hc rfl
  · intro hp
    rw [hok'.1 p hp] at ha
    cases ha
    rfl

theorem runs_rollbackEach {r : LogRow} (hr : Undecided r) (ps : List Name) (S : Name → Prop) :
    Runs clean x (fun v => v.row = some r ∧ ∀ q, S q → Settled (v.branch q))
      (rollbackEach false x ps) fun res v => v.row = some r ∧
        (res = .ok () → ∀ q, S q ∨ q ∈ ps → Settled (v.branch q)) := by
  induction ps generalizing S with
  | nil => exact runs_ret fun v h => ⟨h.1, fun _ q hq => h.2 q (by simpa using hq)⟩
  | cons p ps ih =>
    apply runs_fin
    intro _
    refine runs_xa (fun v => v.row = some r ∧ ∀ q, S q ∨ q = p → Settled (v.branch q))
      (fun v => v.row = some r) ?_ (fun v _ hP _ => hP.1) ?_ ?_
    · rintro v b hok ⟨hrow, hS⟩ ha
      exact ⟨ok_rollback hrow hr hok ha, ⟨hrow, rollback_keeps hS ha⟩, hrow⟩
    · refine (ih fun q => S q ∨ q = p).post fun res v h => ⟨h.1, fun hres q hq => h.2 hres q ?_⟩
      simpa [or_assoc] using hq
    · exact fun e => runs_ret fun v h => ⟨h, fun he => by cases he⟩

end Ecat.TwoPhase
