import Ecat.TwoPhaseHost

/-! What a log row promises about the branches of its transaction, and proof rules
for programs that act on one transaction only. `clean` adds the promise that a
row in status `rolled_back` leaves no branch behind. -/

namespace Ecat.TwoPhase

def RowOk (clean : Prop) (b : Name → Branch) (r : LogRow) : Prop :=
  (∀ p, p ∉ r.participants → b p = .none) ∧
  match r.status with
  | .started | .rollingBack => ∀ p, b p ≠ .committed
  | .prepared | .committing =>
    r.decision ≠ some .rollback ∧ ∀ p ∈ r.participants, b p = .prepared ∨ b p = .committed
  | .committed => ∀ p ∈ r.participants, b p = .committed
  | .rolledBack => ∀ p, b p ≠ .committed ∧ (clean → b p ≠ .active ∧ b p ≠ .prepared)

def View.Ok (clean : Prop) (v : View) : Prop :=
  match v.row with
  | none => ∀ p, v.branch p = .none
  | some r => RowOk clean v.branch r

structure Inv (clean : Prop) (w : World) : Prop where
  ids : (w.log.map (·.id)).Nodup
  views : ∀ x, (w.view x).Ok clean

theorem View.ok_row {clean : Prop} {v : View} {r : LogRow} (h : v.row = some r) :
    v.Ok clean ↔ RowOk clean v.branch r := by
  simp [View.Ok, h]

def Op.target : Op → Option Xid
  | .insertLog row => some row.id
  | .setLog x .. | .xa _ _ x => some x
  | _ => none

theorem effect_view_ne (w : World) (o : Op) {y : Xid} (h : o.target ≠ some y) :
    (w.effect o).view y = w.view y := by
  cases o with
  | insertLog row => exact view_insertLog_ne w row (fun he => h (by simp [Op.target, he]))
  | setLog x st d => exact view_setLog_ne w (fun he => h (by simp [Op.target, he])) st d
  | xa call p x =>
    have hne : y ≠ x := fun he => h (by simp [Op.target, he])
    simp only [World.effect]
    cases (w.branch p x).apply call with
    | none => rfl
    | some b => exact view_setBranch_ne w p hne b
  | _ => rfl

theorem effect_ids {w : World} (h : (w.log.map (·.id)).Nodup) (o : Op) :
    ((w.effect o).log.map (·.id)).Nodup := by
  cases o with
  | insertLog row => exact insertLog_ids_nodup h row
  | setLog x st d => simpa only [World.effect, setLog_ids] using h
  | xa call p x =>
    simp only [World.effect]
    cases (w.branch p x).apply call with
    | none => exact h
    | some b => exact h
  | _ => exact h

theorem exec_cases (o : Op) (c : Reply) (w : World) :
    (exec o c w).2 = w ∨ (exec o c w).2 = w.effect o := by
  cases c with
  | ok => exact .inr rfl
  | lost applied e => cases applied <;> simp [exec]

theorem exec_view_ne (o : Op) (c : Reply) (w : World) {y : Xid} (h : o.target ≠ some y) :
    (exec o c w).2.view y = w.view y := by
  rcases exec_cases o c w with he | he <;> rw [he]
  exact effect_view_ne w o h

theorem exec_inv {clean : Prop} {o : Op} {c : Reply} {w : World} {x : Xid} (hi : Inv clean w)
    (ho : o.target = none ∨ o.target = some x) (hx : ((exec o c w).2.view x).Ok clean) :
    Inv clean (exec o c w).2 := by
  constructor
  · rcases exec_cases o c w with he | he <;> rw [he]
    · exact hi.ids
    · exact effect_ids hi.ids o
  · intro y
    by_cases hy : y = x
    · exact hy ▸ hx
    · rw [exec_view_ne o c w (by rcases ho with ho | ho <;> simp [ho, Ne.symm hy])]
      exact hi.views y

def duty (clean : Prop) (x : Xid) : Duty Op Res World Reply where
  exec := exec
  allowed o c w := clean → CleanupEffective (.tx x) o c w
  inv := Inv clean
  rely _ w w' := w'.view x = w.view x
  guar _ w w' := ∀ y, y ≠ x → w'.view y = w.view y

/-- From any view in `P` the program is safe and ends with a view in `Q`. -/
def Runs (clean : Prop) (x : Xid) {α : Type} (P : View → Prop) (prog : Proc α)
    (Q : α → View → Prop) : Prop :=
  (duty clean x).Triple (fun w => P (w.view x)) prog fun a w => Q a (w.view x)

variable {clean : Prop} {x : Xid} {α β : Type} {P : View → Prop} {Q : α → View → Prop}

theorem runs_ret {a : α} (h : ∀ v, P v → Q a v) : Runs clean x P (.ret a) Q :=
  Duty.triple_ret fun w _ hP => h (w.view x) hP

theorem Runs.weaken {P' : View → Prop} {prog : Proc α} (h : Runs clean x P prog Q)
    (hP : ∀ v, v.Ok clean → P' v → P v) : Runs clean x P' prog Q :=
  Duty.Triple.weaken h fun _ hi hP' => hP _ (Inv.views hi x) hP'

theorem Runs.post {Q' : α → View → Prop} {prog : Proc α} (h : Runs clean x P prog Q)
    (hQ : ∀ a v, Q a v → Q' a v) : Runs clean x P prog Q' :=
  Duty.Triple.post h fun a _ => hQ a _

theorem runs_bind {Q' : β → View → Prop} {prog : Proc α} {f : α → Proc β}
    (hp : Runs clean x P prog Q) (hf : ∀ a, Runs clean x (Q a) (f a) Q') :
    Runs clean x P (prog.bind f) Q' :=
  Duty.triple_bind hp hf

theorem runs_call {o : Op} {k : Res o → Proc α} (P' : Res o → View → Prop)
    (ho : o.target = none ∨ o.target = some x)
    (step : ∀ w c, (w.view x).Ok clean → P (w.view x) → (clean → CleanupEffective (.tx x) o c w) →
      ((exec o c w).2.view x).Ok clean ∧ P' (exec o c w).1 ((exec o c w).2.view x))
    (hk : ∀ r, Runs clean x (P' r) (k r) Q) : Runs clean x P ((perform o).bind k) Q := by
  refine Duty.triple_call (fun r w => P' r (w.view x)) ?_ ?_ hk
  · intro w w' hP hr _
    have hv : w'.view x = w.view x := hr
    rw [hv]
    exact hP
  · intro w c hi hP hc
    obtain ⟨hok, hP'⟩ := step w c (Inv.views hi x) hP hc
    refine ⟨fun y hy => exec_view_ne o c w ?_, exec_inv hi ho hok, hP'⟩
    rcases ho with ho | ho <;> simp [ho, Ne.symm hy]

end Ecat.TwoPhase
