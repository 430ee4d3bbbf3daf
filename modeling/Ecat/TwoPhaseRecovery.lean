import Ecat.TwoPhaseTransactions

/-! Recovery replays the decision of each recoverable row. It runs alone, so the
rows it read at the start are still the rows of the log when their turn comes. -/

namespace Ecat.TwoPhase

variable {clean : Prop} {x : Xid}

theorem runs_recoverCommit {r : LogRow} (hr : Decided r) (crossCheck : Bool) :
    Runs clean x (fun v => v.row = some r) (recoverCommit x r.participants crossCheck)
      fun _ _ => True := by
  refine runs_bind ((runs_commitEach hr crossCheck r.participants (fun q hq => hq)
    fun _ => False).weaken fun v _ h => ⟨h, fun _ hf => hf.elim⟩) ?_
  rintro (⟨p, e⟩ | u)
  · exact runs_ret fun _ _ => trivial
  · refine runs_setLog (fun _ => True) (fun _ => True) ?_ (fun _ _ _ => trivial)
      (runs_ret fun _ _ => trivial) (fun _ => runs_ret fun _ _ => trivial)
    rintro v hok ⟨hrow, hc⟩
    exact ⟨ok_committed hrow hr hok fun q hq => hc rfl q (.inr hq), trivial, trivial⟩

theorem runs_recoverRollback {r : LogRow} (hr : Undecided r) :
    Runs clean x (fun v => v.row = some r) (recoverRollback x r.participants false) fun _ _ => True := by
  refine runs_bind ((runs_rollbackEach hr r.participants.reverse
    fun _ => False).weaken fun v _ h => ⟨h, fun _ hf => hf.elim⟩) ?_
  rintro (⟨p, e⟩ | u)
  · exact runs_ret fun _ _ => trivial
  · refine runs_setLog (fun _ => True) (fun _ => True) ?_ (fun _ _ _ => trivial)
      (runs_ret fun _ _ => trivial) (fun _ => runs_ret fun _ _ => trivial)
    rintro v hok ⟨hrow, hset⟩
    exact ⟨ok_rolledBack hrow hr hok fun _ q hq => hset rfl q (by simpa using hq), trivial, trivial⟩

theorem runs_recoverRow {r : LogRow} (hr : recoverable r = true) :
    Runs clean r.id (fun v => v.row = some r) (recoverRow r) fun _ _ => True := by
  intro w hi hrow
  have hok := (View.ok_row hrow).mp (hi.views r.id)
  obtain ⟨id, status, ps, decision⟩ := r
  cases status with
  | started => exact runs_recoverRollback (.inl rfl) w hi hrow
  | rollingBack => exact runs_recoverRollback (.inr rfl) w hi hrow
  | prepared =>
    have hd : decision ≠ some .rollback := hok.2.1
    have hs : shouldCommit ⟨id, .prepared, ps, decision⟩ = true := by
      cases decision with
      | none => rfl
      | some d =>
        cases d with
        | commit => rfl
        | rollback => exact absurd rfl hd
    unfold recoverRow
    rw [if_pos hs]
    exact runs_recoverCommit (r := ⟨id, .prepared, ps, decision⟩) (.inl rfl) _ w hi hrow
  | committing => exact runs_recoverCommit (.inr rfl) _ w hi hrow
  | committed => cases hr
  | rolledBack => cases hr

def recoveryDuty (clean : Prop) : Duty Op Res World Reply where
  exec := exec
  allowed o c w := clean → CleanupEffective .recovery o c w
  inv := Inv clean
  rely _ w w' := w' = w
  guar _ _ _ := True

theorem Runs.alone {α : Type} {P : View → Prop} {Q : α → View → Prop} {prog : Proc α}
    (h : Runs clean x P prog Q) {w : World} (hi : Inv clean w) (hP : P (w.view x)) :
    (recoveryDuty clean).Safe
      (fun _ w' => (∀ y, y ≠ x → w'.view y = w.view y) ∧ Inv clean w') prog w := by
  have hsafe := Duty.safe_weaken (fun _ w w' => w' = w)
    (fun _ w w' => ∀ y, y ≠ x → w'.view y = w.view y)
    (fun _ a b hab => by rw [hab]; rfl) (fun _ _ _ hg => hg) (h w hi hP)
  have hself : ∀ y, y ≠ x → w.view y = w.view y := fun _ _ => rfl
  have hframe := Duty.safe_frame (fun a b : World => ∀ y, y ≠ x → b.view y = a.view y)
    (fun a b c hab hbc y hy => (hbc y hy).trans (hab y hy))
    (fun _ a b hab y _ => by
      have hba : b = a := hab
      rw [hba]) (fun _ _ _ hg => hg) hsafe hself
  have hinv := Duty.safe_inv hframe hi
  exact Duty.safe_weaken _ _ (fun _ _ _ hr => hr) (fun _ _ _ _ => trivial)
    (Duty.safe_mono (fun a w' hh => ⟨hh.1.2, hh.2⟩) hinv)

theorem recoverRows_safe (registered : List Name) (rows : List LogRow) :
    ∀ (report : RecoveryReport) (w : World), Inv clean w → (rows.map (·.id)).Nodup →
      (∀ r ∈ rows, recoverable r = true ∧ w.row r.id = some r) →
      (recoveryDuty clean).Safe (fun _ w' => Inv clean w') (recoverRows registered report rows) w := by
  induction rows with
  | nil => exact fun report w hi _ _ => hi
  | cons r rows ih =>
    intro report w hi hnd hrows
    have hnd' := List.nodup_cons.mp hnd
    have hrest := fun s hs => hrows s (List.mem_cons_of_mem r hs)
    unfold recoverRows
    split
    · have hr := hrows r (by simp)
      refine Duty.safe_seq ((runs_recoverRow hr.1).alone hi hr.2) ?_
      rintro res w' ⟨hframe, hi'⟩
      have hrows' : ∀ s ∈ rows, recoverable s = true ∧ w'.row s.id = some s := by
        intro s hs
        have hne : s.id ≠ r.id := by
          intro he
          exact hnd'.1 (List.mem_map.mpr ⟨s, hs, he⟩)
        have hv : w'.row s.id = w.row s.id := congrArg View.row (hframe s.id hne)
        exact ⟨(hrest s hs).1, hv.trans (hrest s hs).2⟩
      cases res with
      | ok u => exact ih _ w' hi' hnd'.2 hrows'
      | error e => exact ih _ w' hi' hnd'.2 hrows'
    · exact ih _ w hi hnd'.2 hrest

theorem row_of_mem {w : World} (hnd : (w.log.map (·.id)).Nodup) {r : LogRow} (hr : r ∈ w.log) :
    w.row r.id = some r := by
  obtain ⟨l, b⟩ := w
  simp only [World.row]
  induction l with
  | nil => cases hr
  | cons s l ih =>
    have hnd' := List.nodup_cons.mp hnd
    rcases List.mem_cons.mp hr with rfl | hr
    · simp
    · have hne : s.id ≠ r.id := fun he => hnd'.1 (List.mem_map.mpr ⟨r, hr, he.symm⟩)
      simpa [List.find?_cons, hne] using ih hnd'.2 hr

theorem read_safe {α : Type} {Q : α → World → Prop} {o : Op} {k : Res o → Proc α}
    (quiet : ∀ w : World, w.effect o = w) {w : World} (hi : Inv clean w)
    (answer : (recoveryDuty clean).Safe Q (k (w.answer o)) w)
    (error : ∀ e, (recoveryDuty clean).Safe Q (k (.error e)) w) :
    (recoveryDuty clean).Safe Q ((perform o).bind k) w := by
  intro w' hr hi' c _
  have hw : w' = w := hr
  subst hw
  cases c with
  | ok =>
    change True ∧ Inv clean (w'.effect o) ∧ (recoveryDuty clean).Safe Q (k (w'.answer o)) (w'.effect o)
    rw [quiet]
    exact ⟨trivial, hi, answer⟩
  | lost applied e =>
    have he : (if applied then w'.effect o else w') = w' := by simp [quiet]
    change True ∧ Inv clean (if applied then w'.effect o else w') ∧
      (recoveryDuty clean).Safe Q (k (.error e)) (if applied then w'.effect o else w')
    rw [he]
    exact ⟨trivial, hi, error e⟩

theorem recoverLocked_safe (registered : List Name) {w : World} (hi : Inv clean w) :
    (recoveryDuty clean).Safe (fun _ w' => Inv clean w') (recoverLocked registered) w := by
  refine read_safe (o := .recoverableLogs) (fun _ => rfl) hi ?_ (fun _ => hi)
  refine Duty.safe_seq (recoverRows_safe registered (w.log.filter recoverable) ⟨0, 0⟩ w hi ?_ ?_)
    fun report w' h => h
  · exact hi.ids.sublist (List.filter_sublist.map _)
  · intro r hr
    have hm := List.mem_filter.mp hr
    exact ⟨hm.2, row_of_mem hi.ids hm.1⟩

theorem recover_safe (registered : List Name) {w : World} (hi : Inv clean w) :
    (recoveryDuty clean).Safe (fun _ _ => True) (recover registered) w := by
  refine read_safe (o := .ensureSchema) (fun _ => rfl) hi ?_ (fun _ => trivial)
  refine read_safe (o := .acquireFence) (fun _ => rfl) hi ?_ (fun _ => trivial)
  refine Duty.safe_seq (recoverLocked_safe registered hi) ?_
  intro outcome w' hi'
  refine read_safe (o := .releaseFence) (fun _ => rfl) hi' ?_ ?_ <;> cases outcome <;>
    first | exact trivial | exact fun _ => trivial

end Ecat.TwoPhase
