import Ecat.OutboxHost

/-! Workers that mark a record after another worker has claimed it again. Such a mark
is meant to do nothing; it does nothing exactly when the row is not being processed at
that moment, since the status is all that the marks look at. -/

namespace Ecat.Outbox

variable {T : Type} {stamps : Stamps} {dialect : Dialect}

def lastClaim (log : List (Event T)) (id : String) : Option T :=
  log.reverse.findSome? fun
    | .claimed t id' => if id' = id then some t else none
    | _ => none

def Superseded (log : List (Event T)) (t : T) (id : String) : Prop :=
  .claimed t id ∈ log ∧ ∃ u, u ≠ t ∧ lastClaim log id = some u

/-- A mark of a worker whose claim has been superseded leaves the row unchanged. -/
def LateMarkInert (pre : List (Event T)) : Event T → Prop
  | .marked t id before after => Superseded pre t id → after = before
  | _ => True

/-- The newer claim is over by then: the row is not being processed. -/
def LateMarkClosed (pre : List (Event T)) : Event T → Prop
  | .marked t id before _ => Superseded pre t id → ∀ row, before = some row → row.status ≠ .processing
  | _ => True

def MarkGuarded (_ : List (Event T)) : Event T → Prop
  | .marked _ _ before after => after = before ↔ ∀ row, before = some row → row.status ≠ .processing
  | _ => True

theorem findRow_updateProcessing {id : String} {f : Row → Row} (hf : ∀ row, (f row).id = row.id)
    (rows : List Row) : findRow id (updateProcessing id f rows) = (findRow id rows).map fun row =>
      if row.status = .processing then f row else row := by
  induction rows with
  | nil => rfl
  | cons row rows ih =>
    by_cases hid : row.id = id
    · by_cases hs : row.status = .processing <;>
        simp [findRow, updateProcessing, hid, hs, hf]
    · have hrest : findRow id (row :: rows) = findRow id rows := by simp [findRow, hid]
      rw [hrest, ← ih]
      simp [findRow, updateProcessing, hid]

theorem markGuarded_update {id : String} {f : Row → Row} (hf : ∀ row, (f row).id = row.id)
    (hstatus : ∀ row, (f row).status ≠ .processing) (pre : List (Event T)) (t : T) (rows : List Row) :
    MarkGuarded pre (.marked t id (findRow id rows) (findRow id (updateProcessing id f rows))) := by
  rw [MarkGuarded, findRow_updateProcessing hf]
  cases findRow id rows with
  | none => simp
  | some row =>
    by_cases hs : row.status = .processing
    · have hne : f row ≠ row := by
        intro h
        have := hstatus row
        rw [h] at this
        exact this hs
      simp [hs, hne]
    · simp [hs]

theorem always_markGuarded_exec (t : T) (o : Op) (c : Reply) {w : World T}
    (h : Always MarkGuarded w.log) : Always MarkGuarded (exec stamps dialect t o c w).2.log := by
  cases o with
  | append r =>
    refine attempt_cases (I := fun w => Always MarkGuarded w.log) c h fun a w' hw' => ?_
    obtain ⟨rows, _, he⟩ := map_eq_ok hw'
    cases he
    exact h.snoc trivial
  | claim limit lease =>
    refine attempt_cases (I := fun w => Always MarkGuarded w.log) c h fun a w' hw' => ?_
    obtain ⟨result, _, he⟩ := map_eq_ok hw'
    cases he
    exact h.append (List.forall_mem_map.2 fun _ _ _ => trivial)
  | handle record => exact h.snoc trivial
  | markDone id =>
    refine attempt_cases (I := fun w => Always MarkGuarded w.log) c h fun a w' hw' => ?_
    obtain ⟨rows, hrows, he⟩ := map_eq_ok hw'
    cases he
    rw [markDone_eq_ok hrows]
    exact h.snoc (markGuarded_update (f := Row.markedDone) (fun _ => rfl) (by simp [Row.markedDone]) _ t _)
  | markFailed id retryAfter =>
    refine attempt_cases (I := fun w => Always MarkGuarded w.log) c h fun a w' hw' => ?_
    obtain ⟨rows, hrows, he⟩ := map_eq_ok hw'
    cases he
    obtain ⟨next, _, rfl⟩ := markFailed_eq_ok hrows
    exact h.snoc (markGuarded_update (f := Row.markedFailed next) (fun _ => rfl) (by simp [Row.markedFailed])
      _ t _)

variable [DecidableEq T]

/-- In every run, the marks of superseded workers leave their rows unchanged if and only if each
of them comes when the row is not being processed. -/
theorem late_marks_inert_iff {now : Int} {s : Sys T Op Res Outcome (World T)}
    (h : (clients T stamps dialect).Reach Host.Free (empty T now) s) :
    Always LateMarkInert s.world.log ↔ Always LateMarkClosed s.world.log := by
  have hguarded : Always MarkGuarded s.world.log := by
    refine h.world_inv (I := fun w => Always MarkGuarded w.log)
      (fun t o c w _ hw => always_markGuarded_exec t o c hw) (fun _ hw => hw) ?_ always_nil
    rintro _ w _ ⟨t, _, _, rfl⟩ hw
    exact hw
  refine forall₃_congr fun pre e post => forall_congr' fun heq => ?_
  have hmark := hguarded pre e post heq
  cases e with
  | marked t id before after => exact imp_congr_right fun _ => hmark
  | appended | claimed | handled => exact Iff.rfl

/-! ### Two workers -/

abbrev twoWorkers := clients Bool chronological .sqlite

theorem reach_later {allowed : T → Op → Reply → World T → Prop} (s : Sys T Op Res Outcome (World T)) (t : Int)
    (h : s.world.now ≤ t) (hmax : t ≤ maxTime) : (clients T stamps dialect).Reach allowed s
      { s with world := { s.world with now := t } } :=
  .single (.env _ ⟨t, h, hmax, rfl⟩)

def claimedAt (t : Int) : Row := ⟨"a", "order", [1], .processing, 1, 150 * second, some t⟩

def delivering (record : OutboxRecord) : Proc Outcome := do
  return .relayed (← deliver [{ record with status := .processing }] ⟨1, 0, 0⟩)

def claimedTwice : Sys Bool Op Res Outcome (World Bool) :=
  ⟨⟨150 * second, [claimedAt (150 * second)], [.appended order, .claimed false "a", .claimed true "a"]⟩,
    fun second? => some (delivering
      (if second? then { order with attempts := 1, nextAttemptAt := 150 * second } else order))⟩

theorem reach_claimedTwice : twoWorkers.Reach Host.Free (empty Bool 0) claimedTwice := by
  have appended := Host.Reach.launch twoWorkers Host.Free true (prog (.append order)) [.ok] (empty Bool 0)
    rfl trivial (Host.permits_free ..)
  have claimed := (appended.tail (.stop true)).trans (Host.Reach.launch twoWorkers Host.Free false
    (prog (.runOnce 10 (60 * second))) [.ok] _ rfl trivial (Host.permits_free ..))
  have expired := claimed.trans (reach_later _ (120 * second) (by decide) (by decide))
  have reclaimed := (expired.trans (Host.Reach.launch twoWorkers Host.Free true
    (prog (.runOnce 10 (60 * second))) [.ok] _ rfl trivial (Host.permits_free ..))).tail (.stop true)
  have waited := reclaimed.trans (reach_later _ (150 * second) (by decide) (by decide))
  have taken := waited.trans (Host.Reach.launch twoWorkers Host.Free true
    (prog (.runOnce 10 (60 * second))) [.ok] _ rfl trivial (Host.permits_free ..))
  refine Eq.mp (congrArg _ ?_) taken
  refine congrArg₂ Sys.mk rfl (funext fun t => ?_)
  cases t <;> rfl

/-- The second worker is done with the record before the first one reports. -/
theorem late_marks_inert_after_done :
    ∃ s, twoWorkers.Reach Host.Free (empty Bool 0) s ∧
      (∃ pre row, s.world.log = pre ++ [.marked false "a" (some row) (some row)] ∧ Superseded pre false "a") ∧
      Always LateMarkInert s.world.log := by
  have done := reach_claimedTwice.trans (Host.Reach.advance twoWorkers Host.Free true _
    [.handled (.ok ()), .ok] _ rfl (Host.permits_free ..))
  have late := done.trans (Host.Reach.advance twoWorkers Host.Free false _ [.handled (.ok ()), .ok] _ rfl
    (Host.permits_free ..))
  refine ⟨_, late, ⟨_, (claimedAt (150 * second)).markedDone, rfl, by decide, true, by decide, by decide⟩,
    (late_marks_inert_iff late).2 ?_⟩
  have hclaims : Always LateMarkClosed claimedTwice.world.log := by
    refine always_nil.append fun e he pre => ?_
    simp only [List.mem_cons, List.not_mem_nil, or_false] at he
    rcases he with rfl | rfl | rfl <;> trivial
  have hhandled : Always LateMarkClosed (claimedTwice.world.log ++
      [.handled ⟨"a", "order", [1], .processing, 1, 150 * second⟩ true]) := hclaims.snoc trivial
  have hdone : Always LateMarkClosed (claimedTwice.world.log ++
      [.handled ⟨"a", "order", [1], .processing, 1, 150 * second⟩ true] ++
      [.marked true "a" (some (claimedAt (150 * second))) (some (claimedAt (150 * second)).markedDone)] ++
      [.handled ⟨"a", "order", [1], .processing, 0, 0⟩ true]) := by
    refine (hhandled.snoc ?_).snoc trivial
    rintro ⟨_, u, hne, hlast⟩
    exact absurd (Option.some.inj hlast).symm hne
  refine hdone.snoc ?_
  rintro _ row he
  cases he
  decide

/-- The first worker reports success while the second one is still at work. -/
theorem late_mark_changes_row :
    ¬ ∀ s, twoWorkers.Reach Host.Free (empty Bool 0) s → Always LateMarkInert s.world.log := by
  intro hall
  have late := reach_claimedTwice.trans (Host.Reach.advance twoWorkers Host.Free false _
    [.handled (.ok ()), .ok] _ rfl (Host.permits_free ..))
  have hinert := hall _ late
    [.appended order, .claimed false "a", .claimed true "a",
      .handled { order with status := .processing } true]
    (.marked false "a" (some (claimedAt (150 * second))) (some (claimedAt (150 * second)).markedDone)) []
    (by decide)
  exact absurd (hinert ⟨by decide, true, by decide, by decide⟩) (by decide)

end Ecat.Outbox
