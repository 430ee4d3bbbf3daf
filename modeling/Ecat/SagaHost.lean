import Ecat.SagaModel

/-! One saga that is run and resumed any number of times, one call after the other,
and what its persisted state says about the calls made so far. -/

namespace Ecat.Saga

variable {D : Type}

inductive Cmd (D : Type)
  | run (ctx : SagaContext D)
  | resume

def prog (steps : List Name) (sagaId : String) : Cmd D → Proc D (Except SagaError Unit)
  | .run ctx => run steps sagaId ctx
  | .resume => resume steps sagaId

def host (D : Type) (reread : SagaContext D → SagaContext D) (steps : List Name) (sagaId : String) :
    Host Unit (Op D) Res (Except SagaError Unit) (World D) (Reply D) (Cmd D) where
  exec _ := exec reread
  prog _ := prog steps sagaId
  admits _ _ _ := True
  crash := id
  env _ _ _ := False

def init (D : Type) : Sys Unit (Op D) Res (Except SagaError Unit) (World D) :=
  ⟨⟨none, fun _ => .pending, []⟩, fun _ => none⟩

/-- A saga that is loaded while compensating has no step done at or after its
current step, and one failed step only. -/
def ResumeIntact (steps : List Name) (o : Op D) (w : World D) : Prop :=
  match o with
  | .load => ∀ st, w.state = some st → st.status = .compensating →
      (∀ s ∈ steps.drop st.currentStep, w.step s ≠ .done) ∧
      ∀ s ∈ steps, ∀ t ∈ steps, w.step s = .failed → w.step t = .failed → s = t
  | _ => True

/-- Steps execute after all earlier ones and before any compensation; only steps
recorded as done and not yet as compensated are compensated, in non-increasing
order, and none once the saga has ended. -/
def InOrder (steps : List Name) (pre : List (Event D)) : Event D → Prop
  | .executed s _ _ => (∀ st, .saved st ∈ pre → st.status = .running) ∧
      ∀ t, steps.idxOf t < steps.idxOf s → ∃ ctx, .executed t ctx true ∈ pre
  | .compensated s _ ok => (∀ st, .saved st ∈ pre → st.status = .running ∨ st.status = .compensating) ∧
      .recorded s .done ∈ pre ∧ .recorded s .compensated ∉ pre ∧
      (ok = true → ∀ t ctx, .compensated t ctx true ∈ pre → steps.idxOf s ≤ steps.idxOf t)
  | _ => True

structure RunningOk (steps : List Name) (w : World D) (st : SagaState D) : Prop where
  saves : ∀ st', .saved st' ∈ w.log → st'.status = .running
  forward : ∀ s ctx ok, .compensated s ctx ok ∉ w.log
  clean : ∀ s, .recorded s .compensated ∉ w.log
  passed : ∀ s ∈ steps.take st.currentStep, w.step s = .done
  front : ∀ s t, w.step s = .done → steps.idxOf t < steps.idxOf s → w.step t = .done
  kept : ∀ s, .recorded s .done ∈ w.log → s ∈ steps ∧ w.step s = .done

structure CompensatingOk (steps : List Name) (w : World D) (st : SagaState D) : Prop where
  saves : ∀ st', .saved st' ∈ w.log → st'.status = .running ∨ st'.status = .compensating
  order : ∀ t ctx, .compensated t ctx true ∈ w.log → ∀ s, w.step s = .done →
    steps.idxOf s < st.currentStep → steps.idxOf s ≤ steps.idxOf t
  culprit : ∃ f ∈ steps, w.step f = .failed ∧ .recorded f .done ∉ w.log
  undone : ∀ s, .recorded s .done ∈ w.log → s ∈ steps ∧ (w.step s = .done ∨ w.step s = .failed ∨
    w.step s = .compensated ∧ ∃ ctx, .compensated s ctx true ∈ w.log)

/-- No step is done any more, and each that ever was has been compensated. -/
def Undone (w : World D) : Prop :=
  (∀ s, w.step s ≠ .done) ∧ ∀ s, .recorded s .done ∈ w.log → ∃ ctx, .compensated s ctx true ∈ w.log

def StateOk (steps : List Name) (intact : Prop) (w : World D) (st : SagaState D) : Prop :=
  match st.status with
  | .running => RunningOk steps w st
  | .compensating => CompensatingOk steps w st
  | .completed => ∀ s ∈ steps, w.step s = .done
  | .compensated => intact → Undone w
  | .failed => True

structure Inv (steps : List Name) (intact : Prop) (w : World D) : Prop where
  trace : Always (InOrder steps) w.log
  known : ∀ s, w.step s = .done → .recorded s .done ∈ w.log ∧ ∃ ctx, .executed s ctx true ∈ w.log
  once : ∀ s, w.step s = .done → .recorded s .compensated ∉ w.log
  fresh : w.state = none → w.log = [] ∧ ∀ s, w.step s = .pending
  bound : ∀ st, w.state = some st → st.currentStep ≤ steps.length
  state : ∀ st, w.state = some st → StateOk steps intact w st

variable {steps : List Name} {intact : Prop} {w : World D} {st : SagaState D}

theorem Inv.running (h : Inv steps intact w) (hs : w.state = some st) (hr : st.status = .running) :
    RunningOk steps w st := by
  have hok := h.state st hs
  rwa [StateOk, hr] at hok

theorem Inv.compensating (h : Inv steps intact w) (hs : w.state = some st)
    (hr : st.status = .compensating) : CompensatingOk steps w st := by
  have hok := h.state st hs
  rwa [StateOk, hr] at hok

theorem Inv.not_fresh (hs : w.state = some st) {P : Prop} (h : w.state = none) : P := by
  rw [hs] at h
  cases h

theorem inv_init : Inv steps intact (init D).world :=
  ⟨always_nil, fun _ h => (nomatch h), fun _ h => (nomatch h), fun _ => ⟨rfl, fun _ => rfl⟩,
    fun _ h => (nomatch h),
    fun _ h => (nomatch h)⟩

theorem inv_create (h : Inv steps intact w) (hs : w.state = none) (sagaId : String)
    (ctx : SagaContext D) : Inv steps intact (w.save ⟨sagaId, .running, 0, ctx⟩) := by
  obtain ⟨hlog, hstep⟩ := h.fresh hs
  have hnd : ∀ s, w.step s ≠ .done := fun s he => by simp [hstep s] at he
  refine ⟨h.trace.snoc trivial, fun s he => absurd he (hnd s), fun s he => absurd he (hnd s),
    Inv.not_fresh rfl, ?_, ?_⟩
  · rintro st hst
    cases hst
    exact Nat.zero_le _
  · rintro st hst
    cases hst
    exact ⟨by simp [World.save, World.push, hlog], by simp [World.save, World.push, hlog],
      by simp [World.save, World.push, hlog], by simp, fun s t he => absurd he (hnd s),
      by simp [World.save, World.push, hlog]⟩

theorem inv_executed (h : Inv steps intact w) (hs : w.state = some st) (hr : st.status = .running)
    {s : Name} (hbefore : ∀ t, steps.idxOf t < steps.idxOf s → w.step t = .done) (ctx : SagaContext D)
    (ok : Bool) : Inv steps intact (w.push (.executed s ctx ok)) := by
  have hrun := h.running hs hr
  refine ⟨h.trace.snoc ⟨hrun.saves, fun t ht => (h.known t (hbefore t ht)).2⟩, ?_,
    fun t ht => by simpa [World.push] using h.once t ht, Inv.not_fresh hs, h.bound, ?_⟩
  · intro t ht
    obtain ⟨hrec, c, hex⟩ := h.known t ht
    exact ⟨List.mem_append_left _ hrec, c, List.mem_append_left _ hex⟩
  · intro st' hst
    have he : st' = st := Option.some.inj (hst.symm.trans hs)
    subst he
    simp only [StateOk, hr]
    exact ⟨by simpa [World.push] using hrun.saves, by simpa [World.push] using hrun.forward,
      by simpa [World.push] using hrun.clean, hrun.passed, hrun.front, by simpa [World.push] using hrun.kept⟩

theorem setStep_of_ne {s t : Name} (hne : t ≠ s) (status : StepStatus) :
    (w.setStep s status).step t = w.step t := by
  simp [World.setStep, hne]

theorem setStep_self {s : Name} (status : StepStatus) : (w.setStep s status).step s = status := by
  simp [World.setStep]

theorem inv_setDone (h : Inv steps intact w) (hs : w.state = some st) (hr : st.status = .running)
    {s : Name} (hmem : s ∈ steps) (hbefore : ∀ t, steps.idxOf t < steps.idxOf s → w.step t = .done)
    (hex : ∃ ctx, .executed s ctx true ∈ w.log) : Inv steps intact (w.setStep s .done) := by
  have hrun := h.running hs hr
  have hstep : ∀ t, w.step t = .done → (w.setStep s .done).step t = .done := by
    intro t ht
    by_cases he : t = s
    · rw [he, setStep_self]
    · rw [setStep_of_ne he, ht]
  refine ⟨h.trace.snoc trivial, ?_, fun t _ => by simpa [World.setStep, World.push] using hrun.clean t,
    Inv.not_fresh hs, h.bound, ?_⟩
  · intro t ht
    by_cases he : t = s
    · subst he
      obtain ⟨c, hc⟩ := hex
      exact ⟨by simp [World.setStep, World.push], c, List.mem_append_left _ hc⟩
    · rw [setStep_of_ne he] at ht
      obtain ⟨hrec, c, hc⟩ := h.known t ht
      exact ⟨List.mem_append_left _ hrec, c, List.mem_append_left _ hc⟩
  · intro st' hst
    have he : st' = st := Option.some.inj (hst.symm.trans hs)
    subst he
    simp only [StateOk, hr]
    refine ⟨by simpa [World.setStep, World.push] using hrun.saves,
      by simpa [World.setStep, World.push] using hrun.forward,
      by simpa [World.setStep, World.push] using hrun.clean, fun t ht => hstep t (hrun.passed t ht), ?_, ?_⟩
    · intro t u ht hu
      by_cases he : t = s
      · exact hstep u (hbefore u (he ▸ hu))
      · rw [setStep_of_ne he] at ht
        exact hstep u (hrun.front t u ht hu)
    · intro t ht
      by_cases he : t = s
      · exact ⟨he ▸ hmem, he ▸ setStep_self _⟩
      · have hold : .recorded t .done ∈ w.log := by simpa [World.setStep, World.push, he] using ht
        exact ⟨(hrun.kept t hold).1, hstep t (hrun.kept t hold).2⟩

theorem inv_setFailed (h : Inv steps intact w) (hs : w.state = some st) (hr : st.status = .running)
    {s : Name} (hnd : w.step s ≠ .done) : Inv steps intact (w.setStep s .failed) := by
  have hrun := h.running hs hr
  have hstep : ∀ t, (w.setStep s .failed).step t = .done ↔ w.step t = .done := by
    intro t
    by_cases he : t = s
    · subst he
      simp [setStep_self, hnd]
    · rw [setStep_of_ne he]
  refine ⟨h.trace.snoc trivial, ?_, fun t _ => by simpa [World.setStep, World.push] using hrun.clean t,
    Inv.not_fresh hs, h.bound, ?_⟩
  · intro t ht
    obtain ⟨hrec, c, hc⟩ := h.known t ((hstep t).mp ht)
    exact ⟨List.mem_append_left _ hrec, c, List.mem_append_left _ hc⟩
  · intro st' hst
    have he : st' = st := Option.some.inj (hst.symm.trans hs)
    subst he
    simp only [StateOk, hr]
    exact ⟨by simpa [World.setStep, World.push] using hrun.saves,
      by simpa [World.setStep, World.push] using hrun.forward,
      by simpa [World.setStep, World.push] using hrun.clean, fun t ht => (hstep t).mpr (hrun.passed t ht),
      fun t u ht hu => (hstep u).mpr (hrun.front t u ((hstep t).mp ht) hu), by
        intro t ht
        have hold : .recorded t .done ∈ w.log := by simpa [World.setStep, World.push] using ht
        exact ⟨(hrun.kept t hold).1, (hstep t).mpr (hrun.kept t hold).2⟩⟩

theorem inv_save (h : Inv steps intact w) (hb : st.currentStep ≤ steps.length)
    (hok : StateOk steps intact (w.save st) st) : Inv steps intact (w.save st) := by
  refine ⟨h.trace.snoc trivial, ?_, fun t ht => by simpa [World.save, World.push] using h.once t ht,
    Inv.not_fresh rfl, ?_, ?_⟩
  · intro t ht
    obtain ⟨hrec, c, hc⟩ := h.known t ht
    exact ⟨List.mem_append_left _ hrec, c, List.mem_append_left _ hc⟩
  · rintro st' hst
    cases hst
    exact hb
  · rintro st' hst
    cases hst
    exact hok

end Ecat.Saga
