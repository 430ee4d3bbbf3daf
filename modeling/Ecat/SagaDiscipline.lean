import Ecat.SagaRules

/-! Every run of a saga keeps the order of its calls; one that resumes intact states
only also leaves nothing done behind when it ends compensated. -/

namespace Ecat.Saga

variable {D : Type} {reread : SagaContext D → SagaContext D} {steps : List Name} {intact : Prop} {w : World D} {state : SagaState D}
  {ctx : SagaContext D}

abbrev sagaDuty (reread : SagaContext D → SagaContext D) (steps : List Name) (intact : Prop) :
    Duty (Op D) Res (World D) (Reply D) :=
  duty reread (Inv steps intact) fun o _ w => intact → ResumeIntact steps o w

structure Undoing (steps : List Name) (intact : Prop) (p : Nat) (state : SagaState D) (w : World D) :
    Prop where
  saved : w.state = some state
  status : state.status = .compensating
  bound : p ≤ steps.length
  below : ∀ s, w.step s = .done → steps.idxOf s < state.currentStep → steps.idxOf s < p
  order : ∀ t ctx, .compensated t ctx true ∈ w.log → ∀ s, w.step s = .done → steps.idxOf s < p →
    steps.idxOf s ≤ steps.idxOf t
  rest : intact → ∀ s, .recorded s .done ∈ w.log → w.step s = .done ∧ steps.idxOf s < p ∨
    w.step s = .compensated ∧ ∃ ctx, .compensated s ctx true ∈ w.log

theorem inv_compensated (h : Inv steps intact w) {p : Nat} (hu : Undoing steps intact (p + 1) state w)
    {s : Name} (hs : steps.idxOf s = p) (hdone : w.step s = .done) (ctx : SagaContext D) (ok : Bool) :
    Inv steps intact (w.push (.compensated s ctx ok)) := by
  have hcomp := h.compensating hu.saved hu.status
  refine ⟨h.trace.snoc ⟨hcomp.saves, (h.known s hdone).1, h.once s hdone, fun _ t c ht => ?_⟩, ?_,
    fun t ht => by simpa [World.push] using h.once t ht, Inv.not_fresh hu.saved, h.bound, ?_⟩
  · exact hu.order t c ht s hdone (by omega)
  · intro t ht
    obtain ⟨hrec, c, hex⟩ := h.known t ht
    exact ⟨List.mem_append_left _ hrec, c, List.mem_append_left _ hex⟩
  · intro st hst
    have he : st = state := Option.some.inj (hst.symm.trans hu.saved)
    subst he
    simp only [StateOk, hu.status]
    refine ⟨by simpa [World.push] using hcomp.saves, ?_, by simpa [World.push] using hcomp.culprit, ?_⟩
    · intro t c ht u hud hut
      rcases List.mem_append.mp ht with ht | ht
      · exact hcomp.order t c ht u hud hut
      · have hts : t = s := by
          simp only [List.mem_singleton, Event.compensated.injEq] at ht
          exact ht.1
        have := hu.below u hud hut
        rw [hts, hs]
        omega
    · intro t ht
      have hold : .recorded t .done ∈ w.log := by simpa [World.push] using ht
      obtain ⟨hmem, hcases⟩ := hcomp.undone t hold
      refine ⟨hmem, ?_⟩
      rcases hcases with hd | hf | ⟨hc, c, hlog⟩
      · exact .inl hd
      · exact .inr (.inl hf)
      · exact .inr (.inr ⟨hc, c, List.mem_append_left _ hlog⟩)

theorem inv_setUndone (h : Inv steps intact w) (hs : w.state = some state)
    (hr : state.status = .compensating) {s : Name} (hdone : w.step s = .done) {status : StepStatus}
    (hstatus : status = .failed ∨ status = .compensated ∧ ∃ ctx, .compensated s ctx true ∈ w.log) :
    Inv steps intact (w.setStep s status) := by
  have hcomp := h.compensating hs hr
  have hne : status ≠ .done := by
    rcases hstatus with rfl | ⟨rfl, -⟩ <;> simp
  have hback : ∀ t, (w.setStep s status).step t = .done → t ≠ s ∧ w.step t = .done := by
    intro t ht
    by_cases he : t = s
    · rw [he, setStep_self] at ht
      exact absurd ht hne
    · rw [setStep_of_ne he] at ht
      exact ⟨he, ht⟩
  have hrec : ∀ t, .recorded t .done ∈ (w.setStep s status).log → .recorded t .done ∈ w.log := by
    intro t ht
    simpa [World.setStep, World.push, Ne.symm hne] using ht
  refine ⟨h.trace.snoc trivial, ?_, ?_, Inv.not_fresh hs, h.bound, ?_⟩
  · intro t ht
    obtain ⟨hrec, c, hex⟩ := h.known t (hback t ht).2
    exact ⟨List.mem_append_left _ hrec, c, List.mem_append_left _ hex⟩
  · intro t ht
    have hts := (hback t ht).1
    simpa [World.setStep, World.push, hts] using h.once t (hback t ht).2
  · intro st hst
    have he : st = state := Option.some.inj (hst.symm.trans hs)
    subst he
    simp only [StateOk, hr]
    refine ⟨by simpa [World.setStep, World.push] using hcomp.saves, ?_, ?_, ?_⟩
    · intro t c ht u hud hut
      exact hcomp.order t c (by simpa [World.setStep, World.push] using ht) u (hback u hud).2 hut
    · obtain ⟨f, hf, hfail, hnrec⟩ := hcomp.culprit
      have hfs : f ≠ s := by
        rintro rfl
        rw [hdone] at hfail
        cases hfail
      exact ⟨f, hf, (setStep_of_ne hfs _).trans hfail, fun hr => hnrec (hrec f hr)⟩
    · intro t ht
      obtain ⟨hmem, hcases⟩ := hcomp.undone t (hrec t ht)
      refine ⟨hmem, ?_⟩
      by_cases he : t = s
      · subst he
        rw [setStep_self]
        rcases hstatus with rfl | ⟨rfl, c, hc⟩
        · exact .inr (.inl rfl)
        · exact .inr (.inr ⟨rfl, c, List.mem_append_left _ hc⟩)
      · rw [setStep_of_ne he]
        rcases hcases with hd | hf | ⟨hc, c, hlog⟩
        · exact .inl hd
        · exact .inr (.inl hf)
        · exact .inr (.inr ⟨hc, c, List.mem_append_left _ hlog⟩)

theorem inv_saveContext (h : Inv steps intact w) (hs : w.state = some state)
    (hr : state.status = .compensating) (ctx : SagaContext D) :
    Inv steps intact (w.save { state with context := ctx }) := by
  have hcomp := h.compensating hs hr
  refine inv_save h (h.bound state hs) ?_
  simp only [StateOk, hr]
  refine ⟨?_, by simpa [World.save, World.push] using hcomp.order,
    by simpa [World.save, World.push] using hcomp.culprit,
    by simpa [World.save, World.push] using hcomp.undone⟩
  intro st hst
  rcases List.mem_append.mp hst with hst | hst
  · exact hcomp.saves st hst
  · simp only [List.mem_singleton, Event.saved.injEq] at hst
    exact .inr (by simp [hst])

theorem undoing_next {p : Nat} (hu : Undoing steps intact (p + 1) state w) {s : Name}
    (hs : steps.idxOf s = p) (hinj : ∀ t, steps.idxOf t = p → t = s) (ctx ctx' : SagaContext D) :
    Undoing steps intact p { state with context := ctx' }
      (((w.push (.compensated s ctx true)).setStep s .compensated).save { state with context := ctx' }) := by
  have hstep : ∀ t, (((w.push (.compensated s ctx true)).setStep s .compensated).save
      { state with context := ctx' }).step t = .done → t ≠ s ∧ w.step t = .done := by
    intro t ht
    by_cases he : t = s
    · simp [World.save, World.setStep, World.push, he] at ht
    · exact ⟨he, by simpa [World.save, World.setStep, World.push, he] using ht⟩
  refine ⟨rfl, hu.status, Nat.le_of_succ_le hu.bound, ?_, ?_, ?_⟩
  · intro t ht hlt
    obtain ⟨hne, hd⟩ := hstep t ht
    have hle := hu.below t hd hlt
    have hnp : steps.idxOf t ≠ p := fun he => hne (hinj t he)
    omega
  · intro t c ht u hud hup
    have hd := (hstep u hud).2
    have ht' : .compensated t c true ∈ w.log ∨ t = s := by
      simp only [World.save, World.setStep, World.push, List.mem_append, List.mem_singleton,
        Event.compensated.injEq] at ht
      rcases ht with ((ht | ht) | ht) | ht
      · exact .inl ht
      · exact .inr ht.1
      · cases ht
      · cases ht
    rcases ht' with ht' | rfl
    · exact hu.order t c ht' u hd (by omega)
    · omega
  · intro hint t ht
    have hold : .recorded t .done ∈ w.log := by simpa [World.save, World.setStep, World.push] using ht
    by_cases he : t = s
    · subst he
      exact .inr ⟨by simp [World.save, World.setStep, World.push], ctx, by
        simp [World.save, World.setStep, World.push]⟩
    · rcases hu.rest hint t hold with ⟨hd, hlt⟩ | ⟨hc, c, hlog⟩
      · have hnp : steps.idxOf t ≠ p := fun hp => he (hinj t hp)
        exact .inl ⟨by simpa [World.save, World.setStep, World.push, he] using hd, by omega⟩
      · refine .inr ⟨by simpa [World.save, World.setStep, World.push, he] using hc, c, ?_⟩
        simp [World.save, World.setStep, World.push, hlog]

theorem undoing_skip {p : Nat} (hu : Undoing steps intact (p + 1) state w) {s : Name}
    (hinj : ∀ t, steps.idxOf t = p → t = s) (hnd : w.step s ≠ .done) : Undoing steps intact p state w := by
  have hnp : ∀ t, w.step t = .done → steps.idxOf t ≠ p := by
    intro t ht he
    exact hnd (hinj t he ▸ ht)
  refine ⟨hu.saved, hu.status, Nat.le_of_succ_le hu.bound, ?_, ?_, ?_⟩
  · intro t ht hlt
    have := hu.below t ht hlt
    have := hnp t ht
    omega
  · exact fun t c ht u hud hup => hu.order t c ht u hud (by omega)
  · intro hint t ht
    rcases hu.rest hint t ht with ⟨hd, hlt⟩ | hc
    · have := hnp t hd
      exact .inl ⟨hd, by omega⟩
    · exact .inr hc

theorem inv_saveCompensated (h : Inv steps intact w) (hu : Undoing steps intact 0 state w)
    (ctx : SagaContext D) :
    Inv steps intact (w.save { state with status := .compensated, context := ctx }) := by
  refine inv_save h (h.bound state hu.saved) ?_
  intro hint
  have hrest : ∀ s, .recorded s .done ∈ w.log →
      w.step s = .compensated ∧ ∃ ctx, .compensated s ctx true ∈ w.log := by
    intro s hs
    rcases hu.rest hint s hs with ⟨-, hlt⟩ | hc
    · exact absurd hlt (Nat.not_lt_zero _)
    · exact hc
  refine ⟨fun s hs => ?_, fun s hs => ?_⟩
  · have hd : w.step s = .done := hs
    rw [(hrest s (h.known s hd).1).1] at hd
    cases hd
  · obtain ⟨-, c, hc⟩ := hrest s (by simpa [World.save, World.push] using hs)
    exact ⟨c, List.mem_append_left _ hc⟩

/-- The state at hand is the saved one up to its context, which `reread` may have changed. -/
theorem compensateEach_safe (hnd : steps.Nodup) (p : Nat) :
    ∀ (state : SagaState D) (kept ctx : SagaContext D) (cause : Option SagaError) (w : World D),
      Inv steps intact w → Undoing steps intact p state w →
      (sagaDuty reread steps intact).Safe (fun _ _ => True)
        (compensateEach cause (steps.take p).reverse { state with context := kept } ctx) w := by
  induction p with
  | zero =>
    intro state kept ctx cause w hi hu
    exact safe_save hi (inv_saveCompensated hi hu ctx) trivial fun _ _ => trivial
  | succ p ih =>
    intro state kept ctx cause w hi hu
    have hp : p < steps.length := hu.bound
    have hidx : steps.idxOf steps[p] = p := hnd.idxOf_getElem p hp
    have hinj : ∀ t, steps.idxOf t = p → t = steps[p] := fun t ht => eq_of_idxOf hp ht hidx
    rw [take_succ_reverse hp]
    refine safe_stepStatus hi ?_ fun _ _ => trivial
    by_cases hdone : w.step steps[p] = .done
    · rw [hdone]
      refine safe_compensate fun c _ => ?_
      have hcomp := fun ok => inv_compensated hi hu hidx hdone ctx ok
      refine ⟨hcomp _, ?_⟩
      obtain ⟨res, ctx'⟩ := c.outcome ctx
      cases res with
      | error error =>
        have hfail := inv_setUndone (hcomp false) hu.saved hu.status hdone (.inl rfl)
        refine safe_setStep (hcomp false) hfail ?_ fun _ _ => trivial
        exact safe_save hfail (inv_save hfail (hi.bound state hu.saved) trivial) trivial fun _ _ => trivial
      | ok u =>
        have hset := inv_setUndone (hcomp true) hu.saved hu.status hdone
          (.inr ⟨rfl, ctx, by simp [World.push]⟩)
        refine safe_setStep (hcomp true) hset ?_ fun _ _ => trivial
        have hsave := inv_saveContext hset hu.saved hu.status ctx'
        exact safe_save hset hsave (ih { state with context := ctx' } ctx' ctx' cause _ hsave
          (undoing_next hu hidx hinj ctx ctx'))
          fun _ _ => trivial
    · have hskip := ih state kept ctx cause w hi (undoing_skip hu hinj hdone)
      cases hst : w.step steps[p] with
      | done => exact absurd hst hdone
      | pending => exact hskip
      | compensated => exact hskip
      | failed => exact hskip

structure Going (steps : List Name) (i : Nat) (state : SagaState D) (w : World D) : Prop where
  saved : w.state = some state
  status : state.status = .running
  bound : i ≤ steps.length
  behind : ∀ s, steps.idxOf s < i → w.step s = .done

theorem undoing_of_failed (h : Inv steps intact w) {i : Nat} (hg : Going steps i state w) {s : Name}
    (hi : i < steps.length) (hidx : steps.idxOf s = i) (hfail : w.step s = .failed) (ctx : SagaContext D) :
    Inv steps intact (w.save { state with status := .compensating, context := ctx }) ∧
      Undoing steps intact i { state with status := .compensating, context := ctx }
        (w.save { state with status := .compensating, context := ctx }) := by
  have hrun := h.running hg.saved hg.status
  have hmem : s ∈ steps := List.idxOf_lt_length_iff.mp (by omega)
  have hnone : ∀ t c, .compensated t c true ∉
      (w.save { state with status := .compensating, context := ctx }).log := by
    intro t c ht
    exact hrun.forward t c true (by simpa [World.save, World.push] using ht)
  have hbelow : ∀ t, w.step t = .done → steps.idxOf t < i := by
    intro t ht
    by_contra hle
    rcases Nat.lt_or_eq_of_le (Nat.not_lt.mp hle) with hlt | he
    · have hd := hrun.front t s ht (by omega)
      rw [hfail] at hd
      cases hd
    · rw [eq_of_idxOf hi he.symm hidx, hfail] at ht
      cases ht
  refine ⟨inv_save h (h.bound state hg.saved) ?_, rfl, rfl, Nat.le_of_lt hi, fun t ht _ => hbelow t ht,
    fun t c ht => absurd ht (hnone t c), ?_⟩
  · refine ⟨?_, fun t c ht => absurd ht (hnone t c), ⟨s, hmem, hfail, ?_⟩, ?_⟩
    · intro st hst
      rcases List.mem_append.mp hst with hst | hst
      · exact .inl (hrun.saves st hst)
      · simp only [List.mem_singleton, Event.saved.injEq] at hst
        exact .inr (by simp [hst])
    · intro hr
      have hd := (hrun.kept s (by simpa [World.save, World.push] using hr)).2
      rw [hfail] at hd
      cases hd
    · intro t ht
      obtain ⟨hm, hd⟩ := hrun.kept t (by simpa [World.save, World.push] using ht)
      exact ⟨hm, .inl hd⟩
  · intro _ t ht
    have hd := (hrun.kept t (by simpa [World.save, World.push] using ht)).2
    exact .inl ⟨hd, hbelow t hd⟩

theorem inv_saveProgress (h : Inv steps intact w) {i : Nat} (hg : Going steps i state w)
    (hnd : steps.Nodup) (ctx : SagaContext D) :
    Inv steps intact (w.save { state with currentStep := i, context := ctx }) := by
  have hrun := h.running hg.saved hg.status
  refine inv_save h hg.bound ?_
  simp only [StateOk, hg.status]
  refine ⟨?_, by simpa [World.save, World.push] using hrun.forward,
    by simpa [World.save, World.push] using hrun.clean,
    fun s hs => hg.behind s ((mem_take_iff hnd hg.bound).mp hs), hrun.front,
    by simpa [World.save, World.push] using hrun.kept⟩
  intro st hst
  rcases List.mem_append.mp hst with hst | hst
  · exact hrun.saves st hst
  · simp only [List.mem_singleton, Event.saved.injEq] at hst
    simp [hst]

theorem executeStep_safe (hnd : steps.Nodup) (hi : Inv steps intact w) {i : Nat}
    (hg : Going steps i state w) {s : Name} (hlt : i < steps.length) (hidx : steps.idxOf s = i)
    (hdone : w.step s ≠ .done) (kept ctx : SagaContext D)
    {next : SagaState D → SagaContext D → Proc D (Except SagaError Unit)}
    (hnext : ∀ st c v, Inv steps intact v → Going steps (i + 1) st v →
      (sagaDuty reread steps intact).Safe (fun _ _ => True) (next st c) v) :
    (sagaDuty reread steps intact).Safe (fun _ _ => True)
      (executeStep steps i s { state with context := kept } ctx next) w := by
  have hmem : s ∈ steps := List.idxOf_lt_length_iff.mp (by omega)
  have hbefore : ∀ t, steps.idxOf t < steps.idxOf s → w.step t = .done :=
    fun t ht => hg.behind t (by omega)
  refine safe_execute fun c _ => ?_
  have hexec := fun ok => inv_executed hi hg.saved hg.status hbefore ctx ok
  refine ⟨hexec _, ?_⟩
  obtain ⟨res, ctx'⟩ := c.outcome ctx
  cases res with
  | ok u =>
    have hset := inv_setDone (hexec true) hg.saved hg.status hmem hbefore ⟨ctx, by simp [World.push]⟩
    refine safe_setStep (hexec true) hset ?_ fun _ _ => trivial
    have hgoing : Going steps (i + 1) state ((w.push (.executed s ctx true)).setStep s .done) := by
      refine ⟨hg.saved, hg.status, hlt, ?_⟩
      intro t ht
      by_cases he : t = s
      · rw [he, setStep_self]
      · have hne : steps.idxOf t ≠ i := fun h => he (eq_of_idxOf hlt h hidx)
        rw [setStep_of_ne he]
        exact hg.behind t (by omega)
    have hsave := inv_saveProgress hset hgoing hnd ctx'
    exact safe_save hset hsave (hnext _ ctx' _ hsave ⟨rfl, hg.status, hlt, hgoing.behind⟩)
      fun _ _ => trivial
  | error error =>
    have hset := inv_setFailed (hexec false) hg.saved hg.status hdone
    refine safe_setStep (hexec false) hset ?_ fun _ _ => trivial
    have hgoing : Going steps i state ((w.push (.executed s ctx false)).setStep s .failed) := by
      refine ⟨hg.saved, hg.status, hg.bound, ?_⟩
      intro t ht
      have hne : t ≠ s := by
        rintro rfl
        omega
      rw [setStep_of_ne hne]
      exact hg.behind t ht
    obtain ⟨hsave, hundo⟩ := undoing_of_failed hset hgoing hlt hidx (setStep_self _) ctx'
    exact safe_save hset hsave (compensateEach_safe hnd i { state with status := .compensating, context := ctx' } ctx' ctx'
      _ _ hsave hundo) fun _ _ => trivial

theorem forwardEach_safe (hnd : steps.Nodup) (rest : List Name) :
    ∀ (i : Nat) (state : SagaState D) (kept ctx : SagaContext D) (w : World D), steps.drop i = rest →
      Inv steps intact w → Going steps i state w →
      (sagaDuty reread steps intact).Safe (fun _ _ => True)
        (forwardEach steps i rest { state with context := kept } ctx) w := by
  induction rest with
  | nil =>
    intro i state kept ctx w hdrop hi hg
    have hlen : steps.length ≤ i := List.drop_eq_nil_iff.mp hdrop
    refine safe_save (k := .ret) hi (inv_save hi (hi.bound state hg.saved) ?_) trivial fun _ _ => trivial
    intro s hs
    exact hg.behind s (Nat.lt_of_lt_of_le (List.idxOf_lt_length_iff.mpr hs) hlen)
  | cons s rest ih =>
    intro i state kept ctx w hdrop hi hg
    obtain ⟨hlt, hidx, hrest⟩ := idxOf_of_drop hnd hdrop
    refine safe_stepStatus hi ?_ fun _ _ => trivial
    by_cases hdone : w.step s = .done
    · rw [hdone]
      refine ih (i + 1) state kept ctx w hrest hi ⟨hg.saved, hg.status, hlt, ?_⟩
      intro t ht
      by_cases he : steps.idxOf t = i
      · exact eq_of_idxOf hlt he hidx ▸ hdone
      · exact hg.behind t (by omega)
    · have hexec := executeStep_safe hnd hi hg hlt hidx hdone kept ctx fun st c v hv hgv =>
        ih (i + 1) st st.context c v hrest hv hgv
      cases hst : w.step s with
      | done => exact absurd hst hdone
      | pending => exact hexec
      | compensated => exact hexec
      | failed => exact hexec

theorem continueState_safe (hnd : steps.Nodup) (hi : Inv steps intact w) (hs : w.state = some state)
    (hintact : intact → ResumeIntact steps (.load : Op D) w) :
    (sagaDuty reread steps intact).Safe (fun _ _ => True) (continueState steps (state.reread reread)) w := by
  have hb : (state.reread reread).currentStep ≤ steps.length := hi.bound state hs
  unfold continueState
  rw [if_neg (Nat.not_lt.2 hb)]
  cases hst : (state.reread reread).status with
  | completed => trivial
  | compensated => trivial
  | failed => trivial
  | running =>
    have hrun := hi.running hs hst
    exact forwardEach_safe hnd _ _ state _ _ _ rfl hi ⟨hs, hst, hb, fun s hlt =>
      hrun.passed s ((mem_take_iff hnd hb).mpr hlt)⟩
  | compensating =>
    have hcomp := hi.compensating hs hst
    refine compensateEach_safe hnd _ state _ _ _ _ hi ⟨hs, hst, hb, fun _ _ h => h, hcomp.order, ?_⟩
    intro hint s hrec
    obtain ⟨hafter, hone⟩ := hintact hint state hs hst
    obtain ⟨hmem, hd | hf | hc⟩ := hcomp.undone s hrec
    · refine .inl ⟨hd, ?_⟩
      by_contra hge
      have hle : state.currentStep ≤ steps.idxOf s := Nat.not_lt.1 hge
      have hlt := List.idxOf_lt_length_iff.mpr hmem
      refine hafter s ?_ hd
      rw [List.mem_drop_iff_getElem]
      refine ⟨steps.idxOf s - state.currentStep, by omega, ?_⟩
      have hsum : state.currentStep + (steps.idxOf s - state.currentStep) = steps.idxOf s := by omega
      simp only [hsum, List.getElem_idxOf]
    · obtain ⟨f, hfm, hff, hfn⟩ := hcomp.culprit
      exact absurd (hone s hmem f hfm hf hff ▸ hrec) hfn
    · exact .inr hc

theorem prog_safe (hnd : steps.Nodup) (sagaId : String) (cmd : Cmd D) (hi : Inv steps intact w) :
    (sagaDuty reread steps intact).Safe (fun _ _ => True) (prog steps sagaId cmd) w := by
  cases cmd with
  | resume =>
    refine safe_load hi (fun _ hload => ?_) fun _ _ => trivial
    cases hs : w.state with
    | none => trivial
    | some state => exact continueState_safe hnd hi hs hload
  | run ctx =>
    refine safe_load hi (fun _ hload => ?_) fun _ _ => trivial
    cases hs : w.state with
    | some state => exact continueState_safe hnd hi hs hload
    | none =>
      have hnew := inv_create hi hs sagaId { ctx with sagaId }
      exact safe_save hi hnew (forwardEach_safe hnd _ _ ⟨sagaId, .running, 0, { ctx with sagaId }⟩ _ _ _ rfl hnew
        ⟨rfl, rfl, Nat.zero_le _, fun _ h => absurd h (Nat.not_lt_zero _)⟩) fun _ _ => trivial

def certificate (reread : SagaContext D → SagaContext D) (hnd : steps.Nodup) (sagaId : String) (intact : Prop) :
    (host D reread steps sagaId).Certificate fun _ o _ w => intact → ResumeIntact steps o w :=
  soloCertificate (Inv steps intact) _ fun _ cmd hi => prog_safe hnd sagaId cmd hi

/-- A completed saga has every step done, and every call of every run is in order. -/
theorem calls_in_order (hnd : steps.Nodup) {sagaId : String}
    {s : Sys Unit (Op D) Res (Except SagaError Unit) (World D)}
    (h : (host D reread steps sagaId).Reach Host.Free (init D) s) :
    (∀ st, s.world.state = some st → st.status = .completed → ∀ t ∈ steps, s.world.step t = .done) ∧
      Always (InOrder steps) s.world.log := by
  have hinv : Inv steps False s.world := ((certificate reread hnd sagaId False).good_of_reach inv_init
    (h.mono fun _ _ _ _ _ hf => nomatch hf)).inv
  refine ⟨fun st hs hc => ?_, hinv.trace⟩
  have hok := hinv.state st hs
  rwa [StateOk, hc] at hok

/-- A saga that ends compensated has nothing done left, and whatever was ever done
is compensated, in runs that load it intact. -/
theorem compensated_undone (hnd : steps.Nodup) {sagaId : String}
    {s : Sys Unit (Op D) Res (Except SagaError Unit) (World D)}
    (h : (host D reread steps sagaId).Reach (fun _ o _ w => ResumeIntact steps o w) (init D) s) :
    ∀ st, s.world.state = some st → st.status = .compensated →
      (∀ t, s.world.step t ≠ .done) ∧
      ∀ t, .recorded t .done ∈ s.world.log → ∃ ctx, .compensated t ctx true ∈ s.world.log := by
  have hinv : Inv steps True s.world := ((certificate reread hnd sagaId True).good_of_reach inv_init
    (h.mono fun _ _ _ _ hr _ => hr)).inv
  intro st hs hc
  have hok := hinv.state st hs
  rw [StateOk, hc] at hok
  exact hok trivial

def order1 : SagaContext Unit := ⟨"s1", "key-s1", ()⟩

def boom : Reply Unit := .step (.error (.state "boom"), order1)

def compensatedRun : List (Reply Unit) := List.replicate 7 .ok ++ boom :: List.replicate 7 .ok

theorem calls_in_order_compensated :
    ∃ s, (host Unit id ["a", "b"] "s1").Reach Host.Free (init Unit) s ∧
      .compensated "a" order1 true ∈ s.world.log ∧ Always (InOrder ["a", "b"]) s.world.log := by
  have hrun := Host.Reach.launch (host Unit id ["a", "b"] "s1") Host.Free () (.run order1)
    compensatedRun (init Unit) rfl trivial (Host.permits_free ..)
  exact ⟨_, hrun, by decide, (calls_in_order (by decide) hrun).2⟩

/-- The compensation of `a` succeeds, but the crash comes before it is recorded. -/
theorem compensation_repeated :
    ¬∀ s, (host Unit id ["a", "b"] "s1").Reach Host.Free (init Unit) s →
      ∀ pre t ctx post, s.world.log = pre ++ .compensated t ctx true :: post →
        ∀ u ctx', .compensated u ctx' true ∈ pre → ["a", "b"].idxOf t < ["a", "b"].idxOf u := by
  intro hall
  have crashed := Host.Reach.launch_crash (host Unit id ["a", "b"] "s1") Host.Free ()
    (.run order1) (compensatedRun.take 12) (init Unit).world trivial (Host.permits_free ..)
  have resumed := crashed.trans (Host.Reach.launch (host Unit id ["a", "b"] "s1") Host.Free ()
    .resume (List.replicate 3 .ok) _ rfl trivial (Host.permits_free ..))
  have hlt := hall _ resumed [.saved ⟨"s1", .running, 0, order1⟩, .executed "a" order1 true,
      .recorded "a" .done, .saved ⟨"s1", .running, 1, order1⟩, .executed "b" order1 false,
      .recorded "b" .failed, .saved ⟨"s1", .compensating, 1, order1⟩, .compensated "a" order1 true]
    "a" order1 [] (by decide) "a" order1 (by decide)
  exact absurd hlt (by decide)

theorem compensated_undone_two_steps :
    ∃ s st, (host Unit id ["a", "b"] "s1").Reach (fun _ o _ w => ResumeIntact ["a", "b"] o w) (init Unit) s ∧
      s.world.state = some st ∧ st.status = .compensated ∧ .recorded "a" .done ∈ s.world.log ∧
      ∃ ctx, .compensated "a" ctx true ∈ s.world.log := by
  have hrun := Host.Reach.launch (host Unit id ["a", "b"] "s1")
    (fun _ o _ w => ResumeIntact ["a", "b"] o w) () (.run order1)
    compensatedRun (init Unit) rfl trivial
    ⟨fun _ h => (nomatch h), trivial, trivial, trivial, trivial, trivial, trivial, trivial, trivial, trivial,
      trivial, trivial, trivial, trivial, trivial, trivial⟩
  exact ⟨_, _, hrun, rfl, rfl, by decide,
    (compensated_undone (by decide) hrun _ rfl rfl).2 "a" (by decide)⟩

/-- A crash between recording `a` as done and saving the progress, and a second one
before `a` is compensated, leave the saga compensated with `a` done. -/
theorem compensated_not_undone :
    ¬∀ s, (host Unit id ["a", "b"] "s1").Reach Host.Free (init Unit) s →
      ∀ st, s.world.state = some st → st.status = .compensated →
        (∀ t, s.world.step t ≠ .done) ∧
        ∀ t, .recorded t .done ∈ s.world.log → ∃ ctx, .compensated t ctx true ∈ s.world.log := by
  intro hall
  have recorded := Host.Reach.launch_crash (host Unit id ["a", "b"] "s1") Host.Free ()
    (.run order1) (List.replicate 5 .ok) (init Unit).world trivial (Host.permits_free ..)
  have failed := recorded.trans (Host.Reach.launch_crash (host Unit id ["a", "b"] "s1")
    Host.Free () .resume [.ok, .ok, .ok, boom, .ok, .ok] _ trivial (Host.permits_free ..))
  have ended := failed.trans (Host.Reach.launch_crash (host Unit id ["a", "b"] "s1")
    Host.Free () .resume [.ok, .ok] _ trivial (Host.permits_free ..))
  exact (hall _ ended _ rfl rfl).1 "a" rfl

end Ecat.Saga
