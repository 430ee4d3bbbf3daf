import Ecat.SagaRules
import Mathlib.Data.List.Nodup

/-! Contexts across crashes. With deterministic steps, a run that is never cut between
recording a step and saving the saga, and whose saved contexts come back as they were,
calls the steps with the contexts they get in the run that is not interrupted at all. -/

namespace Ecat.Saga

variable {D : Type} {reread : SagaContext D → SagaContext D}

structure Behaviour (D : Type) where
  execute : Name → SagaContext D → Outcome D
  compensate : Name → SagaContext D → Outcome D

def Behaves (b : Behaviour D) (o : Op D) (c : Reply D) : Prop :=
  match o with
  | .execute s ctx => c.outcome ctx = b.execute s ctx
  | .compensate s ctx => c.outcome ctx = b.compensate s ctx
  | _ => True

def ideal (b : Behaviour D) : Op D → Reply D
  | .execute s ctx => .step (b.execute s ctx)
  | .compensate s ctx => .step (b.compensate s ctx)
  | _ => .ok

/-- The last event recorded a step, and the save that goes with it has not happened. -/
def Dangling (w : World D) : Prop :=
  match w.log.getLast? with
  | some (.recorded _ .done) | some (.recorded _ .compensated) => True
  | some (.recorded _ .failed) => ∃ st, w.state = some st ∧ st.status = .compensating
  | _ => False

/-- A saved context that a load goes on with comes back as it was. -/
def Survives (reread : SagaContext D → SagaContext D) (w : World D) : Prop :=
  ∀ st, w.state = some st → st.status = .running ∨ st.status = .compensating →
    reread st.context = st.context

inductive Call (D : Type)
  | execute (step : Name) (ctx : SagaContext D)
  | compensate (step : Name) (ctx : SagaContext D)
  deriving DecidableEq, Repr

def Event.call : Event D → Option (Call D)
  | .executed s ctx _ => some (.execute s ctx)
  | .compensated s ctx _ => some (.compensate s ctx)
  | _ => none

def calls (log : List (Event D)) : List (Call D) := log.filterMap Event.call

def uninterrupted (b : Behaviour D) (steps : List Name) (sagaId : String) (ctx : SagaContext D) : World D :=
  ((run steps sagaId ctx).complete (exec id) (ideal b) (init D).world).2

def undoScript (b : Behaviour D) : List Name → SagaContext D → List (Call D)
  | [], _ => []
  | s :: rest, ctx => .compensate s ctx :: match b.compensate s ctx with
    | (.ok _, ctx') => undoScript b rest ctx'
    | (.error _, _) => []

/-- The calls that executing `rest` makes when the steps `behind` are done. -/
def script (b : Behaviour D) : List Name → List Name → SagaContext D → List (Call D)
  | _, [], _ => []
  | behind, s :: rest, ctx => .execute s ctx :: match b.execute s ctx with
    | (.ok _, ctx') => script b (s :: behind) rest ctx'
    | (.error _, ctx') => undoScript b behind ctx'

theorem calls_push (w : World D) (e : Event D) : calls (w.push e).log = calls w.log ++ e.call.toList := by
  cases h : e.call <;> simp [calls, World.push, h]

variable {b : Behaviour D} {steps : List Name} {w : World D} {st st₀ : SagaState D}

theorem calls_save (w : World D) (st : SagaState D) : calls (w.save st).log = calls w.log := by
  simp [calls, World.save, World.push, Event.call]

theorem calls_setStep (w : World D) (s : Name) (status : StepStatus) :
    calls (w.setStep s status).log = calls w.log := by
  simp [calls, World.setStep, World.push, Event.call]

theorem complete_stepStatus {α : Type} (k : Res (.stepStatus s : Op D) → Proc D α) {status : StepStatus}
    (hs : w.step s = status) : ((perform (.stepStatus s)).bind k).complete (exec id) (ideal b) w =
      (k (.ok status)).complete (exec id) (ideal b) w := by
  subst hs
  rfl

theorem complete_compensateStep {s : Name} {ctx : SagaContext D}
    {next : SagaState D → SagaContext D → Proc D (Except SagaError Unit)} :
    (compensateStep s st ctx next).complete (exec id) (ideal b) w = match b.compensate s ctx with
      | (.ok _, ctx') => (next { st with context := ctx' } ctx').complete (exec id) (ideal b)
          (((w.push (.compensated s ctx true)).setStep s .compensated).save { st with context := ctx' })
      | (.error e, ctx') => (.error (.compensationFailed s e.text),
          ((w.push (.compensated s ctx false)).setStep s .failed).save
            { st with status := .failed, context := ctx' }) := by
  simp only [compensateStep, CallTree.bind_eq, CallTree.complete_perform_bind]
  simp only [exec, ideal, Reply.outcome]
  obtain ⟨res, ctx'⟩ := b.compensate s ctx
  cases res with
  | ok u => rfl
  | error e => rfl

theorem complete_executeStep {s : Name} {ctx : SagaContext D} {i : Nat}
    {next : SagaState D → SagaContext D → Proc D (Except SagaError Unit)} :
    (executeStep steps i s st ctx next).complete (exec id) (ideal b) w = match b.execute s ctx with
      | (.ok _, ctx') => (next { st with currentStep := i + 1, context := ctx' } ctx').complete (exec id) (ideal b)
          (((w.push (.executed s ctx true)).setStep s .done).save
            { st with currentStep := i + 1, context := ctx' })
      | (.error e, ctx') => (compensate steps { st with status := .compensating, context := ctx' } ctx' i
            (some (.stepFailed s e.text))).complete (exec id) (ideal b)
          (((w.push (.executed s ctx false)).setStep s .failed).save
            { st with status := .compensating, context := ctx' }) := by
  simp only [executeStep, CallTree.bind_eq, CallTree.complete_perform_bind]
  simp only [exec, ideal, Reply.outcome]
  obtain ⟨res, ctx'⟩ := b.execute s ctx
  cases res with
  | ok u => rfl
  | error e => rfl

theorem complete_compensateEach (cause : Option SagaError) (l : List Name) (hnd : l.Nodup) :
    ∀ (st : SagaState D) (ctx : SagaContext D) (w : World D), (∀ s ∈ l, w.step s = .done) →
      calls ((compensateEach cause l st ctx).complete (exec id) (ideal b) w).2.log =
        calls w.log ++ undoScript b l ctx := by
  induction l with
  | nil =>
    intro st ctx w _
    change calls (w.save { st with status := .compensated, context := ctx }).log = _
    simp [calls_save, undoScript]
  | cons s l ih =>
    intro st ctx w hdone
    obtain ⟨hsl, hnd'⟩ := List.nodup_cons.mp hnd
    unfold compensateEach
    rw [CallTree.bind_eq, complete_stepStatus _ (hdone s (by simp))]
    simp only [complete_compensateStep, undoScript]
    obtain ⟨res, ctx'⟩ := b.compensate s ctx
    cases res with
    | error e => simp [calls_save, calls_setStep, calls_push, Event.call]
    | ok u =>
      dsimp only
      rw [ih hnd', calls_save, calls_setStep, calls_push]
      · simp [Event.call]
      · intro t ht
        have hne : t ≠ s := by
          rintro rfl
          exact hsl ht
        simpa [World.save, World.setStep, World.push, hne] using hdone t (by simp [ht])

theorem complete_forwardEach (hnd : steps.Nodup) (rest : List Name) :
    ∀ (i : Nat) (st : SagaState D) (ctx : SagaContext D) (w : World D), steps.drop i = rest →
      (∀ s ∈ steps.take i, w.step s = .done) → (∀ s ∈ rest, w.step s = .pending) →
      calls ((forwardEach steps i rest st ctx).complete (exec id) (ideal b) w).2.log =
        calls w.log ++ script b (steps.take i).reverse rest ctx := by
  induction rest with
  | nil =>
    intro i st ctx w _ _ _
    change calls (w.save { st with status := .completed, context := ctx }).log = _
    simp [calls_save, script]
  | cons s rest ih =>
    intro i st ctx w hdrop hdone hpending
    obtain ⟨hlt, hidx, hrest⟩ := idxOf_of_drop hnd hdrop
    have hget : steps[i] = s := by
      have hg := List.getElem_idxOf (show steps.idxOf s < steps.length by omega)
      simpa only [hidx] using hg
    have hsrest : s ∉ rest := by
      have hdn : (steps.drop i).Nodup := hnd.sublist (List.drop_sublist i steps)
      rw [hdrop] at hdn
      exact (List.nodup_cons.mp hdn).1
    have hstake : s ∉ steps.take i := by
      rw [mem_take_iff hnd (Nat.le_of_lt hlt)]
      omega
    unfold forwardEach
    rw [CallTree.bind_eq, complete_stepStatus _ (hpending s (by simp))]
    simp only [complete_executeStep, script]
    obtain ⟨res, ctx'⟩ := b.execute s ctx
    cases res with
    | error e =>
      dsimp only [compensate]
      rw [complete_compensateEach _ _ (List.nodup_reverse.mpr (hnd.sublist (List.take_sublist i steps))),
        calls_save, calls_setStep, calls_push]
      · simp [Event.call]
      · intro t ht
        have htake : t ∈ steps.take i := List.mem_reverse.mp ht
        have hne : t ≠ s := fun he => hstake (he ▸ htake)
        simpa [World.save, World.setStep, World.push, hne] using hdone t htake
    | ok u =>
      dsimp only
      rw [ih (i + 1) _ _ _ hrest, calls_save, calls_setStep, calls_push, take_succ_reverse hlt, hget]
      · simp [Event.call]
      · intro t ht
        by_cases he : t = s
        · simp [World.save, World.setStep, World.push, he]
        · have htake : t ∈ steps.take i := by
            rw [mem_take_iff hnd hlt] at ht
            rw [mem_take_iff hnd (Nat.le_of_lt hlt)]
            have hni : steps.idxOf t ≠ i := fun h => he (eq_of_idxOf hlt h hidx)
            omega
          simpa [World.save, World.setStep, World.push, he] using hdone t htake
      · intro t ht
        have hne : t ≠ s := fun he => hsrest (he ▸ ht)
        simpa [World.save, World.setStep, World.push, hne] using hpending t (by simp [ht])

theorem calls_uninterrupted (hnd : steps.Nodup) (sagaId : String) (ctx : SagaContext D) :
    calls (uninterrupted b steps sagaId ctx).log = script b [] steps { ctx with sagaId } := by
  have hfwd := complete_forwardEach (b := b) hnd steps 0 ⟨sagaId, .running, 0, { ctx with sagaId }⟩
    { ctx with sagaId } ((init D).world.save ⟨sagaId, .running, 0, { ctx with sagaId }⟩) rfl
    (by simp) (fun _ _ => rfl)
  exact hfwd

def DoneBelow (steps : List Name) (n : Nat) (w : World D) : Prop :=
  ∀ t, w.step t = .done ↔ t ∈ steps.take n

theorem DoneBelow.push {n : Nat} (h : DoneBelow steps n w) (e : Event D) : DoneBelow steps n (w.push e) := h

theorem DoneBelow.save {n : Nat} (h : DoneBelow steps n w) (st : SagaState D) :
    DoneBelow steps n (w.save st) := h

theorem DoneBelow.setFailed {n : Nat} (h : DoneBelow steps n w) {s : Name} (hs : s ∉ steps.take n) :
    DoneBelow steps n (w.setStep s .failed) := by
  intro t
  by_cases he : t = s
  · simp [World.setStep, World.push, he, hs]
  · simpa [World.setStep, World.push, he] using h t

theorem DoneBelow.setDone (hnd : steps.Nodup) {n : Nat} (hn : n < steps.length) (h : DoneBelow steps n w)
    {s : Name} (hidx : steps.idxOf s = n) : DoneBelow steps (n + 1) (w.setStep s .done) := by
  intro t
  by_cases he : t = s
  · simp [World.setStep, World.push, he, mem_take_iff hnd hn, hidx]
  · have hni : steps.idxOf t ≠ n := fun ht => he (eq_of_idxOf hn ht hidx)
    have hd := h t
    rw [mem_take_iff hnd (Nat.le_of_lt hn)] at hd
    rw [mem_take_iff hnd hn]
    simp only [World.setStep, World.push, he, if_false, hd]
    omega

theorem DoneBelow.setCompensated (hnd : steps.Nodup) {n : Nat} (hn : n < steps.length)
    (h : DoneBelow steps (n + 1) w) {s : Name} (hidx : steps.idxOf s = n) :
    DoneBelow steps n (w.setStep s .compensated) := by
  intro t
  by_cases he : t = s
  · have hnt : s ∉ steps.take n := by
      rw [mem_take_iff hnd (Nat.le_of_lt hn)]
      omega
    simp [World.setStep, World.push, he, hnt]
  · have hni : steps.idxOf t ≠ n := fun ht => he (eq_of_idxOf hn ht hidx)
    have hd := h t
    rw [mem_take_iff hnd hn] at hd
    rw [mem_take_iff hnd (Nat.le_of_lt hn)]
    simp only [World.setStep, World.push, he, if_false, hd]
    omega

def Synced (b : Behaviour D) (steps : List Name) (all : List (Call D)) (w : World D) (st : SagaState D) :
    Prop :=
  match st.status with
  | .running => DoneBelow steps st.currentStep w ∧
      ∀ c ∈ script b (steps.take st.currentStep).reverse (steps.drop st.currentStep) st.context, c ∈ all
  | .compensating => ∃ q ≤ st.currentStep, DoneBelow steps q w ∧
      ∀ c ∈ undoScript b (steps.take q).reverse st.context, c ∈ all
  | _ => True

structure Tracked (b : Behaviour D) (steps : List Name) (w : World D) (st₀ st : SagaState D) : Prop where
  head : w.log.head? = some (.saved st₀)
  state : w.state = some st
  bound : st.currentStep ≤ steps.length
  calls : ∀ c ∈ calls w.log, c ∈ script b [] steps st₀.context

def Fresh (w : World D) : Prop := w.state = none ∧ w.log = [] ∧ ∀ s, w.step s = .pending

/-- Unless a record is dangling, the persisted state is a point of the uninterrupted run. -/
def InStep (b : Behaviour D) (steps : List Name) (sagaId : String) (w : World D) : Prop :=
  Fresh w ∨ ∃ st₀ st, st₀.context.sagaId = sagaId ∧ Tracked b steps w st₀ st ∧
    (¬Dangling w → Synced b steps (script b [] steps st₀.context) w st)

abbrev contextDuty (reread : SagaContext D → SagaContext D) (b : Behaviour D) (steps : List Name)
    (sagaId : String) : Duty (Op D) Res (World D) (Reply D) :=
  duty reread (InStep b steps sagaId) fun o c w =>
    Behaves b o c ∧ (o = .load → ¬Dangling w ∧ Survives reread w)

variable {sagaId : String}

theorem Tracked.push (h : Tracked b steps w st₀ st) {e : Event D}
    (he : ∀ c, e.call = some c → c ∈ script b [] steps st₀.context) :
    Tracked b steps (w.push e) st₀ st := by
  refine ⟨by simp [World.push, h.head], h.state, h.bound, ?_⟩
  intro c hc
  rw [calls_push] at hc
  rcases List.mem_append.mp hc with hc | hc
  · exact h.calls c hc
  · exact he c (by simpa using hc)

theorem Tracked.setStep (h : Tracked b steps w st₀ st) (s : Name) (status : StepStatus) :
    Tracked b steps (w.setStep s status) st₀ st :=
  ⟨by simp [World.setStep, World.push, h.head], h.state, h.bound, by
    rw [calls_setStep]
    exact h.calls⟩

theorem Tracked.save (h : Tracked b steps w st₀ st) (st' : SagaState D)
    (hb : st'.currentStep ≤ steps.length) : Tracked b steps (w.save st') st₀ st' :=
  ⟨by simp [World.save, World.push, h.head], rfl, hb, by
    rw [calls_save]
    exact h.calls⟩

theorem dangling_setStep (w : World D) (s : Name) {status : StepStatus}
    (h : status = .done ∨ status = .compensated ∨
      status = .failed ∧ ∃ st, w.state = some st ∧ st.status = .compensating) :
    Dangling (w.setStep s status) := by
  rcases h with rfl | rfl | ⟨rfl, hst⟩ <;> simp [Dangling, World.setStep, World.push]
  simpa using hst

theorem Tracked.inStep_of_dangling (h : Tracked b steps w st₀ st) (h₀ : st₀.context.sagaId = sagaId)
    (hd : Dangling w) : InStep b steps sagaId w :=
  .inr ⟨st₀, st, h₀, h, fun hnd => absurd hd hnd⟩

/-- The forward loop is at step `i` of the uninterrupted run. -/
structure Forward (b : Behaviour D) (steps : List Name) (st₀ : SagaState D) (i : Nat) (st : SagaState D)
    (w : World D) : Prop where
  tracked : Tracked b steps w st₀ st
  status : st.status = .running
  current : st.currentStep = i
  done : DoneBelow steps i w
  calls : ∀ c ∈ script b (steps.take i).reverse (steps.drop i) st.context, c ∈ script b [] steps st₀.context

/-- The steps below `q` are still to be compensated as in the uninterrupted run. -/
structure Backward (b : Behaviour D) (steps : List Name) (st₀ : SagaState D) (q : Nat) (st : SagaState D)
    (w : World D) : Prop where
  tracked : Tracked b steps w st₀ st
  status : st.status = .compensating
  bound : q ≤ st.currentStep
  done : DoneBelow steps q w
  calls : ∀ c ∈ undoScript b (steps.take q).reverse st.context, c ∈ script b [] steps st₀.context

theorem Forward.inStep {i : Nat} (h : Forward b steps st₀ i st w) (h₀ : st₀.context.sagaId = sagaId) :
    InStep b steps sagaId w := by
  refine .inr ⟨st₀, st, h₀, h.tracked, fun _ => ?_⟩
  simp only [Synced, h.status, h.current]
  exact ⟨h.done, h.calls⟩

theorem Backward.inStep {q : Nat} (h : Backward b steps st₀ q st w) (h₀ : st₀.context.sagaId = sagaId) :
    InStep b steps sagaId w := by
  refine .inr ⟨st₀, st, h₀, h.tracked, fun _ => ?_⟩
  simp only [Synced, h.status]
  exact ⟨q, h.bound, h.done, h.calls⟩

theorem compensateStep_inStep (hnd : steps.Nodup) (h₀ : st₀.context.sagaId = sagaId) {p : Nat}
    (hp : p < steps.length) (h : Backward b steps st₀ (p + 1) st w)
    {next : SagaState D → SagaContext D → Proc D (Except SagaError Unit)}
    (hnext : ∀ v st', Backward b steps st₀ p st' v →
      (contextDuty reread b steps sagaId).Safe (fun _ _ => True) (next st' st'.context) v) :
    (contextDuty reread b steps sagaId).Safe (fun _ _ => True) (compensateStep steps[p] st st.context next) w := by
  have hidx : steps.idxOf steps[p] = p := hnd.idxOf_getElem p hp
  have hall := h.calls
  rw [take_succ_reverse hp] at hall
  have htrack := fun ok => h.tracked.push (e := .compensated steps[p] st.context ok) fun c hc =>
    hall c (by simp only [Event.call, Option.some.injEq] at hc; simp [undoScript, ← hc])
  have hpush : ∀ ok, InStep b steps sagaId (w.push (.compensated steps[p] st.context ok)) :=
    fun ok => Backward.inStep ⟨htrack ok, h.status, h.bound, h.done.push _, h.calls⟩ h₀
  refine safe_compensate fun c hc => ⟨hpush _, ?_⟩
  have hout : c.outcome st.context = b.compensate steps[p] st.context := hc.1
  rw [hout]
  cases hres : b.compensate steps[p] st.context with
  | mk res ctx' =>
    cases res with
    | error e =>
      have htset := (htrack false).setStep steps[p] .failed
      have hset := htset.inStep_of_dangling h₀
        (dangling_setStep _ _ (.inr (.inr ⟨rfl, st, h.tracked.state, h.status⟩)))
      refine safe_setStep (hpush false) hset ?_ fun _ _ => trivial
      exact safe_save hset (.inr ⟨st₀, _, h₀, htset.save _ h.tracked.bound, fun _ => trivial⟩)
        trivial fun _ _ => trivial
    | ok u =>
      have htset := (htrack true).setStep steps[p] .compensated
      have hset := htset.inStep_of_dangling h₀ (dangling_setStep _ _ (.inr (.inl rfl)))
      refine safe_setStep (hpush true) hset ?_ fun _ _ => trivial
      have hnew : Backward b steps st₀ p { st with context := ctx' } _ :=
        ⟨htset.save _ h.tracked.bound, h.status, Nat.le_of_succ_le h.bound,
          ((h.done.push _).setCompensated hnd hp hidx).save _,
          fun c hc => hall c (by simp [undoScript, hres, hc])⟩
      exact safe_save hset (hnew.inStep h₀) (hnext _ _ hnew) fun _ _ => trivial

theorem compensateEach_inStep (hnd : steps.Nodup) (h₀ : st₀.context.sagaId = sagaId)
    (cause : Option SagaError) (p : Nat) :
    ∀ (w : World D) (st : SagaState D) (q : Nat), p ≤ steps.length → q ≤ p →
      Backward b steps st₀ q st w → (contextDuty reread b steps sagaId).Safe (fun _ _ => True)
        (compensateEach cause (steps.take p).reverse st st.context) w := by
  induction p with
  | zero =>
    intro w st q _ _ h
    exact safe_save (h.inStep h₀) (.inr ⟨st₀, _, h₀, h.tracked.save _ h.tracked.bound, fun _ => trivial⟩)
      trivial fun _ _ => trivial
  | succ p ih =>
    intro w st q hp hqp h
    have hidx : steps.idxOf steps[p] = p := hnd.idxOf_getElem p hp
    rw [take_succ_reverse hp]
    refine safe_stepStatus (h.inStep h₀) ?_ fun _ _ => trivial
    have hmem : w.step steps[p] = .done ↔ p < q := by
      rw [h.done, mem_take_iff hnd (by omega), hidx]
    by_cases hq : q = p + 1
    · subst hq
      rw [hmem.mpr (Nat.lt_succ_self p)]
      exact compensateStep_inStep hnd h₀ hp h fun v st' hv => ih v st' p (by omega) (Nat.le_refl p) hv
    · have hskip := ih w st q (by omega) (by omega) h
      have hnd' : w.step steps[p] ≠ .done := fun h => by
        have := hmem.mp h
        omega
      cases hs : w.step steps[p] with
      | done => exact absurd hs hnd'
      | pending => exact hskip
      | compensated => exact hskip
      | failed => exact hskip

theorem executeStep_inStep (hnd : steps.Nodup) {s : Name} {rest : List Name} {i : Nat}
    (hdrop : steps.drop i = s :: rest) (h₀ : st₀.context.sagaId = sagaId)
    (h : Forward b steps st₀ i st w)
    {next : SagaState D → SagaContext D → Proc D (Except SagaError Unit)}
    (hnext : ∀ v st', Forward b steps st₀ (i + 1) st' v →
      (contextDuty reread b steps sagaId).Safe (fun _ _ => True) (next st' st'.context) v) :
    (contextDuty reread b steps sagaId).Safe (fun _ _ => True) (executeStep steps i s st st.context next) w := by
  obtain ⟨hlt, hidx, hrest⟩ := idxOf_of_drop hnd hdrop
  have hget : steps[i] = s := by
    have hg := List.getElem_idxOf (show steps.idxOf s < steps.length by omega)
    simpa only [hidx] using hg
  have hnt : s ∉ steps.take i := by
    rw [mem_take_iff hnd (Nat.le_of_lt hlt)]
    omega
  have hall := h.calls
  rw [hdrop] at hall
  have htrack := fun ok => h.tracked.push (e := .executed s st.context ok) fun c hc =>
    hall c (by simp only [Event.call, Option.some.injEq] at hc; simp [script, ← hc])
  have hpush : ∀ ok, InStep b steps sagaId (w.push (.executed s st.context ok)) :=
    fun ok => Forward.inStep ⟨htrack ok, h.status, h.current, h.done.push _, h.calls⟩ h₀
  refine safe_execute fun c hc => ⟨hpush _, ?_⟩
  have hout : c.outcome st.context = b.execute s st.context := hc.1
  rw [hout]
  cases hres : b.execute s st.context with
  | mk res ctx' =>
    cases res with
    | error e =>
      have htset := (htrack false).setStep s .failed
      have hdone := (h.done.push (.executed s st.context false)).setFailed hnt
      have hset := Forward.inStep ⟨htset, h.status, h.current, hdone, h.calls⟩ h₀
      refine safe_setStep (hpush false) hset ?_ fun _ _ => trivial
      have hback : Backward b steps st₀ i { st with status := .compensating, context := ctx' } _ :=
        ⟨htset.save _ h.tracked.bound, rfl, Nat.le_of_eq h.current.symm, hdone.save _,
          fun c hc => hall c (by simp [script, hres, hc])⟩
      exact safe_save hset (hback.inStep h₀)
        (compensateEach_inStep hnd h₀ _ i _ _ i (Nat.le_of_lt hlt) (Nat.le_refl i) hback) fun _ _ => trivial
    | ok u =>
      have htset := (htrack true).setStep s .done
      have hset := htset.inStep_of_dangling h₀ (dangling_setStep _ _ (.inl rfl))
      refine safe_setStep (hpush true) hset ?_ fun _ _ => trivial
      have hall' : ∀ c ∈ script b (steps.take (i + 1)).reverse (steps.drop (i + 1)) ctx',
          c ∈ script b [] steps st₀.context := by
        intro c hc
        rw [hrest, take_succ_reverse hlt, hget] at hc
        exact hall c (by simp [script, hres, hc])
      have hnew : Forward b steps st₀ (i + 1) { st with currentStep := i + 1, context := ctx' } _ :=
        ⟨htset.save _ hlt, h.status, rfl, ((h.done.push _).setDone hnd hlt hidx).save _, hall'⟩
      exact safe_save hset (hnew.inStep h₀) (hnext _ _ hnew) fun _ _ => trivial

theorem forwardEach_inStep (hnd : steps.Nodup) (h₀ : st₀.context.sagaId = sagaId) (rest : List Name) :
    ∀ (i : Nat) (w : World D) (st : SagaState D), steps.drop i = rest → Forward b steps st₀ i st w →
      (contextDuty reread b steps sagaId).Safe (fun _ _ => True) (forwardEach steps i rest st st.context) w := by
  induction rest with
  | nil =>
    intro i w st _ h
    exact safe_save (k := .ret) (h.inStep h₀)
      (.inr ⟨st₀, _, h₀, h.tracked.save _ h.tracked.bound, fun _ => trivial⟩) trivial fun _ _ => trivial
  | cons s rest ih =>
    intro i w st hdrop h
    obtain ⟨hlt, hidx, hrest⟩ := idxOf_of_drop hnd hdrop
    have hnd' : w.step s ≠ .done := by
      rw [Ne, h.done, mem_take_iff hnd (Nat.le_of_lt hlt)]
      omega
    refine safe_stepStatus (h.inStep h₀) ?_ fun _ _ => trivial
    have hexec := executeStep_inStep hnd hdrop h₀ h fun v st' hv => ih (i + 1) v st' hrest hv
    cases hs : w.step s with
    | done => exact absurd hs hnd'
    | pending => exact hexec
    | compensated => exact hexec
    | failed => exact hexec

theorem continueState_inStep (hnd : steps.Nodup) (h₀ : st₀.context.sagaId = sagaId)
    (ht : Tracked b steps w st₀ st) (hsync : Synced b steps (script b [] steps st₀.context) w st)
    (hsurvives : Survives reread w) :
    (contextDuty reread b steps sagaId).Safe (fun _ _ => True) (continueState steps (st.reread reread)) w := by
  have hb : (st.reread reread).currentStep ≤ steps.length := ht.bound
  have hsame : st.status = .running ∨ st.status = .compensating → st.reread reread = st := fun hgo => by
    rw [SagaState.reread, hsurvives st ht.state hgo]
  unfold continueState
  rw [if_neg (Nat.not_lt.2 hb)]
  cases hst : (st.reread reread).status with
  | completed => trivial
  | compensated => trivial
  | failed => trivial
  | running =>
    have hst : st.status = .running := hst
    rw [Synced, hst] at hsync
    rw [hsame (.inl hst)]
    exact forwardEach_inStep hnd h₀ _ _ w st rfl ⟨ht, hst, rfl, hsync.1, hsync.2⟩
  | compensating =>
    have hst : st.status = .compensating := hst
    rw [Synced, hst] at hsync
    obtain ⟨q, hq, hdone, hall⟩ := hsync
    rw [hsame (.inr hst)]
    exact compensateEach_inStep hnd h₀ none _ w st q ht.bound hq ⟨ht, hst, hq, hdone, hall⟩

theorem loaded_inStep (hnd : steps.Nodup) (hi : InStep b steps sagaId w)
    (hload : ¬Dangling w ∧ Survives reread w) (hs : w.state = some st) :
    (contextDuty reread b steps sagaId).Safe (fun _ _ => True) (continueState steps (st.reread reread)) w := by
  rcases hi with hf | ⟨st₀, st', h₀, ht, hsync⟩
  · rw [hf.1] at hs
    cases hs
  · have he : st' = st := Option.some.inj (ht.state.symm.trans hs)
    subst he
    exact continueState_inStep hnd h₀ ht (hsync hload.1) hload.2

theorem prog_inStep (hnd : steps.Nodup) (cmd : Cmd D) (hi : InStep b steps sagaId w) :
    (contextDuty reread b steps sagaId).Safe (fun _ _ => True) (prog steps sagaId cmd) w := by
  cases cmd with
  | resume =>
    refine safe_load hi (fun _ hload => ?_) fun _ _ => trivial
    cases hs : w.state with
    | none => trivial
    | some state => exact loaded_inStep hnd hi (hload.2 rfl) hs
  | run ctx =>
    refine safe_load hi (fun _ hload => ?_) fun _ _ => trivial
    cases hs : w.state with
    | some state => exact loaded_inStep hnd hi (hload.2 rfl) hs
    | none =>
      obtain ⟨-, hlog, hstep⟩ : Fresh w := by
        rcases hi with hf | ⟨_, _, _, ht, _⟩
        · exact hf
        · rw [ht.state] at hs
          cases hs
      have htrack : Tracked b steps (w.save ⟨sagaId, .running, 0, { ctx with sagaId }⟩)
          ⟨sagaId, .running, 0, { ctx with sagaId }⟩ ⟨sagaId, .running, 0, { ctx with sagaId }⟩ :=
        ⟨by simp [World.save, World.push, hlog], rfl, Nat.zero_le _, by
          rw [calls_save, hlog]
          exact fun _ h => absurd h List.not_mem_nil⟩
      have hnew : Forward b steps ⟨sagaId, .running, 0, { ctx with sagaId }⟩ 0 _ _ :=
        ⟨htrack, rfl, rfl, fun t => by simp [World.save, World.push, hstep], fun _ h => h⟩
      exact safe_save hi (hnew.inStep rfl) (forwardEach_inStep hnd rfl _ 0 _ _ rfl hnew) fun _ _ => trivial

def contextCertificate (reread : SagaContext D → SagaContext D) (hnd : steps.Nodup) (b : Behaviour D) (sagaId : String) :
    (host D reread steps sagaId).Certificate fun _ o c w => Behaves b o c ∧ (o = .load → ¬Dangling w ∧ Survives reread w) :=
  soloCertificate (InStep b steps sagaId) _ fun _ cmd hi => prog_inStep hnd cmd hi

/-- Every call is a call, with the same context, of the uninterrupted run from the context
first saved. -/
def Durable (b : Behaviour D) (steps : List Name) (sagaId : String) (w : World D) : Prop :=
  calls w.log = [] ∨ ∃ st₀, w.log.head? = some (.saved st₀) ∧
    ∀ c ∈ calls w.log, c ∈ calls (uninterrupted b steps sagaId st₀.context).log

/-- A run that resumes no dangling record, and no context that comes back changed, calls
the steps as the uninterrupted one does. -/
theorem contexts_durable (hnd : steps.Nodup) {s : Sys Unit (Op D) Res (Except SagaError Unit) (World D)}
    (h : (host D reread steps sagaId).Reach
      (fun _ o c w => Behaves b o c ∧ (o = .load → ¬Dangling w ∧ Survives reread w)) (init D) s) :
    Durable b steps sagaId s.world := by
  have hinv : InStep b steps sagaId s.world :=
    ((contextCertificate reread hnd b sagaId).good_of_reach (.inl ⟨rfl, rfl, fun _ => rfl⟩) h).inv
  rcases hinv with ⟨-, hlog, -⟩ | ⟨st₀, st, h₀, ht, -⟩
  · left
    rw [hlog]
    rfl
  · refine .inr ⟨st₀, ht.head, fun c hc => ?_⟩
    rw [calls_uninterrupted hnd, ← h₀]
    exact ht.calls c hc

def counting : Behaviour Nat :=
  ⟨fun _ ctx => (.ok (), { ctx with data := ctx.data + 1 }), fun _ ctx => (.ok (), ctx)⟩

def counted (n : Nat) : SagaContext Nat := ⟨"s1", "key-s1", n⟩

def advanced (n : Nat) : Reply Nat := .step (.ok (), counted n)

/-- In units of 10^-14: 100.00000000000001 comes back as 100.0. -/
def rounded (ctx : SagaContext Nat) : SagaContext Nat :=
  { ctx with data := if ctx.data = 10000000000000001 then 10000000000000000 else ctx.data }

theorem contexts_durable_resumed :
    ∃ s, (host Nat rounded ["a", "b"] "s1").Reach
        (fun _ o c w => Behaves counting o c ∧ (o = .load → ¬Dangling w ∧ Survives rounded w)) (init Nat) s ∧
      calls s.world.log = [.execute "a" (counted 0), .execute "b" (counted 1)] ∧
      Durable counting ["a", "b"] "s1" s.world := by
  have crashed := Host.Reach.launch_crash (host Nat rounded ["a", "b"] "s1")
    (fun _ o c w => Behaves counting o c ∧ (o = .load → ¬Dangling w ∧ Survives rounded w)) ()
    (.run (counted 0)) [.ok, .ok, .ok, advanced 1, .ok, .ok] (init Nat).world trivial
    ⟨⟨trivial, fun _ => ⟨id, fun _ h => (nomatch h)⟩⟩, ⟨trivial, fun h => (nomatch h)⟩,
      ⟨trivial, fun h => (nomatch h)⟩, ⟨rfl, fun h => (nomatch h)⟩, ⟨trivial, fun h => (nomatch h)⟩,
      ⟨trivial, fun h => (nomatch h)⟩, trivial⟩
  have resumed := crashed.trans (Host.Reach.launch (host Nat rounded ["a", "b"] "s1") _ () .resume
    [.ok, .ok, advanced 2] _ rfl trivial
    ⟨⟨trivial, fun _ => ⟨id, fun _ h _ => Option.some.inj h ▸ rfl⟩⟩, ⟨trivial, fun h => (nomatch h)⟩,
      ⟨rfl, fun h => (nomatch h)⟩, trivial⟩)
  exact ⟨_, resumed, rfl, contexts_durable (by decide) resumed⟩

def pricing : Behaviour Nat :=
  ⟨fun _ ctx => (.ok (), { ctx with data := 10000000000000001 }), fun _ ctx => (.ok (), ctx)⟩

/-- A crash after step `a` is recorded and before its context is saved: on resume `a` is
skipped and `b` gets the context that `a` was given. Where the crash comes after the save
too, `b` gets the price that the text of the saved context gives back. -/
theorem context_lost :
    (¬∀ s, (host Nat id ["a", "b"] "s1").Reach (fun _ o c _ => Behaves counting o c) (init Nat) s →
      Durable counting ["a", "b"] "s1" s.world) ∧
    ¬∀ s, (host Nat rounded ["a", "b"] "s1").Reach
        (fun _ o c w => Behaves pricing o c ∧ (o = .load → ¬Dangling w)) (init Nat) s →
      Durable pricing ["a", "b"] "s1" s.world := by
  constructor
  · intro hall
    have crashed := Host.Reach.launch_crash (host Nat id ["a", "b"] "s1")
      (fun _ o c _ => Behaves counting o c) () (.run (counted 0))
      [.ok, .ok, .ok, advanced 1, .ok] (init Nat).world trivial
      ⟨trivial, trivial, trivial, rfl, trivial, trivial⟩
    have resumed := crashed.trans (Host.Reach.launch (host Nat id ["a", "b"] "s1") _ () .resume
      [.ok, .ok, .ok, advanced 1] _ rfl trivial ⟨trivial, trivial, trivial, rfl, trivial⟩)
    rcases hall _ resumed with hnone | ⟨st₀, hhead, hcalls⟩
    · exact absurd hnone (by decide)
    · cases hhead
      exact absurd (hcalls (.execute "b" (counted 0)) (by decide)) (by decide)
  · intro hall
    have crashed := Host.Reach.launch_crash (host Nat rounded ["a", "b"] "s1")
      (fun _ o c w => Behaves pricing o c ∧ (o = .load → ¬Dangling w)) () (.run (counted 0))
      [.ok, .ok, .ok, advanced 10000000000000001, .ok, .ok] (init Nat).world trivial
      ⟨⟨trivial, fun _ h => h⟩, ⟨trivial, fun h => (nomatch h)⟩, ⟨trivial, fun h => (nomatch h)⟩,
        ⟨rfl, fun h => (nomatch h)⟩, ⟨trivial, fun h => (nomatch h)⟩, ⟨trivial, fun h => (nomatch h)⟩, trivial⟩
    have resumed := crashed.trans (Host.Reach.launch (host Nat rounded ["a", "b"] "s1") _ () .resume
      [.ok, .ok, advanced 10000000000000001] _ rfl trivial
      ⟨⟨trivial, fun _ h => h⟩, ⟨trivial, fun h => (nomatch h)⟩, ⟨rfl, fun h => (nomatch h)⟩, trivial⟩)
    rcases hall _ resumed with hnone | ⟨st₀, hhead, hcalls⟩
    · exact absurd hnone (by decide)
    · cases hhead
      exact absurd (hcalls (.execute "b" (counted 10000000000000000)) (by decide)) (by decide)

end Ecat.Saga
