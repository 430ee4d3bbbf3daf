import Ecat.SagaStore

/-! What the sagas rely on of the store they share, and that it gives every one of them, whatever the
order of the calls of all of them, the run it would have alone. -/

namespace Ecat.Saga

open Json

variable {D W ι : Type}

/-! ### The calls a saga makes -/

/-- A saga stores only its own state and asks for its own steps only. -/
def Makes (steps : List Name) (sagaId : String) : Op D → Prop
  | .save state => state.sagaId = sagaId
  | .stepStatus step | .setStep step _ => step ∈ steps
  | _ => True

def Answered (sagaId : String) : (o : Op D) → Res o → Prop
  | .load, r => ∀ state, r = .ok (some state) → state.sagaId = sagaId
  | _, _ => True

abbrev Keeps (steps : List Name) (sagaId : String) (p : Proc D (Except SagaError Unit)) : Prop :=
  p.CallsGiven (Makes steps sagaId) (Answered sagaId)

variable {steps : List Name} {sagaId : String} {state : SagaState D}
  {next : SagaState D → SagaContext D → Proc D (Except SagaError Unit)}

theorem keeps_setStep {s : Name} (hs : s ∈ steps) (status : StepStatus)
    {k : Except SagaError Unit → Proc D (Except SagaError Unit)} (hk : Keeps steps sagaId (k (.ok ())))
    (herr : ∀ e, Keeps steps sagaId (k (.error e))) :
    Keeps steps sagaId ((CallTree.perform (Op.setStep s status)).bind k) :=
  ⟨hs, fun r _ => match r with
    | .ok () => hk
    | .error e => herr e⟩

theorem keeps_save {st : SagaState D} (hst : st.sagaId = sagaId)
    {k : Except SagaError Unit → Proc D (Except SagaError Unit)} (hk : Keeps steps sagaId (k (.ok ())))
    (herr : ∀ e, Keeps steps sagaId (k (.error e))) :
    Keeps steps sagaId ((CallTree.perform (Op.save st)).bind k) :=
  ⟨hst, fun r _ => match r with
    | .ok () => hk
    | .error e => herr e⟩

theorem keeps_compensateStep {s : Name} (hs : s ∈ steps) (hid : state.sagaId = sagaId) (ctx : SagaContext D)
    (hnext : ∀ state ctx', state.sagaId = sagaId → Keeps steps sagaId (next state ctx')) :
    Keeps steps sagaId (compensateStep s state ctx next) := by
  refine CallTree.callsGiven_perform trivial fun ⟨result, ctx'⟩ _ => ?_
  cases result with
  | error error =>
    exact keeps_setStep hs _ (keeps_save hid trivial fun _ => trivial) fun _ => trivial
  | ok _ => exact keeps_setStep hs _ (keeps_save hid (hnext _ ctx' hid) fun _ => trivial) fun _ => trivial

theorem keeps_compensateEach (cause : Option SagaError) {todo : List Name} (htodo : ∀ s ∈ todo, s ∈ steps)
    (hid : state.sagaId = sagaId) (ctx : SagaContext D) :
    Keeps steps sagaId (compensateEach cause todo state ctx) := by
  induction todo generalizing state ctx with
  | nil =>
    refine keeps_save hid ?_ fun _ => trivial
    cases cause <;> trivial
  | cons s rest ih =>
    have hrest : ∀ t ∈ rest, t ∈ steps := fun t ht => htodo t (List.mem_cons_of_mem _ ht)
    have hs : s ∈ steps := htodo s List.mem_cons_self
    refine CallTree.callsGiven_perform hs fun r _ => ?_
    match r with
    | .error e => trivial
    | .ok .done => exact keeps_compensateStep hs hid ctx fun _ ctx' hid' => ih hrest hid' ctx'
    | .ok .pending | .ok .compensated | .ok .failed => exact ih hrest hid ctx

theorem keeps_compensate (hid : state.sagaId = sagaId) (ctx : SagaContext D) (before : Nat)
    (cause : Option SagaError) : Keeps steps sagaId (compensate steps state ctx before cause) :=
  keeps_compensateEach cause (fun _ hs => List.mem_of_mem_take (List.mem_reverse.1 hs)) hid ctx

theorem keeps_executeStep {s : Name} (hs : s ∈ steps) (index : Nat) (hid : state.sagaId = sagaId)
    (ctx : SagaContext D)
    (hnext : ∀ state ctx', state.sagaId = sagaId → Keeps steps sagaId (next state ctx')) :
    Keeps steps sagaId (executeStep steps index s state ctx next) := by
  refine CallTree.callsGiven_perform trivial fun ⟨result, ctx'⟩ _ => ?_
  cases result with
  | ok _ => exact keeps_setStep hs _ (keeps_save hid (hnext _ ctx' hid) fun _ => trivial) fun _ => trivial
  | error error =>
    have hback : Keeps steps sagaId (compensate steps { state with status := .compensating, context := ctx' } ctx'
        index (some (.stepFailed s error.text))) :=
      keeps_compensate (by exact hid) ctx' index _
    exact keeps_setStep hs _ (keeps_save hid hback fun _ => trivial) fun _ => trivial

theorem keeps_forwardEach (index : Nat) {todo : List Name} (htodo : ∀ s ∈ todo, s ∈ steps)
    (hid : state.sagaId = sagaId) (ctx : SagaContext D) :
    Keeps steps sagaId (forwardEach steps index todo state ctx) := by
  induction todo generalizing index state ctx with
  | nil => exact ⟨hid, fun _ _ => trivial⟩
  | cons s rest ih =>
    have hrest : ∀ t ∈ rest, t ∈ steps := fun t ht => htodo t (List.mem_cons_of_mem _ ht)
    have hs : s ∈ steps := htodo s List.mem_cons_self
    refine CallTree.callsGiven_perform hs fun r _ => ?_
    match r with
    | .error e => trivial
    | .ok .done => exact ih _ hrest hid ctx
    | .ok .pending | .ok .compensated | .ok .failed =>
      exact keeps_executeStep hs index hid ctx fun _ ctx' hid' => ih _ hrest hid' ctx'

theorem keeps_continueState (hid : state.sagaId = sagaId) : Keeps steps sagaId (continueState steps state) := by
  unfold continueState
  split
  · trivial
  · cases state.status with
    | completed | compensated | failed => trivial
    | compensating => exact keeps_compensate hid _ _ _
    | running => exact keeps_forwardEach _ (fun _ => List.mem_of_mem_drop) hid _

theorem keeps_prog (cmd : Cmd D) : Keeps steps sagaId (prog steps sagaId cmd) := by
  cases cmd with
  | run ctx =>
    refine CallTree.callsGiven_perform trivial fun r hr => ?_
    match r, hr with
    | .error e, _ => trivial
    | .ok (some state), hr => exact keeps_continueState (hr state rfl)
    | .ok none, _ => exact keeps_save rfl (keeps_forwardEach 0 (fun _ => List.mem_of_mem_drop) rfl _) fun _ => trivial
  | resume =>
    refine CallTree.callsGiven_perform trivial fun r hr => ?_
    match r, hr with
    | .error e, _ => trivial
    | .ok (some state), hr => exact keeps_continueState (hr state rfl)
    | .ok none, _ => trivial

/-! ### Stores that keep sagas apart -/

/-- What a saga relies on: a saved state, its context as `reread` has it, or step is read back by the
saga that wrote it, and what the other sagas read stays as it was. -/
structure SagaStateStore.Laws (S : SagaStateStore D W) (sagas : Sagas ι)
    (reread : SagaContext D → SagaContext D) (storable : SagaState D → Prop) where
  inv : W → Prop
  load_id : ∀ w i st, inv w → S.load (sagas.sagaId i) w = .ok (some st) → st.sagaId = sagas.sagaId i
  saved : ∀ w w' i st, inv w → st.sagaId = sagas.sagaId i → storable st → S.save st w = .ok w' →
    inv w' ∧ S.load (sagas.sagaId i) w' = .ok (some (st.reread reread)) ∧
      (∀ j, j ≠ i → S.load (sagas.sagaId j) w' = S.load (sagas.sagaId j) w) ∧
      ∀ id step, S.stepStatus id step w' = S.stepStatus id step w
  stepSet : ∀ w w' i status, ∀ s ∈ sagas.steps i, inv w → S.setStep (sagas.sagaId i) s status w = .ok w' →
    inv w' ∧ S.stepStatus (sagas.sagaId i) s w' = .ok status ∧
      (∀ j, ∀ t ∈ sagas.steps j, j ≠ i ∨ t ≠ s →
        S.stepStatus (sagas.sagaId j) t w' = S.stepStatus (sagas.sagaId j) t w) ∧
      ∀ id, S.load id w' = S.load id w

def Storable (storable : SagaState D → Prop) (_ : ι) : Op D → Reply D → Shared ι D W → Prop
  | .save state, _, _ => storable state
  | _, _, _ => True

/-- The store reads back for saga `i` what the world of that saga alone gives. -/
structure Sees (S : SagaStateStore D W) (sagas : Sagas ι) (reread : SagaContext D → SagaContext D) (i : ι)
    (w : Shared ι D W) (v : World D) : Prop where
  log : v.log = w.log i
  state : S.load (sagas.sagaId i) w.stored = .ok (v.state.map (·.reread reread))
  step : ∀ s ∈ sagas.steps i, S.stepStatus (sagas.sagaId i) s w.stored = .ok (v.step s)

section Refinement

variable [DecidableEq ι] {S : SagaStateStore D W} {sagas : Sagas ι}
  {reread : SagaContext D → SagaContext D} {storable : SagaState D → Prop}
  {i j : ι} {w : Shared ι D W} {v : World D}

theorem Sees.push (h : Sees S sagas reread i w v) (e : Event D) : Sees S sagas reread i (w.push i e) (v.push e) :=
  ⟨by simp [World.push, Shared.push, h.log], h.state, h.step⟩

theorem Sees.push_other (h : Sees S sagas reread i w v) (hne : j ≠ i) (e : Event D) : Sees S sagas reread i (w.push j e) v :=
  ⟨by simp [Shared.push, h.log, hne.symm], h.state, h.step⟩

omit [DecidableEq ι] in
theorem served_same {α : Type} (c : Reply D) (answer : α) :
    (served c (.ok answer) w w).1 = (attempt c answer v v).1 ∧
      (served c (.ok answer) w w).2 = w ∧ (attempt c answer v v).2 = v := by
  cases c with
  | lost applied e => cases applied <;> exact ⟨rfl, rfl, rfl⟩
  | ok | step outcome => exact ⟨rfl, rfl, rfl⟩

/-- A write is answered like one of a saga alone, and a write the store refuses like a lost one. -/
theorem write_served {P : Shared ι D W → World D → Prop} {v' : World D} {e : Event D} {written : Except SagaError W}
    (c : Reply D) (hw : P w v) (hok : ∀ stored, written = .ok stored → P (Shared.push { w with stored } i e) v') :
    ∃ c', (w.write i e c written).1 = (attempt c' () v v').1 ∧
      P (w.write i e c written).2 (attempt c' () v v').2 := by
  cases written with
  | error error =>
    cases c with
    | lost applied e' => exact ⟨.lost false e', rfl, by cases applied <;> exact hw⟩
    | ok | step outcome => exact ⟨.lost false error, rfl, hw⟩
  | ok stored =>
    refine ⟨c, ?_⟩
    cases c with
    | lost applied e' =>
      cases applied with
      | false => exact ⟨rfl, hw⟩
      | true => exact ⟨rfl, hok stored rfl⟩
    | ok | step outcome => exact ⟨rfl, hok stored rfl⟩

theorem write_keeps {P : Shared ι D W → Prop} {e : Event D} {written : Except SagaError W} (c : Reply D) (hw : P w)
    (hok : ∀ stored, written = .ok stored → P (Shared.push { w with stored } i e)) : P (w.write i e c written).2 := by
  cases written with
  | error error => cases c with
    | lost applied e' => cases applied <;> exact hw
    | ok | step outcome => exact hw
  | ok stored => cases c with
    | lost applied e' =>
      cases applied with
      | false => exact hw
      | true => exact hok stored rfl
    | ok | step outcome => exact hok stored rfl

namespace SagaStateStore.Laws

variable (L : S.Laws sagas reread storable)

theorem sees_saved {st : SagaState D} {stored : W} (hinv : L.inv w.stored) (h : Sees S sagas reread i w v)
    (hid : st.sagaId = sagas.sagaId i) (hst : storable st) (hsave : S.save st w.stored = .ok stored) :
    Sees S sagas reread i (Shared.push { w with stored } i (.saved st)) (v.save st) := by
  obtain ⟨-, hload, -, hsteps⟩ := L.saved _ _ i st hinv hid hst hsave
  exact ⟨by simp [World.save, World.push, Shared.push, h.log], hload,
    fun s hs => (hsteps _ _).trans (h.step s hs)⟩

theorem sees_stepSet {s : Name} {status : StepStatus} {stored : W} (hinv : L.inv w.stored) (h : Sees S sagas reread i w v)
    (hs : s ∈ sagas.steps i) (hset : S.setStep (sagas.sagaId i) s status w.stored = .ok stored) :
    Sees S sagas reread i (Shared.push { w with stored } i (.recorded s status)) (v.setStep s status) := by
  obtain ⟨-, hself, hother, hload⟩ := L.stepSet _ _ i status s hs hinv hset
  refine ⟨by simp [World.setStep, World.push, Shared.push, h.log], (hload _).trans h.state, fun t ht => ?_⟩
  by_cases he : t = s
  · subst he
    rw [setStep_self]
    exact hself
  · rw [setStep_of_ne he]
    exact (hother i t ht (.inr he)).trans (h.step t ht)

omit [DecidableEq ι] in
theorem answered_load (c : Reply D) (hinv : L.inv w.stored) (h : Sees S sagas reread i w v) :
    Answered (sagas.sagaId i) (Op.load (D := D)) (served c (.ok (v.state.map (·.reread reread))) w w).1 := by
  intro state hstate
  refine L.load_id _ i state hinv (h.state.trans ?_)
  cases c with
  | lost applied e => cases hstate
  | ok | step outcome => exact hstate

theorem exec_inv (o : Op D) (c : Reply D) (hmakes : Makes (sagas.steps j) (sagas.sagaId j) o)
    (hst : Storable storable j o c w) (hinv : L.inv w.stored) : L.inv (S.exec sagas j o c w).2.stored := by
  cases o with
  | load | stepStatus s =>
    simp only [SagaStateStore.exec]
    cases c with
    | lost applied e => cases applied <;> exact hinv
    | ok | step outcome => exact hinv
  | save st =>
    exact write_keeps (P := fun w => L.inv w.stored) c hinv fun _ hsave => (L.saved _ _ j st hinv hmakes hst hsave).1
  | setStep s status =>
    exact write_keeps (P := fun w => L.inv w.stored) c hinv fun _ hset => (L.stepSet _ _ j status s hmakes hinv hset).1
  | execute s ctx | compensate s ctx => exact hinv

theorem exec_served (o : Op D) (c : Reply D) (hmakes : Makes (sagas.steps i) (sagas.sagaId i) o)
    (hst : Storable storable i o c w) (hinv : L.inv w.stored) (h : Sees S sagas reread i w v) :
    ∃ c', (S.exec sagas i o c w).1 = (Saga.exec reread o c' v).1 ∧ Answered (sagas.sagaId i) o (S.exec sagas i o c w).1 ∧
      Sees S sagas reread i (S.exec sagas i o c w).2 (Saga.exec reread o c' v).2 := by
  cases o with
  | load =>
    obtain ⟨hreply, hw, hv⟩ := served_same (w := w) (v := v) c (v.state.map (·.reread reread))
    simp only [SagaStateStore.exec, h.state, Saga.exec]
    exact ⟨c, hreply, L.answered_load c hinv h, by rwa [hw, hv]⟩
  | stepStatus s =>
    obtain ⟨hreply, hw, hv⟩ := served_same (w := w) (v := v) c (v.step s)
    simp only [SagaStateStore.exec, h.step s hmakes, Saga.exec]
    exact ⟨c, hreply, trivial, by rwa [hw, hv]⟩
  | save st =>
    obtain ⟨c', hreply, hsees⟩ := write_served (P := fun w v => Sees S sagas reread i w v) (e := .saved st) c h
      fun stored hsave => L.sees_saved hinv h hmakes hst hsave
    exact ⟨c', hreply, trivial, hsees⟩
  | setStep s status =>
    obtain ⟨c', hreply, hsees⟩ := write_served (P := fun w v => Sees S sagas reread i w v) (e := .recorded s status) c h
      fun stored hset => L.sees_stepSet hinv h hmakes hset
    exact ⟨c', hreply, trivial, hsees⟩
  | execute s ctx => exact ⟨c, rfl, trivial, h.push _⟩
  | compensate s ctx => exact ⟨c, rfl, trivial, h.push _⟩

theorem exec_apart (o : Op D) (c : Reply D) (hne : j ≠ i) (hmakes : Makes (sagas.steps j) (sagas.sagaId j) o)
    (hst : Storable storable j o c w) (hinv : L.inv w.stored) (h : Sees S sagas reread i w v) :
    Sees S sagas reread i (S.exec sagas j o c w).2 v := by
  cases o with
  | load | stepStatus s =>
    simp only [SagaStateStore.exec]
    cases c with
    | lost applied e => cases applied <;> exact h
    | ok | step outcome => exact h
  | save st =>
    refine write_keeps (P := fun w => Sees S sagas reread i w v) c h fun stored hsave => ?_
    obtain ⟨-, -, hload, hsteps⟩ := L.saved _ _ j st hinv hmakes hst hsave
    have hsame : Sees S sagas reread i { w with stored } v :=
      ⟨h.log, (hload i hne.symm).trans h.state, fun s hs => (hsteps _ _).trans (h.step s hs)⟩
    exact hsame.push_other hne _
  | setStep s status =>
    refine write_keeps (P := fun w => Sees S sagas reread i w v) c h fun stored hset => ?_
    obtain ⟨-, -, hother, hload⟩ := L.stepSet _ _ j status s hmakes hinv hset
    have hsame : Sees S sagas reread i { w with stored } v :=
      ⟨h.log, (hload _).trans h.state, fun t ht => (hother i t ht (.inl hne.symm)).trans (h.step t ht)⟩
    exact hsame.push_other hne _
  | execute s ctx | compensate s ctx => exact h.push_other hne _

def views : Host.Views (S.host sagas) (Storable storable) fun i => Saga.host D reread (sagas.steps i) (sagas.sagaId i) where
  sees i w v := L.inv w.stored ∧ Sees S sagas reread i w v
  makes i := Makes (sagas.steps i) (sagas.sagaId i)
  answered i := Answered (sagas.sagaId i)
  prog _ _ := rfl
  admits _ _ _ := trivial
  given _ := keeps_prog
  served _ o c _ _ hmakes hst h := by
    obtain ⟨c', hreply, hanswered, hsees⟩ := L.exec_served o c hmakes hst h.1 h.2
    exact ⟨c', hreply, hanswered, L.exec_inv o c hmakes hst h.1, hsees⟩
  apart _ _ o c _ _ hne hmakes hst h := ⟨L.exec_inv o c hmakes hst h.1, L.exec_apart o c hne hmakes hst h.1 h.2⟩
  crash _ _ _ h := h
  env _ _ _ _ _ henv := henv.elim

/-- Over a lawful store, the calls and the stored state of each saga are those of a run of that saga
alone, whatever the others do. -/
theorem refines {stored : W} (hinit : L.inv stored)
    (hempty : ∀ i, S.load (sagas.sagaId i) stored = .ok none ∧
      ∀ s ∈ sagas.steps i, S.stepStatus (sagas.sagaId i) s stored = .ok .pending)
    {s : Sys ι (Op D) Res (Except SagaError Unit) (Shared ι D W)}
    (h : (S.host sagas).Reach (Storable storable) ⟨⟨stored, fun _ => []⟩, fun _ => none⟩ s) (i : ι) :
    ∃ v, (Saga.host D reread (sagas.steps i) (sagas.sagaId i)).Reach Host.Free (init D) ⟨v, fun _ => s.thread i⟩ ∧
      Sees S sagas reread i s.world v := by
  have hsees : ∀ i, L.views.sees i ⟨stored, fun _ => []⟩ (init D).world :=
    fun i => ⟨hinit, rfl, (hempty i).1, (hempty i).2⟩
  obtain ⟨v, hreach, hsees'⟩ := L.views.reach hsees h i
  exact ⟨v, hreach, hsees'.2⟩

end SagaStateStore.Laws

end Refinement

end Ecat.Saga
