import Ecat.SagaShared

/-! Both stores keep sagas apart: the maps in memory where the ids differ, and the SQL tables where
the database tells the ids and each saga's step names apart. -/

namespace Ecat.Saga

open Json
open Outbox (Dialect)

variable {D ι : Type} {sagas : Sagas ι}

/-! ### In memory -/

def memoryLaws (D : Type) (hids : Function.Injective sagas.sagaId) :
    (memorySagaStateStore D).Laws sagas id fun _ => True where
  inv w := ∀ i st, w.states (sagas.sagaId i) = some st → st.sagaId = sagas.sagaId i
  load_id w i st hinv h := hinv i st (Except.ok.inj h)
  saved := by
    rintro w w' i st hinv hid - ⟨⟩
    have hother : ∀ j, j ≠ i → sagas.sagaId j ≠ st.sagaId := fun j hne => hid ▸ hids.ne hne
    refine ⟨fun j st' h => ?_, by simp [memorySagaStateStore, ← hid, SagaState.reread],
      fun j hne => by simp [memorySagaStateStore, hother j hne], fun _ _ => rfl⟩
    by_cases he : j = i
    · subst he
      simp only [hid, Function.update_self, Option.some.injEq] at h
      exact h ▸ hid
    · simp only [Function.update_of_ne (hother j he)] at h
      exact hinv j st' h
  stepSet := by
    rintro w w' i status s hs hinv ⟨⟩
    refine ⟨hinv, by simp [memorySagaStateStore], fun j t _ hne => ?_, fun _ => rfl⟩
    have hkey : (sagas.sagaId j, t) ≠ (sagas.sagaId i, s) := by
      intro he
      rcases hne with hne | hne
      · exact hne (hids (congrArg Prod.fst he))
      · exact hne (congrArg Prod.snd he)
    simp [memorySagaStateStore, Function.update_of_ne hkey]

/-! ### In tables -/

namespace SqlSagaStateStore

variable {S : SqlSagaStateStore D} {reread : SagaContext D → SagaContext D}

/-- The database tells apart what the sagas use as keys. -/
structure TellsApart (S : SqlSagaStateStore D) (sagas : Sagas ι) : Prop where
  supported : S.dialect ≠ .mssql
  ids : ∀ i j, S.same (sagas.sagaId i) (sagas.sagaId j) = true ↔ i = j
  names : ∀ i, ∀ s ∈ sagas.steps i, ∀ t ∈ sagas.steps i, S.same s t = true ↔ s = t

/-- Every row belongs to a saga, or to a step of one. -/
structure Keyed (sagas : Sagas ι) (t : Tables) : Prop where
  instances : ∀ r ∈ t.instances, ∃ i, r.sagaId = sagas.sagaId i
  steps : ∀ r ∈ t.steps, ∃ i, r.sagaId = sagas.sagaId i ∧ r.stepName ∈ sagas.steps i

/-- The text a context is stored as reads back as `reread` of that context. -/
def ReadsBack (S : SqlSagaStateStore D) (reread : SagaContext D → SagaContext D) (state : SagaState D) : Prop :=
  ∀ text, S.codec.encode state.context = .ok text → S.codec.decode text = .ok (reread state.context)

theorem fromRow_toRow (r : InstanceRow) : S.fromRow r.toRow =
    if r.currentStep < 0 then .error (.state "saga current_step out of range") else
      match SagaStatus.parse r.status, S.codec.decode r.context with
      | .error e, _ => .error e
      | .ok _, .error e => .error (.state s!"saga context is invalid JSON: {e}")
      | .ok status, .ok context => .ok ⟨r.sagaId, status, r.currentStep.toNat, context⟩ := by
  have hint : int r.toRow "current_step" = .ok r.currentStep := by
    simp [int, InstanceRow.toRow, Row.get, List.findIdx?_cons, Value.ofI64, Value.asI64, Number.asI64, r.bound.2]
  have hcontext : text r.toRow "context" = .ok r.context := by
    simp [text, InstanceRow.toRow, Row.get, List.findIdx?_cons, Value.asStr]
  have hid : text r.toRow "saga_id" = .ok r.sagaId := by
    simp [text, InstanceRow.toRow, Row.get, List.findIdx?_cons, Value.asStr]
  have hstatus : text r.toRow "status" = .ok r.status := by
    simp [text, InstanceRow.toRow, Row.get, List.findIdx?_cons, Value.asStr]
  simp only [fromRow, hint, hcontext, hid, hstatus, bind, Except.bind]
  split
  · rfl
  · cases SagaStatus.parse r.status with
    | error e => rfl
    | ok status => cases S.codec.decode r.context <;> rfl

theorem fromRow_id {r : InstanceRow} {st : SagaState D} (h : S.fromRow r.toRow = .ok st) : st.sagaId = r.sagaId := by
  rw [fromRow_toRow] at h
  split at h
  · cases h
  · split at h <;> cases h
    rfl

theorem supported_eq (h : S.dialect ≠ .mssql) : S.supported = .ok () := by
  unfold supported
  split
  · next he => exact absurd he h
  · rfl

theorem load_eq (h : S.dialect ≠ .mssql) (id : String) (t : Tables) : S.load id t =
    match t.instances.find? (S.sameSaga id) with
    | none => .ok none
    | some r => (S.fromRow r.toRow).map some := by
  rw [load, supported_eq h, ← List.head?_filter]
  cases t.instances.filter (S.sameSaga id) with
  | nil => rfl
  | cons r rows =>
    simp only [List.map_cons, List.head?_cons, bind, Except.bind, pure, Except.pure, Except.map]

theorem stepStatus_eq (h : S.dialect ≠ .mssql) (id step : String) (t : Tables) : S.stepStatus id step t =
    match t.steps.find? (S.sameStep id step) with
    | none => .ok .pending
    | some r => StepStatus.parse r.status := by
  rw [stepStatus, supported_eq h, ← List.head?_filter]
  cases t.steps.filter (S.sameStep id step) with
  | nil => rfl
  | cons r rows => simp [StepRow.toRow, text, Row.get, List.findIdx?_cons, Value.asStr, bind, Except.bind]

/-- The row of a state, under the id of the row it replaces. -/
def rowOf (state : SagaState D) (bound : InI64 state.currentStep) (context sagaId : String) : InstanceRow :=
  ⟨sagaId, state.status.asStr, state.currentStep, bound, context⟩

theorem save_eq_ok {st : SagaState D} {t t' : Tables} (h : S.save st t = .ok t') :
    ∃ bound context, S.codec.encode st.context = .ok context ∧
      t' = ⟨upsertRows (S.sameSaga st.sagaId) (rowOf st bound context ·.sagaId)
        (rowOf st bound context st.sagaId) t.instances, t.steps⟩ := by
  unfold save at h
  cases hsup : S.supported with
  | error e => simp [hsup, bind, Except.bind] at h
  | ok _ =>
    simp only [hsup, bind, Except.bind] at h
    split at h
    · next bound =>
      cases hcontext : S.codec.encode st.context with
      | error e => simp [hcontext] at h
      | ok context =>
        simp only [hcontext] at h
        exact ⟨bound, context, rfl, (Except.ok.inj h).symm⟩
    · cases h

theorem fromRow_rowOf {st : SagaState D} {bound : InI64 st.currentStep} {context : String}
    (hcontext : S.codec.decode context = .ok (reread st.context)) :
    S.fromRow (rowOf st bound context st.sagaId).toRow = .ok (st.reread reread) := by
  have hge : ¬ (st.currentStep : Int) < 0 := not_lt.2 (Int.natCast_nonneg _)
  simp [fromRow_toRow, rowOf, hcontext, hge, SagaState.reread]

variable {t t' : Tables} {i j : ι}

theorem TellsApart.hits (hapart : S.TellsApart sagas) (ht : Keyed sagas t) {r : InstanceRow} (hr : r ∈ t.instances)
    (hhit : S.sameSaga (sagas.sagaId i) r = true) : r.sagaId = sagas.sagaId i := by
  obtain ⟨j, hj⟩ := ht.instances r hr
  rw [sameSaga, hj, hapart.ids] at hhit
  rw [hj, hhit]

theorem TellsApart.hits_step (hapart : S.TellsApart sagas) (ht : Keyed sagas t) {r : StepRow} (hr : r ∈ t.steps)
    {s : Name} (hs : s ∈ sagas.steps i) (hhit : S.sameStep (sagas.sagaId i) s r = true) :
    r.sagaId = sagas.sagaId i ∧ r.stepName = s := by
  obtain ⟨j, hj, hstep⟩ := ht.steps r hr
  rw [sameStep, Bool.and_eq_true, hj, hapart.ids] at hhit
  obtain ⟨rfl, hname⟩ := hhit
  exact ⟨hj, ((hapart.names i s hs _ hstep).1 hname).symm⟩

theorem load_save_self (hapart : S.TellsApart sagas) {st : SagaState D} (ht : Keyed sagas t)
    (hid : st.sagaId = sagas.sagaId i) (hread : S.ReadsBack reread st) (h : S.save st t = .ok t') :
    S.load (sagas.sagaId i) t' = .ok (some (st.reread reread)) := by
  obtain ⟨bound, context, hcontext, rfl⟩ := save_eq_ok h
  have hself : S.sameSaga st.sagaId (rowOf st bound context st.sagaId) = true := by
    rw [sameSaga, rowOf, hid, hapart.ids]
  have hrow : (t.instances.find? (S.sameSaga st.sagaId)).elim (rowOf st bound context st.sagaId)
      (fun r => rowOf st bound context r.sagaId) = rowOf st bound context st.sagaId := by
    cases hr : t.instances.find? (S.sameSaga st.sagaId) with
    | none => rfl
    | some r =>
      have hhit := List.find?_some hr
      have hkey := hapart.hits ht (List.mem_of_find?_eq_some hr) (hid ▸ hhit)
      exact congrArg (rowOf st bound context) (hkey.trans hid.symm)
  rw [← hid, load_eq hapart.supported, find_upsertRows_self _ hself, hrow]
  · simp only [fromRow_rowOf (hread context hcontext), Except.map]
  · exact fun r hr => hr

theorem load_save_other (hapart : S.TellsApart sagas) {st : SagaState D} (ht : Keyed sagas t)
    (hid : st.sagaId = sagas.sagaId i) (hne : j ≠ i) (h : S.save st t = .ok t') :
    S.load (sagas.sagaId j) t' = S.load (sagas.sagaId j) t := by
  obtain ⟨bound, context, -, rfl⟩ := save_eq_ok h
  have hmiss : ∀ r : InstanceRow, r.sagaId = sagas.sagaId i → S.sameSaga (sagas.sagaId j) r = false := by
    intro r hr
    rw [sameSaga, hr]
    exact Bool.eq_false_iff.2 fun hhit => hne ((hapart.ids j i).1 hhit)
  rw [load_eq hapart.supported, load_eq hapart.supported, find_upsertRows_other]
  · intro r hr hhit
    have hkey := hapart.hits ht hr (hid ▸ hhit)
    exact ⟨hmiss r hkey, hmiss _ hkey⟩
  · exact hmiss _ hid

theorem keyed_save {st : SagaState D} (ht : Keyed sagas t) (hid : st.sagaId = sagas.sagaId i)
    (h : S.save st t = .ok t') : Keyed sagas t' := by
  obtain ⟨bound, context, -, rfl⟩ := save_eq_ok h
  refine ⟨fun r hr => ?_, ht.steps⟩
  rcases mem_upsertRows hr with hr | rfl | ⟨r', hr', rfl⟩
  · exact ht.instances r hr
  · exact ⟨i, hid⟩
  · exact ht.instances r' hr'

theorem setStep_eq_ok {s : Name} {status : StepStatus} (h : S.setStep (sagas.sagaId i) s status t = .ok t') :
    t' = ⟨t.instances, upsertRows (S.sameStep (sagas.sagaId i) s) (fun r => { r with status := status.asStr })
      ⟨sagas.sagaId i, s, status.asStr⟩ t.steps⟩ := by
  unfold setStep at h
  cases hsup : S.supported with
  | error e => simp [hsup, bind, Except.bind] at h
  | ok _ =>
    simp only [hsup, bind, Except.bind] at h
    exact (Except.ok.inj h).symm

theorem stepStatus_setStep_self (hapart : S.TellsApart sagas) {s : Name} (hs : s ∈ sagas.steps i)
    {status : StepStatus} (h : S.setStep (sagas.sagaId i) s status t = .ok t') :
    S.stepStatus (sagas.sagaId i) s t' = .ok status := by
  have hself : S.sameStep (sagas.sagaId i) s ⟨sagas.sagaId i, s, status.asStr⟩ = true := by
    simp [sameStep, (hapart.ids i i).2 rfl, (hapart.names i s hs s hs).2 rfl]
  rw [stepStatus_eq hapart.supported, setStep_eq_ok h, find_upsertRows_self _ hself]
  · cases t.steps.find? (S.sameStep (sagas.sagaId i) s) <;> simp
  · exact fun r hr => hr

theorem stepStatus_setStep_other (hapart : S.TellsApart sagas) (ht : Keyed sagas t) {s u : Name}
    (hs : s ∈ sagas.steps i) (hu : u ∈ sagas.steps j) (hne : j ≠ i ∨ u ≠ s) {status : StepStatus}
    (h : S.setStep (sagas.sagaId i) s status t = .ok t') :
    S.stepStatus (sagas.sagaId j) u t' = S.stepStatus (sagas.sagaId j) u t := by
  have hmiss : ∀ r : StepRow, r.sagaId = sagas.sagaId i → r.stepName = s →
      S.sameStep (sagas.sagaId j) u r = false := by
    intro r hid hname
    refine Bool.eq_false_iff.2 fun hhit => ?_
    rw [sameStep, Bool.and_eq_true, hid, hname, hapart.ids] at hhit
    obtain ⟨rfl, hsame⟩ := hhit
    rcases hne with hne | hne
    · exact hne rfl
    · exact hne ((hapart.names _ u hu s hs).1 hsame)
  rw [stepStatus_eq hapart.supported, stepStatus_eq hapart.supported, setStep_eq_ok h, find_upsertRows_other]
  · intro r hr hhit
    obtain ⟨hid, hname⟩ := hapart.hits_step ht hr hs hhit
    exact ⟨hmiss r hid hname, hmiss _ hid hname⟩
  · exact hmiss _ rfl rfl

theorem keyed_setStep {s : Name} (hs : s ∈ sagas.steps i) {status : StepStatus} (ht : Keyed sagas t)
    (h : S.setStep (sagas.sagaId i) s status t = .ok t') : Keyed sagas t' := by
  rw [setStep_eq_ok h]
  refine ⟨ht.instances, fun r hr => ?_⟩
  rcases mem_upsertRows hr with hr | rfl | ⟨r', hr', rfl⟩
  · exact ht.steps r hr
  · exact ⟨i, rfl, hs⟩
  · exact ht.steps r' hr'

theorem load_id (hapart : S.TellsApart sagas) (ht : Keyed sagas t) {st : SagaState D}
    (h : S.load (sagas.sagaId i) t = .ok (some st)) : st.sagaId = sagas.sagaId i := by
  rw [load_eq hapart.supported] at h
  cases hr : t.instances.find? (S.sameSaga (sagas.sagaId i)) with
  | none => simp [hr] at h
  | some r =>
    have hhit := List.find?_some hr
    have hkey := hapart.hits ht (List.mem_of_find?_eq_some hr) hhit
    cases hrow : S.fromRow r.toRow with
    | error e => simp [hr, hrow, Except.map] at h
    | ok st' =>
      simp only [hr, hrow, Except.map, Except.ok.injEq, Option.some.injEq] at h
      rw [← h, fromRow_id hrow, hkey]

def laws (hapart : S.TellsApart sagas) : S.store.Laws sagas reread (S.ReadsBack reread) where
  inv := Keyed sagas
  load_id _ _ _ ht h := load_id hapart ht h
  saved t t' i st ht hid hread h := by
    obtain ⟨bound, context, -, rfl⟩ := save_eq_ok h
    exact ⟨keyed_save ht hid h, load_save_self hapart ht hid hread h,
      fun j hne => load_save_other hapart ht hid hne h,
      fun id step => by simp only [store, stepStatus_eq hapart.supported]⟩
  stepSet t t' i status s hs ht h := by
    refine ⟨keyed_setStep hs ht h, stepStatus_setStep_self hapart hs h,
      fun j u hu hne => stepStatus_setStep_other hapart ht hs hu hne h, fun id => ?_⟩
    simp only [store, load_eq hapart.supported, setStep_eq_ok h]

end SqlSagaStateStore

/-- Over the memory store, each saga runs as it would alone. -/
theorem memory_store_refines [DecidableEq ι] (hids : Function.Injective sagas.sagaId)
    {s : Sys ι (Op D) Res (Except SagaError Unit) (Shared ι D (Inner D))}
    (h : ((memorySagaStateStore D).host sagas).Reach Host.Free ⟨⟨⟨fun _ => none, fun _ => none⟩, fun _ => []⟩,
      fun _ => none⟩ s) (i : ι) :
    ∃ v, (host D id (sagas.steps i) (sagas.sagaId i)).Reach Host.Free (init D) ⟨v, fun _ => s.thread i⟩ ∧
      Sees (memorySagaStateStore D) sagas id i s.world v :=
  (memoryLaws D hids).refines (fun _ _ h => by cases h) (fun _ => ⟨rfl, fun _ _ => rfl⟩)
    (h.mono fun i o c w _ => by cases o <;> trivial) i

/-- The store of two sagas of one step each, in SQLite. -/
def orders : Sagas Bool := ⟨fun i => if i then "order-1" else "order-2", fun _ => ["pay"]⟩

def orderText : String := "\x7b\"data\":null,\"idempotency_key\":\"k\",\"saga_id\":\"order-1\"\x7d"

def orderStore : SqlSagaStateStore Unit where
  dialect := .sqlite
  same a b := a == b
  codec := {
    encode ctx := if ctx = ⟨"order-1", "k", ()⟩ then .ok orderText else .error "unknown"
    decode text := if text = orderText then .ok ⟨"order-1", "k", ()⟩ else .error "expected value" }

theorem orders_apart : orderStore.TellsApart orders :=
  ⟨by decide, by decide, by decide⟩

theorem orders_readBack (state : SagaState Unit) : orderStore.ReadsBack id state := by
  intro text h
  simp only [orderStore] at h ⊢
  split at h
  · next hctx => simp [← Except.ok.inj h, hctx]
  · cases h

end Ecat.Saga
