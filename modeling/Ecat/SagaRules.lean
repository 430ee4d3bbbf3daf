import Ecat.SagaHost

/-! Rules for the calls of a saga that runs alone, and the safety of `forward`,
`compensate`, `run` and `resume`. -/

namespace Ecat.Saga

variable {D : Type}

def duty (reread : SagaContext D → SagaContext D) (inv : World D → Prop) (allowed : Op D → Reply D → World D → Prop) :
    Duty (Op D) Res (World D) (Reply D) where
  exec := exec reread
  allowed := allowed
  inv := inv
  rely _ w w' := w' = w
  guar _ _ _ := True

def soloCertificate {reread : SagaContext D → SagaContext D} {steps : List Name} {sagaId : String} (inv : World D → Prop)
    (allowed : Op D → Reply D → World D → Prop)
    (start : ∀ w cmd, inv w → (duty reread inv allowed).Safe (fun _ _ => True) (prog steps sagaId cmd) w) :
    (host D reread steps sagaId).Certificate fun _ => allowed where
  inv := inv
  rely _ _ w w' := w' = w
  guar _ _ _ _ := True
  post _ _ _ := True
  compat _ _ := True
  rely_refl _ _ _ := rfl
  rely_trans _ _ _ _ _ hab hbc := hbc.trans hab
  post_stable _ _ _ _ _ _ _ := trivial
  start _ _ cmd hi _ := start _ cmd hi
  apart _ _ _ _ _ _ _ _ := ⟨trivial, trivial⟩
  peer _ _ _ _ _ _ hne := absurd rfl hne
  crash _ hi := hi
  env _ _ _ h := h.elim

section Rules

variable {reread : SagaContext D → SagaContext D} {inv : World D → Prop} {allowed : Op D → Reply D → World D → Prop} {α : Type}
  {Q : α → World D → Prop} {w : World D}

theorem safe_call {o : Op D} {k : Res o → Proc D α}
    (step : ∀ c, allowed o c w → inv (exec reread o c w).2 ∧
      (duty reread inv allowed).Safe Q (k (exec reread o c w).1) (exec reread o c w).2) :
    (duty reread inv allowed).Safe Q ((perform o).bind k) w := by
  intro w' hr _ c hc
  have he : w' = w := hr
  subst he
  exact ⟨trivial, step c hc⟩

theorem attempt_safe {γ : Type} {k : Except SagaError γ → Proc D α} {answer : γ} {w' : World D}
    (hi : inv w) (hi' : inv w') (kok : (duty reread inv allowed).Safe Q (k (.ok answer)) w')
    (kerr : ∀ e v, (duty reread inv allowed).Safe Q (k (.error e)) v) (c : Reply D) :
    inv (attempt c answer w w').2 ∧
      (duty reread inv allowed).Safe Q (k (attempt c answer w w').1) (attempt c answer w w').2 := by
  cases c with
  | ok => exact ⟨hi', kok⟩
  | step outcome => exact ⟨hi', kok⟩
  | lost applied e =>
    cases applied with
    | false => exact ⟨hi, kerr e w⟩
    | true => exact ⟨hi', kerr e w'⟩

theorem safe_save {st : SagaState D} {k : Res (.save st) → Proc D α} (hi : inv w) (hi' : inv (w.save st))
    (kok : (duty reread inv allowed).Safe Q (k (.ok ())) (w.save st))
    (kerr : ∀ e v, (duty reread inv allowed).Safe Q (k (.error e)) v) :
    (duty reread inv allowed).Safe Q ((perform (.save st)).bind k) w :=
  safe_call fun c _ => attempt_safe hi hi' kok kerr c

theorem safe_setStep {s : Name} {status : StepStatus} {k : Res (.setStep s status) → Proc D α}
    (hi : inv w) (hi' : inv (w.setStep s status))
    (kok : (duty reread inv allowed).Safe Q (k (.ok ())) (w.setStep s status))
    (kerr : ∀ e v, (duty reread inv allowed).Safe Q (k (.error e)) v) :
    (duty reread inv allowed).Safe Q ((perform (.setStep s status)).bind k) w :=
  safe_call fun c _ => attempt_safe hi hi' kok kerr c

theorem safe_stepStatus {s : Name} {k : Res (.stepStatus s) → Proc D α} (hi : inv w)
    (kok : (duty reread inv allowed).Safe Q (k (.ok (w.step s))) w)
    (kerr : ∀ e v, (duty reread inv allowed).Safe Q (k (.error e)) v) :
    (duty reread inv allowed).Safe Q ((perform (.stepStatus s)).bind k) w :=
  safe_call fun c _ => attempt_safe hi hi kok kerr c

theorem safe_load {k : Res (.load : Op D) → Proc D α} (hi : inv w)
    (kok : ∀ c, allowed .load c w → (duty reread inv allowed).Safe Q (k (.ok (w.state.map (·.reread reread)))) w)
    (kerr : ∀ e v, (duty reread inv allowed).Safe Q (k (.error e)) v) :
    (duty reread inv allowed).Safe Q ((perform .load).bind k) w :=
  safe_call fun c hc => attempt_safe hi hi (kok c hc) kerr c

theorem safe_execute {s : Name} {ctx : SagaContext D} {k : Res (.execute s ctx) → Proc D α}
    (step : ∀ c, allowed (.execute s ctx) c w →
      inv (w.push (.executed s ctx (c.outcome ctx).1.isOk)) ∧
      (duty reread inv allowed).Safe Q (k (c.outcome ctx)) (w.push (.executed s ctx (c.outcome ctx).1.isOk))) :
    (duty reread inv allowed).Safe Q ((perform (.execute s ctx)).bind k) w :=
  safe_call step

theorem safe_compensate {s : Name} {ctx : SagaContext D} {k : Res (.compensate s ctx) → Proc D α}
    (step : ∀ c, allowed (.compensate s ctx) c w →
      inv (w.push (.compensated s ctx (c.outcome ctx).1.isOk)) ∧
      (duty reread inv allowed).Safe Q (k (c.outcome ctx)) (w.push (.compensated s ctx (c.outcome ctx).1.isOk))) :
    (duty reread inv allowed).Safe Q ((perform (.compensate s ctx)).bind k) w :=
  safe_call step

end Rules

section Positions

variable {steps : List Name}

theorem idxOf_of_drop (hnd : steps.Nodup) {i : Nat} {s : Name} {rest : List Name}
    (h : steps.drop i = s :: rest) : i < steps.length ∧ steps.idxOf s = i ∧ steps.drop (i + 1) = rest := by
  have hi : i < steps.length := by
    by_contra hle
    rw [List.drop_eq_nil_of_le (by omega)] at h
    cases h
  rw [List.drop_eq_getElem_cons hi] at h
  obtain ⟨hs, hrest⟩ := List.cons.inj h
  exact ⟨hi, hs ▸ hnd.idxOf_getElem i hi, hrest⟩

theorem eq_of_idxOf {i : Nat} (hi : i < steps.length) {s t : Name} (hs : steps.idxOf s = i)
    (ht : steps.idxOf t = i) : s = t := by
  have hgs := List.getElem_idxOf (show steps.idxOf s < steps.length by omega)
  have hgt := List.getElem_idxOf (show steps.idxOf t < steps.length by omega)
  simp only [hs, ht] at hgs hgt
  exact hgs.symm.trans hgt

theorem take_succ_reverse {p : Nat} (hp : p < steps.length) :
    (steps.take (p + 1)).reverse = steps[p] :: (steps.take p).reverse := by
  rw [List.take_succ_eq_append_getElem hp, List.reverse_append]
  rfl

theorem mem_take_iff (hnd : steps.Nodup) {s : Name} {i : Nat} (hi : i ≤ steps.length) :
    s ∈ steps.take i ↔ steps.idxOf s < i := by
  constructor
  · intro hs
    obtain ⟨j, hj, he⟩ := List.mem_iff_getElem.mp hs
    rw [List.length_take] at hj
    rw [List.getElem_take] at he
    rw [← he, hnd.idxOf_getElem j (by omega)]
    omega
  · intro hlt
    have hmem : s ∈ steps := List.idxOf_lt_length_iff.mp (by omega)
    rw [List.mem_iff_getElem]
    exact ⟨steps.idxOf s, by rw [List.length_take]; omega, by
      rw [List.getElem_take, List.getElem_idxOf]⟩

end Positions

end Ecat.Saga
