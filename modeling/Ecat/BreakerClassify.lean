import Ecat.BreakerEpisodes

/-! Which responses count as failures: the configured classifier, the verdict that goes into the
window, and whether the fate of a half-open probe follows that verdict. -/

namespace Ecat.Breaker

/-- A response behind `&dyn Any`: its type and its value. -/
structure AnyRef {Ty : Type} (Val : Ty → Type) where
  type : Ty
  value : Val type

abbrev Classify {Ty : Type} (Val : Ty → Type) := AnyRef Val → Bool

section

variable {Ty : Type} [DecidableEq Ty] {Val : Ty → Type}

def AnyRef.downcastRef (resp : AnyRef Val) (t : Ty) : Option (Val t) :=
  if h : resp.type = t then some (h ▸ resp.value) else none

/-- `CircuitBreakerLayer::classify`, which takes a response of another type for a success. -/
def layerClassify {t : Ty} (f : Val t → Bool) : Classify Val := fun resp => ((resp.downcastRef t).map f).getD false

theorem layerClassify_eq_true {t : Ty} {f : Val t → Bool} {resp : AnyRef Val} :
    layerClassify f resp = true ↔ ∃ v, resp = ⟨t, v⟩ ∧ f v = true := by
  obtain ⟨u, v⟩ := resp
  by_cases hu : u = t
  · subst hu
    simp [layerClassify, AnyRef.downcastRef]
  · have hne : ∀ w, (⟨u, v⟩ : AnyRef Val) ≠ ⟨t, w⟩ := fun w h => hu (congrArg AnyRef.type h)
    simp [layerClassify, AnyRef.downcastRef, hu, hne]

end

variable {Ty : Type} {Val : Ty → Type} {E : Type} (cfg : BreakerConfig) (classify : Option (Classify Val))

/-- What `call` is told of, the protected future with its result. -/
inductive Event (Val : Ty → Type) (E : Type)
  | start
  | complete (call : Nat) (result : Except E (AnyRef Val))
  | cancel (call : Nat)
  | tick (nanos : Nat)

/-- Whether the result of a future is a failure, in the classifier's judgement for a response. -/
def isFailure : Except E (AnyRef Val) → Bool
  | .ok resp => classify.any fun c => c resp
  | .error _ => true

def outcome : Except E (AnyRef Val) → Outcome
  | .ok resp => .ok (classify.any fun c => c resp)
  | .error _ => .err

def Event.act : Event Val E → Act
  | .start => .start
  | .complete i result => .complete i (outcome classify result)
  | .cancel i => .cancel i
  | .tick nanos => .tick nanos

namespace Traced

def react (t : Traced) (e : Event Val E) : Option Traced := t.step cfg (e.act classify)

/-- The `i`-th call in flight was admitted as a half-open probe, of this episode or an earlier one. -/
def WasProbe (t : Traced) (i : Nat) : Prop := ∃ episode, t.admitted[i]? = some ⟨.halfOpen, episode⟩

/-- A probe that ends in the half-open state closes the breaker exactly when its result is judged,
and goes into the window as, a success, and opens it exactly when that is a failure. -/
def VerdictDecides (t : Traced) : Event Val E → Prop
  | .complete i result => ∀ t', t.react cfg classify (.complete i result : Event Val E) = some t' →
      t.sys.inner.state = .halfOpen → t.WasProbe i →
        (t'.sys.inner.state = .closed ↔ isFailure classify result = false) ∧
        (t'.sys.inner.state = .opened ↔ isFailure classify result = true)
  | _ => True

/-- No probe ends in the half-open state with a response that the classifier judges a failure. -/
def NoFailedResponse (t : Traced) : Event Val E → Prop
  | .complete i (.ok resp) => t.sys.inner.state = .halfOpen → t.WasProbe i → i < t.sys.calls.length →
      ∀ c ∈ classify, c resp = false
  | _ => True

end Traced

variable {cfg classify} {result : Except E (AnyRef Val)}

/-- In the half-open state it is not the verdict that decides, but whether the future returned `Ok`. -/
theorem settle_halfOpen {inner : Inner} (now : Nat) (o : Outcome) (hs : inner.state = .halfOpen) :
    (inner.settle cfg now o).state = if o.isOk then .closed else .opened := by
  unfold Inner.settle
  simp only [hs]
  split <;> rfl

namespace Traced

variable {t t' : Traced} {i : Nat}

theorem react_complete (hi : i < t.sys.calls.length) :
    t.react cfg classify (.complete i result : Event Val E) =
      some ⟨t.sys.complete cfg i (outcome classify result), t.admitted.eraseIdx i⟩ := by
  simp [react, Event.act, step, Sys.step, List.getElem?_eq_getElem hi]

theorem react_lt (h : t.react cfg classify (.complete i result : Event Val E) = some t') :
    i < t.sys.calls.length := by
  by_contra hge
  have hnone : t.sys.calls[i]? = none := List.getElem?_eq_none (by omega)
  simp [react, Event.act, step, Sys.step, hnone] at h

theorem react_state (h : t.react cfg classify (.complete i result : Event Val E) = some t')
    (hs : t.sys.inner.state = .halfOpen) :
    t'.sys.inner.state = if (outcome classify result).isOk then .closed else .opened := by
  rw [react_complete (react_lt h)] at h
  cases h
  exact settle_halfOpen t.sys.now _ hs

theorem verdictDecides_iff (t : Traced) (e : Event Val E) :
    t.VerdictDecides cfg classify e ↔ t.NoFailedResponse classify e := by
  cases e with
  | start | cancel | tick => exact Iff.rfl
  | complete i result =>
    cases result with
    | error e =>
      refine iff_of_true (fun t' hreact hs hprobe => ?_) trivial
      rw [react_state hreact hs]
      simp [outcome, Outcome.isOk, isFailure]
    | ok resp =>
      constructor
      · intro h hs hprobe hi c hc
        obtain ⟨t', hreact⟩ : ∃ t', t.react cfg classify (.complete i (.ok resp) : Event Val E) = some t' :=
          ⟨_, react_complete hi⟩
        have hclosed : t'.sys.inner.state = .closed := by
          simpa [outcome, Outcome.isOk] using react_state hreact hs
        have hgood := (h t' hreact hs hprobe).1.1 hclosed
        rw [Option.mem_def.1 hc] at hgood
        simpa [isFailure] using hgood
      · intro h t' hreact hs hprobe
        have hgood : isFailure classify (.ok resp : Except E (AnyRef Val)) = false := by
          have hall := h hs hprobe (react_lt hreact)
          cases hc : classify with
          | none => rfl
          | some c => exact hall c hc
        rw [react_state hreact hs, hgood]
        simp [outcome, Outcome.isOk]

end Traced

/-- From any breaker on, the verdict decides the fate of every probe of a run exactly when no probe
brings, in the half-open state, a response that the classifier judges a failure. -/
theorem verdict_decides_iff (t : Traced) (events : List (Event Val E)) :
    Meets (Traced.react cfg classify) (Traced.VerdictDecides cfg classify) t events ↔
      Meets (Traced.react cfg classify) (Traced.NoFailedResponse classify) t events :=
  meets_congr (P := fun _ => True) trivial (fun _ _ _ _ _ => trivial)
    fun t e _ => Traced.verdictDecides_iff t e

/-- Five calls fail and open the breaker, which after its time lets a probe through. -/
def afterOutage : List (Event (fun _ : Unit => Nat) Unit) :=
  List.replicate 5 .start ++ List.replicate 5 (.complete 0 (.error ())) ++ [.tick 10, .start]

def serverError : Classify (fun _ : Unit => Nat) := layerClassify (t := ()) fun code => decide (500 ≤ code)

/-- A probe answered with status 500, which the classifier counts as a failure, closes the breaker. -/
theorem failed_response_closes : ¬ ∀ (cfg : BreakerConfig) (classify : Option (Classify fun _ : Unit => Nat))
    (now : Nat) (events : List (Event (fun _ : Unit => Nat) Unit)),
    Meets (Traced.react cfg classify) (Traced.VerdictDecides cfg classify) (.start cfg now) events := by
  intro h
  have hstate : (runFrom (Traced.react oneProbe (some serverError)) (.start oneProbe 0) afterOutage).map
      (fun t => (t.sys.inner.state, t.sys.calls.length, t.admitted)) =
        some (.halfOpen, 1, [⟨.halfOpen, 1⟩]) := by decide +kernel
  obtain ⟨t, hrun, ht⟩ := Option.map_eq_some_iff.1 hstate
  simp only [Prod.mk.injEq] at ht
  obtain ⟨hs, hlength, hadmitted⟩ := ht
  have hdecides := (h oneProbe (some serverError) 0 (afterOutage ++ [.complete 0 (.ok ⟨(), 500⟩)])).at hrun
  have hgood := (Traced.verdictDecides_iff t _).1 hdecides hs ⟨1, by simp [hadmitted]⟩ (by omega) serverError rfl
  have hbad : serverError ⟨(), 500⟩ = true := layerClassify_eq_true.2 ⟨500, rfl, rfl⟩
  exact absurd (hbad.symm.trans hgood) (by simp)

end Ecat.Breaker
