import Mathlib.Data.List.Basic
import Mathlib.Logic.Relation
import Mathlib.Order.WellFounded

/-! Properties of a trace said event by event, each against what came before it, and runs that end
because every step goes down. -/

namespace Ecat

variable {E : Type} {ok : List E → E → Prop} {log : List E} {e : E}

/-- Every event of the log was in order when it happened. -/
def Always (ok : List E → E → Prop) (log : List E) : Prop :=
  ∀ pre e post, log = pre ++ e :: post → ok pre e

theorem always_nil : Always ok ([] : List E) := by
  intro pre e post h
  simp at h

theorem Always.snoc (h : Always ok log) (he : ok log e) : Always ok (log ++ [e]) := by
  intro pre e' post heq
  rcases List.eq_nil_or_concat post with rfl | ⟨post, last, rfl⟩
  · have hh := List.append_inj' heq rfl
    obtain ⟨rfl, hl⟩ := hh
    cases hl
    exact he
  · refine h pre e' post ?_
    have hh : log ++ [e] = (pre ++ e' :: post) ++ [last] := by simpa using heq
    exact (List.append_inj' hh rfl).1

theorem Always.append {events : List E} (h : Always ok log) (he : ∀ e ∈ events, ∀ pre, ok pre e) :
    Always ok (log ++ events) := by
  induction events generalizing log with
  | nil => simpa using h
  | cons e events ih =>
    obtain ⟨hfirst, hrest⟩ := List.forall_mem_cons.1 he
    simpa using ih (h.snoc (hfirst log)) hrest

/-- A run ends when from every state of an invariant there is a step that goes down. -/
theorem ends_of_decreasing {σ β : Type} [LT β] [WellFoundedLT β] (step : σ → σ → Prop) (inv final : σ → Prop)
    (measure : σ → β) (h : ∀ s, inv s → ¬ final s → ∃ s', step s s' ∧ inv s' ∧ measure s' < measure s)
    {s : σ} (hs : inv s) : ∃ s', Relation.ReflTransGen step s s' ∧ inv s' ∧ final s' := by
  induction hb : measure s using WellFoundedLT.induction generalizing s with
  | ind b ih =>
    by_cases hfinal : final s
    · exact ⟨s, .refl, hs, hfinal⟩
    · obtain ⟨s', hstep, hs', hlt⟩ := h s hs hfinal
      obtain ⟨s'', hrun, hends⟩ := ih (measure s') (hb ▸ hlt) hs' rfl
      exact ⟨s'', .head hstep hrun, hends⟩

/-- No run is endless when from a state of an invariant every step goes down. -/
theorem acc_of_decreasing {σ β : Type} [LT β] [WellFoundedLT β] (step : σ → σ → Prop) (inv : σ → Prop)
    (measure : σ → β) (h : ∀ s s', inv s → step s s' → inv s' ∧ measure s' < measure s) {s : σ} (hs : inv s) :
    Acc (fun s' s => step s s') s := by
  induction hb : measure s using WellFoundedLT.induction generalizing s with
  | ind b ih =>
    refine ⟨s, fun s' hstep => ?_⟩
    obtain ⟨hs', hlt⟩ := h s s' hs hstep
    exact ih (measure s') (hb ▸ hlt) hs' rfl

end Ecat
