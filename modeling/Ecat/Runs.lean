import Mathlib.Data.List.Basic

/-! Machines given by a partial step function. A run is the list of its actions, and a condition on
a run is said of each action in the state it is taken in. -/

namespace Ecat

variable {σ A : Type} {step : σ → A → Option σ} {ok : σ → A → Prop} {P : σ → Prop}

/-- The state after a list of actions, when every one of them is possible. -/
def runFrom (step : σ → A → Option σ) (s : σ) : List A → Option σ
  | [] => some s
  | a :: as => (step s a).bind fun s' => runFrom step s' as

/-- Every action taken from `s` on meets the condition in the state it is taken in. -/
def Meets (step : σ → A → Option σ) (ok : σ → A → Prop) (s : σ) : List A → Prop
  | [] => True
  | a :: as => ok s a ∧ match step s a with
    | none => True
    | some s' => Meets step ok s' as

/-- Some action taken from `s` on is such as `p` says in the state it is taken in. -/
def Occurs (step : σ → A → Option σ) (p : σ → A → Prop) (s : σ) : List A → Prop
  | [] => False
  | a :: as => p s a ∨ match step s a with
    | none => False
    | some s' => Occurs step p s' as

/-- The property holds in `s` and in every state that the actions from `s` on lead to. -/
def Throughout (step : σ → A → Option σ) (P : σ → Prop) (s : σ) : List A → Prop
  | [] => P s
  | a :: as => P s ∧ match step s a with
    | none => True
    | some s' => Throughout step P s' as

/-- The steps of a run, each with the state before and after it. -/
def steps (step : σ → A → Option σ) (s : σ) : List A → List (σ × A × σ)
  | [] => []
  | a :: as => match step s a with
    | none => []
    | some t => (s, a, t) :: steps step t as

theorem runFrom_cons {s s' : σ} {a : A} {as : List A} :
    runFrom step s (a :: as) = some s' ↔ ∃ t, step s a = some t ∧ runFrom step t as = some s' := by
  simp only [runFrom, Option.bind_eq_some_iff]

theorem Meets.tail {s t : σ} {a : A} {as : List A} (h : Meets step ok s (a :: as)) (hstep : step s a = some t) :
    Meets step ok t as := by
  have hrest := h.2
  rw [hstep] at hrest
  exact hrest

theorem run_invariant {s s' : σ} {as : List A} (hinit : P s)
    (hkeep : ∀ s a t, P s → ok s a → step s a = some t → P t)
    (hmeets : Meets step ok s as) (hrun : runFrom step s as = some s') : P s' := by
  induction as generalizing s with
  | nil =>
    cases hrun
    exact hinit
  | cons a as ih =>
    obtain ⟨t, hstep, hrest⟩ := runFrom_cons.1 hrun
    exact ih (hkeep s a t hinit hmeets.1 hstep) (hmeets.tail hstep) hrest

theorem Throughout.head {s : σ} {as : List A} (h : Throughout step P s as) : P s := by
  cases as with
  | nil => exact h
  | cons a as => exact h.1

/-- Where a step keeps the property exactly when it meets the condition, so do whole runs. -/
theorem throughout_iff_meets {s : σ} {as : List A} (hinit : P s)
    (hnone : ∀ s a, step s a = none → ok s a)
    (hkeep : ∀ s a t, P s → step s a = some t → (P t ↔ ok s a)) :
    Throughout step P s as ↔ Meets step ok s as := by
  induction as generalizing s with
  | nil => simp [Throughout, Meets, hinit]
  | cons a as ih =>
    cases hstep : step s a with
    | none => simp [Throughout, Meets, hstep, hinit, hnone s a hstep]
    | some t =>
      simp only [Throughout, Meets, hstep]
      constructor
      · rintro ⟨_, hrest⟩
        exact ⟨(hkeep s a t hinit hstep).1 hrest.head, (ih hrest.head).1 hrest⟩
      · rintro ⟨hok, hrest⟩
        exact ⟨hinit, (ih ((hkeep s a t hinit hstep).2 hok)).2 hrest⟩

theorem meets_of_forall {s : σ} {as : List A} (h : ∀ a ∈ as, ∀ s, ok s a) : Meets step ok s as := by
  induction as generalizing s with
  | nil => trivial
  | cons a as ih =>
    refine ⟨h a (by simp) s, ?_⟩
    cases step s a with
    | none => trivial
    | some t => exact ih fun b hb => h b (by simp [hb])

theorem Meets.at {s t : σ} {a : A} {before after : List A} (h : Meets step ok s (before ++ a :: after))
    (hrun : runFrom step s before = some t) : ok t a := by
  induction before generalizing s with
  | nil =>
    cases hrun
    exact h.1
  | cons b before ih =>
    obtain ⟨u, hstep, hrest⟩ := runFrom_cons.1 hrun
    exact ih (h.tail hstep) hrest

/-- A condition that the first one gives wherever the invariant holds. -/
theorem Meets.imp {ok' : σ → A → Prop} {s : σ} {as : List A} (hmeets : Meets step ok s as) (hinit : P s)
    (hkeep : ∀ s a t, P s → ok s a → step s a = some t → P t) (hok : ∀ s a, P s → ok s a → ok' s a) :
    Meets step ok' s as := by
  induction as generalizing s with
  | nil => trivial
  | cons a as ih =>
    refine ⟨hok s a hinit hmeets.1, ?_⟩
    cases hstep : step s a with
    | none => trivial
    | some t => exact ih (hmeets.tail hstep) (hkeep s a t hinit hmeets.1 hstep)

/-- Two conditions that agree in every state of a run are met by the same runs. -/
theorem meets_congr {ok' : σ → A → Prop} {s : σ} {as : List A} (hinit : P s)
    (hkeep : ∀ s a t, P s → step s a = some t → P t) (hok : ∀ s a, P s → (ok s a ↔ ok' s a)) :
    Meets step ok s as ↔ Meets step ok' s as := by
  constructor
  · intro h
    exact h.imp hinit (fun s a t hs _ => hkeep s a t hs) fun s a hs => (hok s a hs).1
  · intro h
    exact h.imp hinit (fun s a t hs _ => hkeep s a t hs) fun s a hs => (hok s a hs).2

theorem reach_invariant {s s' : σ} {as : List A} (hinit : P s)
    (hkeep : ∀ s a t, P s → step s a = some t → P t) (hrun : runFrom step s as = some s') : P s' :=
  run_invariant hinit (fun s a t hs _ => hkeep s a t hs) (meets_of_forall fun _ _ _ => trivial) hrun

theorem steps_acts {s s' : σ} {as : List A} (hrun : runFrom step s as = some s') :
    (steps step s as).map (fun e => e.2.1) = as := by
  induction as generalizing s with
  | nil => rfl
  | cons a as ih =>
    obtain ⟨t, hstep, hrest⟩ := runFrom_cons.1 hrun
    simp [steps, hstep, ih hrest]

/-- What relates a state to the steps that led to it, and each step keeps that meets the condition,
holds after every run of such steps. -/
theorem meets_steps_invariant {Q : List (σ × A × σ) → σ → Prop} {s s' : σ} {as : List A} (hinit : Q [] s)
    (hkeep : ∀ past s a t, Q past s → ok s a → step s a = some t → Q (past ++ [(s, a, t)]) t)
    (hmeets : Meets step ok s as) (hrun : runFrom step s as = some s') : Q (steps step s as) s' := by
  have hpast : ∀ past, Q past s → Q (past ++ steps step s as) s' := by
    clear hinit
    induction as generalizing s with
    | nil =>
      intro past h
      cases hrun
      simpa [steps] using h
    | cons a as ih =>
      intro past h
      obtain ⟨t, hstep, hrest⟩ := runFrom_cons.1 hrun
      have hnext := ih (hmeets.tail hstep) hrest (past ++ [(s, a, t)]) (hkeep past s a t h hmeets.1 hstep)
      simpa [steps, hstep] using hnext
  simpa using hpast [] hinit

theorem steps_invariant {Q : List (σ × A × σ) → σ → Prop} {s s' : σ} {as : List A} (hinit : Q [] s)
    (hkeep : ∀ past s a t, Q past s → step s a = some t → Q (past ++ [(s, a, t)]) t)
    (hrun : runFrom step s as = some s') : Q (steps step s as) s' :=
  meets_steps_invariant hinit (fun past s a t h _ => hkeep past s a t h) (meets_of_forall fun _ _ _ => trivial) hrun

end Ecat
