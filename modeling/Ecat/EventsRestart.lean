import Ecat.EventsConsumers

/-! The placeholder never blocks a later `subscribe`, unless a call was dropped while it waited for
`mq.subscribe`. -/

namespace Ecat.Events

variable {s s' : Bus} {c : CallId} {a : Act}

/-- The call is not dropped at the await that follows the placeholder. -/
def Bus.NotDropped (s : Bus) : Act → Prop
  | .cancel c => ∀ since, s.calls[c]? ≠ some (.subscribing since)
  | _ => True

/-- A placeholder has an owner that will replace or remove it. -/
def Placed (s : Bus) : Prop :=
  s.entry = some none → ∃ (c : CallId) (p : Pc), s.calls[c]? = some p ∧ p.owns = true

theorem placed_remote : Placed remote := by
  intro he
  cases he

theorem Placed.frame (h : Placed s) (hentry : s'.entry = s.entry)
    (howner : ∀ (c : CallId) (p : Pc), s.calls[c]? = some p → p.owns = true →
      ∃ p', s'.calls[c]? = some p' ∧ p'.owns = true) : Placed s' := by
  intro he
  rw [hentry] at he
  obtain ⟨c, p, hc, hp⟩ := h he
  obtain ⟨p', hc', hp'⟩ := howner c p hc hp
  exact ⟨c, p', hc', hp'⟩

theorem Placed.goto {p pc : Pc} (h : Placed s) (hc : s.calls[c]? = some p)
    (hpc : p.owns = true → pc.owns = true) : Placed (s.goto c pc) := by
  refine @Placed.frame s (s.goto c pc) h rfl ?_
  intro c' q hc' hq
  rw [goto_calls hc]
  split
  · rename_i heq
    subst heq
    rw [hc] at hc'
    cases hc'
    exact ⟨pc, rfl, hpc hq⟩
  · exact ⟨q, hc', hq⟩

theorem Placed.step (h : Placed s) (hok : s.NotDropped a) (hstep : Step s a s') : Placed s' := by
  cases hstep with
  | subscribe =>
    refine @Placed.frame s { s with calls := s.calls ++ [.registering] } h rfl ?_
    intro c p hc hp
    exact ⟨p, getElem?_snoc hc _, hp⟩
  | register c hc => exact h.goto hc (by simp [Pc.owns])
  | blocked c hc hb => exact h.goto hc (by simp [Pc.owns])
  | claims c hc he =>
    intro _
    exact ⟨c, .subscribing s.published, by rw [Bus.claim, goto_calls hc, if_pos rfl], rfl⟩
  | mqOk c since backlog hc hb => exact h.goto hc (by simp [Pc.owns])
  | mqErr c since hc => exact h.goto hc (by simp [Pc.owns])
  | spawn c inbox hc => exact h.goto hc (by simp [Pc.owns])
  | bind c t hc =>
    intro he
    cases he
  | rollback c hc =>
    intro he
    cases he
  | cancel c p hc hp =>
    rcases hp with rfl | ⟨since, rfl⟩
    · exact h.goto hc (by simp [Pc.owns])
    · exact absurd hc (hok since)
  | publish =>
    refine @Placed.frame s s.publish h rfl ?_
    intro c p hc hp
    rw [publish_call, hc]
    exact ⟨p.deliver s.published, rfl, by rw [deliver_owns, hp]⟩
  | receive t m inbox ht => exact h
  | receiveErr t => exact h
  | dispatch t m inbox ht => exact h
  | endStream t inbox ht => exact h
  | panicHolding t m inbox n ht => exact h
  | panicIdle t inbox n ht => exact h

def Pc.inProgress : Pc → Bool
  | .returned _ | .cancelled => false
  | _ => true

theorem inProgress_of_owns {p : Pc} (h : p.owns = true) : p.inProgress = true := by
  cases p <;> first | rfl | cases h

def Bus.subscribeAlone (s : Bus) : List Act :=
  let c := s.calls.length
  [.subscribe, .register c, .check c, .mqOk c [], .spawn c, .bind c]

theorem check_claims (hentry : s.entry ≠ some none) (hstopped : ∀ t, ¬ s.Running t) (c : CallId) :
    s.check c = s.claim c := by
  unfold Bus.check Bus.claim
  cases he : s.entry with
  | none => rfl
  | some handle =>
    cases handle with
    | none => exact absurd he hentry
    | some t =>
      have hf : s.finished t = true := by
        have hh := hstopped t
        simpa [Bus.Running] using hh
      simp only [hf, if_true]

theorem backlogOk_nil (s : Bus) (since : Message) : s.backlogOk since [] = true := by
  simp [Bus.backlogOk]

theorem subscribeAlone_runs (hentry : s.entry ≠ some none) (hstopped : ∀ t, ¬ s.Running t) :
    ∃ s', runFrom Bus.step s s.subscribeAlone = some s' ∧ s'.Running s.tasks.length := by
  have hset : ∀ p q : Pc, (s.calls ++ [p]).set s.calls.length q = s.calls ++ [q] := by
    intro p q
    simp
  have hget : ∀ p : Pc, (s.calls ++ [p])[s.calls.length]? = some p := by
    intro p
    simp
  have hcheck := @check_claims
    { s with calls := s.calls ++ [.registered], handlers := s.handlers ++ [s.calls.length] } hentry hstopped
    s.calls.length
  simp only [Bus.subscribeAlone, runFrom, Bus.step, Option.bind_some, hget, Bus.callStep, Bus.goto, hset, hcheck,
    Bus.claim, backlogOk_nil, if_true]
  refine ⟨_, rfl, ?_⟩
  rw [running_iff]
  exact ⟨⟨true, none, []⟩, by simp, rfl⟩

/-- In every run in which no call is dropped at `mq.subscribe`, whenever no call is under way and
no consumer runs the next `subscribe` starts one. -/
theorem next_subscribe_starts_consumer (acts : List Act) (s : Bus)
    (hmeets : Meets Bus.step Bus.NotDropped remote acts) (hrun : runFrom Bus.step remote acts = some s)
    (hquiet : ∀ p ∈ s.calls, p.inProgress = false) (hstopped : ∀ t, ¬ s.Running t) :
    ∃ s', runFrom Bus.step s s.subscribeAlone = some s' ∧ s'.Running s.tasks.length := by
  have hplaced : Placed s := by
    apply run_invariant placed_remote ?_ hmeets hrun
    intro s a s' h hok hstep
    exact h.step hok (step_cases hstep)
  apply subscribeAlone_runs ?_ hstopped
  intro he
  obtain ⟨c, p, hc, hp⟩ := hplaced he
  have hidle := hquiet p (List.mem_of_getElem? hc)
  rw [inProgress_of_owns hp] at hidle
  cases hidle

theorem next_subscribe_after_failure :
    ∃ s', runFrom Bus.step ⟨[0], none, [.returned 0], [], 0, []⟩
        (Bus.subscribeAlone ⟨[0], none, [.returned 0], [], 0, []⟩) = some s' ∧ s'.Running 0 :=
  next_subscribe_starts_consumer [.subscribe, .register 0, .check 0, .mqErr 0, .rollback 0]
    ⟨[0], none, [.returned 0], [], 0, []⟩ ⟨trivial, trivial, trivial, trivial, trivial, trivial⟩ rfl (by decide)
    fun t => by simp [Bus.Running, Bus.finished]

/-- A call dropped at `mq.subscribe` leaves its placeholder behind, and the next call returns
without a consumer. -/
theorem dropped_subscribe_wedges :
    ¬ ∀ (acts : List Act) (s : Bus), runFrom Bus.step remote acts = some s →
      (∀ p ∈ s.calls, p.inProgress = false) → (∀ t, ¬ s.Running t) →
      ∃ s', runFrom Bus.step s s.subscribeAlone = some s' ∧ s'.Running s.tasks.length := by
  intro h
  obtain ⟨s', hrun, _⟩ := h [.subscribe, .register 0, .check 0, .cancel 0]
    ⟨[0], some none, [.cancelled], [], 0, []⟩
    rfl (by decide) fun t => by simp [Bus.Running, Bus.finished]
  have hnone : runFrom Bus.step ⟨[0], some none, [.cancelled], [], 0, []⟩
      (Bus.subscribeAlone ⟨[0], some none, [.cancelled], [], 0, []⟩) = none := by decide
  rw [hnone] at hrun
  cases hrun

end Ecat.Events
