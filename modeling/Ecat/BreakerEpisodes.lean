import Ecat.Breaker

/-! The breaker across several half-open episodes: how many probes are in flight, whose outcome
ends an episode, and what an opening forbids. -/

namespace Ecat.Breaker

variable (cfg : BreakerConfig)

/-- `state()`, which reports an opening that has run its time as half-open. -/
def Sys.state (s : Sys) : BreakerState :=
  if s.inner.state = .opened ∧ s.inner.openedAt.any (fun openedAt => cfg.openDuration ≤ s.now - openedAt) then
    .halfOpen
  else s.inner.state

variable {cfg} {s s' t : Sys} {a : Act}

/-! ### One step -/

/-- The ways a call can be admitted. -/
theorem start_cases (h : s.start cfg = .ok s') :
    (s.inner.state = .closed ∧ s' = s.enter none) ∨
    (∃ openedAt, s.inner.state = .opened ∧ s.inner.openedAt = some openedAt ∧
      cfg.openDuration ≤ s.now - openedAt ∧
      s' = { s with
        inner := { s.inner with state := .halfOpen, halfOpenCount := 0 }
        episode := s.episode + 1 }.enter none) ∨
    (s.inner.state = .opened ∧ s.inner.openedAt = none ∧ s' = s.enter none) ∨
    (s.inner.state = .halfOpen ∧ s.inner.halfOpenCount < cfg.halfOpenProbes ∧
      s' = { s with
        inner := { s.inner with halfOpenCount := s.inner.halfOpenCount + 1 } }.enter (some s.episode)) := by
  unfold Sys.start at h
  cases hs : s.inner.state with
  | closed =>
    simp only [hs, Except.ok.injEq] at h
    exact .inl ⟨rfl, h.symm⟩
  | opened =>
    simp only [hs] at h
    cases hat : s.inner.openedAt with
    | none =>
      simp only [hat, Except.ok.injEq] at h
      exact .inr (.inr (.inl ⟨rfl, rfl, h.symm⟩))
    | some openedAt =>
      simp only [hat] at h
      split at h
      · rename_i hle
        simp only [Except.ok.injEq] at h
        exact .inr (.inl ⟨openedAt, rfl, rfl, hle, by rw [← h, ← hat]⟩)
      · cases h
  | halfOpen =>
    simp only [hs] at h
    split at h
    · cases h
    · rename_i hlt
      simp only [Except.ok.injEq] at h
      exact .inr (.inr (.inr ⟨rfl, not_le.1 hlt, by rw [← h, ← hs]⟩))

theorem start_opened : s.start cfg = .error .opened ↔
    s.inner.state = .opened ∧ ∃ openedAt, s.inner.openedAt = some openedAt ∧ s.now - openedAt < cfg.openDuration := by
  unfold Sys.start
  cases hs : s.inner.state with
  | closed => simp
  | opened =>
    cases hat : s.inner.openedAt with
    | none => simp
    | some openedAt =>
      simp only [true_and, Option.some.injEq, exists_eq_left']
      split
      · rename_i hle
        simpa using hle
      · rename_i hlt
        simpa using hlt
  | halfOpen =>
    simp only [reduceCtorEq, false_and, iff_false]
    split <;> simp

/-- The ways the outcome of a call moves the breaker. -/
theorem settle_cases (inner : Inner) (now : Nat) (outcome : Outcome) :
    ((inner.settle cfg now outcome).state = .opened ∧ inner.state ≠ .opened ∧
      (inner.settle cfg now outcome).openedAt = some now ∧
      (inner.settle cfg now outcome).openedTotal = inner.openedTotal + 1) ∨
    ((inner.settle cfg now outcome).state = inner.state ∧ inner.state ≠ .halfOpen ∧
      (inner.settle cfg now outcome).openedAt = inner.openedAt ∧
      (inner.settle cfg now outcome).openedTotal = inner.openedTotal) ∨
    ((inner.settle cfg now outcome).state = .closed ∧ inner.state = .halfOpen ∧
      (inner.settle cfg now outcome).openedTotal = inner.openedTotal) := by
  cases hs : inner.state with
  | closed =>
    unfold Inner.settle
    simp only [hs]
    split
    · left
      simp [Inner.trip]
    · right
      left
      simp
  | opened =>
    right
    left
    simp [Inner.settle, hs]
  | halfOpen =>
    unfold Inner.settle
    simp only [hs]
    split
    · right
      right
      simp
    · left
      simp [Inner.trip]

/-- The ways the breaker moves: a call is turned away or admitted, completes or is dropped, or time
passes. -/
theorem step_cases (h : s.step cfg a = some s') :
    (a = .start ∧ (∃ error, s.start cfg = .error error) ∧ s' = s) ∨
    (a = .start ∧ s.start cfg = .ok s') ∨
    (∃ i outcome call, a = .complete i outcome ∧ s.calls[i]? = some call ∧ s' = s.complete cfg i outcome) ∨
    (∃ i call, a = .cancel i ∧ s.calls[i]? = some call ∧ s' = s.cancel i call) ∨
    (∃ nanos, a = .tick nanos ∧ s' = { s with now := s.now + nanos }) := by
  cases a with
  | start =>
    cases hstart : s.start cfg with
    | error error =>
      simp only [Sys.step, hstart, Except.toOption, Option.getD_none, Option.some.injEq] at h
      exact .inl ⟨rfl, ⟨error, rfl⟩, h.symm⟩
    | ok t =>
      simp only [Sys.step, hstart, Except.toOption, Option.getD_some, Option.some.injEq] at h
      exact .inr (.inl ⟨rfl, by rw [h]⟩)
  | complete i outcome =>
    obtain ⟨call, hi, hstep⟩ := Option.map_eq_some_iff.1 h
    exact .inr (.inr (.inl ⟨i, outcome, call, rfl, hi, hstep.symm⟩))
  | cancel i =>
    obtain ⟨call, hi, hstep⟩ := Option.map_eq_some_iff.1 h
    exact .inr (.inr (.inr (.inl ⟨i, call, rfl, hi, hstep.symm⟩)))
  | tick nanos =>
    cases h
    exact .inr (.inr (.inr (.inr ⟨nanos, rfl, rfl⟩)))

theorem cancel_state (s : Sys) (i : Nat) (call : Call) : (s.cancel i call).inner.state = s.inner.state := by
  unfold Sys.cancel
  dsimp only
  split <;> rfl

/-! ### Probes in flight -/

/-- No probe of an earlier episode is dropped while slots of this one are in use. -/
def Sys.ReturnsOwnSlot (s : Sys) : Act → Prop
  | .cancel i => s.inner.state = .halfOpen → 0 < s.inner.halfOpenCount →
      ∀ call episode, s.calls[i]? = some call → call.permit = some episode → episode = s.episode
  | _ => True

/-- Every probe of the episode in flight has its slot counted. -/
structure Sys.Counts (s : Sys) : Prop where
  past : ∀ call ∈ s.calls, ∀ episode ∈ call.permit, episode ≤ s.episode
  counted : s.inner.state = .halfOpen → s.probes ≤ s.inner.halfOpenCount

theorem past_enter (h : ∀ call ∈ s.calls, ∀ episode ∈ call.permit, episode ≤ s.episode) {permit : Option Nat}
    (hpermit : ∀ episode ∈ permit, episode ≤ s.episode) :
    ∀ call ∈ (s.enter permit).calls, ∀ episode ∈ call.permit, episode ≤ s.episode := by
  intro call hcall
  rcases List.mem_append.1 hcall with hmem | hmem
  · exact h call hmem
  · rw [List.mem_singleton.1 hmem]
    exact hpermit

theorem probes_next (h : ∀ call ∈ s.calls, ∀ episode ∈ call.permit, episode ≤ s.episode) :
    s.calls.countP (fun c => c.permit == some (s.episode + 1)) = 0 := by
  rw [List.countP_eq_zero]
  intro call hcall hpermit
  have hle := h call hcall (s.episode + 1) (by simpa using hpermit)
  omega

theorem Sys.Counts.start (h : s.Counts) (hstart : s.start cfg = .ok s') : s'.Counts := by
  rcases start_cases hstart with ⟨hs, rfl⟩ | ⟨openedAt, hs, _, _, rfl⟩ | ⟨hs, _, rfl⟩ | ⟨hs, _, rfl⟩
  · refine ⟨past_enter h.past (by simp), fun hh => ?_⟩
    rw [show (s.enter none).inner.state = s.inner.state from rfl, hs] at hh
    cases hh
  · have hnext := fun call hcall episode he => Nat.le_succ_of_le (h.past call hcall episode he)
    refine ⟨past_enter hnext (by simp), fun _ => ?_⟩
    rw [probes_enter, Sys.probes]
    simp [probes_next h.past]
  · refine ⟨past_enter h.past (by simp), fun hh => ?_⟩
    rw [show (s.enter none).inner.state = s.inner.state from rfl, hs] at hh
    cases hh
  · refine ⟨past_enter h.past (by simp), fun _ => ?_⟩
    rw [probes_enter, if_pos rfl]
    exact Nat.succ_le_succ (h.counted hs)

theorem past_eraseIdx (h : s.Counts) (i : Nat) :
    ∀ call ∈ s.calls.eraseIdx i, ∀ episode ∈ call.permit, episode ≤ s.episode :=
  fun call hcall => h.past call (List.mem_of_mem_eraseIdx hcall)

theorem Sys.Counts.cancel {i : Nat} {call : Call} (h : s.Counts) (hi : s.calls[i]? = some call)
    (hown : s.ReturnsOwnSlot (.cancel i)) : (s.cancel i call).Counts := by
  refine ⟨past_eraseIdx h i, fun hh => ?_⟩
  rw [cancel_state] at hh
  have hcount := countP_eraseIdx hi fun c => c.permit == some s.episode
  have hle := h.counted hh
  rw [show (s.cancel i call).probes = (s.calls.eraseIdx i).countP fun c => c.permit == some s.episode from rfl]
  rw [Sys.probes] at hle
  cases hp : call.permit with
  | none =>
    simp only [Sys.cancel, hp, Option.isSome_none, Bool.false_eq_true, if_false]
    omega
  | some episode =>
    simp only [Sys.cancel, hp, Option.isSome_some, if_true]
    by_cases hzero : s.inner.halfOpenCount = 0
    · omega
    · have hepisode := hown hh (Nat.pos_of_ne_zero hzero) call episode hi hp
      simp only [hp, hepisode, beq_self_eq_true, if_true] at hcount
      omega

theorem Sys.Counts.step (h : s.Counts) (hown : s.ReturnsOwnSlot a) (hstep : s.step cfg a = some s') :
    s'.Counts := by
  rcases step_cases hstep with ⟨_, _, rfl⟩ | ⟨_, hstart⟩ | ⟨i, outcome, call, _, _, rfl⟩ |
    ⟨i, call, rfl, hi, rfl⟩ | ⟨nanos, _, rfl⟩
  · exact h
  · exact h.start hstart
  · have hout : (s.complete cfg i outcome).inner.state ≠ .halfOpen := settle_not_halfOpen _ _ _
    exact ⟨past_eraseIdx h i, fun hh => absurd hh hout⟩
  · exact h.cancel hi hown
  · exact ⟨h.past, h.counted⟩

theorem counts_new (now : Nat) : (new cfg now).Counts := by
  refine ⟨by simp [new], fun hh => ?_⟩
  cases hh

/-- Over any number of episodes, the probes of the current one that are in flight keep to
`half_open_probes`, as long as no dropped probe of an earlier episode returns a slot it does not hold. -/
theorem half_open_probes_bounded (now : Nat) (acts : List Act)
    (hown : Meets (Sys.step cfg) Sys.ReturnsOwnSlot (new cfg now) acts) (s : Sys)
    (hrun : runFrom (Sys.step cfg) (new cfg now) acts = some s) (hhalf : s.inner.state = .halfOpen) :
    s.probes ≤ cfg.halfOpenProbes := by
  have hok : s.Ok cfg := reach_invariant (ok_new now) (fun _ _ _ h hstep => h.step hstep) hrun
  have hcounts : s.Counts := run_invariant (counts_new now) (fun _ _ _ h hown hstep => h.step hown hstep) hown hrun
  exact (hcounts.counted hhalf).trans (hok.bounded hhalf)

def reopened : List Act :=
  probeInFlight ++ [.complete 0 .err, .tick 10, .start, .start]

theorem half_open_probes_bounded_reopened :
    (runFrom (Sys.step oneProbe) (new oneProbe 0) reopened).map (fun s => (s.inner.state, s.probes)) =
      some (.halfOpen, 1) ∧
    ∀ s, runFrom (Sys.step oneProbe) (new oneProbe 0) reopened = some s → s.inner.state = .halfOpen →
      s.probes ≤ oneProbe.halfOpenProbes := by
  refine ⟨by decide +kernel, half_open_probes_bounded 0 reopened (meets_of_forall ?_)⟩
  simp [reopened, probeInFlight, Sys.ReturnsOwnSlot]

/-- A probe of the first episode is dropped in the second and frees the slot of the probe that is
in flight there, so another is let through. -/
theorem dropped_probe_frees_slot : ¬ ∀ (cfg : BreakerConfig) (now : Nat) (acts : List Act) (s : Sys),
    runFrom (Sys.step cfg) (new cfg now) acts = some s → s.inner.state = .halfOpen →
      s.probes ≤ cfg.halfOpenProbes := by
  intro h
  have hstate : (runFrom (Sys.step oneProbe) (new oneProbe 0) (reopened ++ [.cancel 0, .start])).map
      (fun s => (s.inner.state, s.probes)) = some (.halfOpen, 2) := by decide +kernel
  obtain ⟨s, hrun, hs⟩ := Option.map_eq_some_iff.1 hstate
  obtain ⟨hhalf, hprobes⟩ := Prod.mk.inj hs
  have hle := h oneProbe 0 _ s hrun hhalf
  rw [hprobes] at hle
  exact absurd hle (by decide)

/-! ### Openings -/

/-- The times of the steps that open the breaker. -/
def openings (past : List (Sys × Act × Sys)) : List Nat :=
  (past.filter fun e => e.1.inner.state ≠ .opened ∧ e.2.2.inner.state = .opened).map fun e => e.2.2.now

theorem openings_snoc (past : List (Sys × Act × Sys)) (s : Sys) (a : Act) (t : Sys) :
    openings (past ++ [(s, a, t)]) = openings past ++
      if s.inner.state ≠ .opened ∧ t.inner.state = .opened then [t.now] else [] := by
  simp only [openings, List.filter_append, List.map_append, List.filter_cons, List.filter_nil]
  split <;> simp_all

/-- While the breaker is open, `opened_at` is the time of the latest opening; otherwise every opening
has run its time. -/
structure Disciplined (cfg : BreakerConfig) (openings : List Nat) (s : Sys) : Prop where
  total : s.inner.openedTotal = openings.length
  past : ∀ o ∈ openings, o ≤ s.now
  opened : s.inner.state = .opened → ∃ openedAt, s.inner.openedAt = some openedAt ∧
    openings.getLast? = some openedAt ∧ ∀ o ∈ openings, o ≤ openedAt
  expired : s.inner.state ≠ .opened → ∀ o ∈ openings, o + cfg.openDuration ≤ s.now

theorem Disciplined.keep {os : List Nat} (h : Disciplined cfg os s) (hnow : s.now ≤ s'.now)
    (htotal : s'.inner.openedTotal = s.inner.openedTotal)
    (hopened : s'.inner.state = .opened → s.inner.state = .opened ∧ s'.inner.openedAt = s.inner.openedAt)
    (hexpired : s'.inner.state ≠ .opened → s.inner.state ≠ .opened ∨ ∀ o ∈ os, o + cfg.openDuration ≤ s'.now) :
    Disciplined cfg os s' := by
  refine ⟨htotal.trans h.total, fun o ho => (h.past o ho).trans hnow, fun hs => ?_, fun hs o ho => ?_⟩
  · obtain ⟨hwas, hat⟩ := hopened hs
    rw [hat]
    exact h.opened hwas
  · rcases hexpired hs with hwas | hall
    · exact (h.expired hwas o ho).trans hnow
    · exact hall o ho

theorem Disciplined.open {os : List Nat} (h : Disciplined cfg os s) (hnow : s'.now = s.now)
    (hs : s'.inner.state = .opened) (hat : s'.inner.openedAt = some s.now)
    (htotal : s'.inner.openedTotal = s.inner.openedTotal + 1) : Disciplined cfg (os ++ [s'.now]) s' := by
  have hpast : ∀ o ∈ os ++ [s'.now], o ≤ s'.now := by
    intro o ho
    rcases List.mem_append.1 ho with ho | ho
    · exact (h.past o ho).trans hnow.ge
    · rw [List.mem_singleton.1 ho]
  refine ⟨by simp [htotal, h.total], hpast, fun _ => ⟨s'.now, by rw [hat, hnow], by simp, hpast⟩, ?_⟩
  intro hne
  exact absurd hs hne

theorem Disciplined.start {os : List Nat} (h : Disciplined cfg os s) (hstart : s.start cfg = .ok s') :
    Disciplined cfg os s' ∧ (s.inner.state ≠ .opened → s'.inner.state ≠ .opened) := by
  rcases start_cases hstart with ⟨hs, rfl⟩ | ⟨openedAt, hs, hat, hle, rfl⟩ | ⟨hs, hat, rfl⟩ | ⟨hs, _, rfl⟩
  · exact ⟨h.keep le_rfl rfl (fun hh => ⟨hh, rfl⟩) .inl, id⟩
  · obtain ⟨latest, hlatest, _, hmax⟩ := h.opened hs
    cases hat.symm.trans hlatest
    refine ⟨h.keep le_rfl rfl (fun hh => by cases hh) fun _ => .inr fun o ho => ?_, fun hne => absurd hs hne⟩
    have hbefore := hmax o ho
    have hpast := h.past o ho
    show o + cfg.openDuration ≤ s.now
    omega
  · exact ⟨h.keep le_rfl rfl (fun hh => ⟨hh, rfl⟩) .inl, id⟩
  · exact ⟨h.keep le_rfl rfl (fun hh => ⟨hh, rfl⟩) .inl, id⟩

theorem Disciplined.step {past : List (Sys × Act × Sys)} (h : Disciplined cfg (openings past) s)
    (hstep : s.step cfg a = some s') : Disciplined cfg (openings (past ++ [(s, a, s')])) s' := by
  rw [openings_snoc]
  rcases step_cases hstep with ⟨_, _, rfl⟩ | ⟨_, hstart⟩ | ⟨i, outcome, call, _, _, rfl⟩ |
    ⟨i, call, _, _, rfl⟩ | ⟨nanos, _, rfl⟩
  · simpa using h
  · obtain ⟨hkeep, hne⟩ := h.start hstart
    rw [if_neg fun hh => hne hh.1 hh.2, List.append_nil]
    exact hkeep
  · rcases @settle_cases cfg s.inner s.now outcome with ⟨hs, hwas, hat, htotal⟩ | ⟨hs, hwas, hat, htotal⟩ |
      ⟨hs, hwas, htotal⟩
    · rw [if_pos ⟨hwas, hs⟩]
      exact h.open rfl hs hat htotal
    · rw [if_neg fun hh => hh.1 (hs.symm.trans hh.2), List.append_nil]
      exact h.keep le_rfl htotal (fun hh => ⟨hs.symm.trans hh, hat⟩) fun hh => .inl fun hwas => hh (hs.trans hwas)
    · rw [if_neg fun hh => absurd (hs.symm.trans hh.2) (by simp), List.append_nil]
      exact h.keep le_rfl htotal (fun hh => absurd (hs.symm.trans hh) (by simp)) fun _ => .inl (by simp [hwas])
  · have hstate := cancel_state s i call
    rw [if_neg fun hh => hh.1 (hstate.symm.trans hh.2), List.append_nil]
    refine h.keep le_rfl ?_ (fun hh => ⟨hstate.symm.trans hh, ?_⟩) fun hh => .inl fun hwas => hh (hstate.trans hwas)
    · unfold Sys.cancel
      dsimp only
      split <;> rfl
    · unfold Sys.cancel
      dsimp only
      split <;> rfl
  · rw [if_neg fun hh => hh.1 hh.2, List.append_nil]
    exact h.keep (Nat.le_add_right _ _) rfl (fun hh => ⟨hh, rfl⟩) .inl

theorem disciplined_new (now : Nat) : Disciplined cfg (openings []) (new cfg now) := by
  refine ⟨rfl, by simp [openings], fun hh => ?_, by simp [openings]⟩
  cases hh

theorem state_opened (hset : s.inner.state = .opened → s.inner.openedAt.isSome) :
    s.state cfg = .opened ↔ s.start cfg = .error .opened := by
  rw [start_opened, Sys.state]
  by_cases hs : s.inner.state = .opened
  · obtain ⟨openedAt, hat⟩ := Option.isSome_iff_exists.1 (hset hs)
    simp only [hs, hat, true_and, Option.any_some, decide_eq_true_eq, Option.some.injEq, exists_eq_left']
    split <;> simp_all
  · simp [hs]

/-- In every reachable state an open breaker knows when it opened, no call is admitted before an
opening has run its time, `state()` says open exactly when a call would be turned away as such, and
`opened_total` counts the openings. -/
theorem open_discipline (now : Nat) (acts : List Act) (s : Sys)
    (hrun : runFrom (Sys.step cfg) (new cfg now) acts = some s) :
    (s.inner.state = .opened → s.inner.openedAt.isSome ∧
      s.inner.openedAt = (openings (steps (Sys.step cfg) (new cfg now) acts)).getLast?) ∧
    (∀ o ∈ openings (steps (Sys.step cfg) (new cfg now) acts), s.now < o + cfg.openDuration →
      s.start cfg = .error .opened) ∧
    (s.state cfg = .opened ↔ s.start cfg = .error .opened) ∧
    s.inner.openedTotal = (openings (steps (Sys.step cfg) (new cfg now) acts)).length := by
  have h : Disciplined cfg (openings (steps (Sys.step cfg) (new cfg now) acts)) s :=
    steps_invariant (Q := fun past s => Disciplined cfg (openings past) s) (disciplined_new now)
      (fun _ _ _ _ h hstep => h.step hstep) hrun
  have hset : s.inner.state = .opened → s.inner.openedAt.isSome := by
    intro hs
    obtain ⟨openedAt, hat, _⟩ := h.opened hs
    simp [hat]
  refine ⟨fun hs => ⟨hset hs, ?_⟩, fun o ho hlt => ?_, state_opened hset, h.total⟩
  · obtain ⟨openedAt, hat, hlast, _⟩ := h.opened hs
    rw [hat, hlast]
  · have hs : s.inner.state = .opened := by
      by_contra hne
      have hle := h.expired hne o ho
      omega
    obtain ⟨openedAt, hat, _, hmax⟩ := h.opened hs
    have hle := hmax o ho
    refine start_opened.2 ⟨hs, openedAt, hat, ?_⟩
    have hpos : 0 < cfg.openDuration := by
      have hpast := h.past o ho
      omega
    omega

/-- Five calls fail at once, and nine nanoseconds pass. -/
def trippedRun : List Act := List.replicate 5 .start ++ List.replicate 5 (.complete 0 .err) ++ [.tick 9]

theorem open_discipline_tripped : ∃ s, runFrom (Sys.step oneProbe) (new oneProbe 0) trippedRun = some s ∧
    s.inner.state = .opened ∧ openings (steps (Sys.step oneProbe) (new oneProbe 0) trippedRun) = [0] ∧
    s.inner.openedAt = some 0 ∧ s.start oneProbe = .error .opened ∧ s.state oneProbe = .opened ∧
    s.inner.openedTotal = 1 := by
  have hends : (runFrom (Sys.step oneProbe) (new oneProbe 0) trippedRun).map (fun s => (s.inner.state, s.now)) =
      some (.opened, 9) := by
    decide +kernel
  have hopenings : openings (steps (Sys.step oneProbe) (new oneProbe 0) trippedRun) = [0] := by decide +kernel
  obtain ⟨s, hrun, hs⟩ := Option.map_eq_some_iff.1 hends
  obtain ⟨hopened, hnow⟩ := Prod.mk.inj hs
  obtain ⟨hset, hshut, hstate, htotal⟩ := open_discipline 0 trippedRun s hrun
  rw [hopenings] at hset hshut htotal
  have hstart : s.start oneProbe = .error .opened := by
    refine hshut 0 (List.mem_singleton_self 0) ?_
    rw [hnow]
    decide
  exact ⟨s, hrun, hopened, hopenings, (hset hopened).2, hstart, hstate.2 hstart, htotal⟩

/-! ### Deciding an episode -/

/-- The state that a call was admitted into, and the half-open episodes there had been then. A call
admitted into `halfOpen` is a probe of that episode; the one that begins it takes no slot. -/
structure Admission where
  state : BreakerState
  episode : Nat
  deriving DecidableEq, Repr

/-- The breaker with the admission of every call in flight. -/
structure Traced where
  sys : Sys
  admitted : List Admission
  deriving DecidableEq, Repr

namespace Traced

def step (cfg : BreakerConfig) (t : Traced) : Act → Option Traced
  | .start =>
    match t.sys.start cfg with
    | .error _ => some t
    | .ok s => some ⟨s, t.admitted ++ [⟨s.inner.state, s.episode⟩]⟩
  | .complete i outcome => (t.sys.step cfg (.complete i outcome)).map fun s => ⟨s, t.admitted.eraseIdx i⟩
  | .cancel i => (t.sys.step cfg (.cancel i)).map fun s => ⟨s, t.admitted.eraseIdx i⟩
  | .tick nanos => (t.sys.step cfg (.tick nanos)).map fun s => ⟨s, t.admitted⟩

def start (cfg : BreakerConfig) (now : Nat) : Traced := ⟨new cfg now, []⟩

/-- The `i`-th call in flight was admitted as a probe of the current half-open episode. -/
def Probes (t : Traced) (i : Nat) : Prop := t.admitted[i]? = some ⟨.halfOpen, t.sys.episode⟩

/-- The breaker leaves the half-open state only by the outcome of a probe of the episode, and the
outcome of any other call changes neither the state nor `opened_at`. -/
def OnlyProbesDecide (cfg : BreakerConfig) (t : Traced) (a : Act) : Prop :=
  ∀ t', t.step cfg a = some t' → t.sys.inner.state = .halfOpen →
    (t'.sys.inner.state ≠ .halfOpen → ∃ i outcome, a = .complete i outcome ∧ t.Probes i) ∧
    ∀ i outcome, a = .complete i outcome → ¬ t.Probes i →
      t'.sys.inner.state = t.sys.inner.state ∧ t'.sys.inner.openedAt = t.sys.inner.openedAt

/-- No call from before the half-open episode completes in it. -/
def CompletesProbe (t : Traced) : Act → Prop
  | .complete i _ => t.sys.inner.state = .halfOpen → i < t.sys.calls.length → t.Probes i
  | _ => True

variable {t t' : Traced}

theorem step_sys (t : Traced) (a : Act) : (t.step cfg a).map Traced.sys = t.sys.step cfg a := by
  cases a with
  | start =>
    simp only [step, Sys.step]
    cases t.sys.start cfg <;> rfl
  | complete i outcome => simp [step, Function.comp_def]
  | cancel i => simp [step, Function.comp_def]
  | tick nanos => rfl

theorem stays_halfOpen (hs : s.inner.state = .halfOpen) (hstep : s.step cfg a = some s')
    (ha : ∀ i outcome, a ≠ .complete i outcome) : s'.inner.state = .halfOpen := by
  rcases step_cases hstep with ⟨_, _, rfl⟩ | ⟨_, hstart⟩ | ⟨i, outcome, call, rfl, _, _⟩ |
    ⟨i, call, _, _, rfl⟩ | ⟨nanos, _, rfl⟩
  · exact hs
  · rcases start_cases hstart with ⟨hs', _⟩ | ⟨_, hs', _⟩ | ⟨hs', _⟩ | ⟨_, _, rfl⟩
    · cases hs.symm.trans hs'
    · cases hs.symm.trans hs'
    · cases hs.symm.trans hs'
    · exact hs
  · exact absurd rfl (ha i outcome)
  · rw [cancel_state, hs]
  · exact hs

theorem onlyProbesDecide_iff (t : Traced) (a : Act) : t.OnlyProbesDecide cfg a ↔ t.CompletesProbe a := by
  cases a with
  | complete i outcome =>
    constructor
    · intro h hs hi
      obtain ⟨call, hcall⟩ : ∃ call, t.sys.calls[i]? = some call := ⟨_, List.getElem?_eq_getElem hi⟩
      have hstep : t.step cfg (.complete i outcome) =
          some ⟨t.sys.complete cfg i outcome, t.admitted.eraseIdx i⟩ := by
        simp [step, Sys.step, hcall]
      obtain ⟨j, o, heq, hprobes⟩ := (h _ hstep hs).1 (settle_not_halfOpen _ _ _)
      cases heq
      exact hprobes
    · intro h t' hstep hs
      have hi : i < t.sys.calls.length := by
        obtain ⟨s', hs', _⟩ := Option.map_eq_some_iff.1 hstep
        obtain ⟨call, hcall, _⟩ := Option.map_eq_some_iff.1 hs'
        exact (List.getElem?_eq_some_iff.1 hcall).1
      refine ⟨fun _ => ⟨i, outcome, rfl, h hs hi⟩, fun j o heq hno => ?_⟩
      cases heq
      exact absurd (h hs hi) hno
  | start | cancel | tick =>
    refine ⟨fun _ => trivial, fun _ t' hstep hs => ⟨fun hne => ?_, by simp⟩⟩
    have hsys := @step_sys cfg t
    exact absurd (stays_halfOpen hs (by rw [← hsys, hstep, Option.map_some]) (by simp)) hne

end Traced

/-- In every run only probes decide the half-open state exactly when no call from before the current
episode completes in it. -/
theorem only_probes_decide_iff (now : Nat) (acts : List Act) :
    Meets (Traced.step cfg) (Traced.OnlyProbesDecide cfg) (.start cfg now) acts ↔
      Meets (Traced.step cfg) Traced.CompletesProbe (.start cfg now) acts :=
  meets_congr (P := fun _ => True) trivial (fun _ _ _ _ _ => trivial)
    fun t a _ => Traced.onlyProbesDecide_iff t a

/-- One slow call starts before five others fail and open the breaker. -/
def slowCall : List Act :=
  List.replicate 6 Act.start ++ List.replicate 5 (.complete 1 .err) ++ [.tick 10, .start]

/-- The slow call, admitted while the breaker was closed, ends in the half-open state and closes it. -/
theorem slow_call_closes : ¬ ∀ (cfg : BreakerConfig) (now : Nat) (acts : List Act),
    Meets (Traced.step cfg) (Traced.OnlyProbesDecide cfg) (.start cfg now) acts := by
  intro h
  have hstate : (runFrom (Traced.step oneProbe) (.start oneProbe 0) slowCall).map
      (fun t => (t.sys.inner.state, t.sys.episode, t.sys.calls.length, t.admitted)) =
        some (.halfOpen, 1, 2, [⟨.closed, 0⟩, ⟨.halfOpen, 1⟩]) := by decide +kernel
  obtain ⟨t, hrun, ht⟩ := Option.map_eq_some_iff.1 hstate
  simp only [Prod.mk.injEq] at ht
  obtain ⟨hs, hepisode, hlength, hadmitted⟩ := ht
  have hdecide := (h oneProbe 0 (slowCall ++ [.complete 0 (.ok false)])).at hrun
  have hprobes := (Traced.onlyProbesDecide_iff t _).1 hdecide hs (by omega)
  simp [Traced.Probes, hadmitted] at hprobes

end Ecat.Breaker
