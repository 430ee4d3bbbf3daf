import Ecat.Runs
import Mathlib

/-! The circuit breaker: calls that start, complete, fail or are dropped in any order while the
clock moves, and the probe slots of the half-open state, which are never leaked. -/

namespace Ecat.Breaker

inductive BreakerState
  | closed
  | opened
  | halfOpen
  deriving DecidableEq, Repr

/-- Times are in nanoseconds. The comparison of the failure ratio with its threshold is made on
doubles, of which only the answer matters here. -/
structure BreakerConfig where
  failureRatioReached : (failures total : Nat) → Bool
  window : Nat
  halfOpenProbes : Nat
  openDuration : Nat

structure SlidingWindow where
  successes : Nat
  failures : Nat
  windowStart : Nat
  window : Nat
  deriving DecidableEq, Repr

namespace SlidingWindow

def new (window now : Nat) : SlidingWindow := ⟨0, 0, now, window⟩

def rotate (w : SlidingWindow) (now : Nat) : SlidingWindow :=
  if w.window ≤ now - w.windowStart then { w with successes := 0, failures := 0, windowStart := now } else w

def record (w : SlidingWindow) (now : Nat) (success : Bool) : SlidingWindow :=
  let w := w.rotate now
  if success then { w with successes := w.successes + 1 } else { w with failures := w.failures + 1 }

def total (w : SlidingWindow) (now : Nat) : Nat := (w.rotate now).successes + (w.rotate now).failures

def clear (w : SlidingWindow) (now : Nat) : SlidingWindow :=
  { w with successes := 0, failures := 0, windowStart := now }

end SlidingWindow

structure Inner where
  state : BreakerState
  window : SlidingWindow
  openedAt : Option Nat
  halfOpenCount : Nat
  openedTotal : Nat
  deriving DecidableEq, Repr

/-- How the protected future ends; a good response may be classified as a failure. -/
inductive Outcome
  | ok (isFailure : Bool)
  | err
  deriving DecidableEq, Repr

/-- A call in flight; the permit of a probe notes the half-open episode it was taken in. -/
structure Call where
  permit : Option Nat
  deriving DecidableEq, Repr

/-- The breaker, the clock, the calls in flight, and how often it has become half-open. -/
structure Sys where
  inner : Inner
  now : Nat
  calls : List Call
  episode : Nat
  deriving DecidableEq, Repr

inductive BreakerError
  | opened
  | probesExhausted
  deriving DecidableEq, Repr

inductive Act
  | start
  | complete (call : Nat) (outcome : Outcome)
  | cancel (call : Nat)
  | tick (nanos : Nat)
  deriving DecidableEq, Repr

variable (cfg : BreakerConfig)

def new (now : Nat) : Sys := ⟨⟨.closed, .new cfg.window now, none, 0, 0⟩, now, [], 0⟩

def Sys.enter (s : Sys) (permit : Option Nat) : Sys := { s with calls := s.calls ++ [⟨permit⟩] }

/-- The first half of `call`, up to the future: the error it returns at once, or the call in flight. -/
def Sys.start (s : Sys) : Except BreakerError Sys :=
  match s.inner.state with
  | .opened =>
    match s.inner.openedAt with
    | some openedAt =>
      if cfg.openDuration ≤ s.now - openedAt then
        .ok ({ s with
          inner := { s.inner with state := .halfOpen, halfOpenCount := 0 }
          episode := s.episode + 1 }.enter none)
      else .error .opened
    | none => .ok (s.enter none)
  | .halfOpen =>
    if cfg.halfOpenProbes ≤ s.inner.halfOpenCount then .error .probesExhausted
    else
      .ok ({ s with
        inner := { s.inner with halfOpenCount := s.inner.halfOpenCount + 1 } }.enter (some s.episode))
  | .closed => .ok (s.enter none)

def Outcome.success : Outcome → Bool
  | .ok isFailure => !isFailure
  | .err => false

def Outcome.isOk : Outcome → Bool
  | .ok _ => true
  | .err => false

def Inner.trip (inner : Inner) (now : Nat) : Inner :=
  { inner with state := .opened, openedAt := some now, openedTotal := inner.openedTotal + 1 }

def Inner.settle (inner : Inner) (now : Nat) (outcome : Outcome) : Inner :=
  let inner := { inner with window := inner.window.record now outcome.success }
  match inner.state with
  | .closed =>
    let w := inner.window.rotate now
    let inner := { inner with window := w }
    if 5 ≤ w.total now ∧ cfg.failureRatioReached w.failures (w.total now) then inner.trip now else inner
  | .halfOpen =>
    if outcome.isOk then
      { inner with state := .closed, openedAt := none, window := inner.window.clear now }
    else inner.trip now
  | .opened => inner

def Sys.complete (s : Sys) (i : Nat) (outcome : Outcome) : Sys :=
  { s with inner := s.inner.settle cfg s.now outcome, calls := s.calls.eraseIdx i }

/-- The future is dropped, and an armed permit gives its slot back. -/
def Sys.cancel (s : Sys) (i : Nat) (call : Call) : Sys :=
  { s with
    inner := if call.permit.isSome then { s.inner with halfOpenCount := s.inner.halfOpenCount - 1 } else s.inner
    calls := s.calls.eraseIdx i }

def Sys.step (s : Sys) : Act → Option Sys
  | .start => some ((s.start cfg).toOption.getD s)
  | .complete i outcome => s.calls[i]?.map fun _ => s.complete cfg i outcome
  | .cancel i => s.calls[i]?.map fun call => s.cancel i call
  | .tick nanos => some { s with now := s.now + nanos }

/-! ### The slots -/

def Sys.probes (s : Sys) : Nat := s.calls.countP fun c => c.permit == some s.episode

structure Sys.Ok (s : Sys) : Prop where
  counted : s.inner.state = .halfOpen → s.inner.halfOpenCount ≤ s.probes
  bounded : s.inner.state = .halfOpen → s.inner.halfOpenCount ≤ cfg.halfOpenProbes

variable {cfg} {s s' : Sys}

theorem countP_eraseIdx {α : Type} {l : List α} {i : Nat} {a : α} (h : l[i]? = some a) (p : α → Bool) :
    (l.eraseIdx i).countP p + (if p a then 1 else 0) = l.countP p := by
  obtain ⟨hlt, ha⟩ := List.getElem?_eq_some_iff.1 h
  have hperm := List.getElem_cons_eraseIdx_perm hlt
  rw [← hperm.countP_eq p, List.countP_cons, ha]

theorem probes_enter (s : Sys) (permit : Option Nat) :
    (s.enter permit).probes = s.probes + (if permit = some s.episode then 1 else 0) := by
  simp [Sys.probes, Sys.enter, List.countP_append, List.countP_cons]

theorem settle_not_halfOpen (inner : Inner) (now : Nat) (outcome : Outcome) :
    (inner.settle cfg now outcome).state ≠ .halfOpen := by
  unfold Inner.settle
  cases hs : inner.state with
  | closed =>
    simp only []
    split <;> simp [Inner.trip]
  | opened => simp
  | halfOpen =>
    simp only []
    split <;> simp [Inner.trip]

theorem Sys.Ok.start (h : s.Ok cfg) (hstart : s.start cfg = .ok s') : s'.Ok cfg := by
  unfold Sys.start at hstart
  cases hs : s.inner.state with
  | opened =>
    simp only [hs] at hstart
    split at hstart
    · split at hstart
      · cases hstart
        exact ⟨fun _ => Nat.zero_le _, fun _ => Nat.zero_le _⟩
      · cases hstart
    · cases hstart
      constructor <;> intro hh <;> simp [Sys.enter, hs] at hh
  | halfOpen =>
    simp only [hs] at hstart
    split at hstart
    · cases hstart
    · rename_i hlt
      cases hstart
      constructor
      · intro _
        have hcount := h.counted hs
        rw [probes_enter, if_pos rfl]
        exact Nat.succ_le_succ hcount
      · intro _
        exact not_le.1 hlt
  | closed =>
    simp only [hs] at hstart
    cases hstart
    constructor <;> intro hh <;> simp [Sys.enter, hs] at hh

theorem Sys.Ok.cancel {i : Nat} {call : Call} (h : s.Ok cfg) (hi : s.calls[i]? = some call) :
    (s.cancel i call).Ok cfg := by
  have hcount := countP_eraseIdx hi fun c => c.permit == some s.episode
  have hstate : (s.cancel i call).inner.state = s.inner.state := by
    unfold Sys.cancel
    dsimp only
    split <;> rfl
  have hprobes : (s.cancel i call).probes = (s.calls.eraseIdx i).countP fun c => c.permit == some s.episode := rfl
  constructor
  · intro hh
    rw [hstate] at hh
    have hle := h.counted hh
    unfold Sys.probes at hle
    rw [hprobes]
    cases hp : call.permit with
    | none =>
      simp only [hp, reduceCtorEq, beq_iff_eq, if_false] at hcount
      simp only [Sys.cancel, hp, Option.isSome_none, Bool.false_eq_true, if_false]
      omega
    | some e =>
      simp only [Sys.cancel, hp, Option.isSome_some, if_true]
      split at hcount <;> omega
  · intro hh
    rw [hstate] at hh
    have hle := h.bounded hh
    unfold Sys.cancel
    dsimp only
    split
    · exact (Nat.sub_le _ _).trans hle
    · exact hle

theorem Sys.Ok.step {a : Act} (h : s.Ok cfg) (hstep : s.step cfg a = some s') : s'.Ok cfg := by
  cases a with
  | start =>
    cases hstart : s.start cfg with
    | error e =>
      simp only [Sys.step, hstart] at hstep
      cases hstep
      exact h
    | ok t =>
      simp only [Sys.step, hstart] at hstep
      cases hstep
      exact h.start hstart
  | complete i outcome =>
    obtain ⟨call, _, hstep⟩ := Option.map_eq_some_iff.1 hstep
    cases hstep
    have hout := @settle_not_halfOpen cfg s.inner s.now outcome
    exact ⟨fun hh => absurd hh hout, fun hh => absurd hh hout⟩
  | cancel i =>
    obtain ⟨call, hi, hstep⟩ := Option.map_eq_some_iff.1 hstep
    cases hstep
    exact h.cancel hi
  | tick nanos =>
    cases hstep
    exact ⟨h.counted, h.bounded⟩

theorem ok_new (now : Nat) : (new cfg now).Ok cfg := by
  constructor <;> intro hh <;> cases hh

theorem start_exhausted : s.start cfg = .error .probesExhausted ↔
    s.inner.state = .halfOpen ∧ cfg.halfOpenProbes ≤ s.inner.halfOpenCount := by
  unfold Sys.start
  cases hs : s.inner.state with
  | opened =>
    simp only [reduceCtorEq, false_and, iff_false]
    split
    · split <;> simp
    · simp
  | halfOpen =>
    simp only [true_and]
    split <;> simp_all
  | closed => simp

/-- In every reachable half-open state the slots in use are held by calls in flight, so when a
call is turned away there is one whose end opens or closes the breaker and whose cancellation
frees a slot. -/
theorem half_open_slots_never_leaked (hprobes : 1 ≤ cfg.halfOpenProbes) (now : Nat) (acts : List Act) (s : Sys)
    (hrun : runFrom (Sys.step cfg) (new cfg now) acts = some s) :
    (s.inner.state = .halfOpen → s.inner.halfOpenCount ≤ s.probes) ∧
    (s.start cfg = .error .probesExhausted → ∃ i call, s.calls[i]? = some call ∧ call.permit = some s.episode ∧
      (∀ outcome, (s.complete cfg i outcome).inner.state ≠ .halfOpen) ∧
      (s.cancel i call).start cfg ≠ .error .probesExhausted) := by
  have hok : s.Ok cfg := reach_invariant (ok_new now) (fun _ _ _ h hstep => h.step hstep) hrun
  refine ⟨hok.counted, fun hfull => ?_⟩
  obtain ⟨hhalf, hle⟩ := start_exhausted.1 hfull
  have hpos : 0 < s.probes := lt_of_lt_of_le hprobes (hle.trans (hok.counted hhalf))
  obtain ⟨call, hmem, hpermit⟩ := List.countP_pos_iff.1 hpos
  obtain ⟨i, hi⟩ := List.mem_iff_getElem?.1 hmem
  have hp : call.permit = some s.episode := by simpa using hpermit
  refine ⟨i, call, hi, hp, fun outcome => settle_not_halfOpen _ _ _, fun hagain => ?_⟩
  obtain ⟨_, hle'⟩ := start_exhausted.1 hagain
  have hbound := hok.bounded hhalf
  simp only [Sys.cancel, hp, Option.isSome_some, if_true] at hle'
  omega

def oneProbe : BreakerConfig := ⟨fun failures total => decide (total ≤ 2 * failures), 30, 1, 10⟩

def probeInFlight : List Act :=
  List.replicate 5 Act.start ++ List.replicate 5 (.complete 0 .err) ++ [.tick 10, .start, .start]

theorem half_open_slots_one_probe : (runFrom (Sys.step oneProbe) (new oneProbe 0) probeInFlight).map
      (fun s => (s.inner.state, s.inner.halfOpenCount, s.calls)) = some (.halfOpen, 1, [⟨none⟩, ⟨some 1⟩]) ∧
    ∀ s, runFrom (Sys.step oneProbe) (new oneProbe 0) probeInFlight = some s →
      (s.inner.state = .halfOpen → s.inner.halfOpenCount ≤ s.probes) ∧
      (s.start oneProbe = .error .probesExhausted →
        ∃ i call, s.calls[i]? = some call ∧ call.permit = some s.episode ∧
          (∀ outcome, (s.complete oneProbe i outcome).inner.state ≠ .halfOpen) ∧
          (s.cancel i call).start oneProbe ≠ .error .probesExhausted) :=
  ⟨by decide +kernel, fun s => half_open_slots_never_leaked (by decide) 0 probeInFlight s⟩

end Ecat.Breaker
