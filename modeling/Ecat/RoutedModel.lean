import Ecat.BreakerEpisodes
import Ecat.Cycle

/-! Routed reads: a read scans the replicas from a rotating start and calls the first one whose
breaker is not open and whose lag is in bound, while other calls, other reads and the clock move the
breakers between its look, its lag probe and its call. -/

namespace Ecat.Routing

open Breaker (BreakerConfig BreakerError)

/-- An endpoint, seen through its breaker and what `replica_lag()` answers now. -/
structure Endpoint where
  breaker : Breaker.Sys
  lag : Option Nat
  deriving DecidableEq, Repr

structure RdbmsRouting where
  primary : Endpoint
  replicas : List Endpoint
  next : UInt64
  fallbackToPrimary : Bool
  maxReplicaLag : Option Nat
  deriving DecidableEq, Repr

/-- Where a routed read stands. `pick_replica` is at `scanning start i` before it looks at the
`i`-th slot from `start`, at `probing start i` while it awaits that replica's lag, and has returned
at `picked`. The target of a call is a replica, or `none` for the primary. -/
inductive Read
  | scanning (start : UInt64) (i : Nat)
  | probing (start : UInt64) (i : Nat)
  | picked (replica : Option Nat)
  | running (target : Option Nat)
  | rejected (target : Option Nat) (error : BreakerError)
  | noAvailableReplica
  deriving DecidableEq, Repr

structure Sys where
  routing : RdbmsRouting
  reads : List Read
  deriving DecidableEq, Repr

/-- `other` is what a call that is no routed read does to a breaker, or a call in flight of either
kind that ends. -/
inductive Act
  | tick (nanos : Nat)
  | replicaLag (replica : Nat) (answer : Option Nat)
  | other (target : Option Nat) (act : Breaker.Act)
  | begin
  | look (read : Nat)
  | probe (read : Nat)
  | call (read : Nat)
  deriving DecidableEq, Repr

variable (cfg : BreakerConfig)

/-! ### The code -/

/-- The first half of `is_available`. -/
def Endpoint.isOpen (e : Endpoint) : Bool := decide (e.breaker.state cfg = .opened)

/-- The second half of `is_available`, after the answer of the lag probe. -/
def Endpoint.inBound (e : Endpoint) (maxLag : Option Nat) : Bool :=
  maxLag.all fun max => e.lag.all fun lag => decide (lag ≤ max)

namespace RdbmsRouting

/-- The index `(start + i) % n`, whose sum wraps. -/
def slot (r : RdbmsRouting) (start : UInt64) (i : Nat) : Nat :=
  (start + UInt64.ofNat i).toNat % r.replicas.length

def endpoint (r : RdbmsRouting) : Option Nat → Option Endpoint
  | none => some r.primary
  | some j => r.replicas[j]?

def set (r : RdbmsRouting) (target : Option Nat) (e : Endpoint) : RdbmsRouting :=
  match target with
  | none => { r with primary := e }
  | some j => { r with replicas := r.replicas.set j e }

/-- The loop goes on after a replica that is not available, or has seen them all. -/
def advance (r : RdbmsRouting) (start : UInt64) (i : Nat) : Read :=
  if i + 1 < r.replicas.length then .scanning start (i + 1) else .picked none

def tick (r : RdbmsRouting) (nanos : Nat) : RdbmsRouting :=
  let later (e : Endpoint) : Endpoint := { e with breaker := { e.breaker with now := e.breaker.now + nanos } }
  { r with primary := later r.primary, replicas := r.replicas.map later }

end RdbmsRouting

namespace Sys

def put (s : Sys) (read : Nat) (phase : Read) : Sys := { s with reads := s.reads.set read phase }

/-- The entry of `pick_replica`. -/
def begin (s : Sys) : Sys :=
  if s.routing.replicas.length = 0 then { s with reads := s.reads ++ [.picked none] }
  else
    { routing := { s.routing with next := s.routing.next + 1 }
      reads := s.reads ++ [.scanning s.routing.next 0] }

/-- The endpoint's breaker turns the read away, or lets it call. -/
def call (s : Sys) (read : Nat) (target : Option Nat) : Option Sys :=
  (s.routing.endpoint target).map fun e =>
    match e.breaker.start cfg with
    | .error error => s.put read (.rejected target error)
    | .ok b => { routing := s.routing.set target { e with breaker := b }
                 reads := s.reads.set read (.running target) }

def step (s : Sys) : Act → Option Sys
  | .tick nanos => some { s with routing := s.routing.tick nanos }
  | .replicaLag j answer => s.routing.replicas[j]?.map fun e =>
      { s with routing := s.routing.set (some j) { e with lag := answer } }
  | .other _ (.tick _) => none
  | .other target act => (s.routing.endpoint target).bind fun e => (e.breaker.step cfg act).map fun b =>
      { s with routing := s.routing.set target { e with breaker := b } }
  | .begin => some s.begin
  | .look read =>
    match s.reads[read]? with
    | some (.scanning start i) => s.routing.replicas[s.routing.slot start i]?.map fun e =>
        s.put read (if e.isOpen cfg then s.routing.advance start i
          else if s.routing.maxReplicaLag.isNone then .picked (some (s.routing.slot start i))
          else .probing start i)
    | _ => none
  | .probe read =>
    match s.reads[read]? with
    | some (.probing start i) => s.routing.replicas[s.routing.slot start i]?.map fun e =>
        s.put read (if e.inBound s.routing.maxReplicaLag then .picked (some (s.routing.slot start i))
          else s.routing.advance start i)
    | _ => none
  | .call read =>
    match s.reads[read]? with
    | some (.picked (some j)) => s.call cfg read (some j)
    | some (.picked none) =>
      if s.routing.fallbackToPrimary then s.call cfg read none else some (s.put read .noAvailableReplica)
    | _ => none

end Sys

/-! ### Avoiding broken replicas -/

namespace RdbmsRouting

def Healthy (r : RdbmsRouting) (k : Nat) : Prop :=
  ∃ e, r.replicas[k]? = some e ∧ e.breaker.state cfg = .closed ∧ e.inBound r.maxReplicaLag

def Rejects (r : RdbmsRouting) (j : Nat) : Prop :=
  ∃ e error, r.replicas[j]? = some e ∧ e.breaker.start cfg = .error error

/-- A scan from `start` sees every replica: its sums stay below the wrap, or the wrap keeps step. -/
def CoversFrom (r : RdbmsRouting) (start : UInt64) : Prop :=
  start.toNat + r.replicas.length ≤ 2 ^ 64 ∨ r.replicas.length ∣ 2 ^ 64

end RdbmsRouting

/-- No routed read ends in a breaker's rejection while another replica is healthy. -/
def AvoidsBroken (s : Sys) (a : Act) : Prop :=
  ∀ s' read target error, a = .call read → s.step cfg a = some s' →
    s'.reads[read]? = some (.rejected target error) → ∀ k, some k ≠ target → ¬ s'.routing.Healthy cfg k

namespace Read

/-- The replicas that the read did not find available. -/
def Passed (r : RdbmsRouting) : Read → Nat → Prop
  | scanning start i, k | probing start i, k => ∃ i' < i, r.slot start i' = k
  | picked none, _ => True
  | _, _ => False

/-- The replica that the read has found not open, and has not called yet. -/
def Holds (r : RdbmsRouting) : Read → Nat → Prop
  | probing start i, j => r.slot start i = j
  | picked (some j'), j => j' = j
  | _, _ => False

/-- The read has passed the replica, or holds another one that would reject it. -/
def Neglects (r : RdbmsRouting) (read : Read) (k : Nat) : Prop :=
  read.Passed r k ∨ ∃ j, read.Holds r j ∧ j ≠ k ∧ r.Rejects cfg j

end Read

/-- A half-open breaker whose slots are all taken. -/
def Exhausted (b : Breaker.Sys) : Prop :=
  b.inner.state = .halfOpen ∧ cfg.halfOpenProbes ≤ b.inner.halfOpenCount

instance (b : Breaker.Sys) : Decidable (Exhausted cfg b) := inferInstanceAs (Decidable (_ ∧ _))

/-- A call that takes the last slot, or whose outcome opens the breaker. -/
def SpoiledBy (b : Breaker.Sys) : Breaker.Act → Prop
  | .start => (b.inner.state = .opened ∧ cfg.halfOpenProbes = 0) ∨
      (b.inner.state = .halfOpen ∧ cfg.halfOpenProbes ≤ b.inner.halfOpenCount + 1)
  | .complete _ outcome => b.inner.state ≠ .opened ∧ (b.inner.settle cfg b.now outcome).state = .opened
  | _ => False

namespace Sys

/-- The step brings replica `k` back: its breaker closes, or its lag is in bound again. -/
def Heals (s : Sys) (k : Nat) : Act → Prop
  | .replicaLag j answer => j = k ∧ ∃ e, s.routing.replicas[k]? = some e ∧
      e.breaker.inner.state = .closed ∧ ({ e with lag := answer } : Endpoint).inBound s.routing.maxReplicaLag
  | .other target (.complete _ outcome) => target = some k ∧ ∃ e, s.routing.replicas[k]? = some e ∧
      e.breaker.inner.state = .halfOpen ∧ outcome.isOk ∧ e.inBound s.routing.maxReplicaLag
  | _ => False

/-- The step uses up or opens the breaker of replica `j`. -/
def Spoils (s : Sys) (j : Nat) : Act → Prop
  | .other target act => target = some j ∧ ∃ e, s.routing.replicas[j]? = some e ∧ SpoiledBy cfg e.breaker act
  | .call read => s.reads[read]? = some (.picked (some j)) ∧
      ∃ e, s.routing.replicas[j]? = some e ∧ SpoiledBy cfg e.breaker .start
  | _ => False

/-- What keeps a read from neglecting a healthy replica: the counter does not wrap under a scan, no
read settles for a half-open breaker without a slot, and between the look of a read and its call
nothing brings back what it has passed or spoils what it holds. -/
structure Steady (s : Sys) (a : Act) : Prop where
  rotation : a = .begin → s.routing.CoversFrom s.routing.next
  look : ∀ read start i e, a = .look read → s.reads[read]? = some (.scanning start i) →
    s.routing.replicas[s.routing.slot start i]? = some e → Exhausted cfg e.breaker →
    ∀ k, k ≠ s.routing.slot start i → ¬ s.routing.Healthy cfg k
  heal : ∀ k, s.Heals k a → ∀ read ∈ s.reads, ¬ read.Neglects cfg s.routing k
  spoil : ∀ j, s.Spoils cfg j a → ∀ (i : Nat) read, s.reads[i]? = some read → a ≠ .call i →
    read.Holds s.routing j → ∀ k, k ≠ j → ¬ s.routing.Healthy cfg k

end Sys

variable {cfg}

/-! ### One breaker -/

theorem state_closed {b : Breaker.Sys} : b.state cfg = .closed ↔ b.inner.state = .closed := by
  unfold Breaker.Sys.state
  split
  · rename_i h
    simp [h.1]
  · rfl

theorem rejects_iff {b : Breaker.Sys} : (∃ error, b.start cfg = .error error) ↔
    (b.inner.state = .opened ∧ ∃ openedAt, b.inner.openedAt = some openedAt ∧ b.now - openedAt < cfg.openDuration) ∨
    Exhausted cfg b := by
  rw [← Breaker.start_opened, Exhausted, ← Breaker.start_exhausted]
  constructor
  · rintro ⟨error, h⟩
    cases error with
    | opened => exact .inl h
    | probesExhausted => exact .inr h
  · rintro (h | h)
    · exact ⟨_, h⟩
    · exact ⟨_, h⟩

/-- A breaker that would reject a call and is not reported open has no slot left. -/
theorem exhausted_of_rejects {b : Breaker.Sys} (hrejects : ∃ error, b.start cfg = .error error)
    (hstate : b.state cfg ≠ .opened) : Exhausted cfg b := by
  rcases rejects_iff.1 hrejects with ⟨hs, openedAt, hat, hlt⟩ | h
  · refine absurd ?_ hstate
    simp [Breaker.Sys.state, hs, hat, not_le.2 hlt]
  · exact h

/-- A breaker comes to reject calls only by an act that spoils it. -/
theorem rejects_step {b b' : Breaker.Sys} {act : Breaker.Act} (hstep : b.step cfg act = some b')
    (hrejects : ∃ error, b'.start cfg = .error error) :
    (∃ error, b.start cfg = .error error) ∨ SpoiledBy cfg b act := by
  rcases Breaker.step_cases hstep with ⟨_, hstart, rfl⟩ | ⟨rfl, hstart⟩ | ⟨i, outcome, call, rfl, _, rfl⟩ |
    ⟨i, call, _, _, rfl⟩ | ⟨nanos, _, rfl⟩
  · exact .inl hstart
  · right
    rcases Breaker.start_cases hstart with ⟨hs, rfl⟩ | ⟨openedAt, hs, _, _, rfl⟩ | ⟨hs, hat, rfl⟩ | ⟨hs, _, rfl⟩
    · rcases rejects_iff.1 hrejects with ⟨h, _⟩ | ⟨h, _⟩
      · cases hs.symm.trans h
      · cases hs.symm.trans h
    · rcases rejects_iff.1 hrejects with ⟨h, _⟩ | ⟨_, hle⟩
      · cases h
      · exact .inl ⟨hs, Nat.le_zero.1 hle⟩
    · rcases rejects_iff.1 hrejects with ⟨_, openedAt, h, _⟩ | ⟨h, _⟩
      · cases hat.symm.trans h
      · cases hs.symm.trans h
    · rcases rejects_iff.1 hrejects with ⟨h, _⟩ | ⟨_, hle⟩
      · cases hs.symm.trans h
      · exact .inr ⟨hs, hle⟩
  · rcases rejects_iff.1 hrejects with ⟨h, openedAt, hat, hlt⟩ | ⟨h, _⟩
    · by_cases hs : b.inner.state = .opened
      · left
        refine rejects_iff.2 (.inl ⟨hs, openedAt, ?_, hlt⟩)
        rcases @Breaker.settle_cases cfg b.inner b.now outcome with ⟨_, hne, _⟩ | ⟨_, _, hsame, _⟩ | ⟨_, hs', _⟩
        · exact absurd hs hne
        · rw [← hsame]
          exact hat
        · cases hs.symm.trans hs'
      · exact .inr ⟨hs, h⟩
    · exact absurd h (Breaker.settle_not_halfOpen _ _ _)
  · left
    rw [rejects_iff] at hrejects ⊢
    rw [Breaker.cancel_state, Exhausted, Breaker.cancel_state] at hrejects
    rcases hrejects with ⟨hs, openedAt, hat, hlt⟩ | ⟨hs, hle⟩
    · refine .inl ⟨hs, openedAt, ?_, hlt⟩
      rw [← hat, Breaker.Sys.cancel]
      split <;> rfl
    · refine .inr ⟨hs, hle.trans ?_⟩
      rw [Breaker.Sys.cancel]
      dsimp only
      split
      · exact Nat.sub_le _ _
      · exact le_refl _
  · left
    rw [rejects_iff] at hrejects ⊢
    rcases hrejects with ⟨hs, openedAt, hat, hlt⟩ | h
    · refine .inl ⟨hs, openedAt, hat, lt_of_le_of_lt ?_ hlt⟩
      exact Nat.sub_le_sub_right (Nat.le_add_right _ _) _
    · exact .inr h

/-- A breaker closes only by a good outcome in the half-open state. -/
theorem closed_step {b b' : Breaker.Sys} {act : Breaker.Act} (hstep : b.step cfg act = some b')
    (hclosed : b'.inner.state = .closed) : b.inner.state = .closed ∨
      ∃ i outcome, act = .complete i outcome ∧ b.inner.state = .halfOpen ∧ outcome.isOk := by
  rcases Breaker.step_cases hstep with ⟨_, _, rfl⟩ | ⟨_, hstart⟩ | ⟨i, outcome, call, rfl, _, rfl⟩ |
    ⟨i, call, _, _, rfl⟩ | ⟨nanos, _, rfl⟩
  · exact .inl hclosed
  · left
    rcases Breaker.start_cases hstart with ⟨hs, _⟩ | ⟨_, _, _, _, rfl⟩ | ⟨_, _, rfl⟩ | ⟨_, _, rfl⟩
    · exact hs
    · cases hclosed
    · exact hclosed
    · exact hclosed
  · cases hs : b.inner.state with
    | closed => exact .inl rfl
    | opened =>
      rw [Breaker.Sys.complete, Breaker.Inner.settle] at hclosed
      simp [hs] at hclosed
    | halfOpen =>
      refine .inr ⟨i, outcome, rfl, rfl, ?_⟩
      by_contra hbad
      rw [Breaker.Sys.complete, Breaker.Inner.settle] at hclosed
      simp [hs, hbad, Breaker.Inner.trip] at hclosed
  · left
    rw [Breaker.cancel_state] at hclosed
    exact hclosed
  · exact .inl hclosed

/-! ### One step -/

variable {s s' : Sys} {a : Act} {r r' : RdbmsRouting} {read : Read} {start : UInt64} {i j k : Nat}

theorem slot_eq (h : r.CoversFrom start) {i : Nat} (hi : i < r.replicas.length) :
    r.slot start i = (start.toNat + i) % r.replicas.length := by
  rw [RdbmsRouting.slot, UInt64.toNat_add, UInt64.toNat_ofNat', Nat.add_mod_mod]
  rcases h with h | h
  · rw [Nat.mod_eq_of_lt (by omega : start.toNat + i < 2 ^ 64)]
  · exact Nat.mod_mod_of_dvd _ h

theorem slot_covers (h : r.CoversFrom start) (hk : k < r.replicas.length) :
    ∃ i < r.replicas.length, r.slot start i = k := by
  obtain ⟨i, hi, hslot⟩ := List.mem_map.1 (mem_cycle.2 hk : k ∈ cycle _ start.toNat _)
  have hi := List.mem_range.1 hi
  exact ⟨i, hi, (slot_eq h hi).trans hslot⟩

theorem replica_set {target : Option Nat} {e e' : Endpoint} (h : (r.set target e).replicas[k]? = some e') :
    (target = some k ∧ e' = e) ∨ r.replicas[k]? = some e' := by
  cases target with
  | none => exact .inr h
  | some j =>
    by_cases hj : j = k
    · left
      simp only [RdbmsRouting.set, hj, List.getElem?_set, if_true] at h
      split at h
      · cases h
        exact ⟨by rw [hj], rfl⟩
      · cases h
    · right
      simpa only [RdbmsRouting.set, List.getElem?_set_ne hj] using h

theorem set_frame (target : Option Nat) (e : Endpoint) : (r.set target e).replicas.length = r.replicas.length ∧
    (r.set target e).maxReplicaLag = r.maxReplicaLag := by
  cases target <;> simp [RdbmsRouting.set]

theorem begin_frame (s : Sys) : s.begin.routing.replicas = s.routing.replicas ∧
    s.begin.routing.maxReplicaLag = s.routing.maxReplicaLag := by
  unfold Sys.begin
  split <;> exact ⟨rfl, rfl⟩

/-- A call is turned away and leaves the endpoints as they are, or it is admitted by its target. -/
theorem call_cases {target : Option Nat} (h : s.call cfg i target = some s') :
    ∃ e, s.routing.endpoint target = some e ∧
      ((∃ error, e.breaker.start cfg = .error error ∧ s' = s.put i (.rejected target error)) ∨
       (∃ b, e.breaker.start cfg = .ok b ∧ s'.routing = s.routing.set target { e with breaker := b } ∧
        s'.reads = s.reads.set i (.running target))) := by
  obtain ⟨e, he, hcall⟩ := Option.map_eq_some_iff.1 h
  refine ⟨e, he, ?_⟩
  cases hstart : e.breaker.start cfg with
  | error error =>
    simp only [hstart] at hcall
    exact .inl ⟨error, rfl, hcall.symm⟩
  | ok b =>
    simp only [hstart] at hcall
    exact .inr ⟨b, rfl, by rw [← hcall], by rw [← hcall]⟩

/-- The ways a step ends: only the clock, a lag, another's act on a breaker and an admitted call change an
endpoint, and only the steps of a read change what is known of it. -/
theorem step_cases (h : s.step cfg a = some s') :
    (∃ nanos, a = .tick nanos ∧ s' = { s with routing := s.routing.tick nanos }) ∨
    (∃ j answer e, a = .replicaLag j answer ∧ s.routing.replicas[j]? = some e ∧
      s' = { s with routing := s.routing.set (some j) { e with lag := answer } }) ∨
    (∃ target act e b, a = .other target act ∧ s.routing.endpoint target = some e ∧
      e.breaker.step cfg act = some b ∧
      s' = { s with routing := s.routing.set target { e with breaker := b } }) ∨
    (a = .begin ∧ s' = s.begin) ∨
    (∃ i start n e, a = .look i ∧ s.reads[i]? = some (.scanning start n) ∧
      s.routing.replicas[s.routing.slot start n]? = some e ∧
      s' = s.put i (if e.isOpen cfg then s.routing.advance start n
        else if s.routing.maxReplicaLag.isNone then .picked (some (s.routing.slot start n))
        else .probing start n)) ∨
    (∃ i start n e, a = .probe i ∧ s.reads[i]? = some (.probing start n) ∧
      s.routing.replicas[s.routing.slot start n]? = some e ∧
      s' = s.put i (if e.inBound s.routing.maxReplicaLag then .picked (some (s.routing.slot start n))
        else s.routing.advance start n)) ∨
    (∃ i target, a = .call i ∧ s.reads[i]? = some (.picked target) ∧ s.call cfg i target = some s') ∨
    (∃ i, a = .call i ∧ s.reads[i]? = some (.picked none) ∧ s' = s.put i .noAvailableReplica) := by
  cases a with
  | tick nanos =>
    cases h
    exact .inl ⟨nanos, rfl, rfl⟩
  | replicaLag j answer =>
    obtain ⟨e, he, rfl⟩ := Option.map_eq_some_iff.1 h
    exact .inr (.inl ⟨j, answer, e, rfl, he, rfl⟩)
  | other target act =>
    have hother : (s.routing.endpoint target).bind (fun e => (e.breaker.step cfg act).map fun b =>
        ({ s with routing := s.routing.set target { e with breaker := b } } : Sys)) = some s' := by
      cases act with
      | tick nanos => cases h
      | start | complete | cancel => exact h
    obtain ⟨e, he, hbind⟩ := Option.bind_eq_some_iff.1 hother
    obtain ⟨b, hb, rfl⟩ := Option.map_eq_some_iff.1 hbind
    exact .inr (.inr (.inl ⟨target, act, e, b, rfl, he, hb, rfl⟩))
  | begin =>
    cases h
    exact .inr (.inr (.inr (.inl ⟨rfl, rfl⟩)))
  | look i =>
    simp only [Sys.step] at h
    split at h
    · rename_i start n hread
      obtain ⟨e, he, rfl⟩ := Option.map_eq_some_iff.1 h
      exact .inr (.inr (.inr (.inr (.inl ⟨i, start, n, e, rfl, hread, he, rfl⟩))))
    · cases h
  | probe i =>
    simp only [Sys.step] at h
    split at h
    · rename_i start n hread
      obtain ⟨e, he, rfl⟩ := Option.map_eq_some_iff.1 h
      exact .inr (.inr (.inr (.inr (.inr (.inl ⟨i, start, n, e, rfl, hread, he, rfl⟩)))))
    · cases h
  | call i =>
    simp only [Sys.step] at h
    split at h
    · rename_i j hread
      exact .inr (.inr (.inr (.inr (.inr (.inr (.inl ⟨i, some j, rfl, hread, h⟩))))))
    · rename_i hread
      split at h
      · exact .inr (.inr (.inr (.inr (.inr (.inr (.inl ⟨i, none, rfl, hread, h⟩))))))
      · cases h
        exact .inr (.inr (.inr (.inr (.inr (.inr (.inr ⟨i, rfl, hread, rfl⟩))))))
    · cases h

theorem step_frame (h : s.step cfg a = some s') : s'.routing.replicas.length = s.routing.replicas.length ∧
    s'.routing.maxReplicaLag = s.routing.maxReplicaLag := by
  rcases step_cases h with ⟨_, _, rfl⟩ | ⟨_, _, _, _, _, rfl⟩ | ⟨_, _, _, _, _, _, _, rfl⟩ | ⟨_, rfl⟩ |
    ⟨_, _, _, _, _, _, _, rfl⟩ | ⟨_, _, _, _, _, _, _, rfl⟩ | ⟨_, _, _, _, hcall⟩ | ⟨_, _, _, rfl⟩
  · exact ⟨List.length_map _, rfl⟩
  · exact set_frame _ _
  · exact set_frame _ _
  · rw [(begin_frame s).1]
    exact ⟨rfl, (begin_frame s).2⟩
  · exact ⟨rfl, rfl⟩
  · exact ⟨rfl, rfl⟩
  · obtain ⟨e, _, ⟨_, _, rfl⟩ | ⟨b, _, hrouting, _⟩⟩ := call_cases hcall
    · exact ⟨rfl, rfl⟩
    · rw [hrouting]
      exact set_frame _ _
  · exact ⟨rfl, rfl⟩

/-- What one step can do to a replica. -/
theorem replica_step {e' : Endpoint} (h : s.step cfg a = some s') (he' : s'.routing.replicas[k]? = some e') :
    ∃ e, s.routing.replicas[k]? = some e ∧
      (e' = e ∨
       (∃ nanos, a = .tick nanos ∧ e' = { e with breaker := { e.breaker with now := e.breaker.now + nanos } }) ∨
       (∃ answer, a = .replicaLag k answer ∧ e' = { e with lag := answer }) ∨
       (∃ act b, a = .other (some k) act ∧ e.breaker.step cfg act = some b ∧ e' = { e with breaker := b }) ∨
       (∃ i b, a = .call i ∧ s.reads[i]? = some (.picked (some k)) ∧ e.breaker.start cfg = .ok b ∧
        e' = { e with breaker := b })) := by
  rcases step_cases h with ⟨nanos, rfl, rfl⟩ | ⟨j, answer, e, rfl, he, rfl⟩ | ⟨target, act, e, b, rfl, he, hb, rfl⟩ |
    ⟨_, rfl⟩ | ⟨_, _, _, _, _, _, _, rfl⟩ | ⟨_, _, _, _, _, _, _, rfl⟩ | ⟨i, target, rfl, hread, hcall⟩ |
    ⟨_, _, _, rfl⟩
  · simp only [RdbmsRouting.tick, List.getElem?_map, Option.map_eq_some_iff] at he'
    obtain ⟨e, he, rfl⟩ := he'
    exact ⟨e, he, .inr (.inl ⟨nanos, rfl, rfl⟩)⟩
  · rcases replica_set he' with ⟨hj, rfl⟩ | hsame
    · cases hj
      exact ⟨e, he, .inr (.inr (.inl ⟨answer, rfl, rfl⟩))⟩
    · exact ⟨e', hsame, .inl rfl⟩
  · rcases replica_set he' with ⟨rfl, rfl⟩ | hsame
    · exact ⟨e, he, .inr (.inr (.inr (.inl ⟨act, b, rfl, hb, rfl⟩)))⟩
    · exact ⟨e', hsame, .inl rfl⟩
  · rw [(begin_frame s).1] at he'
    exact ⟨e', he', .inl rfl⟩
  · exact ⟨e', he', .inl rfl⟩
  · exact ⟨e', he', .inl rfl⟩
  · obtain ⟨e, he, ⟨_, _, rfl⟩ | ⟨b, hb, hrouting, _⟩⟩ := call_cases hcall
    · exact ⟨e', he', .inl rfl⟩
    · rw [hrouting] at he'
      rcases replica_set he' with ⟨rfl, rfl⟩ | hsame
      · exact ⟨e, he, .inr (.inr (.inr (.inr ⟨i, b, rfl, hread, hb, rfl⟩)))⟩
      · exact ⟨e', hsame, .inl rfl⟩
  · exact ⟨e', he', .inl rfl⟩

/-- A replica comes to be healthy only by an act that heals it. -/
theorem healthy_step (h : s.step cfg a = some s') (hk : s'.routing.Healthy cfg k) :
    s.routing.Healthy cfg k ∨ s.Heals k a := by
  obtain ⟨e', he', hclosed, hbound⟩ := hk
  rw [state_closed] at hclosed
  rw [(step_frame h).2] at hbound
  obtain ⟨e, he, rfl | ⟨nanos, rfl, rfl⟩ | ⟨answer, rfl, rfl⟩ | ⟨act, b, rfl, hb, rfl⟩ | ⟨i, b, rfl, _, hb, rfl⟩⟩ :=
    replica_step h he'
  · exact .inl ⟨e', he, state_closed.2 hclosed, hbound⟩
  · exact .inl ⟨e, he, state_closed.2 hclosed, hbound⟩
  · exact .inr ⟨rfl, e, he, hclosed, hbound⟩
  · rcases closed_step hb hclosed with hs | ⟨i, outcome, rfl, hs, hok⟩
    · exact .inl ⟨e, he, state_closed.2 hs, hbound⟩
    · exact .inr ⟨rfl, e, he, hs, hok, hbound⟩
  · left
    have hstep : e.breaker.step cfg .start = some b := by simp [Breaker.Sys.step, hb, Except.toOption]
    rcases closed_step hstep hclosed with hs | ⟨_, _, hact, _⟩
    · exact ⟨e, he, state_closed.2 hs, hbound⟩
    · cases hact

/-- A replica comes to reject calls only by an act that spoils it. -/
theorem rejects_of_step (h : s.step cfg a = some s') (hj : s'.routing.Rejects cfg j) :
    s.routing.Rejects cfg j ∨ s.Spoils cfg j a := by
  obtain ⟨e', error, he', hrejects⟩ := hj
  obtain ⟨e, he, rfl | ⟨nanos, rfl, rfl⟩ | ⟨answer, rfl, rfl⟩ | ⟨act, b, rfl, hb, rfl⟩ |
    ⟨i, b, rfl, hread, hb, rfl⟩⟩ := replica_step h he'
  · exact .inl ⟨e', error, he, hrejects⟩
  · have hstep : e.breaker.step cfg (.tick nanos) = some { e.breaker with now := e.breaker.now + nanos } := rfl
    rcases rejects_step hstep ⟨error, hrejects⟩ with ⟨error', hbefore⟩ | hspoiled
    · exact .inl ⟨e, error', he, hbefore⟩
    · exact hspoiled.elim
  · exact .inl ⟨e, error, he, hrejects⟩
  · rcases rejects_step hb ⟨error, hrejects⟩ with ⟨error', hbefore⟩ | hspoiled
    · exact .inl ⟨e, error', he, hbefore⟩
    · exact .inr ⟨rfl, e, he, hspoiled⟩
  · have hstep : e.breaker.step cfg .start = some b := by simp [Breaker.Sys.step, hb, Except.toOption]
    rcases rejects_step hstep ⟨error, hrejects⟩ with ⟨error', hbefore⟩ | hspoiled
    · exact .inl ⟨e, error', he, hbefore⟩
    · exact .inr ⟨hread, e, he, hspoiled⟩

theorem heals_spoils (hk : s.Heals k a) (hj : s.Spoils cfg j a) : j = k := by
  cases a with
  | other target act =>
    have htarget : target = some k := by
      cases act with
      | complete i outcome => exact hk.1
      | start | cancel | tick => exact hk.elim
    rw [hj.1, Option.some.injEq] at htarget
    exact htarget
  | tick | replicaLag | begin | look | probe => exact hj.elim
  | call i => exact hk.elim

end Ecat.Routing
