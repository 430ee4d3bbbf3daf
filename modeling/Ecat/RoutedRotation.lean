import Ecat.RoutedReads

/-! `pick_replica` without anything in between: which replicas one pick looks at and which one it
returns, and how often a row of picks chooses each replica. -/

namespace Ecat.Routing

open Breaker (BreakerConfig)

/-- What `pick_replica` returns, with the replicas it has looked at. -/
structure Pick where
  replica : Option Nat
  examined : List Nat
  deriving DecidableEq, Repr

namespace RdbmsRouting

/-- The loop from its round `i` on. -/
def scan (r : RdbmsRouting) (available : Nat → Bool) (start : UInt64) : Nat → Nat → Pick
  | 0, _ => ⟨none, []⟩
  | rounds + 1, i =>
    let ep := r.slot start i
    if available ep then ⟨some ep, [ep]⟩
    else
      let rest := r.scan available start rounds (i + 1)
      ⟨rest.replica, ep :: rest.examined⟩

def pickReplica (r : RdbmsRouting) (available : Nat → Bool) : Pick × RdbmsRouting :=
  if r.replicas.length = 0 then (⟨none, []⟩, r)
  else (r.scan available r.next r.replicas.length 0, { r with next := r.next + 1 })

/-- What a row of picks chooses. -/
def picks (r : RdbmsRouting) (available : Nat → Bool) : Nat → List (Option Nat)
  | 0 => []
  | m + 1 => (r.pickReplica available).1.replica :: (r.pickReplica available).2.picks available m

end RdbmsRouting

variable {r : RdbmsRouting} {available : Nat → Bool}

/-! ### One pick -/

theorem scan_eq (r : RdbmsRouting) (available : Nat → Bool) (start : UInt64) (rounds i : Nat) :
    (r.scan available start rounds i).replica =
        ((List.range' i rounds).map (r.slot start)).find? available ∧
      (r.scan available start rounds i).examined.Sublist ((List.range' i rounds).map (r.slot start)) := by
  induction rounds generalizing i with
  | zero => simp [RdbmsRouting.scan]
  | succ rounds ih =>
    obtain ⟨hreplica, hexamined⟩ := ih (i + 1)
    rw [RdbmsRouting.scan, List.range'_succ, List.map_cons, List.find?_cons]
    by_cases h : available (r.slot start i) = true
    · simp [h]
    · simp [h, hreplica, hexamined]

theorem slots_eq_cycle {start : UInt64} (h : r.CoversFrom start) :
    (List.range' 0 r.replicas.length).map (r.slot start) =
      cycle r.replicas.length start.toNat r.replicas.length := by
  rw [← List.range_eq_range', cycle]
  exact List.map_congr_left fun i hi => slot_eq h (List.mem_range.1 hi)

theorem pickReplica_of_pos (hn : 0 < r.replicas.length) : r.pickReplica available =
    (r.scan available r.next r.replicas.length 0, { r with next := r.next + 1 }) := if_neg hn.ne'

theorem pickReplica_replica (hn : 0 < r.replicas.length) (h : r.CoversFrom r.next) :
    (r.pickReplica available).1.replica =
      (cycle r.replicas.length r.next.toNat r.replicas.length).find? available := by
  rw [pickReplica_of_pos hn, (scan_eq _ _ _ _ _).1, slots_eq_cycle h]

theorem pickReplica_examined (hn : 0 < r.replicas.length) (h : r.CoversFrom r.next) :
    (r.pickReplica available).1.examined.Nodup := by
  rw [pickReplica_of_pos hn]
  have hsub := (scan_eq r available r.next r.replicas.length 0).2
  rw [slots_eq_cycle h] at hsub
  exact hsub.nodup (cycle_nodup _)

/-! ### A row of picks -/

theorem pickReplica_all (hn : 0 < r.replicas.length) (hall : ∀ j < r.replicas.length, available j = true) :
    (r.pickReplica available).1.replica = some (r.next.toNat % r.replicas.length) := by
  obtain ⟨n, hlength⟩ : ∃ n, r.replicas.length = n + 1 := ⟨r.replicas.length - 1, by omega⟩
  have hslot : r.slot r.next 0 = r.next.toNat % r.replicas.length := by simp [RdbmsRouting.slot]
  rw [pickReplica_of_pos hn, (scan_eq _ _ _ _ _).1, ← hslot]
  rw [hlength, List.range'_succ, List.map_cons, List.find?_cons_of_pos]
  rw [hslot]
  exact hall _ (Nat.mod_lt _ hn)

theorem picks_all (hn : 0 < r.replicas.length) (hall : ∀ j < r.replicas.length, available j = true) (m : Nat) :
    r.picks available m =
      (List.range m).map fun t => some ((r.next.toNat + t) % 2 ^ 64 % r.replicas.length) := by
  induction m generalizing r with
  | zero => rfl
  | succ m ih =>
    have hrest := ih (r := { r with next := r.next + 1 }) hn hall
    rw [RdbmsRouting.picks, pickReplica_all hn hall, pickReplica_of_pos hn, hrest, List.range_succ_eq_map,
      List.map_cons, List.map_map, Nat.add_zero, Nat.mod_eq_of_lt r.next.toNat_lt]
    congr 1
    refine List.map_congr_left fun t _ => ?_
    rw [Function.comp_apply, UInt64.toNat_add, UInt64.toNat_one, Nat.mod_add_mod, Nat.add_assoc, Nat.add_comm 1]

/-- The counter stays below the wrap for all the picks, or the wrap keeps step. -/
def RdbmsRouting.KeepsStep (r : RdbmsRouting) (m : Nat) : Prop :=
  r.next.toNat + m ≤ 2 ^ 64 ∨ r.replicas.length ∣ 2 ^ 64

theorem picks_eq_cycle (hn : 0 < r.replicas.length) (hall : ∀ j < r.replicas.length, available j = true) {m : Nat}
    (h : r.KeepsStep m) : r.picks available m = (cycle r.replicas.length r.next.toNat m).map some := by
  rw [picks_all hn hall, cycle, List.map_map]
  refine List.map_congr_left fun t ht => ?_
  have ht := List.mem_range.1 ht
  rw [Function.comp_apply]
  rcases h with h | h
  · rw [Nat.mod_eq_of_lt (by omega : r.next.toNat + t < 2 ^ 64)]
  · rw [Nat.mod_mod_of_dvd _ h]

/-! ### The pick inside the system -/

/-- What `is_available` answers now. -/
def RdbmsRouting.isAvailable (cfg : BreakerConfig) (r : RdbmsRouting) (j : Nat) : Bool :=
  r.replicas[j]?.any fun e => !e.isOpen cfg && e.inBound r.maxReplicaLag

/-- One step of the read, and of nothing else. -/
def Sys.Alone (cfg : BreakerConfig) (read : Nat) (s s' : Sys) : Prop :=
  s.step cfg (.look read) = some s' ∨ s.step cfg (.probe read) = some s'

variable {cfg : BreakerConfig} {s : Sys} {read i rounds : Nat} {start : UInt64}

theorem put_put (s : Sys) (read : Nat) (phase phase' : Read) : (s.put read phase).put read phase' = s.put read phase' := by
  simp [Sys.put]

theorem put_read (h : read < s.reads.length) (phase : Read) : (s.put read phase).reads[read]? = some phase := by
  simp [Sys.put, h]

/-- A look and, where lags are bounded, a probe settle whether the replica is available. -/
theorem reaches_round (hread : s.reads[read]? = some (.scanning start i)) (hn : 0 < s.routing.replicas.length) :
    Relation.ReflTransGen (Sys.Alone cfg read) s (s.put read
      (if s.routing.isAvailable cfg (s.routing.slot start i) then .picked (some (s.routing.slot start i))
        else s.routing.advance start i)) := by
  obtain ⟨e, he⟩ : ∃ e, s.routing.replicas[s.routing.slot start i]? = some e :=
    ⟨_, List.getElem?_eq_getElem (Nat.mod_lt _ hn)⟩
  have hlook : s.step cfg (.look read) = some (s.put read (if e.isOpen cfg then s.routing.advance start i
      else if s.routing.maxReplicaLag.isNone then .picked (some (s.routing.slot start i))
      else .probing start i)) := by
    simp only [Sys.step, hread, he, Option.map_some]
  have havailable : s.routing.isAvailable cfg (s.routing.slot start i) =
      (!e.isOpen cfg && e.inBound s.routing.maxReplicaLag) := by
    rw [RdbmsRouting.isAvailable, he, Option.any_some]
  rw [havailable]
  by_cases hopen : e.isOpen cfg = true
  · refine .single (.inl ?_)
    simpa [hopen] using hlook
  · by_cases hmax : s.routing.maxReplicaLag.isNone = true
    · refine .single (.inl ?_)
      have hbound : e.inBound s.routing.maxReplicaLag = true := by
        rw [Option.isNone_iff_eq_none.1 hmax]
        rfl
      simpa [hopen, hmax, hbound] using hlook
    · have hlen := (List.getElem?_eq_some_iff.1 hread).1
      have hprobing : s.step cfg (.look read) = some (s.put read (.probing start i)) := by
        simpa [hopen, hmax] using hlook
      have hphase := put_read hlen (.probing start i)
      have hprobe : (s.put read (.probing start i)).step cfg (.probe read) =
          some ((s.put read (.probing start i)).put read
            (if e.inBound s.routing.maxReplicaLag then .picked (some (s.routing.slot start i))
              else s.routing.advance start i)) := by
        simp only [Sys.step, hphase]
        exact congrArg (Option.map _) he
      rw [put_put] at hprobe
      rw [Bool.not_eq_true] at hopen
      rw [hopen, Bool.not_false, Bool.true_and]
      exact (Relation.ReflTransGen.single (.inl hprobing)).tail (.inr hprobe)

/-- The scan of the pick is what the read comes to when nothing else happens. -/
theorem reaches_scan (hread : s.reads[read]? = some (.scanning start i)) (hrounds : 0 < rounds)
    (hsum : i + rounds = s.routing.replicas.length) :
    Relation.ReflTransGen (Sys.Alone cfg read) s
      (s.put read (.picked (s.routing.scan (s.routing.isAvailable cfg) start rounds i).replica)) := by
  induction rounds generalizing s i with
  | zero => omega
  | succ rounds ih =>
    have hround := @reaches_round cfg s read i start hread (by omega)
    rw [RdbmsRouting.scan]
    by_cases h : s.routing.isAvailable cfg (s.routing.slot start i) = true
    · rw [if_pos h] at hround ⊢
      exact hround
    · rw [if_neg h] at hround ⊢
      cases rounds with
      | zero =>
        have hlast : s.routing.advance start i = .picked none := if_neg (by omega)
        rw [hlast] at hround
        exact hround
      | succ rounds =>
        have hnext : s.routing.advance start i = .scanning start (i + 1) := if_pos (by omega)
        rw [hnext] at hround
        have hlen := (List.getElem?_eq_some_iff.1 hread).1
        have hrest := ih (s := s.put read (.scanning start (i + 1))) (i := i + 1) (put_read hlen _) (by omega)
          (by simp only [Sys.put]; omega)
        rw [put_put] at hrest
        exact hround.trans hrest

theorem scan_next (r : RdbmsRouting) (next : UInt64) : ({ r with next } : RdbmsRouting).scan available start rounds i =
    r.scan available start rounds i := by
  induction rounds generalizing i with
  | zero => rfl
  | succ rounds ih =>
    rw [RdbmsRouting.scan, RdbmsRouting.scan, ih]
    rfl

theorem reaches_pick (cfg : BreakerConfig) (s : Sys) :
    Relation.ReflTransGen (Sys.Alone cfg s.reads.length) s.begin
      { routing := (s.routing.pickReplica (s.routing.isAvailable cfg)).2
        reads := s.reads ++ [.picked (s.routing.pickReplica (s.routing.isAvailable cfg)).1.replica] } := by
  by_cases hn : s.routing.replicas.length = 0
  · rw [Sys.begin, if_pos hn, RdbmsRouting.pickReplica, if_pos hn]
  · have hscan := @reaches_scan cfg s.begin s.reads.length 0 s.routing.replicas.length s.routing.next
      (by simp [Sys.begin, hn]) (by omega) (by simp [Sys.begin, hn])
    rw [pickReplica_of_pos (by omega)]
    have hsame : ({ s.routing with next := s.routing.next + 1 } : RdbmsRouting).isAvailable cfg =
        s.routing.isAvailable cfg := rfl
    rw [Sys.begin, if_neg hn, scan_next, hsame] at hscan
    rw [Sys.begin, if_neg hn]
    simpa [Sys.put] using hscan

/-! ### Rotation -/

/-- A pick looks once at the replicas, in order from the counter on, up to the first available one.
Picks that find all available choose each replica equally often while the counter keeps step. -/
theorem rotation (r : RdbmsRouting) (available : Nat → Bool) (hn : 0 < r.replicas.length) :
    (r.CoversFrom r.next →
      ((r.pickReplica available).1.replica.isSome ↔ ∃ j < r.replicas.length, available j = true) ∧
      (r.pickReplica available).1.examined.Nodup ∧
      (r.pickReplica available).1.replica =
        ((List.range r.replicas.length).map fun i => (r.next.toNat + i) % r.replicas.length).find? available) ∧
    ((∀ j < r.replicas.length, available j = true) → ∀ k, r.KeepsStep (k * r.replicas.length) →
      ∀ j < r.replicas.length, (r.picks available (k * r.replicas.length)).count (some j) = k) := by
  constructor
  · intro hcovers
    have hreplica := @pickReplica_replica r available hn hcovers
    refine ⟨?_, pickReplica_examined hn hcovers, hreplica⟩
    rw [hreplica, List.find?_isSome]
    simp only [mem_cycle]
  · intro hall k hstep j hj
    rw [picks_eq_cycle hn hall hstep, List.count_map_of_injective _ _ (Option.some_injective _), count_cycle hj]

/-- Three replicas, and a counter that is about to wrap or not. -/
def threeReplicas (next : UInt64) : RdbmsRouting :=
  let e : Endpoint := ⟨Breaker.new Breaker.oneProbe 0, none⟩
  ⟨e, [e, e, e], next, true, none⟩

theorem rotation_three : ((threeReplicas 7).pickReplica (· ≠ 1)).1.replica = some 2 ∧
    ((threeReplicas 7).picks (fun _ => true) 6).count (some 1) = 2 := by
  have hpick := (rotation (threeReplicas 7) (· ≠ 1) (by decide)).1 (.inl (by decide))
  have hpicks := (rotation (threeReplicas 7) (fun _ => true) (by decide)).2 (fun _ _ => rfl) 2 (.inl (by decide))
  exact ⟨hpick.2.2.trans (by decide), hpicks 1 (by decide)⟩

/-- The counter wraps after its last multiple of three: replica 0 is chosen twice in a row. -/
theorem uneven_after_wrap : ¬ ∀ (r : RdbmsRouting) (available : Nat → Bool) (k : Nat), 0 < r.replicas.length →
    r.next.toNat + r.replicas.length < 2 ^ 64 → (∀ j < r.replicas.length, available j = true) →
    ∀ j < r.replicas.length, (r.picks available (k * r.replicas.length)).count (some j) = k := by
  intro h
  have hcount := h (threeReplicas 18446744073709551612) (fun _ => true) 2 (by decide) (by decide) (fun _ _ => rfl) 0 (by decide)
  revert hcount
  decide +kernel

end Ecat.Routing
