import Ecat.RoutedModel

/-! Routed reads keep away from replicas whose breaker rejects them, as long as nothing between the
look of a read and its call proves the look wrong. -/

namespace Ecat.Routing

open Breaker (BreakerConfig)

variable {cfg : BreakerConfig} {s s' : Sys} {a : Act} {r r' : RdbmsRouting} {read : Read} {start : UInt64}
  {i j k : Nat}

/-! ### The reads -/

theorem passed_congr (hlength : r'.replicas.length = r.replicas.length) :
    read.Passed r' k ↔ read.Passed r k := by
  cases read with
  | scanning | probing => simp only [Read.Passed, RdbmsRouting.slot, hlength]
  | picked replica => cases replica <;> exact Iff.rfl
  | running | rejected | noAvailableReplica => exact Iff.rfl

theorem holds_congr (hlength : r'.replicas.length = r.replicas.length) : read.Holds r' j ↔ read.Holds r j := by
  cases read with
  | probing => simp only [Read.Holds, RdbmsRouting.slot, hlength]
  | picked replica => cases replica <;> exact Iff.rfl
  | scanning | running | rejected | noAvailableReplica => exact Iff.rfl

/-- The read neglects no healthy replica, and its scan will see every replica. -/
structure Read.Sound (cfg : BreakerConfig) (r : RdbmsRouting) (read : Read) : Prop where
  safe : ∀ k, read.Neglects cfg r k → ¬ r.Healthy cfg k
  covers : ∀ start i, read = .scanning start i ∨ read = .probing start i → r.CoversFrom start

/-- A steady step leaves the reads sound that it is not a step of. -/
theorem Read.Sound.step (hsteady : s.Steady cfg a) (h : s.step cfg a = some s') (hread : s.reads[i]? = some read)
    (ha : a ≠ .call i) (hsound : read.Sound cfg s.routing) : read.Sound cfg s'.routing := by
  obtain ⟨hlength, _⟩ := step_frame h
  have hheal := fun k hk => hsteady.heal k hk read (List.mem_of_getElem? hread)
  constructor
  · intro k hneglects hhealthy
    have hk := healthy_step h hhealthy
    rcases hneglects with hpassed | ⟨j, hholds, hne, hrejects⟩
    · have hneglects : read.Neglects cfg s.routing k := .inl ((passed_congr hlength).1 hpassed)
      rcases hk with hk | hk
      · exact hsound.safe k hneglects hk
      · exact hheal k hk hneglects
    · rw [holds_congr hlength] at hholds
      rcases rejects_of_step h hrejects with hbefore | hspoils
      · have hneglects : read.Neglects cfg s.routing k := .inr ⟨j, hholds, hne, hbefore⟩
        rcases hk with hk | hk
        · exact hsound.safe k hneglects hk
        · exact hheal k hk hneglects
      · rcases hk with hk | hk
        · exact hsteady.spoil j hspoils i read hread ha hholds k hne.symm hk
        · exact hne (heals_spoils hk hspoils)
  · intro start n hscans
    rw [RdbmsRouting.CoversFrom, hlength]
    exact hsound.covers start n hscans

theorem sound_congr (hreplicas : r'.replicas = r.replicas) (hmax : r'.maxReplicaLag = r.maxReplicaLag) :
    read.Sound cfg r' ↔ read.Sound cfg r := by
  have hlength : r'.replicas.length = r.replicas.length := by rw [hreplicas]
  have hneglects : ∀ k, read.Neglects cfg r' k ↔ read.Neglects cfg r k := by
    intro k
    simp only [Read.Neglects, RdbmsRouting.Rejects, passed_congr hlength, holds_congr hlength, hreplicas]
  constructor
  · intro h
    constructor
    · intro k hk hhealthy
      exact h.safe k ((hneglects k).2 hk) (by rwa [RdbmsRouting.Healthy, hreplicas, hmax])
    · intro start n hscans
      have hcovers := h.covers start n hscans
      rwa [RdbmsRouting.CoversFrom, hlength] at hcovers
  · intro h
    constructor
    · intro k hk hhealthy
      exact h.safe k ((hneglects k).1 hk) (by rwa [RdbmsRouting.Healthy, hreplicas, hmax] at hhealthy)
    · intro start n hscans
      rw [RdbmsRouting.CoversFrom, hlength]
      exact h.covers start n hscans

theorem sound_picked (h : r.Rejects cfg j → ∀ k, k ≠ j → ¬ r.Healthy cfg k) :
    (Read.picked (some j)).Sound cfg r := by
  constructor
  · rintro k (hpassed | ⟨j', hholds, hne, hrejects⟩)
    · exact hpassed.elim
    · obtain rfl : j = j' := hholds
      exact h hrejects k hne.symm
  · simp

/-- A replica that was not available is passed, and after the last one none is healthy. -/
theorem sound_advance (hcovers : r.CoversFrom start) (hpassed : ∀ i' ≤ i, ¬ r.Healthy cfg (r.slot start i')) :
    (r.advance start i).Sound cfg r := by
  unfold RdbmsRouting.advance
  split
  · constructor
    · rintro k (⟨i', hi', rfl⟩ | ⟨j, hholds, _⟩)
      · exact hpassed i' (Nat.le_of_lt_succ hi')
      · exact hholds.elim
    · intro start' n hscans
      rcases hscans with hscans | hscans
      · cases hscans
        exact hcovers
      · cases hscans
  · rename_i hlast
    constructor
    · rintro k _ hhealthy
      obtain ⟨e, he, _⟩ := id hhealthy
      obtain ⟨i', hi', hslot⟩ := slot_covers hcovers (List.getElem?_eq_some_iff.1 he).1
      rw [← hslot] at hhealthy
      exact hpassed i' (by omega) hhealthy
    · simp

theorem sound_begin (hsteady : s.Steady cfg .begin) (hsound : ∀ read ∈ s.reads, read.Sound cfg s.routing) :
    ∀ read ∈ s.begin.reads, read.Sound cfg s.begin.routing := by
  intro read hread
  obtain ⟨hreplicas, hmax⟩ := begin_frame s
  rw [sound_congr hreplicas hmax]
  unfold Sys.begin at hread
  split at hread
  · rename_i hnone
    rcases List.mem_append.1 hread with hold | hnew
    · exact hsound read hold
    · rw [List.mem_singleton.1 hnew]
      constructor
      · rintro k _ ⟨e, he, _⟩
        have hlt := (List.getElem?_eq_some_iff.1 he).1
        omega
      · simp
  · rcases List.mem_append.1 hread with hold | hnew
    · exact hsound read hold
    · rw [List.mem_singleton.1 hnew]
      constructor
      · rintro k (⟨i', hi', _⟩ | ⟨j, hholds, _⟩)
        · exact absurd hi' (Nat.not_lt_zero _)
        · exact hholds.elim
      · rintro start n (hscans | hscans)
        · cases hscans
          exact hsteady.rotation rfl
        · cases hscans

theorem not_healthy_of_open {e : Endpoint} (he : r.replicas[k]? = some e) (hopen : e.isOpen cfg) :
    ¬ r.Healthy cfg k := by
  rintro ⟨e', he', hclosed, _⟩
  cases he.symm.trans he'
  have hs := of_decide_eq_true hopen
  cases hs.symm.trans hclosed

theorem not_healthy_of_lag {e : Endpoint} (he : r.replicas[k]? = some e) (hlag : ¬ e.inBound r.maxReplicaLag) :
    ¬ r.Healthy cfg k := by
  rintro ⟨e', he', _, hbound⟩
  cases he.symm.trans he'
  exact hlag hbound

theorem sound_look {n : Nat} {e : Endpoint} (hsteady : s.Steady cfg (.look i))
    (hread : s.reads[i]? = some (.scanning start n)) (he : s.routing.replicas[s.routing.slot start n]? = some e)
    (hsound : (Read.scanning start n).Sound cfg s.routing) :
    (if e.isOpen cfg then s.routing.advance start n
      else if s.routing.maxReplicaLag.isNone then Read.picked (some (s.routing.slot start n))
      else .probing start n).Sound cfg s.routing := by
  have hcovers := hsound.covers start n (.inl rfl)
  have hpassed : ∀ i' < n, ¬ s.routing.Healthy cfg (s.routing.slot start i') :=
    fun i' hi' => hsound.safe _ (.inl ⟨i', hi', rfl⟩)
  by_cases hopen : e.isOpen cfg
  · rw [if_pos hopen]
    refine sound_advance hcovers fun i' hi' => ?_
    rcases Nat.lt_or_eq_of_le hi' with hlt | rfl
    · exact hpassed i' hlt
    · exact not_healthy_of_open he hopen
  · rw [if_neg hopen]
    have hsettles : s.routing.Rejects cfg (s.routing.slot start n) →
        ∀ k, k ≠ s.routing.slot start n → ¬ s.routing.Healthy cfg k := by
      rintro ⟨e', error, he', hrejects⟩
      cases he.symm.trans he'
      have hstate : e.breaker.state cfg ≠ .opened := by simpa [Endpoint.isOpen] using hopen
      exact hsteady.look i start n e rfl hread he (exhausted_of_rejects ⟨error, hrejects⟩ hstate)
    split
    · exact sound_picked hsettles
    · constructor
      · rintro k (⟨i', hi', rfl⟩ | ⟨j, hholds, hne, hrejects⟩)
        · exact hpassed i' hi'
        · obtain rfl : s.routing.slot start n = j := hholds
          exact hsettles hrejects k hne.symm
      · rintro start' n' (hscans | hscans)
        · cases hscans
        · cases hscans
          exact hcovers

theorem sound_probe {n : Nat} {e : Endpoint} (he : s.routing.replicas[s.routing.slot start n]? = some e)
    (hsound : (Read.probing start n).Sound cfg s.routing) :
    (if e.inBound s.routing.maxReplicaLag then Read.picked (some (s.routing.slot start n))
      else s.routing.advance start n).Sound cfg s.routing := by
  by_cases hbound : e.inBound s.routing.maxReplicaLag
  · rw [if_pos hbound]
    exact sound_picked fun hrejects k hne => hsound.safe k (.inr ⟨_, rfl, hne.symm, hrejects⟩)
  · rw [if_neg hbound]
    refine sound_advance (hsound.covers start n (.inr rfl)) fun i' hi' => ?_
    rcases Nat.lt_or_eq_of_le hi' with hlt | rfl
    · exact hsound.safe _ (.inl ⟨i', hlt, rfl⟩)
    · exact not_healthy_of_lag he hbound

/-- A read that has returned neglects nothing. -/
theorem sound_returned (hpassed : ∀ k, ¬ read.Passed r k) (hholds : ∀ j, ¬ read.Holds r j)
    (hscans : ∀ start i, read ≠ .scanning start i ∧ read ≠ .probing start i) : read.Sound cfg r := by
  constructor
  · rintro k (h | ⟨j, h, _⟩)
    · exact absurd h (hpassed k)
    · exact absurd h (hholds j)
  · rintro start n (h | h)
    · exact absurd h (hscans start n).1
    · exact absurd h (hscans start n).2

theorem mem_put {phase : Read} (h : read ∈ (s.put i phase).reads) :
    read = phase ∨ ∃ n, n ≠ i ∧ s.reads[n]? = some read := by
  obtain ⟨n, hn⟩ := List.mem_iff_getElem?.1 h
  by_cases hni : n = i
  · left
    simp only [Sys.put, hni, List.getElem?_set, if_true] at hn
    split at hn
    · cases hn
      rfl
    · cases hn
  · right
    rw [Sys.put, List.getElem?_set_ne (Ne.symm hni)] at hn
    exact ⟨n, hni, hn⟩

/-- Steady steps keep every read from neglecting a healthy replica. -/
theorem sound_step (hsteady : s.Steady cfg a) (h : s.step cfg a = some s')
    (hsound : ∀ read ∈ s.reads, read.Sound cfg s.routing) : ∀ read ∈ s'.reads, read.Sound cfg s'.routing := by
  have hkeep : ∀ (i : Nat) read, s.reads[i]? = some read → a ≠ .call i → read.Sound cfg s'.routing :=
    fun i read hread ha => (hsound read (List.mem_of_getElem? hread)).step hsteady h hread ha
  have hput : ∀ i phase, s'.reads = (s.put i phase).reads → (∀ n, n ≠ i → a ≠ .call n) →
      phase.Sound cfg s'.routing → ∀ read ∈ s'.reads, read.Sound cfg s'.routing := by
    intro i phase hreads ha hphase read hread
    rw [hreads] at hread
    rcases mem_put hread with rfl | ⟨n, hne, hn⟩
    · exact hphase
    · exact hkeep n read hn (ha n hne)
  have hsame : s'.reads = s.reads → (∀ n, a ≠ .call n) → ∀ read ∈ s'.reads, read.Sound cfg s'.routing := by
    intro hreads ha read hread
    obtain ⟨n, hn⟩ := List.mem_iff_getElem?.1 hread
    rw [hreads] at hn
    exact hkeep n read hn (ha n)
  have hcall : ∀ i n : Nat, n ≠ i → Act.call i ≠ .call n := by
    intro i n hne heq
    cases heq
    exact hne rfl
  rcases step_cases h with ⟨_, rfl, hs'⟩ | ⟨_, _, _, rfl, _, hs'⟩ | ⟨_, _, _, _, rfl, _, _, hs'⟩ | ⟨rfl, hs'⟩ |
    ⟨i, start, n, e, rfl, hread, he, hs'⟩ | ⟨i, start, n, e, rfl, hread, he, hs'⟩ |
    ⟨i, target, rfl, hread, hadmit⟩ | ⟨i, rfl, hread, hs'⟩
  · exact hsame (by rw [hs']) (by simp)
  · exact hsame (by rw [hs']) (by simp)
  · exact hsame (by rw [hs']) (by simp)
  · rw [hs']
    exact sound_begin hsteady hsound
  · have hphase := sound_look hsteady hread he (hsound _ (List.mem_of_getElem? hread))
    refine hput i _ (by rw [hs']) (by simp) ?_
    rw [hs']
    exact hphase
  · have hphase := sound_probe he (hsound _ (List.mem_of_getElem? hread))
    refine hput i _ (by rw [hs']) (by simp) ?_
    rw [hs']
    exact hphase
  · obtain ⟨e, _, ⟨error, _, hs'⟩ | ⟨b, _, _, hreads⟩⟩ := call_cases hadmit
    · refine hput i (.rejected target error) (by rw [hs']) (hcall i) ?_
      exact sound_returned (fun _ h => h) (fun _ h => h) (by simp)
    · refine hput i (.running target) hreads (hcall i) ?_
      exact sound_returned (fun _ h => h) (fun _ h => h) (by simp)
  · refine hput i .noAvailableReplica (by rw [hs']) (hcall i) ?_
    exact sound_returned (fun _ h => h) (fun _ h => h) (by simp)

/-! ### Every run -/

/-- A call that is rejected was its read's choice, and a sound choice neglects no healthy replica. -/
theorem avoids_of_sound (hsound : ∀ read ∈ s.reads, read.Sound cfg s.routing) : AvoidsBroken cfg s a := by
  rintro s' i target error rfl h hrejected k hne hhealthy
  rcases step_cases h with ⟨_, hact, _⟩ | ⟨_, _, _, hact, _⟩ | ⟨_, _, _, _, hact, _⟩ | ⟨hact, _⟩ |
    ⟨_, _, _, _, hact, _⟩ | ⟨_, _, _, _, hact, _⟩ | ⟨i', target', hact, hread, hcall⟩ | ⟨i', hact, hread, hs'⟩
  iterate 6 cases hact
  · cases hact
    have hlt := (List.getElem?_eq_some_iff.1 hread).1
    obtain ⟨e, he, ⟨error', hrejects, hs'⟩ | ⟨_, _, _, hreads⟩⟩ := call_cases hcall
    · simp only [hs', Sys.put, List.getElem?_set_self hlt, Option.some.injEq, Read.rejected.injEq] at hrejected
      obtain ⟨rfl, _⟩ := hrejected
      rw [hs'] at hhealthy
      refine (hsound _ (List.mem_of_getElem? hread)).safe k ?_ hhealthy
      cases target' with
      | none => exact .inl trivial
      | some j => exact .inr ⟨j, rfl, fun hj => hne (by rw [hj]), e, error', he, hrejects⟩
    · rw [hreads, List.getElem?_set_self hlt] at hrejected
      cases hrejected
  · cases hact
    have hlt := (List.getElem?_eq_some_iff.1 hread).1
    rw [hs', Sys.put, List.getElem?_set_self hlt] at hrejected
    cases hrejected

/-- In every run of steady steps, from any breakers, lags and counter, no routed read ends in a
breaker's rejection while another replica within the lag bound has a closed breaker. -/
theorem reads_avoid_broken (s : Sys) (hreads : s.reads = []) (acts : List Act)
    (hsteady : Meets (Sys.step cfg) (Sys.Steady cfg) s acts) :
    Meets (Sys.step cfg) (AvoidsBroken cfg) s acts :=
  hsteady.imp (P := fun s => ∀ read ∈ s.reads, read.Sound cfg s.routing) (by simp [hreads])
    (fun _ _ _ hsound hsteady hstep => sound_step hsteady hstep hsound) fun _ _ hsound _ => avoids_of_sound hsound

theorem steady_begin (h : s.routing.CoversFrom s.routing.next) : s.Steady cfg .begin :=
  ⟨fun _ => h, by simp, fun _ hheals => hheals.elim, fun _ hspoils => hspoils.elim⟩

theorem steady_look (h : ∀ e ∈ s.routing.replicas, ¬ Exhausted cfg e.breaker) : s.Steady cfg (.look i) :=
  ⟨by simp, fun _ _ _ e _ _ he hexhausted => absurd hexhausted (h e (List.mem_of_getElem? he)),
    fun _ hheals => hheals.elim, fun _ hspoils => hspoils.elim⟩

theorem steady_call (h : ∀ n, n ≠ i → s.reads[n]? = none) : s.Steady cfg (.call i) := by
  refine ⟨by simp, by simp, fun _ hheals => hheals.elim, fun j _ n read hread hne => ?_⟩
  have hnone := h n fun heq => hne (by rw [heq])
  cases hread.symm.trans hnone

def untouched : Endpoint := ⟨Breaker.new Breaker.oneProbe 10, none⟩

/-- Two replicas, the second of which has never failed. -/
def twoReplicas (first : Breaker.Sys) : Sys := ⟨⟨untouched, [⟨first, none⟩, untouched], 0, true, none⟩, []⟩

def justOpened : Breaker.Sys := ⟨⟨.opened, ⟨0, 5, 0, 30⟩, some 5, 0, 1⟩, 10, [], 0⟩

theorem reads_avoid_broken_just_opened :
    runFrom (Sys.step Breaker.oneProbe) (twoReplicas justOpened) [.begin, .look 0, .look 0, .call 0] =
      some ⟨⟨untouched, [⟨justOpened, none⟩, { untouched with
        breaker := { untouched.breaker with calls := [⟨none⟩] } }], 1, true, none⟩, [.running (some 1)]⟩ ∧
    Meets (Sys.step Breaker.oneProbe) (AvoidsBroken Breaker.oneProbe) (twoReplicas justOpened)
      [.begin, .look 0, .look 0, .call 0] := by
  refine ⟨by decide +kernel, reads_avoid_broken _ rfl _ ⟨?_, ?_, ?_, ?_, trivial⟩⟩
  · exact steady_begin (.inl (by decide))
  · exact steady_look (by decide +kernel)
  · exact steady_look (by decide +kernel)
  · refine steady_call fun n hn => ?_
    cases n with
    | zero => exact absurd rfl hn
    | succ n => rfl

/-- A breaker whose one probe is still out, as `probeInFlight` leaves it. -/
def lastProbeOut : Breaker.Sys :=
  ⟨⟨.halfOpen, ⟨0, 5, 0, 30⟩, some 0, 1, 1⟩, 10, [⟨none⟩, ⟨some 1⟩], 1⟩

example : runFrom (Breaker.Sys.step Breaker.oneProbe) (Breaker.new Breaker.oneProbe 0) Breaker.probeInFlight =
    some lastProbeOut := by decide +kernel

/-- The replica without a free slot is not `Open`, so the read settles for it and fails. -/
theorem read_settles_for_exhausted : ¬ ∀ (cfg : BreakerConfig) (s : Sys) (acts : List Act), s.reads = [] →
    Meets (Sys.step cfg) (AvoidsBroken cfg) s acts := by
  intro h
  have hmeets : Meets (Sys.step Breaker.oneProbe) (AvoidsBroken Breaker.oneProbe) (twoReplicas lastProbeOut)
      ([.begin, .look 0] ++ .call 0 :: []) := h _ _ _ rfl
  have hrun : runFrom (Sys.step Breaker.oneProbe) (twoReplicas lastProbeOut) [.begin, .look 0] =
      some ⟨{ (twoReplicas lastProbeOut).routing with next := 1 }, [.picked (some 0)]⟩ := by decide +kernel
  refine hmeets.at hrun _ 0 (some 0) .probesExhausted rfl rfl rfl 1 (by simp) ⟨untouched, rfl, ?_, rfl⟩
  decide +kernel

end Ecat.Routing
