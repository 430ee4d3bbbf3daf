import Ecat.SnowflakeModel

/-! Ids of one generator grow with the shared word, whatever the clock does; the clock error
is returned for a clock that never goes back only when the distance to the epoch overflows. -/

namespace Ecat.Ids

variable {T : Type} [DecidableEq T] {g : Snowflake} {overflow : Overflow}

/-! ### Words and ids as numbers -/

def Issue.word (i : Issue) : Nat := i.timestamp * 4096 + i.sequence

structure Issue.Valid (g : Snowflake) (i : Issue) : Prop where
  timestamp_lt : i.timestamp < 2 ^ 41
  sequence_lt : i.sequence < 4096
  id_eq : i.id = composeId i.timestamp g.workerId i.sequence

theorem shl64_or {n k b : Nat} (hn : n * 2 ^ k < 2 ^ 64) (hb : b < 2 ^ k) :
    shl64 n k ||| b = n * 2 ^ k + b := by
  rw [shl64, Nat.shiftLeft_eq, Nat.mod_eq_of_lt hn, ← Nat.shiftLeft_eq, Nat.shiftLeft_add_eq_or_of_lt hb]

theorem wrapI64_eq {n : Int} (hge : i64Min ≤ n) (hle : n ≤ i64Max) : wrapI64 n = n := by
  rw [i64Min] at hge
  rw [i64Max] at hle
  exact Int.bmod_eq_of_le (by omega) (by omega)

theorem composeId_eq {timestamp workerId sequence : Nat} (ht : timestamp < 2 ^ 41)
    (hw : workerId ≤ maxWorkerId) (hs : sequence < 4096) :
    composeId timestamp workerId sequence = (timestamp * 2 ^ 22 + workerId * 2 ^ 12 + sequence : Nat) := by
  have hw' : workerId ≤ 1023 := hw
  have hlow : shl64 workerId sequenceBits ||| sequence = workerId * 2 ^ 12 + sequence :=
    shl64_or (k := 12) (by omega) (by omega)
  have hall : shl64 timestamp (workerBits + sequenceBits) ||| (workerId * 2 ^ 12 + sequence) =
      timestamp * 2 ^ 22 + (workerId * 2 ^ 12 + sequence) :=
    shl64_or (k := 22) (by omega) (by omega)
  rw [composeId, Nat.or_assoc, hlow, hall, wrapI64_eq]
  · push_cast
    ring
  · rw [i64Min]
    omega
  · rw [i64Max]
    omega

namespace Issue.Valid

variable {i j : Issue}

theorem id_nat (h : i.Valid g) :
    i.id = (i.timestamp * 2 ^ 22 + g.workerId * 2 ^ 12 + i.sequence : Nat) := by
  rw [h.id_eq, composeId_eq h.timestamp_lt g.worker_le h.sequence_lt]

theorem id_lt_iff (hi : i.Valid g) (hj : j.Valid g) : i.id < j.id ↔ i.word < j.word := by
  have h1 := hi.sequence_lt
  have h2 := hj.sequence_lt
  have h3 : g.workerId ≤ 1023 := g.worker_le
  rw [hi.id_nat, hj.id_nat, word, word, Int.ofNat_lt]
  omega

theorem id_nonneg (h : i.Valid g) : 0 ≤ i.id := by
  rw [h.id_nat]
  omega

theorem id_le (h : i.Valid g) : i.id ≤ i64Max := by
  have h1 := h.sequence_lt
  have h2 := h.timestamp_lt
  have h3 : g.workerId ≤ 1023 := g.worker_le
  rw [h.id_nat, i64Max]
  omega

theorem decode_id (h : i.Valid g) : decode i.id = (i.timestamp, g.workerId, i.sequence) := by
  have h1 := h.sequence_lt
  have h2 := h.timestamp_lt
  have h3 : g.workerId ≤ 1023 := g.worker_le
  rw [decode, h.id_nat, Int.toNat_natCast, workerBits, sequenceBits, Nat.shiftRight_eq_div_pow,
    Nat.shiftRight_eq_div_pow]
  refine Prod.ext ?_ (Prod.ext ?_ ?_) <;> dsimp only <;> omega

theorem id_ne {g' : Snowflake} (hi : i.Valid g) (hj : j.Valid g') (h : g.workerId ≠ g'.workerId) :
    i.id ≠ j.id := by
  intro he
  have hd : (i.timestamp, g.workerId, i.sequence) = (j.timestamp, g'.workerId, j.sequence) := by
    rw [← hi.decode_id, ← hj.decode_id, he]
  exact h (congrArg (fun p : Nat × Nat × Nat => p.2.1) hd)

theorem word_lt_unset (h : i.Valid g) : i.word < stateUnset := by
  have h1 := h.sequence_lt
  have h2 := h.timestamp_lt
  rw [word, stateUnset]
  omega

theorem lastMs_word (h : i.Valid g) : lastMs i.word = some (i.timestamp : Int) := by
  have h1 := h.sequence_lt
  have h2 := h.timestamp_lt
  have hdiv : i.word >>> sequenceBits = i.timestamp := by
    rw [word, sequenceBits, Nat.shiftRight_eq_div_pow]
    omega
  rw [lastMs, if_neg h.word_lt_unset.ne, hdiv, wrapI64_eq]
  · rw [i64Min]
    omega
  · rw [i64Max]
    omega

theorem word_and (h : i.Valid g) : i.word &&& maxSequence = i.sequence := by
  have h1 := h.sequence_lt
  have hand : i.word &&& (2 ^ 12 - 1) = i.word % 2 ^ 12 := Nat.and_two_pow_sub_one_eq_mod _ _
  rw [show maxSequence = 2 ^ 12 - 1 from rfl, hand, word]
  omega

end Issue.Valid

/-! ### A turn of the loop -/

theorem swapTo_valid {now sequence next : Nat} {issue : Issue} (hn : now < 2 ^ 41) (hs : sequence < 4096)
    (h : g.swapTo now sequence = .swap next issue) :
    issue.Valid g ∧ next = issue.word ∧ issue.timestamp = now ∧ issue.sequence = sequence := by
  rw [Snowflake.swapTo] at h
  injection h with hnext hissue
  have hword : shl64 now sequenceBits ||| sequence = now * 2 ^ 12 + sequence :=
    shl64_or (k := 12) (by omega) (by omega)
  subst hissue
  refine ⟨⟨hn, hs, by dsimp only⟩, ?_, by dsimp only, by dsimp only⟩
  rw [← hnext, hword, Issue.word]
  norm_num

theorem nextId_swap {state next : Nat} {reading : Int} {issue : Issue}
    (h : g.nextId overflow state reading = .swap next issue) :
    issue.Valid g ∧ next = issue.word ∧
      subI64 overflow reading g.epochMs = some (issue.timestamp : Int) ∧
      ∀ last : Issue, last.Valid g → state = last.word → last.word < next := by
  rw [Snowflake.nextId] at h
  split at h
  · cases h
  next now hnow =>
  split_ifs at h with hback hrange hsame hfull
  · have hlt : now.toNat < 2 ^ 41 := by
      have : (maxTimestamp : Int) = 2 ^ 41 - 1 := rfl
      omega
    have hmask : state &&& maxSequence ≤ 4095 := Nat.and_le_right
    have hne : state &&& maxSequence ≠ 4095 := hfull
    obtain ⟨hvalid, hnext, hts, hseq⟩ := swapTo_valid hlt (by omega) h
    refine ⟨hvalid, hnext, by rw [hnow, hts]; congr 1; omega, ?_⟩
    intro last hlast hst
    rw [hst, hlast.lastMs_word, Option.some.injEq] at hsame
    rw [hst, hlast.word_and] at hseq
    rw [hnext, Issue.word, Issue.word, hts, hseq]
    omega
  · have hlt : now.toNat < 2 ^ 41 := by
      have : (maxTimestamp : Int) = 2 ^ 41 - 1 := rfl
      omega
    obtain ⟨hvalid, hnext, hts, hseq⟩ := swapTo_valid hlt (by omega) h
    refine ⟨hvalid, hnext, by rw [hnow, hts]; congr 1; omega, ?_⟩
    intro last hlast hst
    rw [hst, hlast.lastMs_word] at hback hsame
    have h1 := hlast.sequence_lt
    simp only [Option.any_some, decide_eq_true_eq] at hback
    have h2 : (last.timestamp : Int) ≠ now := fun he => hsame (by rw [he])
    rw [hnext, Issue.word, Issue.word, hts, hseq]
    omega

theorem nextId_rollback {state : Nat} {reading : Int}
    (h : g.nextId overflow state reading = .fail .clockRollback) :
    ∃ now last, subI64 overflow reading g.epochMs = some now ∧ lastMs state = some last ∧ now < last := by
  rw [Snowflake.nextId] at h
  split at h
  · cases h
  next now hnow =>
  split_ifs at h with hback hrange hsame hfull
  · cases hlast : lastMs state with
    | none =>
      rw [hlast] at hback
      cases hback
    | some last =>
      rw [hlast, Option.any_some, decide_eq_true_eq] at hback
      exact ⟨now, last, hnow, rfl, hback⟩
  all_goals cases h

/-! ### Runs -/

def Current (state : Nat) (issued : List Issue) : Prop :=
  (issued = [] ∧ state = stateUnset) ∨ ∃ last, issued.getLast? = some last ∧ state = last.word

structure Inv (g : Snowflake) (s : Sys T) : Prop where
  valid : ∀ i ∈ issues s.outcomes, i.Valid g
  increasing : (issues s.outcomes).Pairwise fun i j => i.word < j.word
  current : Current s.state (issues s.outcomes)

theorem issues_snoc (outcomes : List Outcome) (o : Outcome) :
    issues (outcomes ++ [o]) = issues outcomes ++ issues [o] := List.filterMap_append

theorem word_le_current {issued : List Issue} {state : Nat}
    (hinc : issued.Pairwise fun i j => i.word < j.word) (hcur : Current state issued) {i : Issue}
    (hi : i ∈ issued) : ∃ last ∈ issued, state = last.word ∧ i.word ≤ last.word := by
  rcases hcur with ⟨hnil, -⟩ | ⟨last, hlast, hstate⟩
  · rw [hnil] at hi
    cases hi
  · obtain ⟨before, rfl⟩ := List.getLast?_eq_some_iff.1 hlast
    refine ⟨last, by simp, hstate, ?_⟩
    rcases List.mem_append.1 hi with hb | hl
    · exact ((List.pairwise_append.1 hinc).2.2 i hb last (by simp)).le
    · rw [List.mem_singleton.1 hl]

omit [DecidableEq T] in
theorem Inv.of_issues {s s' : Sys T} (h : Inv g s) (hstate : s'.state = s.state)
    (hissues : issues s'.outcomes = issues s.outcomes) : Inv g s' := by
  refine ⟨?_, ?_, ?_⟩
  · rw [hissues]
    exact h.valid
  · rw [hissues]
    exact h.increasing
  · rw [hissues, hstate]
    exact h.current

theorem Inv.swap {s : Sys T} (h : Inv g s) (t : T) {next : Nat} {issue : Issue} (hissue : issue.Valid g)
    (hnext : next = issue.word)
    (habove : ∀ last : Issue, last.Valid g → s.state = last.word → last.word < next) :
    Inv g { s.finish t (.ok issue) with state := next } := by
  have hissues : issues (s.finish t (.ok issue)).outcomes = issues s.outcomes ++ [issue] :=
    issues_snoc s.outcomes (.ok issue)
  refine ⟨?_, ?_, .inr ⟨issue, ?_, hnext⟩⟩
  · intro i hi
    rw [hissues] at hi
    rcases List.mem_append.1 hi with hi | hi
    · exact h.valid i hi
    · rw [List.mem_singleton.1 hi]
      exact hissue
  · rw [hissues]
    refine List.pairwise_append.2 ⟨h.increasing, List.pairwise_singleton _ _, ?_⟩
    intro i hi j hj
    obtain ⟨last, hmem, hstate, hle⟩ := word_le_current h.increasing h.current hi
    rw [List.mem_singleton.1 hj, ← hnext]
    exact lt_of_le_of_lt hle (habove last (h.valid last hmem) hstate)
  · rw [hissues]
    simp

theorem Inv.settle {s : Sys T} (h : Inv g s) (t : T) {state : Nat} {reading : Int} :
    Inv g (s.settle t state (g.nextId overflow state reading)) := by
  cases hturn : g.nextId overflow state reading with
  | panic => exact h.of_issues rfl ((issues_snoc ..).trans (List.append_nil _))
  | fail e => exact h.of_issues rfl ((issues_snoc ..).trans (List.append_nil _))
  | spin => exact h.of_issues rfl rfl
  | swap next issue =>
    obtain ⟨hissue, hnext, -, habove⟩ := nextId_swap hturn
    rw [Sys.settle]
    by_cases hstate : s.state = state
    · rw [if_pos hstate]
      exact h.swap t hissue hnext (hstate ▸ habove)
    · rw [if_neg hstate]
      exact h.of_issues rfl rfl

theorem Inv.step {s s' : Sys T} (h : Inv g s) (hstep : Step g overflow s s') : Inv g s' := by
  cases hstep with
  | enter t _ => exact h.of_issues rfl rfl
  | load t _ => exact h.of_issues rfl rfl
  | clock t _ reading _ _ => exact h.of_issues rfl rfl
  | compareExchange t _ => exact h.settle t

theorem inv_of_reach {s : Sys T} (h : Reach g overflow start s) : Inv g s := by
  induction h with
  | refl => exact ⟨by simp [start, issues], by simp [start, issues], .inl ⟨rfl, rfl⟩⟩
  | tail _ hstep ih => exact ih.step hstep

theorem reach_act (s : Sys T) (t : T) (a : Act) : Reach g overflow s (s.act g overflow t a) := by
  unfold Sys.act
  split
  next hpc => exact .single (.enter t hpc)
  next hpc => exact .single (.load t hpc)
  next reading state hpc =>
    split_ifs with hrange
    · exact .single (.clock t hpc reading hrange.1 hrange.2)
    · exact .refl
  next state reading hpc => exact .single (.compareExchange t hpc)
  next => exact .refl

theorem reach_run (acts : List (T × Act)) (s : Sys T) : Reach g overflow s (s.run g overflow acts) := by
  induction acts generalizing s with
  | nil => exact .refl
  | cons a acts ih => exact (reach_act s a.1 a.2).trans (ih _)

omit [DecidableEq T] in
theorem ids_increasing {s : Sys T} (h : Inv g s) :
    ((issues s.outcomes).map Issue.id).Pairwise (· < ·) := by
  refine List.pairwise_map.2 (h.increasing.imp_of_mem ?_)
  intro i j hi hj hlt
  exact ((h.valid i hi).id_lt_iff (h.valid j hj)).2 hlt

/-- The ids of a generator grow strictly in the order of their swaps, are distinct, not negative,
give back what they were composed from, and are none of a generator with another worker id. -/
theorem ids_unique {s : Sys T} (h : Reach g overflow start s) :
    ((issues s.outcomes).map Issue.id).Pairwise (· < ·) ∧ ((issues s.outcomes).map Issue.id).Nodup ∧
    (∀ i ∈ issues s.outcomes, 0 ≤ i.id ∧ i.id ≤ i64Max ∧
      decode i.id = (i.timestamp, g.workerId, i.sequence)) ∧
    ∀ {U : Type} [DecidableEq U] (g' : Snowflake) (overflow' : Overflow) (s' : Sys U),
      Reach g' overflow' start s' → g.workerId ≠ g'.workerId →
      ∀ i ∈ issues s.outcomes, ∀ j ∈ issues s'.outcomes, i.id ≠ j.id := by
  have hinv := inv_of_reach h
  refine ⟨ids_increasing hinv, (ids_increasing hinv).imp fun hlt => ne_of_lt hlt, ?_, ?_⟩
  · intro i hi
    exact ⟨(hinv.valid i hi).id_nonneg, (hinv.valid i hi).id_le, (hinv.valid i hi).decode_id⟩
  · intro U _ g' overflow' s' h' hne i hi j hj
    exact (hinv.valid i hi).id_ne ((inv_of_reach h').valid j hj) hne

def call (t : T) (reading : Int) : List (T × Act) :=
  [(t, .enter), (t, .load), (t, .clock reading), (t, .compareExchange)]

def workerOne : Snowflake := ⟨1, 1000, by decide, by decide, by decide⟩

def workerTwo : Snowflake := ⟨2, 1000, by decide, by decide, by decide⟩

/-- Two threads load the word together, so the second swap fails and its call goes round again. -/
def contended : List (Bool × Act) :=
  [(true, .enter), (true, .load)] ++ call false 1005 ++
    [(true, .clock 1005), (true, .compareExchange), (true, .load), (true, .clock 1005),
      (true, .compareExchange)]

theorem ids_unique_contended :
    (issues (start.run workerOne .wraps contended).outcomes).map (fun i => decode i.id) =
      [(5, 1, 0), (5, 1, 1)] ∧
    ((issues (start.run workerOne .wraps contended).outcomes).map Issue.id).Pairwise (· < ·) ∧
    ∀ i ∈ issues (start.run workerOne .wraps contended).outcomes,
      ∀ j ∈ issues (start.run workerTwo .wraps contended).outcomes, i.id ≠ j.id :=
  ⟨by decide +kernel, (ids_unique (reach_run contended start)).1,
    (ids_unique (reach_run contended start)).2.2.2 workerTwo .wraps _ (reach_run contended start) (by decide)⟩

/-! ### The clock error -/

/-- A clock that never goes back and never reads a time before the epoch. -/
structure Forward (g : Snowflake) (readings : List Int) : Prop where
  sorted : readings.Pairwise (· ≤ ·)
  after : ∀ r ∈ readings, g.epochMs ≤ r

/-- The distance to the epoch is an `i64`, or the build stops where it is not. -/
def Fits (g : Snowflake) (overflow : Overflow) (r : Int) : Prop :=
  overflow = .wraps → r - g.epochMs ≤ i64Max

theorem subI64_fits {r now : Int} (h : subI64 overflow r g.epochMs = some now) (hafter : g.epochMs ≤ r)
    (hfits : Fits g overflow r) : now = r - g.epochMs := by
  unfold subI64 at h
  split_ifs at h with hrange
  · exact (Option.some.inj h).symm
  · cases overflow with
    | wraps =>
      have hle := hfits rfl
      exact absurd ⟨by rw [i64Min]; omega, hle⟩ hrange
    | panics => cases h

def Seen (g : Snowflake) (readings : List Int) (word : Nat) : Prop :=
  ∀ last, lastMs word = some last → ∃ r ∈ readings, last = r - g.epochMs

def PcOk (g : Snowflake) (readings : List Int) : Pc → Prop
  | .loaded word => Seen g readings word
  | .clocked word reading => reading ∈ readings ∧ ∀ last, lastMs word = some last → last ≤ reading - g.epochMs
  | _ => True

structure Timely (g : Snowflake) (s : Sys T) : Prop where
  seen : Seen g s.readings s.state
  threads : ∀ t, PcOk g s.readings (s.thread t)
  quiet : .err .clockRollback ∉ s.outcomes

theorem Seen.snoc {readings : List Int} {word : Nat} (h : Seen g readings word) (r : Int) :
    Seen g (readings ++ [r]) word := by
  intro last hlast
  obtain ⟨r', hr', he⟩ := h last hlast
  exact ⟨r', List.mem_append_left _ hr', he⟩

theorem PcOk.snoc {readings : List Int} {pc : Pc} (h : PcOk g readings pc) (r : Int) :
    PcOk g (readings ++ [r]) pc := by
  cases pc with
  | idle => trivial
  | entered => trivial
  | loaded word => exact Seen.snoc h r
  | clocked word reading => exact ⟨List.mem_append_left _ h.1, h.2⟩

theorem pcOk_update {readings : List Int} {thread : T → Pc} (h : ∀ t, PcOk g readings (thread t)) (t : T)
    {pc : Pc} (hpc : PcOk g readings pc) : ∀ u, PcOk g readings (Function.update thread t pc u) := by
  intro u
  by_cases hu : u = t
  · rw [hu, Function.update_self]
    exact hpc
  · rw [Function.update_of_ne hu]
    exact h u

theorem Timely.goto {s : Sys T} (h : Timely g s) (t : T) {pc : Pc} (hpc : PcOk g s.readings pc) :
    Timely g (s.goto t pc) := ⟨h.seen, pcOk_update h.threads t hpc, h.quiet⟩

theorem Timely.finish {s : Sys T} (h : Timely g s) (t : T) {o : Outcome} (ho : o ≠ .err .clockRollback) :
    Timely g (s.finish t o) := by
  refine ⟨h.seen, pcOk_update h.threads t trivial, ?_⟩
  intro hmem
  rcases List.mem_append.1 hmem with hold | hnew
  · exact h.quiet hold
  · exact ho (List.mem_singleton.1 hnew).symm

theorem Timely.settle {s : Sys T} (h : Timely g s) (hforward : Forward g s.readings)
    (hfits : ∀ r ∈ s.readings, Fits g overflow r) {t : T} {state : Nat} {reading : Int}
    (hpc : s.thread t = .clocked state reading) :
    Timely g (s.settle t state (g.nextId overflow state reading)) := by
  have hclocked : PcOk g s.readings (.clocked state reading) := hpc ▸ h.threads t
  obtain ⟨hmem, hlast⟩ := hclocked
  have hnow : ∀ now, subI64 overflow reading g.epochMs = some now → now = reading - g.epochMs :=
    fun now hsub => subI64_fits hsub (hforward.after reading hmem) (hfits reading hmem)
  cases hturn : g.nextId overflow state reading with
  | panic => exact h.finish t (by simp)
  | fail e =>
    refine h.finish t ?_
    intro he
    injection he with he
    subst he
    obtain ⟨now, last, hsub, hword, hlt⟩ := nextId_rollback hturn
    have hle := hlast last hword
    rw [hnow now hsub] at hlt
    omega
  | spin => exact h.goto t trivial
  | swap next issue =>
    rw [Sys.settle]
    by_cases hstate : s.state = state
    · rw [if_pos hstate]
      obtain ⟨hvalid, hnext, hsub, -⟩ := nextId_swap hturn
      have hfin := h.finish t (o := .ok issue) (by simp)
      refine ⟨?_, hfin.threads, hfin.quiet⟩
      intro last hword
      change lastMs next = some last at hword
      rw [hnext, hvalid.lastMs_word, Option.some.injEq] at hword
      exact ⟨reading, hmem, hword ▸ hnow _ hsub⟩
    · rw [if_neg hstate]
      exact h.goto t trivial

theorem Timely.clock {s : Sys T} (h : Timely g s) {t : T} {state : Nat} (hpc : s.thread t = .loaded state)
    {reading : Int} (hforward : Forward g (s.readings ++ [reading])) :
    Timely g { s.goto t (.clocked state reading) with readings := s.readings ++ [reading] } := by
  refine ⟨h.seen.snoc reading, pcOk_update (fun u => (h.threads u).snoc reading) t ?_, h.quiet⟩
  refine ⟨by simp, ?_⟩
  intro last hlast
  have hseen : PcOk g s.readings (.loaded state) := hpc ▸ h.threads t
  obtain ⟨r, hr, he⟩ := hseen last hlast
  have hle := (List.pairwise_append.1 hforward.sorted).2.2 r hr reading (by simp)
  omega

theorem Forward.of_append {readings more : List Int} (h : Forward g (readings ++ more)) :
    Forward g readings :=
  ⟨(List.pairwise_append.1 h.sorted).1, fun r hr => h.after r (List.mem_append_left _ hr)⟩

theorem settle_readings (s : Sys T) (t : T) (state : Nat) (turn : Turn) :
    (s.settle t state turn).readings = s.readings := by
  cases turn with
  | panic => rfl
  | fail e => rfl
  | spin => rfl
  | swap next issue =>
    rw [Sys.settle]
    split_ifs <;> rfl

theorem step_readings {s s' : Sys T} (h : Step g overflow s s') :
    ∃ more, s'.readings = s.readings ++ more := by
  cases h with
  | enter t _ => exact ⟨[], (List.append_nil _).symm⟩
  | load t _ => exact ⟨[], (List.append_nil _).symm⟩
  | clock t _ reading _ _ => exact ⟨[reading], rfl⟩
  | compareExchange t _ => exact ⟨[], by rw [settle_readings, List.append_nil]⟩

theorem Timely.step {s s' : Sys T} (h : Timely g s) (hforward : Forward g s'.readings)
    (hfits : ∀ r ∈ s.readings, Fits g overflow r) (hstep : Step g overflow s s') : Timely g s' := by
  have hbefore : Forward g s.readings := by
    obtain ⟨more, hmore⟩ := step_readings hstep
    exact (hmore ▸ hforward).of_append
  cases hstep with
  | enter t _ => exact h.goto t trivial
  | load t _ => exact h.goto t h.seen
  | clock t hpc reading _ _ => exact h.clock hpc hforward
  | compareExchange t hpc => exact h.settle hbefore hfits hpc

/-- While the distance to the epoch stays an `i64`, a clock that never goes back is never taken
for one that does, however the threads interleave. -/
theorem no_spurious_rollback {s : Sys T} (h : Reach g overflow start s) (hforward : Forward g s.readings)
    (hfits : ∀ r ∈ s.readings, Fits g overflow r) : .err .clockRollback ∉ s.outcomes := by
  suffices hall : Timely g s from hall.quiet
  induction h with
  | refl =>
    refine ⟨?_, fun _ => trivial, by simp [start]⟩
    intro last hlast
    simp [start, lastMs] at hlast
  | tail _ hstep ih =>
    obtain ⟨more, hmore⟩ := step_readings hstep
    have hmem : ∀ r ∈ Sys.readings _, Fits g overflow r := fun r hr =>
      hfits r (hmore ▸ List.mem_append_left _ hr)
    exact (ih (hmore ▸ hforward).of_append hmem).step hforward hmem hstep

theorem no_spurious_rollback_contended :
    (start.run workerOne .wraps contended).readings = [1005, 1005, 1005] ∧
    .err .clockRollback ∉ (start.run workerOne .wraps contended).outcomes :=
  ⟨by decide +kernel, no_spurious_rollback (reach_run contended start)
    ⟨by decide +kernel, by decide +kernel⟩ (by unfold Fits; decide +kernel)⟩

def earlyEpoch : Snowflake := ⟨0, -86400000, by decide, by decide, by decide⟩

theorem spurious_rollback :
    ¬ ∀ s : Sys Unit, Reach earlyEpoch .wraps start s → Forward earlyEpoch s.readings →
      .err .clockRollback ∉ s.outcomes := by
  intro h
  refine h (start.run earlyEpoch .wraps (call () 0 ++ call () i64Max)) (reach_run _ start) ?_ ?_
  · exact ⟨by decide +kernel, by decide +kernel⟩
  · decide +kernel

end Ecat.Ids
