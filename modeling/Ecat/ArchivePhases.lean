import Ecat.ArchiveSeeding

/-! Phases of the chunk rows under concurrent runs. `advance` compares and writes in one
statement, so it only moves a row forwards; a seeding `upsert` compares nothing, and moves the
row back when another run has seeded and advanced it since this run found it missing. -/

namespace Ecat.Archive

variable {S T : Type}

def Phase.rank : Phase → Nat
  | pending => 0
  | copied => 1
  | verified => 2
  | dropped => 3

theorem rank_predecessor {p q : Phase} (h : some p = q.predecessor) : p.rank < q.rank := by
  cases q <;> cases h <;> decide

/-- Every chunk row of `w` is still there in `w'`, in the same phase or a later one. -/
def Forwards (w w' : Nat → Option (JobState S)) : Prop :=
  ∀ n st, w n = some st → ∃ st', w' n = some st' ∧ st.phase.rank ≤ st'.phase.rank

theorem Forwards.refl (w : Nat → Option (JobState S)) : Forwards w w :=
  fun _ st h => ⟨st, h, le_rfl⟩

theorem Forwards.trans {w w' w'' : Nat → Option (JobState S)} (h : Forwards w w') (h' : Forwards w' w'') :
    Forwards w w'' := by
  intro n st hst
  obtain ⟨st', hst', hle⟩ := h n st hst
  obtain ⟨st'', hst'', hle'⟩ := h' n st' hst'
  exact ⟨st'', hst'', hle.trans hle'⟩

theorem forwards_update_iff {w : Nat → Option (JobState S)} {n : Nat} {st : JobState S} :
    Forwards w (Function.update w n (some st)) ↔ ∀ old, w n = some old → old.phase.rank ≤ st.phase.rank := by
  constructor
  · intro h old hold
    obtain ⟨st', hst', hle⟩ := h n old hold
    rw [Function.update_self] at hst'
    cases hst'
    exact hle
  · intro h m old hold
    by_cases hm : m = n
    · subst hm
      exact ⟨st, Function.update_self .., h old hold⟩
    · exact ⟨old, by rw [Function.update_of_ne hm, hold], le_rfl⟩

theorem update_forwards (w : World S) (n : Nat) (target : Phase) (checksum : Option S) (time : Nat) :
    Forwards w.jobs (w.update n target checksum time).2.jobs := by
  rw [World.update]
  split
  next st hst =>
    split_ifs with hphase
    · refine forwards_update_iff.2 ?_
      intro old hold
      rw [hst] at hold
      cases hold
      exact (rank_predecessor hphase).le
    · exact Forwards.refl _
  · exact Forwards.refl _

theorem attempt_forwards {α : Type} {c : Reply} {answer : Except TieringError α} {w w' : World S}
    (h : (∀ e, c.lost ≠ some (false, e)) → Forwards w.jobs w'.jobs) :
    Forwards w.jobs (attempt c answer w w').2.jobs := by
  unfold attempt
  split
  next hlost => exact h (by simp [hlost])
  next applied e hlost =>
    cases applied with
    | false => exact Forwards.refl _
    | true => exact h (by simp [hlost])

/-- The call took effect, whatever its caller was told. -/
def CarriedOut (c : Reply) : Prop := ∀ e, c.lost ≠ some (false, e)

/-- An `upsert` that takes effect finds no row for the chunk, or a pending one. -/
def SeedsFresh (o : Op S) (c : Reply) (w : World S) : Prop :=
  match o with
  | .upsert n _ => CarriedOut c → ∀ st, w.jobs n = some st → st.phase = .pending
  | _ => True

theorem exec_forwards [DecidableEq S] {cfg : Config} {digest : List Row → S} {o : Op S} {c : Reply}
    {w : World S} (h : SeedsFresh o c w) : Forwards w.jobs (exec cfg digest o c w).2.jobs := by
  cases o with
  | elapsed => exact Forwards.refl _
  | now => exact Forwards.refl _
  | wait delay => exact Forwards.refl _
  | load n => exact attempt_forwards fun _ => Forwards.refl _
  | upsert n st =>
    refine attempt_forwards fun hlost => forwards_update_iff.2 ?_
    intro old hold
    rw [h hlost old hold]
    exact Nat.zero_le _
  | update n target checksum time => exact attempt_forwards fun _ => update_forwards w n target checksum time
  | readChunk cursor => exact attempt_forwards fun _ => Forwards.refl _
  | writeChunk n rows => exact attempt_forwards fun _ => Forwards.refl _
  | verifyChunk n checksum => exact attempt_forwards fun _ => Forwards.refl _
  | countRows =>
    simp only [exec]
    split <;> exact attempt_forwards fun _ => Forwards.refl _
  | dropPartition => exact attempt_forwards fun _ => Forwards.refl _

/-! ### Runs -/

def JobSeedsFresh (o : JobOp S) (c : JobReply) (w : Store S) : Prop :=
  match o with
  | .part cfg o => SeedsFresh o c.inner (w (cfg.table, cfg.partition))
  | _ => True

def PhasesForwards (w w' : Store S) : Prop := ∀ key, Forwards (w key).jobs (w' key).jobs

theorem PhasesForwards.refl (w : Store S) : PhasesForwards w w := fun _ => Forwards.refl _

theorem jobExec_forwards [DecidableEq S] {digest : List Row → S} {o : JobOp S} {c : JobReply} {w : Store S}
    (h : JobSeedsFresh o c w) : PhasesForwards w (jobExec digest o c w).2 := by
  cases o with
  | nowUtc => exact PhasesForwards.refl w
  | acquire => exact PhasesForwards.refl w
  | release token => exact PhasesForwards.refl w
  | partitions table => exact PhasesForwards.refl w
  | hotRows table partition cutoff => exact PhasesForwards.refl w
  | part cfg o =>
    intro key
    by_cases hkey : key = (cfg.table, cfg.partition)
    · subst hkey
      have hpart : Forwards _ (exec cfg digest o c.inner (w (cfg.table, cfg.partition))).2.jobs :=
        exec_forwards h
      simpa [jobExec] using hpart
    · simpa [jobExec, Function.update_of_ne hkey] using Forwards.refl _

/-! ### The order of the calls -/

abbrev RunCall (T S : Type) := Called T (JobOp S) JobReply

def LoadsRow (key : String × String) (n : Nat) (e : RunCall T S) : Prop :=
  match e.op with
  | .part cfg (.load m) => (cfg.table, cfg.partition) = key ∧ m = n
  | _ => False

def AdvancesRow (key : String × String) (n : Nat) (e : RunCall T S) : Prop :=
  match e.op with
  | .part cfg (.update m ..) => (cfg.table, cfg.partition) = key ∧ m = n ∧ CarriedOut e.reply.inner
  | _ => False

/-- Since run `t` last loaded the state row, no other run's `advance` on it was carried out. -/
def Undisturbed (t : T) (key : String × String) (n : Nat) : List (RunCall T S) → Prop
  | [] => True
  | e :: log => e.thread = t ∧ LoadsRow key n e ∨
    ¬(e.thread ≠ t ∧ AdvancesRow key n e) ∧ Undisturbed t key n log

/-- No other run's `advance` comes between a run's load of a state row and its `upsert` of it. -/
def SeedsUndisturbed (t : T) (o : JobOp S) (c : JobReply) (w : Store S × List (RunCall T S)) : Prop :=
  match o with
  | .part cfg (.upsert n _) => CarriedOut c.inner → Undisturbed t (cfg.table, cfg.partition) n w.2
  | _ => True

theorem attempt_jobs {α : Type} {c : Reply} {answer : Except TieringError α} {w w' : World S} {n : Nat}
    {st : JobState S} (h : (attempt c answer w w').2.jobs n = some st) :
    w.jobs n = some st ∨ CarriedOut c ∧ w'.jobs n = some st := by
  unfold attempt at h
  split at h
  next hlost => exact .inr ⟨by simp [CarriedOut, hlost], h⟩
  next applied e hlost =>
    cases applied with
    | false => exact .inl h
    | true => exact .inr ⟨by simp [CarriedOut, hlost], h⟩

/-- A state row is as before the call, or the call has seeded or advanced it. -/
theorem exec_jobs [DecidableEq S] {cfg : Config} {digest : List Row → S} {o : Op S} {c : Reply} {w : World S}
    {n : Nat} {st : JobState S} (h : (exec cfg digest o c w).2.jobs n = some st) :
    w.jobs n = some st ∨ o = .upsert n st ∨
      CarriedOut c ∧ ∃ target checksum time, o = .update n target checksum time := by
  cases o with
  | elapsed => exact .inl h
  | now => exact .inl h
  | wait delay => exact .inl h
  | load m => exact .inl ((attempt_jobs h).elim id (·.2))
  | upsert m st' =>
    rcases attempt_jobs h with h | ⟨-, h⟩
    · exact .inl h
    by_cases hm : n = m
    · subst hm
      simp only [World.setJob, Function.update_self, Option.some.injEq] at h
      exact .inr (.inl (h ▸ rfl))
    · simp only [World.setJob, Function.update_of_ne hm] at h
      exact .inl h
  | update m target checksum time =>
    rcases attempt_jobs h with h | ⟨hcarried, h⟩
    · exact .inl h
    by_cases hm : n = m
    · subst hm
      exact .inr (.inr ⟨hcarried, target, checksum, time, rfl⟩)
    · left
      rw [World.update] at h
      split at h
      next st' _ =>
        split_ifs at h
        · simpa only [World.setJob, Function.update_of_ne hm] using h
        · exact h
      · exact h
  | readChunk cursor => exact .inl ((attempt_jobs h).elim id (·.2))
  | writeChunk m rows => exact .inl ((attempt_jobs h).elim id (·.2))
  | verifyChunk m checksum => exact .inl ((attempt_jobs h).elim id (·.2))
  | countRows =>
    simp only [exec] at h
    split at h
    · exact .inl ((attempt_jobs h).elim id (·.2))
    · exact .inl ((attempt_jobs h).elim id (·.2))
  | dropPartition => exact .inl ((attempt_jobs h).elim id (·.2))

theorem jobExec_jobs [DecidableEq S] {digest : List Row → S} {o : JobOp S} {c : JobReply} {w : Store S}
    {key : String × String} {n : Nat} {st : JobState S} (h : ((jobExec digest o c w).2 key).jobs n = some st) :
    (w key).jobs n = some st ∨ ∃ cfg, (cfg.table, cfg.partition) = key ∧
      (o = .part cfg (.upsert n st) ∨
        CarriedOut c.inner ∧ ∃ target checksum time, o = .part cfg (.update n target checksum time)) := by
  cases o with
  | nowUtc => exact .inl h
  | acquire => exact .inl h
  | release token => exact .inl h
  | partitions table => exact .inl h
  | hotRows table partition cutoff => exact .inl h
  | part cfg o =>
    by_cases hkey : key = (cfg.table, cfg.partition)
    · subst hkey
      simp only [jobExec, Function.update_self] at h
      rcases exec_jobs h with h | rfl | ⟨hcarried, target, checksum, time, rfl⟩
      · exact .inl h
      · exact .inr ⟨cfg, rfl, .inl rfl⟩
      · exact .inr ⟨cfg, rfl, .inr ⟨hcarried, target, checksum, time, rfl⟩⟩
    · left
      simpa only [jobExec, Function.update_of_ne hkey] using h

/-- A row found missing is still missing or pending as long as the run is undisturbed. -/
def StillFresh (t : T) (q : Option ((String × String) × Nat)) (w : Store S × List (RunCall T S)) : Prop :=
  ∀ key n, q = some (key, n) → Undisturbed t key n w.2 →
    ∀ st, (w.1 key).jobs n = some st → st.phase = .pending

theorem seedsFresh_of_stillFresh {t : T} {q : Option ((String × String) × Nat)} {o : JobOp S} {c : JobReply}
    {w : Store S × List (RunCall T S)} (hq : StillFresh t q w) (hmay : (jobSeedRule S).may q o)
    (hseeds : SeedsUndisturbed t o c w) : JobSeedsFresh o c w.1 := by
  cases o with
  | part cfg o =>
    cases o with
    | upsert n st => exact fun hcarried => hq _ n (hmay cfg n st rfl).1 (hseeds hcarried)
    | _ => trivial
  | _ => trivial

theorem stillFresh_other [DecidableEq S] {digest : List Row → S} {t u : T} {q q' : Option ((String × String) × Nat)}
    {o : JobOp S} {c : JobReply} {w : Store S × List (RunCall T S)} (hne : u ≠ t)
    (hmay : (jobSeedRule S).may q o) (hq' : StillFresh u q' w) :
    StillFresh u q' ((jobExec digest o c w.1).2, ⟨t, o, c⟩ :: w.2) := by
  intro key n hkey hundisturbed st hst
  obtain ⟨hself, -⟩ | ⟨hquiet, hundisturbed⟩ := hundisturbed
  · exact absurd hself hne.symm
  rcases jobExec_jobs hst with hst | ⟨cfg, hcfg, rfl | ⟨hcarried, target, checksum, time, rfl⟩⟩
  · exact hq' key n hkey hundisturbed st hst
  · exact (hmay cfg n st rfl).2
  · exact absurd ⟨hne.symm, hcfg, rfl, hcarried⟩ hquiet

theorem stillFresh_idle [DecidableEq S] {digest : List Row → S} {t : T} {q : Option ((String × String) × Nat)}
    {o : JobOp S} {c : JobReply} {w : Store S × List (RunCall T S)} (hq : StillFresh t q w)
    (hload : ∀ cfg n, o ≠ .part cfg (.load n)) (hupsert : ∀ cfg n st, o ≠ .part cfg (.upsert n st))
    (hupdate : ∀ cfg n target checksum time, o ≠ .part cfg (.update n target checksum time)) :
    StillFresh t q ((jobExec digest o c w.1).2, ⟨t, o, c⟩ :: w.2) := by
  intro key n hkey hundisturbed st hst
  have hnoLoad : ¬LoadsRow key n (⟨t, o, c⟩ : RunCall T S) := by
    intro h
    unfold LoadsRow at h
    split at h
    next cfg m ho => exact hload cfg m ho
    next => exact h
  rcases jobExec_jobs hst with hst | ⟨cfg, -, ho | ⟨-, target, checksum, time, ho⟩⟩
  · exact hq key n hkey (hundisturbed.resolve_left fun h => hnoLoad h.2).2 st hst
  · exact absurd ho (hupsert cfg n st)
  · exact absurd ho (hupdate cfg n target checksum time)

theorem missing_of_attempt {c : Reply} {row : Option (JobState S)} {w : World S}
    (h : (attempt c (.ok row) w w).1 = .ok none) : row = none := by
  unfold attempt at h
  split at h
  next => exact Except.ok.inj h
  next => cases h

/-- A load answered with no row leaves a missing row behind. -/
theorem stillFresh_load [DecidableEq S] {digest : List Row → S} {t : T} {cfg : Config} {m : Nat} {c : JobReply}
    {q : Option ((String × String) × Nat)} {w : Store S × List (RunCall T S)} :
    StillFresh t ((jobSeedRule S).next q (.part cfg (.load m)) (jobExec digest (.part cfg (.load m)) c w.1).1)
      ((jobExec digest (.part cfg (.load m)) c w.1).2, ⟨t, .part cfg (.load m), c⟩ :: w.2) := by
  intro key n hkey _ st hst
  rcases jobExec_jobs (o := .part cfg (.load m)) hst with hst | ⟨cfg', -, ho | ⟨-, target, checksum, time, ho⟩⟩
  · generalize hr : (jobExec digest (.part cfg (.load m)) c w.1).1 = r at hkey
    rcases r with e | _ | st'
    · cases hkey
    · cases hkey
      rw [missing_of_attempt hr] at hst
      cases hst
    · cases hkey
  · cases ho
  · cases ho

theorem stillFresh_own [DecidableEq S] {digest : List Row → S} {t : T} {q : Option ((String × String) × Nat)}
    {o : JobOp S} {c : JobReply} {w : Store S × List (RunCall T S)} (hq : StillFresh t q w) :
    StillFresh t ((jobSeedRule S).next q o (jobExec digest o c w.1).1)
      ((jobExec digest o c w.1).2, ⟨t, o, c⟩ :: w.2) := by
  cases o with
  | part cfg o =>
    cases o with
    | load n => exact stillFresh_load
    | upsert n st => exact fun _ _ h => by cases h
    | update n target checksum time => exact fun _ _ h => by cases h
    | _ => exact stillFresh_idle hq (by simp) (by simp) (by simp)
  | _ => exact stillFresh_idle hq (by simp) (by simp) (by simp)

/-- Every run that seeds undisturbed moves no row backwards. -/
def seedTracking [DecidableEq S] (T : Type) (digest : List Row → S) :
    (jobsHost T digest).logged.Tracking SeedsUndisturbed (jobSeedRule S) where
  holds w w' := PhasesForwards w.1 w'.1
  link := StillFresh
  refl w := PhasesForwards.refl w.1
  trans w w' w'' h h' key := (h key).trans (h' key)
  start t c w := ⟨none, jobSeedless_runOnce c none, fun _ _ h => by cases h⟩
  call t o c w q hq hmay hseeds :=
    ⟨jobExec_forwards (seedsFresh_of_stillFresh hq hmay hseeds), trivial, stillFresh_own hq,
      fun u q' hne hq' => stillFresh_other hne hmay hq'⟩
  crash w := PhasesForwards.refl w.1
  env next w w' h := by
    obtain ⟨hjobs, hlog⟩ := h
    refine ⟨fun key => hjobs key ▸ Forwards.refl _, ?_⟩
    intro t q hq key n hkey hundisturbed st hst
    rw [hlog] at hundisturbed
    rw [hjobs key] at hst
    exact hq key n hkey hundisturbed st hst

/-- Whatever runs start, interleave, stop and crash, no chunk row is lost or falls back to an
earlier phase between two moments of a run, as long as no other run advances a row between a
run's load of it and its `upsert`. -/
theorem phases_monotone [DecidableEq S] [DecidableEq T] (digest : List Row → S) {w : Store S}
    {s s' : Sys T (JobOp S) JobRes (Except TieringError RunReport) (Store S × List (RunCall T S))}
    (hs : (jobsHost T digest).logged.Reach SeedsUndisturbed ⟨(w, []), fun _ => none⟩ s)
    (h : (jobsHost T digest).logged.Reach SeedsUndisturbed s s') :
    ∀ key n st, (s.world.1 key).jobs n = some st →
      ∃ st', (s'.world.1 key).jobs n = some st' ∧ st.phase.rank ≤ st'.phase.rank := by
  have hlinked := ((seedTracking T digest).reach ((seedTracking T digest).linked_init _) hs).2
  exact ((seedTracking T digest).reach hlinked h).1

def eventsTiering : TieringConfig :=
  ⟨180, 1, [⟨"events", "created_at", "id", 365, none⟩], 2, none, 7, none, false, false, true, 1⟩

/-- All calls succeed, at time zero; the one partition holds no hot row. -/
def JobReply.ok : JobReply := ⟨0, .ok none, .ok (), .ok ["p2026_01"], .ok 0, .ok⟩

def jobsInit (rows : List Row) :
    Sys Bool (JobOp (List Row)) JobRes (Except TieringError RunReport) (Store (List Row)) :=
  ⟨fun _ => ⟨some rows, fun _ => none, fun _ => [], []⟩, fun _ => none⟩

/-- Both runs find no row of chunk 0 and both seed it; the second to do so then fails to advance it, the
process dies, and a third run finishes both chunks. -/
theorem phases_monotone_crashed :
    ∃ s s', (jobsHost Bool (id : List Row → List Row)).logged.Reach SeedsUndisturbed
        ⟨((jobsInit [⟨1, "a"⟩, ⟨2, "b"⟩, ⟨3, "c"⟩]).world, []), fun _ => none⟩ s ∧
      (jobsHost Bool (id : List Row → List Row)).logged.Reach SeedsUndisturbed s s' ∧
      ((s.world.1 ("events", "p2026_01")).jobs 0).map (·.phase) = some .copied ∧
      ((s'.world.1 ("events", "p2026_01")).jobs 0).map (·.phase) = some .verified ∧
      ((s'.world.1 ("events", "p2026_01")).jobs 1).map (·.phase) = some .verified ∧
      ∀ key n st, (s.world.1 key).jobs n = some st →
        ∃ st', (s'.world.1 key).jobs n = some st' ∧ st.phase.rank ≤ st'.phase.rank := by
  suffices hrun : ∃ s s', (jobsHost Bool (id : List Row → List Row)).logged.Reach SeedsUndisturbed
        ⟨((jobsInit [⟨1, "a"⟩, ⟨2, "b"⟩, ⟨3, "c"⟩]).world, []), fun _ => none⟩ s ∧
      (jobsHost Bool (id : List Row → List Row)).logged.Reach SeedsUndisturbed s s' ∧
      ((s.world.1 ("events", "p2026_01")).jobs 0).map (·.phase) = some .copied ∧
      ((s'.world.1 ("events", "p2026_01")).jobs 0).map (·.phase) = some .verified ∧
      ((s'.world.1 ("events", "p2026_01")).jobs 1).map (·.phase) = some .verified by
    obtain ⟨s, s', hs, hs', hcopied, hverified⟩ := hrun
    exact ⟨s, s', hs, hs', hcopied, hverified.1, hverified.2, phases_monotone id hs hs'⟩
  have waiting := Host.Reach.launch (jobsHost Bool (id : List Row → List Row)).logged SeedsUndisturbed false
    eventsTiering (List.replicate 9 .ok)
    ⟨((jobsInit [⟨1, "a"⟩, ⟨2, "b"⟩, ⟨3, "c"⟩]).world, []), fun _ => none⟩ rfl trivial
    ⟨trivial, trivial, trivial, trivial, trivial, trivial, trivial, trivial, trivial, trivial⟩
  have seeded := waiting.trans (Host.Reach.launch (jobsHost Bool (id : List Row → List Row)).logged
    SeedsUndisturbed true eventsTiering (List.replicate 10 .ok) _ rfl trivial
    ⟨trivial, trivial, trivial, trivial, trivial, trivial, trivial, trivial, trivial,
      fun _ => .inr ⟨And.right, .inr ⟨And.right, .inr ⟨And.right, .inl ⟨rfl, rfl, rfl⟩⟩⟩⟩, trivial⟩)
  have again := seeded.trans (Host.Reach.advance _ SeedsUndisturbed false _ [.ok] _ rfl
    ⟨fun _ => .inr ⟨And.right, .inr ⟨And.right, .inr ⟨And.right, .inr ⟨And.right, .inr ⟨And.right,
      .inr ⟨And.right, .inr ⟨And.right, .inr ⟨And.right, .inr ⟨And.right, .inr ⟨And.right,
      .inr ⟨And.right, .inr ⟨And.right, .inr ⟨And.right, .inl ⟨rfl, rfl, rfl⟩⟩⟩⟩⟩⟩⟩⟩⟩⟩⟩⟩⟩⟩, trivial⟩)
  have copied := again.trans (Host.Reach.advance _ SeedsUndisturbed true _ [.ok, .ok] _ rfl
    ⟨trivial, trivial, trivial⟩)
  exact ⟨_, _, copied, ((Host.Reach.advance (jobsHost Bool (id : List Row → List Row)).logged SeedsUndisturbed
      false _ [.ok, .ok, .ok] _ rfl (by exact ⟨trivial, trivial, trivial, trivial⟩)).tail .crash).trans
    (Host.Reach.launch _ SeedsUndisturbed false eventsTiering (List.replicate 22 .ok) _ rfl trivial
      (by exact ⟨trivial, trivial, trivial, trivial, trivial, trivial, trivial, trivial, trivial, trivial, trivial,
        trivial, trivial, trivial, trivial, fun _ => .inr ⟨And.right, .inr ⟨And.right, .inr ⟨And.right,
          .inl ⟨rfl, rfl, rfl⟩⟩⟩⟩, trivial, trivial, trivial, trivial, trivial, trivial, trivial⟩)), rfl, rfl, rfl⟩

/-- A run that saw no state row seeds it after another run has verified the chunk. -/
theorem upsert_moves_back :
    ¬ ∀ s s', (jobsHost Bool (id : List Row → List Row)).Reach Host.Free (jobsInit [⟨1, "a"⟩]) s →
      (jobsHost Bool (id : List Row → List Row)).Reach Host.Free s s' →
      ∀ key n st, (s.world key).jobs n = some st →
        ∃ st', (s'.world key).jobs n = some st' ∧ st.phase.rank ≤ st'.phase.rank := by
  intro hall
  have waiting := Host.Reach.launch (jobsHost Bool (id : List Row → List Row)) Host.Free false
    eventsTiering (List.replicate 9 .ok) (jobsInit [⟨1, "a"⟩]) rfl trivial (Host.permits_free ..)
  have verified := waiting.trans (Host.Reach.launch (jobsHost Bool (id : List Row → List Row)) Host.Free
    true eventsTiering (List.replicate 15 .ok) _ rfl trivial (Host.permits_free ..))
  obtain ⟨st', hst', hle⟩ := hall _ _ verified
    (Host.Reach.advance _ Host.Free false _ [.ok] _ rfl (Host.permits_free ..)) ("events", "p2026_01") 0 _ rfl
  cases hst'
  exact absurd hle (by decide)

end Ecat.Archive
