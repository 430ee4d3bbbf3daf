import Ecat.ArchiveJobs
import Ecat.CallLog

/-! When a run seeds a state row: only a row that its last load found missing, and always as pending. -/

namespace Ecat.Archive

variable {S α β : Type}

/-- The chunk whose state row the last load found missing and the run has not written since. -/
def missingNext (q : Option Nat) : (o : Op S) → Res o → Option Nat
  | .load n, r => if r matches .ok none then some n else none
  | .upsert .., _ => none
  | .update .., _ => none
  | .elapsed, _ => q
  | .now, _ => q
  | .wait _, _ => q
  | .readChunk _, _ => q
  | .writeChunk .., _ => q
  | .verifyChunk .., _ => q
  | .countRows, _ => q
  | .dropPartition, _ => q

def seedRule (S : Type) : Typestate (Op S) Res where
  State := Option Nat
  may q o := ∀ n st, o = .upsert n st → q = some n ∧ st.phase = .pending
  blind _ _ := False
  given _ _ := True
  next := missingNext

theorem keeps_call {Q : α → Option Nat → Prop} {o : Op S} {k : Res o → Proc S α} {q : Option Nat}
    (ho : ∀ n st, o ≠ .upsert n st) (hk : ∀ r, (seedRule S).Keeps Q (k r) (missingNext q o r)) :
    (seedRule S).Keeps Q (.call o k) q :=
  ⟨fun n st h => absurd h (ho n st), fun h => h.elim, fun r _ => hk r⟩

/-- A program that seeds no row, whatever has been loaded before it. -/
def Seedless (p : Proc S α) : Prop := ∀ q, (seedRule S).Keeps (fun _ _ => True) p q

theorem seedless_ret (a : α) : Seedless (S := S) (.ret a) := fun _ => trivial

theorem seedless_bind {p : Proc S α} {f : α → Proc S β} (hp : Seedless p) (hf : ∀ a, Seedless (f a)) :
    Seedless (p.bind f) :=
  fun q => (hp q).bind fun a q' _ => hf a q'

theorem seedless_perform {o : Op S} (ho : ∀ n st, o ≠ .upsert n st) : Seedless (perform o) :=
  fun _ => keeps_call ho fun _ => trivial

theorem seedless_load (n : Nat) : Seedless (load (S := S) n) := by
  unfold load
  split
  · exact seedless_ret _
  · exact seedless_perform (by simp)

theorem seedless_advance (cfg : Config) (n : Nat) (target : Phase) (checksum : Option S) :
    Seedless (advance cfg n target checksum) := by
  unfold advance
  split
  · exact seedless_ret _
  refine seedless_bind (seedless_perform (by simp)) fun time => ?_
  split
  · exact seedless_ret _
  refine seedless_bind (seedless_perform (by simp)) ?_
  rintro (e | _ | rows)
  · exact seedless_ret _
  · refine seedless_bind (seedless_load n) ?_
    rintro (e | _ | current)
    · exact seedless_ret _
    · exact seedless_ret _
    · exact seedless_ret _
  · exact seedless_ret _

theorem seedless_verifyAndAdvance (cfg : Config) (n : Nat) (checksum : S) :
    Seedless (verifyAndAdvance cfg n checksum) := by
  refine seedless_bind (seedless_perform (by simp)) ?_
  rintro (e | _ | _)
  · exact seedless_ret _
  · exact seedless_ret _
  refine seedless_bind (seedless_advance cfg n .verified none) ?_
  rintro (e | u)
  · exact seedless_ret _
  · exact seedless_bind (seedless_perform (by simp)) fun time => seedless_ret _

theorem seedless_resumeCopied (cfg : Config) (k : Walk) (st : JobState S) : Seedless (resumeCopied cfg k st) := by
  unfold resumeCopied
  split
  · exact seedless_ret _
  split
  · exact seedless_ret _
  refine seedless_bind (seedless_verifyAndAdvance cfg k.chunk _) ?_
  rintro (e | outcome)
  · exact seedless_ret _
  · exact seedless_ret _

theorem seedless_throttle (cfg : Config) (k : Walk) : Seedless (throttle (S := S) cfg k) := by
  unfold throttle
  split
  · refine seedless_bind (seedless_perform (by simp)) fun time => ?_
    dsimp only
    split
    · exact seedless_perform (by simp)
    · exact seedless_ret _
  · exact seedless_ret _

theorem keeps_seedChunk (n : Nat) (seeded : Bool) (rows : Nat) (low high : Int) (checksum : S) {q : Option Nat}
    (hq : seeded = false → q = some n) :
    (seedRule S).Keeps (fun _ _ => True) (seedChunk n seeded rows low high checksum) q := by
  cases seeded with
  | true => trivial
  | false =>
    refine keeps_call (by simp) fun time => ?_
    show (seedRule S).Keeps _ (upsert n _) q
    unfold upsert
    split
    · trivial
    split
    · trivial
    refine ⟨?_, fun h => h.elim, fun _ _ => trivial⟩
    intro m st h
    cases h
    exact ⟨hq rfl, rfl⟩

theorem keeps_storeChunk (cfg : Config) (k : Walk) (seeded : Bool) (rows : List Row) (low high : Int)
    {q : Option Nat} (hq : seeded = false → q = some k.chunk) :
    (seedRule S).Keeps (fun _ _ => True) (storeChunk cfg k seeded rows low high) q := by
  refine keeps_call (by simp) ?_
  rintro (e | checksum)
  · trivial
  refine (keeps_seedChunk k.chunk seeded rows.length low high checksum hq).bind ?_
  rintro (e | u) q' -
  · trivial
  refine seedless_bind (seedless_advance cfg k.chunk .copied _) ?_ q'
  rintro (e | u)
  · exact seedless_ret _
  refine seedless_bind (seedless_verifyAndAdvance cfg k.chunk checksum) ?_
  rintro (e | outcome)
  · exact seedless_ret _
  · exact seedless_bind (seedless_throttle cfg _) fun u => seedless_ret _

theorem keeps_copyChunk (cfg : Config) (k : Walk) (seeded : Bool) {q : Option Nat}
    (hq : seeded = false → q = some k.chunk) :
    (seedRule S).Keeps (fun _ _ => True) (copyChunk cfg k seeded) q := by
  refine keeps_call (by simp) ?_
  rintro (e | rows)
  · trivial
  simp only [CallTree.bind]
  split
  · trivial
  · trivial
  split
  · trivial
  · exact keeps_storeChunk cfg k seeded rows _ _ hq

/-- A turn seeds the chunk's row only after its own load found none. -/
theorem seedless_turn (cfg : Config) (k : Walk) : Seedless (S := S) (turn cfg k) := by
  refine seedless_bind (seedless_perform (by simp)) fun time => ?_
  split
  · exact seedless_ret _
  intro q
  unfold load
  split
  · trivial
  refine keeps_call (by simp) ?_
  rintro (e | _ | st)
  · trivial
  · exact keeps_copyChunk cfg k false fun _ => rfl
  obtain ⟨lowId, highId, rows, checksum, phase, updatedAt⟩ := st
  cases phase with
  | dropped => trivial
  | verified => trivial
  | copied => exact seedless_resumeCopied cfg k _ _
  | pending => exact keeps_copyChunk cfg k true fun h => by cases h

theorem seedless_markDropped (cfg : Config) (ns : List Nat) : Seedless (S := S) (markDropped cfg ns) := by
  induction ns with
  | nil => exact seedless_ret _
  | cons n ns ih =>
    refine seedless_bind (seedless_advance cfg n .dropped none) ?_
    rintro (e | u)
    · exact seedless_ret _
    · exact ih

theorem seedless_dropAndMark (cfg : Config) (k : Walk) : Seedless (S := S) (dropAndMark cfg k) := by
  refine seedless_bind (seedless_perform (by simp)) ?_
  rintro (e | u)
  · exact seedless_ret _
  refine seedless_bind (seedless_markDropped cfg _) ?_
  rintro (e | u)
  · exact seedless_ret _
  · exact seedless_ret _

theorem seedless_finish (cfg : Config) (k : Walk) (complete : Bool) :
    Seedless (S := S) (finish cfg k complete) := by
  have hpassed : Seedless (S := S) (retentionPassed cfg k.verifiedAt) := by
    unfold retentionPassed
    split
    · exact seedless_ret _
    · exact seedless_bind (seedless_perform (by simp)) fun time => seedless_ret _
  have hcount : Seedless (S := S) (rowCountMatches k.archivedRows) := by
    refine seedless_bind (seedless_perform (by simp)) ?_
    rintro (e | rows)
    · exact seedless_ret _
    · exact seedless_ret _
  unfold finish
  split
  · refine seedless_bind hpassed fun passed => ?_
    split
    · refine seedless_bind hcount ?_
      rintro (e | _ | _)
      · exact seedless_ret _
      · exact seedless_ret _
      · exact seedless_dropAndMark cfg k
    · exact seedless_ret _
  · exact seedless_ret _

theorem seedless_walk (cfg : Config) (fuel : Nat) (k : Walk) : Seedless (S := S) (walk cfg fuel k) := by
  induction fuel generalizing k with
  | zero => exact seedless_ret _
  | succ fuel ih =>
    refine seedless_bind (seedless_turn cfg k) ?_
    rintro (e | k' | ⟨k', complete⟩ | k')
    · exact seedless_ret _
    · exact ih k'
    · exact seedless_finish cfg k' complete
    · exact seedless_ret _

theorem seedless_archivePartition (cfg : Config) (report : Report) :
    Seedless (S := S) (archivePartition cfg report) := seedless_walk cfg _ _

/-! ### Whole runs -/

/-- The state row, by partition and chunk, that a run's last load found missing. -/
def jobSeedRule (S : Type) : Typestate (JobOp S) JobRes where
  State := Option ((String × String) × Nat)
  may q o := ∀ cfg n st, o = .part cfg (.upsert n st) →
    q = some ((cfg.table, cfg.partition), n) ∧ st.phase = .pending
  blind _ _ := False
  given _ _ := True
  next q o r := match o with
    | .part cfg (.load n) => if r matches .ok none then some ((cfg.table, cfg.partition), n) else none
    | .part _ (.upsert ..) => none
    | .part _ (.update ..) => none
    | _ => q

def JobSeedless (p : JobProc S α) : Prop := ∀ q, (jobSeedRule S).Keeps (fun _ _ => True) p q

theorem jobSeedless_ret (a : α) : JobSeedless (S := S) (.ret a) := fun _ => trivial

theorem jobSeedless_bind {p : JobProc S α} {f : α → JobProc S β} (hp : JobSeedless p)
    (hf : ∀ a, JobSeedless (f a)) : JobSeedless (p.bind f) :=
  fun q => (hp q).bind fun a q' _ => hf a q'

theorem jobSeedless_ask {o : JobOp S} (ho : ∀ cfg n st, o ≠ .part cfg (.upsert n st)) : JobSeedless (ask o) :=
  fun _ => ⟨fun cfg n st h => absurd h (ho cfg n st), fun h => h.elim, fun _ _ => trivial⟩

/-- What a program does to its partition it does as part of a run. -/
theorem keeps_inPartition (cfg : Config) {p : Proc S α} {q : Option Nat} {q' : Option ((String × String) × Nat)}
    (hq : ∀ n, q = some n → q' = some ((cfg.table, cfg.partition), n))
    (hp : (seedRule S).Keeps (fun _ _ => True) p q) :
    (jobSeedRule S).Keeps (fun _ _ => True) (inPartition cfg p) q' := by
  induction p generalizing q q' with
  | ret a => trivial
  | call o k ih =>
    refine ⟨?_, fun h => h.elim, fun r _ => ih r ?_ (hp.2.2 r trivial)⟩
    · intro cfg' n st h
      cases h
      obtain ⟨hn, hst⟩ := hp.1 n st rfl
      exact ⟨hq n hn, hst⟩
    · cases o with
      | load n =>
        intro m h
        rcases r with e | _ | st
        · cases h
        · cases h
          rfl
        · cases h
      | upsert n st => exact fun _ h => by cases h
      | update n target checksum time => exact fun _ h => by cases h
      | elapsed => exact hq
      | now => exact hq
      | wait delay => exact hq
      | readChunk cursor => exact hq
      | writeChunk n rows => exact hq
      | verifyChunk n checksum => exact hq
      | countRows => exact hq
      | dropPartition => exact hq

theorem archivePartitions_cons (c : TieringConfig) (table : TableTieringConfig) (partition : String)
    (rest : List String) (report : Report) :
    archivePartitions (S := S) c table (partition :: rest) report =
      match validateIdent partition with
      | .error e => CallTree.ret (.error e)
      | .ok _ => (do
        let now ← ask .nowUtc
        match ← ask (.hotRows table.name partition (now - c.hotDays * (86400 * 10 ^ 9))) with
        | .error e => return .error e
        | .ok hot =>
          if 0 < hot then archivePartitions c table rest report
          else
            match ← inPartition (c.partitionConfig table partition)
                (archivePartition (S := S) (c.partitionConfig table partition) report) with
            | .error e => return .error e
            | .ok report' => archivePartitions c table rest report') := rfl

theorem jobSeedless_archivePartitions (c : TieringConfig) (table : TableTieringConfig) (names : List String)
    (report : Report) : JobSeedless (S := S) (archivePartitions c table names report) := by
  induction names generalizing report with
  | nil => exact jobSeedless_ret _
  | cons partition rest ih =>
    rw [archivePartitions_cons]
    split
    · exact jobSeedless_ret _
    refine jobSeedless_bind (jobSeedless_ask (by simp)) fun now => ?_
    refine jobSeedless_bind (jobSeedless_ask (by simp)) ?_
    rintro (e | hot)
    · exact jobSeedless_ret _
    dsimp only
    split
    · exact ih report
    have hpart : JobSeedless (inPartition (c.partitionConfig table partition)
        (archivePartition (S := S) (c.partitionConfig table partition) report)) :=
      fun q => keeps_inPartition _ (fun _ h => by cases h) (seedless_archivePartition _ _ none)
    refine jobSeedless_bind hpart ?_
    rintro (e | report')
    · exact jobSeedless_ret _
    · exact ih report'

theorem jobSeedless_archiveTables (c : TieringConfig) (tables : List TableTieringConfig) (report : Report) :
    JobSeedless (S := S) (archiveTables c tables report) := by
  induction tables generalizing report with
  | nil => exact jobSeedless_ret _
  | cons table tables ih =>
    have hnames : JobSeedless (listPartitions (S := S) c table.name) := by
      unfold listPartitions
      split
      · exact jobSeedless_ask (by simp)
      · exact jobSeedless_ret _
    unfold archiveTables
    split
    · exact jobSeedless_ret _
    refine jobSeedless_bind hnames ?_
    rintro (e | names)
    · exact jobSeedless_ret _
    refine jobSeedless_bind (jobSeedless_archivePartitions c table names report) ?_
    rintro (e | report')
    · exact jobSeedless_ret _
    · exact ih report'

theorem jobSeedless_archiveAll (c : TieringConfig) (token : Option String) :
    JobSeedless (S := S) (archiveAll c token) := by
  refine jobSeedless_bind (jobSeedless_archiveTables c c.tables _) fun result => ?_
  cases token with
  | none => exact jobSeedless_ret _
  | some token => exact jobSeedless_bind (jobSeedless_ask (by simp)) fun _ => jobSeedless_ret _

theorem jobSeedless_runOnce (c : TieringConfig) : JobSeedless (S := S) (runOnce c) := by
  unfold runOnce
  split
  · exact jobSeedless_ret _
  split
  · exact jobSeedless_ret _
  split
  · exact jobSeedless_ret _
  refine jobSeedless_bind (jobSeedless_ask (by simp)) fun now => ?_
  split
  · split
    · refine jobSeedless_bind (jobSeedless_ask (by simp)) ?_
      rintro (e | _ | token)
      · exact jobSeedless_ret _
      · exact jobSeedless_ret _
      · exact jobSeedless_archiveAll c _
    · exact jobSeedless_archiveAll c none
  · exact jobSeedless_ret _

end Ecat.Archive
