import Ecat.ShardComplete

/-! A move that crashes and runs again. Its job says how far it has come: the rows of the move behind
the cursor are on the target, and the job has counted each of them once, as long as the text of the
cursor reads back at the place of the key it was written for. -/

namespace Ecat.Shard

open Json

section

variable {K : Type} [LinearOrder K]

/-- A move runs, with some size of its chunks, or has crashed. A crash can come between any two steps. -/
inductive ShardMigrator.Attempts (m : ShardMigrator) (E : Engine K) (mv : ShardMove) :
    Option (Nat × Backfill) × World → Option (Nat × Backfill) × World → Prop
  | start (n : Nat) (w : World) : Attempts m E mv (none, w) (some (n, ⟨.next, [mv], ⟨0, 0, false⟩⟩), w)
  | step {n : Nat} {b b' : Backfill} {w w' : World} (h : (m.withChunkSize n).Steps E (b, w) (b', w')) :
      Attempts m E mv (some (n, b), w) (some (n, b'), w')
  | crash (n : Nat) (b : Backfill) (w : World) : Attempts m E mv (some (n, b), w) (none, w)

/-- Before a move: it has no job, and every row of its source has a primary key of its own. -/
structure Resumable (m : ShardMigrator) (E : Engine K) (mv : ShardMove) (t : ShardTable) (w₀ : World) : Prop where
  table : m.new.table mv.table = .ok t
  fresh : w₀.jobs (moveId mv) = none
  distinct : E.Distinct t.pk (w₀.data mv.fromShard mv.table)
  keys : ∀ row ∈ w₀.data mv.fromShard mv.table, ∃ v, row.get t.pk = some v

/-- Where a move that is to run again has a cursor, its text reads back at the place of the primary
key it was written for. -/
def Rereads (m : ShardMigrator) (E : Engine K) (mv : ShardMove) (t : ShardTable) :
    Option (Nat × Backfill) × World → Prop
  | (none, w) => ∀ job, loadJob m.state w.jobs (moveId mv) = .ok (some job) →
      ∀ row ∈ w.data mv.fromShard mv.table, ∀ v, row.get t.pk = some v → job.cursor = some v.toText →
        ∃ u, E.parse v.toText = .ok u ∧ E.pos u = E.pos v
  | (some _, _) => True

/-- The target has the rows of the move, and of its own those with other keys. The job has counted the
rows of the move. -/
structure Moved (m : ShardMigrator) (E : Engine K) (mv : ShardMove) (t : ShardTable) (w₀ w : World) : Prop where
  target : ∀ row, row ∈ w.data mv.toShard mv.table ↔ row ∈ m.scopeRows w₀ t mv ∨
    row ∈ w₀.data mv.toShard mv.table ∧ ∀ other ∈ m.scopeRows w₀ t mv, E.rowPos t.pk other ≠ E.rowPos t.pk row
  job : ∃ job, loadJob m.state w.jobs (moveId mv) = .ok (some job) ∧
    job.rows = (m.scopeRows w₀ t mv).length ∧ job.checksum = (statsOf (m.scopeRows w₀ t mv)).checksum

/-! ### What a job has counted -/

/-- The row is the one at its position on the target. -/
def Placed (E : Engine K) (mv : ShardMove) (t : ShardTable) (w : World) (row : Row) : Prop :=
  ∀ other, other ∈ w.data mv.toShard mv.table ∧ E.rowPos t.pk other = E.rowPos t.pk row ↔ other = row

/-- The job has counted the rows of the move in `P`, and they are on the target. -/
structure Tallied (m : ShardMigrator) (E : Engine K) (mv : ShardMove) (t : ShardTable) (w₀ w : World)
    (job : JobState) (P : Row → Prop) (done : List Row) : Prop where
  nodup : done.Nodup
  mem : ∀ row, row ∈ done ↔ row ∈ m.scopeRows w₀ t mv ∧ P row
  rows : job.rows = done.length
  checksum : job.checksum = (statsOf done).checksum
  placed : ∀ row ∈ done, Placed E mv t w row

def Tally (m : ShardMigrator) (E : Engine K) (mv : ShardMove) (t : ShardTable) (w₀ w : World) (job : JobState)
    (P : Row → Prop) : Prop :=
  ∃ done, Tallied m E mv t w₀ w job P done

/-- The shards of the move between its steps. -/
structure Kept (m : ShardMigrator) (E : Engine K) (mv : ShardMove) (t : ShardTable) (w₀ w : World) : Prop where
  source : ∀ row, row ∈ w.data mv.fromShard mv.table ↔ row ∈ w₀.data mv.fromShard mv.table
  distinct : E.Distinct t.pk (w.data mv.fromShard mv.table)
  found : ∀ row ∈ w.data mv.toShard mv.table, row ∈ m.scopeRows w₀ t mv ∨ row ∈ w₀.data mv.toShard mv.table
  others : ∀ row ∈ w₀.data mv.toShard mv.table,
    (∀ other ∈ m.scopeRows w₀ t mv, E.rowPos t.pk other ≠ E.rowPos t.pk row) → row ∈ w.data mv.toShard mv.table

/-- The job as it is stored: it has counted the rows up to the key whose text is its cursor. -/
structure Saved (m : ShardMigrator) (E : Engine K) (mv : ShardMove) (t : ShardTable) (w₀ w : World)
    (job : JobState) : Prop where
  load : loadJob m.state w.jobs (moveId mv) = .ok (some job)
  phase : job.phase = .pending ∨ job.phase = .backfilling
  tally : ∃ mark : Option Value, job.cursor = mark.map Value.toText ∧
    (∀ v, mark = some v → ∃ row ∈ w₀.data mv.fromShard mv.table, row.get t.pk = some v) ∧
    Tally m E mv t w₀ w job fun row => ¬ E.Past mark (E.rowPos t.pk row)

/-- The stored cursor can be read, and the job has counted the rows behind what is read. -/
def Reopens (m : ShardMigrator) (E : Engine K) (mv : ShardMove) (t : ShardTable) (w₀ w : World)
    (job : JobState) : Prop :=
  ∃ cursor, parseCursor E job.cursor = .ok cursor ∧
    Tally m E mv t w₀ w job fun row => ¬ E.Past cursor (E.rowPos t.pk row)

/-- Among the rows of a chunk: what is left of it, up to its last row. -/
structure Chunk (E : Engine K) (mv : ShardMove) (t : ShardTable) (w₀ : World) (last : Row) (batch : List Row) :
    Prop where
  found : last ∈ w₀.data mv.fromShard mv.table
  rows : ∀ row ∈ batch, row ∈ w₀.data mv.fromShard mv.table ∧ keyWithin mv.keyRange (row.get t.key) = true ∧
    E.rowPos t.pk row ≤ E.rowPos t.pk last
  nodup : batch.Nodup

def AtPoint (m : ShardMigrator) (E : Engine K) (mv : ShardMove) (t : ShardTable) (w₀ w : World) :
    Point → List ShardMove → Prop
  | .next, [] => ∃ job, Saved m E mv t w₀ w job ∧ Tally m E mv t w₀ w job fun _ => True
  | .next, moves => moves = [mv] ∧
    (w.jobs (moveId mv) = none ∨ ∃ job, Saved m E mv t w₀ w job ∧ Reopens m E mv t w₀ w job)
  | .scan mv' job cursor, moves => mv' = mv ∧ moves = [] ∧ Saved m E mv t w₀ w job ∧
    Tally m E mv t w₀ w job fun row => ¬ E.Past cursor (E.rowPos t.pk row)
  | .copy mv' job last batch _, moves => mv' = mv ∧ moves = [] ∧ (∃ stored, Saved m E mv t w₀ w stored) ∧
    Chunk E mv t w₀ last batch ∧
    Tally m E mv t w₀ w job fun row => E.rowPos t.pk row ≤ E.rowPos t.pk last ∧ row ∉ batch

/-- The steps of attempts that read their cursors back. -/
def ShardMigrator.Reruns (m : ShardMigrator) (E : Engine K) (mv : ShardMove) (t : ShardTable)
    (s s' : Option (Nat × Backfill) × World) : Prop :=
  Rereads m E mv t s ∧ m.Attempts E mv s s'

def Resumed (m : ShardMigrator) (E : Engine K) (mv : ShardMove) (t : ShardTable) (w₀ : World) :
    Option (Nat × Backfill) × World → Prop
  | (none, w) => Kept m E mv t w₀ w ∧ (w.jobs (moveId mv) = none ∨ ∃ job, Saved m E mv t w₀ w job)
  | (some (_, b), w) => Kept m E mv t w₀ w ∧ AtPoint m E mv t w₀ w b.point b.moves

variable {m : ShardMigrator} {E : Engine K} {mv : ShardMove} {t : ShardTable} {w₀ w w' : World} {job job' : JobState}
  {P Q : Row → Prop} {row last : Row} {batch : List Row} {cursor : Option Value} {point : Point} {n : Nat}

omit [LinearOrder K] in
theorem Resumable.name (h : Resumable m E mv t w₀) : t.name = mv.table := by
  have hfind := table_eq_ok.1 h.table
  simpa using List.find?_some hfind

omit [LinearOrder K] in
theorem Resumable.mem_scope (h : Resumable m E mv t w₀) : row ∈ m.scopeRows w₀ t mv ↔
    row ∈ w₀.data mv.fromShard mv.table ∧ keyWithin mv.keyRange (row.get t.key) = true ∧
      m.routesTo mv row = .ok true := by
  rw [ShardMigrator.scopeRows, List.mem_filter, h.name, decide_eq_true_eq]

omit [LinearOrder K] in
theorem Tally.congr (h : Tally m E mv t w₀ w job P) (hPQ : ∀ row ∈ m.scopeRows w₀ t mv, P row ↔ Q row) :
    Tally m E mv t w₀ w job Q := by
  obtain ⟨done, hdone⟩ := h
  refine ⟨done, hdone.nodup, ?_, hdone.rows, hdone.checksum, hdone.placed⟩
  intro row
  rw [hdone.mem]
  exact and_congr_right (hPQ row)

omit [LinearOrder K] in
theorem Tally.of_job (h : Tally m E mv t w₀ w job P) (hrows : job'.rows = job.rows)
    (hchecksum : job'.checksum = job.checksum) : Tally m E mv t w₀ w job' P := by
  obtain ⟨done, hdone⟩ := h
  exact ⟨done, hdone.nodup, hdone.mem, hrows.trans hdone.rows, hchecksum.trans hdone.checksum, hdone.placed⟩

omit [LinearOrder K] in
theorem Tally.of_jobs (h : Tally m E mv t w₀ w job P) (jobs : Jobs) : Tally m E mv t w₀ { w with jobs } job P := by
  obtain ⟨done, hdone⟩ := h
  exact ⟨done, hdone.nodup, hdone.mem, hdone.rows, hdone.checksum, hdone.placed⟩

omit [LinearOrder K] in
theorem Kept.of_jobs (h : Kept m E mv t w₀ w) (jobs : Jobs) : Kept m E mv t w₀ { w with jobs } :=
  ⟨h.source, h.distinct, h.found, h.others⟩

omit [LinearOrder K] in
theorem Tally.none (hrows : job.rows = 0) (hchecksum : job.checksum = 0) (hP : ∀ row, ¬ P row) :
    Tally m E mv t w₀ w job P := by
  refine ⟨[], List.nodup_nil, ?_, hrows, hchecksum, by simp⟩
  intro row
  simp [hP]

/-! ### Upserts -/

def upserted (E : Engine K) (mv : ShardMove) (t : ShardTable) (w : World) (row : Row) : World :=
  w.setData mv.toShard mv.table (E.put t.pk row (w.data mv.toShard mv.table))

theorem upserted_target (w : World) (row : Row) : (upserted E mv t w row).data mv.toShard mv.table =
    E.put t.pk row (w.data mv.toShard mv.table) := by
  rw [upserted, Migration.data_setData, if_pos ⟨rfl, rfl⟩]

theorem upserted_source (w : World) (row : Row) : (upserted E mv t w row).data mv.fromShard mv.table =
    if mv.fromShard = mv.toShard then E.put t.pk row (w.data mv.fromShard mv.table)
    else w.data mv.fromShard mv.table := by
  rw [upserted, Migration.data_setData]
  by_cases hself : mv.fromShard = mv.toShard
  · rw [if_pos ⟨hself, rfl⟩, if_pos hself, hself]
  · rw [if_neg fun h => hself h.1, if_neg hself]

theorem Kept.upserted (h : Kept m E mv t w₀ w) (hready : Resumable m E mv t w₀) (hrow : row ∈ m.scopeRows w₀ t mv) :
    Kept m E mv t w₀ (upserted E mv t w row) := by
  have hsource : row ∈ w.data mv.fromShard mv.table := (h.source row).2 (hready.mem_scope.1 hrow).1
  refine ⟨?_, ?_, ?_, ?_⟩
  · intro other
    rw [upserted_source, ← h.source]
    split_ifs
    · exact mem_put_self h.distinct hsource
    · rfl
  · rw [upserted_source]
    split_ifs
    · exact distinct_put h.distinct
    · exact h.distinct
  · intro other hother
    rw [upserted_target, mem_put] at hother
    rcases hother with rfl | hother
    · exact .inl hrow
    · exact h.found other hother.1
  · intro other hother hfree
    rw [upserted_target, mem_put]
    exact .inr ⟨h.others other hother hfree, fun hpos => hfree row hrow hpos.symm⟩

theorem placed_upserted (w : World) (row : Row) : Placed E mv t (upserted E mv t w row) row := by
  intro other
  rw [upserted_target, mem_put]
  constructor
  · rintro ⟨rfl | hother, hpos⟩
    · rfl
    · exact absurd hpos hother.2
  · rintro rfl
    exact ⟨.inl rfl, rfl⟩

theorem Tally.upserted (h : Tally m E mv t w₀ w job P) (hready : Resumable m E mv t w₀)
    (hrow : row ∈ m.scopeRows w₀ t mv) : Tally m E mv t w₀ (upserted E mv t w row) job P := by
  obtain ⟨done, hdone⟩ := h
  refine ⟨done, hdone.nodup, hdone.mem, hdone.rows, hdone.checksum, ?_⟩
  intro counted hcounted
  have hscope := ((hdone.mem counted).1 hcounted).1
  by_cases hpos : E.rowPos t.pk counted = E.rowPos t.pk row
  · rw [hready.distinct.eq (hready.mem_scope.1 hscope).1 (hready.mem_scope.1 hrow).1 hpos]
    exact placed_upserted w row
  · intro other
    rw [upserted_target, ← hdone.placed counted hcounted other]
    refine and_congr_left fun hother => ?_
    exact mem_put_other (hother ▸ hpos)

theorem Saved.upserted (h : Saved m E mv t w₀ w job) (hready : Resumable m E mv t w₀)
    (hrow : row ∈ m.scopeRows w₀ t mv) : Saved m E mv t w₀ (upserted E mv t w row) job := by
  obtain ⟨mark, hmark, hfound, htally⟩ := h.tally
  exact ⟨h.load, h.phase, mark, hmark, hfound, htally.upserted hready hrow⟩

/-- A cursor that is read back where it was written counts the same rows. -/
theorem Saved.reopens (h : Saved m E mv t w₀ w job) (hkept : Kept m E mv t w₀ w)
    (hrereads : Rereads m E mv t (none, w)) : Reopens m E mv t w₀ w job := by
  obtain ⟨mark, hmark, hfound, htally⟩ := h.tally
  cases mark with
  | none => exact ⟨none, by rw [hmark]; rfl, htally⟩
  | some v =>
    obtain ⟨row, hrow, hv⟩ := hfound v rfl
    obtain ⟨u, hparse, hu⟩ := hrereads job h.load row ((hkept.source row).2 hrow) v hv hmark
    refine ⟨some u, by rw [hmark]; simp [parseCursor, hparse], htally.congr fun row _ => ?_⟩
    simp [Engine.Past, hu]

theorem Tally.count (h : Tally m E mv t w₀ w job P) (hready : Resumable m E mv t w₀) (hrow : row ∈ m.scopeRows w₀ t mv)
    (hfresh : ¬ P row) (hcount : job.count row = .ok job') :
    Tally m E mv t w₀ (Shard.upserted E mv t w row) job' fun other => P other ∨ other = row := by
  obtain ⟨done, hdone⟩ := h.upserted hready hrow
  obtain ⟨hrows, hchecksum, -, -⟩ := Migration.count_eq hcount
  have hnew : row ∉ done := fun hin => hfresh ((hdone.mem row).1 hin).2
  refine ⟨row :: done, List.nodup_cons.2 ⟨hnew, hdone.nodup⟩, ?_, ?_, ?_, ?_⟩
  · intro other
    rw [List.mem_cons, hdone.mem]
    constructor
    · rintro (rfl | ⟨hother, hP⟩)
      · exact ⟨hrow, .inr rfl⟩
      · exact ⟨hother, .inl hP⟩
    · rintro ⟨hother, hP | rfl⟩
      · exact .inr ⟨hother, hP⟩
      · exact .inl rfl
  · rw [hrows, hdone.rows, List.length_cons]
  · rw [hchecksum, hdone.checksum, UInt64.xor_comm]
    rfl
  · exact List.forall_mem_cons.2 ⟨placed_upserted w row, hdone.placed⟩

/-! ### The steps of a move -/

theorem ensureJob_inv {state : Dialect} {jobs jobs' : Jobs} (h : ensureJob state jobs mv = .ok (job, jobs')) :
    loadJob state jobs' (moveId mv) = .ok (some job) ∧
      (jobs' = jobs ∨ jobs (moveId mv) = none ∧ job = freshJob) := by
  obtain ⟨found, hfound, h⟩ := bind_eq_ok.1 h
  cases found with
  | some job' =>
    obtain ⟨rfl, rfl⟩ := Prod.mk.inj (Except.ok.inj h)
    exact ⟨hfound, .inl rfl⟩
  | none =>
    obtain ⟨found, hloaded, h⟩ := bind_eq_ok.1 h
    cases found with
    | none => cases h
    | some job' =>
      obtain ⟨rfl, rfl⟩ := Prod.mk.inj (Except.ok.inj h)
      have hnone : jobs (moveId mv) = none := none_of_loadJob hfound
      refine ⟨hloaded, .inr ⟨hnone, ?_⟩⟩
      obtain ⟨-, row, hrow, hdecode⟩ := loadJob_some_iff.1 hloaded
      rw [insertJob, hnone] at hrow
      obtain rfl := Option.some.inj (hrow.symm.trans (Function.update_self ..))
      exact Except.ok.inj (hdecode.symm.trans (decode_freshRow state))

theorem startMove_resumed (hkept : Kept m E mv t w₀ w)
    (hjob : w.jobs (moveId mv) = none ∨ ∃ job, Saved m E mv t w₀ w job ∧ Reopens m E mv t w₀ w job)
    (h : m.startMove E w mv = .ok (point, w')) : Kept m E mv t w₀ w' ∧ ∃ job cursor, point = .scan mv job cursor ∧
      Saved m E mv t w₀ w' job ∧ Tally m E mv t w₀ w' job fun row => ¬ E.Past cursor (E.rowPos t.pk row) := by
  obtain ⟨⟨job, jobs⟩, hensure, h⟩ := bind_eq_ok.1 h
  obtain ⟨hload, hfrom⟩ := ensureJob_inv hensure
  have hsaved : Saved m E mv t w₀ { w with jobs } job ∧ Reopens m E mv t w₀ { w with jobs } job := by
    rcases hfrom with rfl | ⟨-, rfl⟩
    · rcases hjob with hnone | ⟨stored, hstored, hreopens⟩
      · obtain ⟨-, row, hrow, -⟩ := loadJob_some_iff.1 hload
        rw [hnone] at hrow
        cases hrow
      · obtain rfl := Option.some.inj (Except.ok.inj (hstored.load.symm.trans hload))
        exact ⟨hstored, hreopens⟩
    · have htally : Tally m E mv t w₀ { w with jobs } freshJob fun row => ¬ E.Past none (E.rowPos t.pk row) :=
        Tally.none rfl rfl fun row hbehind => hbehind fun v hv => by cases hv
      exact ⟨⟨hload, .inl rfl, none, rfl, fun v hv => (by cases hv), htally⟩, none, rfl, htally⟩
  obtain ⟨hsaved, cursor, hcursor, htally⟩ := hsaved
  have hopen : ¬(job.phase = .verified ∨ job.phase = .cutover ∨ job.phase = .done) ∧ job.phase ≠ .rolledBack := by
    rcases hsaved.phase with hphase | hphase <;> simp [hphase]
  simp only [if_neg hopen.1, if_neg hopen.2, ok_bind] at h
  obtain ⟨source, -, h⟩ := bind_eq_ok.1 h
  obtain ⟨target, -, h⟩ := bind_eq_ok.1 h
  obtain ⟨table, -, h⟩ := bind_eq_ok.1 h
  obtain ⟨parsed, hparsed, h⟩ := bind_eq_ok.1 h
  obtain rfl := Except.ok.inj (hcursor.symm.trans hparsed)
  obtain ⟨rfl, rfl⟩ := Prod.mk.inj (Except.ok.inj h)
  exact ⟨hkept.of_jobs jobs, job, cursor, rfl, hsaved, htally⟩

theorem scanMove_resumed (hready : Resumable m E mv t w₀) (w : World) (job : JobState) (cursor : Option Value) :
    m.scanMove E w mv job cursor =
      match ((E.rest t mv.keyRange cursor (w.data mv.fromShard mv.table)).take m.chunkSize).getLast? with
      | none => .ok .next
      | some last => .ok (.copy mv job last
          ((E.rest t mv.keyRange cursor (w.data mv.fromShard mv.table)).take m.chunkSize) 0) := by
  rw [ShardMigrator.scanMove, hready.table, ok_bind]
  simp only [ShardMigrator.scanChunk, select_eq, hready.name]
  cases ((E.rest t mv.keyRange cursor (w.data mv.fromShard mv.table)).take m.chunkSize).getLast? <;> rfl

/-- A scan that finds nothing has no row of the move before it. -/
theorem tally_end (hready : Resumable m E mv t w₀) (hkept : Kept m E mv t w₀ w)
    (htally : Tally m E mv t w₀ w job fun row => ¬ E.Past cursor (E.rowPos t.pk row))
    (hrest : E.rest t mv.keyRange cursor (w.data mv.fromShard mv.table) = []) :
    Tally m E mv t w₀ w job fun _ => True := by
  apply htally.congr
  intro row hrow
  refine ⟨fun _ => trivial, fun _ hpast => ?_⟩
  obtain ⟨hsource, hwithin, -⟩ := hready.mem_scope.1 hrow
  have hin : row ∈ E.rest t mv.keyRange cursor (w.data mv.fromShard mv.table) :=
    mem_rest.2 ⟨(hkept.source row).2 hsource, hpast, hwithin⟩
  rw [hrest] at hin
  cases hin

/-- Behind the cursor is what is up to the last row of the chunk and not in the chunk. -/
theorem tally_chunk (hready : Resumable m E mv t w₀) (hkept : Kept m E mv t w₀ w)
    (htally : Tally m E mv t w₀ w job fun row => ¬ E.Past cursor (E.rowPos t.pk row)) {more : List Row}
    (hsplit : E.rest t mv.keyRange cursor (w.data mv.fromShard mv.table) = batch ++ more)
    (hlast : batch.getLast? = some last) : Chunk E mv t w₀ last batch ∧
      Tally m E mv t w₀ w job fun row => E.rowPos t.pk row ≤ E.rowPos t.pk last ∧ row ∉ batch := by
  have hstrict : (batch ++ more).Pairwise fun a b => E.rowPos t.pk a < E.rowPos t.pk b := by
    rw [← hsplit]
    exact rest_strict hkept.distinct
  obtain ⟨hbatch, -, hcross⟩ := List.pairwise_append.1 hstrict
  have hmem : ∀ row, row ∈ batch ++ more ↔ row ∈ w₀.data mv.fromShard mv.table ∧
      E.Past cursor (E.rowPos t.pk row) ∧ keyWithin mv.keyRange (row.get t.key) = true := by
    intro row
    rw [← hsplit, mem_rest, hkept.source]
  have hlastmem : last ∈ batch := List.mem_of_getLast? hlast
  have hlastrest := (hmem last).1 (List.mem_append_left more hlastmem)
  refine ⟨⟨hlastrest.1, ?_, hbatch.nodup⟩, htally.congr ?_⟩
  · intro row hrow
    obtain ⟨hsource, -, hwithin⟩ := (hmem row).1 (List.mem_append_left more hrow)
    exact ⟨hsource, hwithin, strict_le_getLast hbatch hlast hrow⟩
  · intro row hrow
    obtain ⟨hsource, hwithin, -⟩ := hready.mem_scope.1 hrow
    constructor
    · intro hbehind
      refine ⟨?_, fun hin => hbehind ((hmem row).1 (List.mem_append_left more hin)).2.1⟩
      by_contra hlt
      apply hbehind
      intro v hv
      exact (hlastrest.2.1 v hv).trans (not_le.1 hlt)
    · rintro ⟨hle, hnot⟩ hpast
      rcases List.mem_append.1 ((hmem row).2 ⟨hsource, hpast, hwithin⟩) with hin | hin
      · exact hnot hin
      · exact absurd hle (not_le.2 (hcross last hlastmem row hin))

theorem copyRow_inv (hready : Resumable m E mv t w₀) {found : Option JobState}
    (h : m.copyRow E w mv job row = .ok (found, w')) :
    m.routesTo mv row = .ok false ∧ found = none ∧ w' = w ∨
    m.routesTo mv row = .ok true ∧ w' = upserted E mv t w row ∧
      ∃ job', found = some job' ∧ job.count row = .ok job' := by
  obtain ⟨routed, hroutes, h⟩ := bind_eq_ok.1 h
  cases routed with
  | false =>
    obtain ⟨rfl, rfl⟩ := Prod.mk.inj (Except.ok.inj h)
    exact .inl ⟨hroutes, rfl, rfl⟩
  | true =>
    obtain ⟨w₂, hupsert, h⟩ := bind_eq_ok.1 h
    obtain ⟨job', hcount, h⟩ := bind_eq_ok.1 h
    obtain ⟨rfl, rfl⟩ := Prod.mk.inj (Except.ok.inj h)
    obtain ⟨d, -, hupsert⟩ := bind_eq_ok.1 hupsert
    split_ifs at hupsert with hdialect hcolumns
    · rw [hready.table, ok_bind] at hupsert
      cases hupsert
    · rw [hready.table, ok_bind] at hupsert
      obtain rfl := Except.ok.inj hupsert
      exact .inr ⟨hroutes, rfl, job', rfl, hcount⟩

theorem saveChunk_resumed (hready : Resumable m E mv t w₀) {stored : JobState}
    (hstored : Saved m E mv t w₀ w stored) (hlast : last ∈ w₀.data mv.fromShard mv.table)
    (htally : Tally m E mv t w₀ w job fun row => E.rowPos t.pk row ≤ E.rowPos t.pk last)
    (h : m.saveChunk w mv job last = .ok (point, w')) : ∃ job' v jobs, last.get t.pk = some v ∧
      point = .scan mv job' (some v) ∧ w' = { w with jobs } ∧ Saved m E mv t w₀ w' job' ∧
      Tally m E mv t w₀ w' job' fun row => ¬ E.Past (some v) (E.rowPos t.pk row) := by
  obtain ⟨v, hv⟩ := hready.keys last hlast
  have hpos : E.rowPos t.pk last = E.pos v := by rw [Engine.rowPos, hv, Option.getD_some]
  have hvalue : rowValue last t.pk = .ok v := by rw [rowValue, hv]
  rw [ShardMigrator.saveChunk, hready.table, ok_bind, hvalue, ok_bind] at h
  obtain ⟨jobs, hsave, h⟩ := bind_eq_ok.1 h
  obtain ⟨rfl, rfl⟩ := Prod.mk.inj (Except.ok.inj h)
  have hjob : Tally m E mv t w₀ w { job with cursor := some v.toText, phase := .backfilling } _ :=
    htally.of_job rfl rfl
  have hbehind : Tally m E mv t w₀ { w with jobs } { job with cursor := some v.toText, phase := .backfilling }
      fun row => ¬ E.Past (some v) (E.rowPos t.pk row) := by
    apply (hjob.of_jobs jobs).congr
    intro row _
    simp [Engine.Past, hpos]
  refine ⟨_, v, jobs, hv, rfl, rfl, ⟨(saveJob_stored hstored.load hsave).1, .inr rfl, some v, rfl, ?_, hbehind⟩,
    hbehind⟩
  rintro v' ⟨⟩
  exact ⟨last, hlast, hv⟩

/-! ### Steps and runs -/

theorem ahead_table (hready : Resumable m E mv t w₀) (w : World) (cursor : ShardTable → Option Value) :
    m.ahead E w mv cursor = (E.rest t mv.keyRange (cursor t) (w.data mv.fromShard mv.table)).length := by
  rw [ShardMigrator.ahead, hready.table]

theorem ahead_upserted (hready : Resumable m E mv t w₀) (hkept : Kept m E mv t w₀ w)
    (hrow : row ∈ m.scopeRows w₀ t mv) (cursor : ShardTable → Option Value) :
    m.ahead E (upserted E mv t w row) mv cursor = m.ahead E w mv cursor := by
  rw [ahead_table hready, ahead_table hready, upserted_source]
  split_ifs
  · rw [rest_put_self hkept.distinct ((hkept.source row).2 (hready.mem_scope.1 hrow).1)]
  · rfl

theorem copy_step (hready : Resumable m E mv t w₀) (hkept : Kept m E mv t w₀ w) {moves : List ShardMove}
    {report : MigrationReport} {b' : Backfill}
    (hat : AtPoint m E mv t w₀ w (.copy mv job last (row :: batch) n) moves)
    (hstep : m.step E ⟨.copy mv job last (row :: batch) n, moves, report⟩ w = .ok (b', w')) :
    (Kept m E mv t w₀ w' ∧ AtPoint m E mv t w₀ w' b'.point b'.moves) ∧
      m.remaining E b' w' < m.remaining E ⟨.copy mv job last (row :: batch) n, moves, report⟩ w := by
  obtain ⟨-, rfl, ⟨stored, hstored⟩, hchunk, htally⟩ := hat
  obtain ⟨hsource, hwithin, hle⟩ := hchunk.rows row List.mem_cons_self
  obtain ⟨hnew, hnodup⟩ := List.nodup_cons.1 hchunk.nodup
  have hrest : Chunk E mv t w₀ last batch :=
    ⟨hchunk.found, fun other hother => hchunk.rows other (List.mem_cons_of_mem row hother), hnodup⟩
  obtain ⟨⟨found, w₂⟩, hcopy, hresult⟩ := bind_eq_ok.1 hstep
  rcases copyRow_inv hready hcopy with ⟨hroutes, rfl, rfl⟩ | ⟨hroutes, rfl, job', rfl, hcount⟩
  · obtain ⟨rfl, rfl⟩ := Prod.mk.inj (Except.ok.inj hresult)
    refine ⟨⟨hkept, rfl, rfl, ⟨stored, hstored⟩, hrest, htally.congr ?_⟩, lex_snd (lex_snd (by simp))⟩
    intro other hother
    have hne : other ≠ row := by
      rintro rfl
      have htrue := (hready.mem_scope.1 hother).2.2
      rw [hroutes] at htrue
      cases htrue
    rw [List.mem_cons, not_or, and_iff_right hne]
  · obtain ⟨rfl, rfl⟩ := Prod.mk.inj (Except.ok.inj hresult)
    have hscope : row ∈ m.scopeRows w₀ t mv := hready.mem_scope.2 ⟨hsource, hwithin, hroutes⟩
    have hcounted := htally.count hready hscope (fun h => h.2 List.mem_cons_self) hcount
    refine ⟨⟨hkept.upserted hready hscope, rfl, rfl, ⟨stored, hstored.upserted hready hscope⟩, hrest,
      hcounted.congr ?_⟩, ?_⟩
    · intro other hother
      rw [List.mem_cons, not_or]
      constructor
      · rintro (⟨hle', -, hnot⟩ | rfl)
        · exact ⟨hle', hnot⟩
        · exact ⟨hle, hnew⟩
      · rintro ⟨hle', hnot⟩
        by_cases heq : other = row
        · exact .inr heq
        · exact .inl ⟨hle', heq, hnot⟩
    · simp only [ShardMigrator.remaining, ahead_upserted hready hkept hscope]
      exact lex_snd (lex_snd (by simp))

theorem save_step (hready : Resumable m E mv t w₀) (hkept : Kept m E mv t w₀ w) {moves : List ShardMove}
    {report : MigrationReport} {b' : Backfill} (hat : AtPoint m E mv t w₀ w (.copy mv job last [] n) moves)
    (hstep : m.step E ⟨.copy mv job last [] n, moves, report⟩ w = .ok (b', w')) :
    (Kept m E mv t w₀ w' ∧ AtPoint m E mv t w₀ w' b'.point b'.moves) ∧
      m.remaining E b' w' < m.remaining E ⟨.copy mv job last [] n, moves, report⟩ w := by
  obtain ⟨-, rfl, ⟨stored, hstored⟩, hchunk, htally⟩ := hat
  have hall : Tally m E mv t w₀ w job fun row => E.rowPos t.pk row ≤ E.rowPos t.pk last :=
    htally.congr fun row _ => and_iff_left (List.not_mem_nil)
  obtain ⟨⟨point, w₂⟩, hsave, hstep⟩ := bind_eq_ok.1 hstep
  obtain ⟨job', v, jobs, hv, rfl, rfl, hsaved, htally'⟩ := saveChunk_resumed hready hstored hchunk.found hall hsave
  obtain ⟨rfl, rfl⟩ := Prod.mk.inj (Except.ok.inj hstep)
  refine ⟨⟨hkept.of_jobs jobs, rfl, rfl, hsaved, htally'⟩, ?_⟩
  have hahead : m.ahead E { w with jobs } mv (fun _ => some v) = m.ahead E w mv fun t => last.get t.pk := by
    rw [ahead_table hready, ahead_table hready, hv]
  simp only [ShardMigrator.remaining, hahead]
  exact lex_snd (lex_snd (by simp))

theorem scan_step (hready : Resumable m E mv t w₀) (hsize : 0 < m.chunkSize) (hkept : Kept m E mv t w₀ w)
    {moves : List ShardMove} {report : MigrationReport} {b' : Backfill}
    (hat : AtPoint m E mv t w₀ w (.scan mv job cursor) moves)
    (hstep : m.step E ⟨.scan mv job cursor, moves, report⟩ w = .ok (b', w')) :
    (Kept m E mv t w₀ w' ∧ AtPoint m E mv t w₀ w' b'.point b'.moves) ∧
      m.remaining E b' w' < m.remaining E ⟨.scan mv job cursor, moves, report⟩ w := by
  obtain ⟨-, rfl, hsaved, htally⟩ := hat
  obtain ⟨point, hscan, hstep⟩ := bind_eq_ok.1 hstep
  obtain ⟨rfl, rfl⟩ := Prod.mk.inj (Except.ok.inj hstep)
  rw [scanMove_resumed hready] at hscan
  set rest := E.rest t mv.keyRange cursor (w.data mv.fromShard mv.table) with hrest
  cases hlast : (rest.take m.chunkSize).getLast? with
  | none =>
    rw [hlast] at hscan
    obtain rfl := Except.ok.inj hscan
    have hempty : rest = [] := by
      rcases List.take_eq_nil_iff.1 (List.getLast?_eq_none_iff.1 hlast) with hzero | hnil
      · omega
      · exact hnil
    exact ⟨⟨hkept, job, hsaved, tally_end hready hkept htally hempty⟩, lex_fst (by simp)⟩
  | some last =>
    rw [hlast] at hscan
    obtain rfl := Except.ok.inj hscan
    have hsplit : rest = rest.take m.chunkSize ++ rest.drop m.chunkSize := (List.take_append_drop _ _).symm
    obtain ⟨hchunk, hcounted⟩ := tally_chunk hready hkept htally hsplit hlast
    refine ⟨⟨hkept, rfl, rfl, ⟨job, hsaved⟩, hchunk, hcounted⟩, lex_snd (lex_fst ?_)⟩
    obtain ⟨v, hv⟩ := hready.keys last hchunk.found
    have hnext := rest_next hkept.distinct hsplit hlast hv
    rw [ahead_table hready, ahead_table hready, hv, hnext, ← hrest, List.length_drop]
    have hpos := List.length_pos_of_mem (List.mem_of_getLast? hlast)
    rw [List.length_take] at hpos
    omega

/-- Each step keeps what the job has counted, and leaves less to do. -/
theorem resumed_step (hready : Resumable m E mv t w₀) (hsize : 0 < m.chunkSize) {b b' : Backfill}
    (hkept : Kept m E mv t w₀ w) (hat : AtPoint m E mv t w₀ w b.point b.moves)
    (hstep : m.Steps E (b, w) (b', w')) :
    (Kept m E mv t w₀ w' ∧ AtPoint m E mv t w₀ w' b'.point b'.moves) ∧ m.remaining E b' w' < m.remaining E b w := by
  obtain ⟨hrunning, hstep⟩ := hstep
  obtain ⟨point, moves, report⟩ := b
  cases point with
  | next =>
    cases moves with
    | nil => exact absurd ⟨rfl, rfl⟩ hrunning
    | cons mv' moves =>
      obtain ⟨hmoves, hjob⟩ := hat
      obtain ⟨rfl, rfl⟩ := List.cons.inj hmoves
      obtain ⟨⟨point, w₂⟩, hstart, hstep⟩ := bind_eq_ok.1 hstep
      obtain ⟨hkept', job, cursor, rfl, hsaved, htally⟩ := startMove_resumed hkept hjob hstart
      obtain ⟨rfl, rfl⟩ := Prod.mk.inj (Except.ok.inj hstep)
      exact ⟨⟨hkept', rfl, rfl, hsaved, htally⟩, lex_fst (by simp)⟩
  | scan mv' job cursor =>
    obtain rfl : mv' = mv := hat.1
    exact scan_step hready hsize hkept hat hstep
  | copy mv' job last batch n =>
    obtain rfl : mv' = mv := hat.1
    cases batch with
    | nil => exact save_step hready hkept hat hstep
    | cons row batch => exact copy_step hready hkept hat hstep

/-! ### No step fails -/

/-- The shards of the move can be reached, its rows have a shard, and the job table can be made and
holds their number. -/
structure Served (m : ShardMigrator) (mv : ShardMove) (t : ShardTable) (w₀ : World) : Prop where
  source : ∃ d, m.client mv.fromShard = .ok d
  target : ∃ d, m.client mv.toShard = .ok d ∧ d ≠ .mssql
  schema : ensureSchema m.state = .ok ()
  routable : m.Routable w₀ t mv
  countable : ((m.scopeRows w₀ t mv).length : Int) ≤ m.state.rowsMax

omit [LinearOrder K] in
theorem Tally.rows_le (h : Tally m E mv t w₀ w job P) : job.rows ≤ (m.scopeRows w₀ t mv).length := by
  obtain ⟨done, hdone⟩ := h
  rw [hdone.rows]
  exact (hdone.nodup.subperm fun row hrow => ((hdone.mem row).1 hrow).1).length_le

theorem ensureJob_ok (hserved : Served m mv t w₀)
    (hjob : w.jobs (moveId mv) = none ∨ ∃ job, Saved m E mv t w₀ w job) :
    ∃ job jobs, ensureJob m.state w.jobs mv = .ok (job, jobs) := by
  rcases hjob with hnone | ⟨job, hsaved⟩
  · have hempty : loadJob m.state w.jobs (moveId mv) = .ok none := loadJob_none hserved.schema hnone
    have hload : loadJob m.state (insertJob w.jobs (moveId mv)) (moveId mv) = .ok (some freshJob) := by
      rw [loadJob_some_iff, insertJob, hnone]
      exact ⟨hserved.schema, freshRow, Function.update_self .., decode_freshRow _⟩
    refine ⟨freshJob, insertJob w.jobs (moveId mv), ?_⟩
    rw [ensureJob, hempty, ok_bind]
    simp only [hload, ok_bind]
    rfl
  · refine ⟨job, w.jobs, ?_⟩
    rw [ensureJob, hsaved.load, ok_bind]
    rfl

theorem startMove_ok (hready : Resumable m E mv t w₀) (hserved : Served m mv t w₀)
    (hjob : w.jobs (moveId mv) = none ∨ ∃ job, Saved m E mv t w₀ w job ∧ Reopens m E mv t w₀ w job) :
    ∃ point w', m.startMove E w mv = .ok (point, w') := by
  obtain ⟨job, jobs, hensure⟩ := ensureJob_ok hserved (hjob.imp_right fun ⟨job, hsaved, _⟩ => ⟨job, hsaved⟩)
  obtain ⟨hload, hfrom⟩ := ensureJob_inv hensure
  obtain ⟨d, hd⟩ := hserved.source
  obtain ⟨d', hd', -⟩ := hserved.target
  have hstart : ∃ cursor, parseCursor E job.cursor = .ok cursor ∧
      (job.phase = .pending ∨ job.phase = .backfilling) := by
    rcases hfrom with rfl | ⟨-, rfl⟩
    · rcases hjob with hnone | ⟨stored, hstored, cursor, hcursor, -⟩
      · obtain ⟨-, row, hrow, -⟩ := loadJob_some_iff.1 hload
        rw [hnone] at hrow
        cases hrow
      · obtain rfl := Option.some.inj (Except.ok.inj (hstored.load.symm.trans hload))
        exact ⟨cursor, hcursor, hstored.phase⟩
    · exact ⟨none, rfl, .inl rfl⟩
  obtain ⟨cursor, hcursor, hphase⟩ := hstart
  have hopen : ¬(job.phase = .verified ∨ job.phase = .cutover ∨ job.phase = .done) ∧ job.phase ≠ .rolledBack := by
    rcases hphase with hphase | hphase <;> simp [hphase]
  refine ⟨.scan mv job cursor, { w with jobs }, ?_⟩
  rw [ShardMigrator.startMove, hensure, ok_bind]
  simp only [if_neg hopen.1, if_neg hopen.2, ok_bind, hd, hd', hready.table, hcursor]
  rfl

theorem copyRow_ok (hready : Resumable m E mv t w₀) (hserved : Served m mv t w₀) (htally : Tally m E mv t w₀ w job P)
    (hrow : row ∈ w₀.data mv.fromShard mv.table) (hwithin : keyWithin mv.keyRange (row.get t.key) = true) :
    ∃ found w', m.copyRow E w mv job row = .ok (found, w') := by
  obtain ⟨routed, hroutes⟩ := hserved.routable row (hready.name ▸ hrow) hwithin
  cases routed with
  | false => exact ⟨none, w, by rw [ShardMigrator.copyRow, hroutes]; rfl⟩
  | true =>
    obtain ⟨d, hd, hdialect⟩ := hserved.target
    obtain ⟨v, hv⟩ := hready.keys row hrow
    have hroom : job.rows + 1 ≤ u64Max := by
      have hle := htally.rows_le
      have hmax := hserved.countable.trans (rowsMax_le _)
      rw [i64Max] at hmax
      rw [u64Max]
      omega
    obtain ⟨job', hcount⟩ := count_ok hroom row
    refine ⟨some job', upserted E mv t w row, ?_⟩
    have hupsert : m.upsertRow E w mv row = .ok (upserted E mv t w row) := by
      rw [ShardMigrator.upsertRow, hd, ok_bind, if_neg hdialect, hready.table, ok_bind,
        if_neg (columns_of_get hv)]
      rfl
    rw [ShardMigrator.copyRow, hroutes, ok_bind, if_pos rfl, hupsert, ok_bind, hcount]
    rfl

theorem saveChunk_ok (hready : Resumable m E mv t w₀) (hserved : Served m mv t w₀) {stored : JobState}
    (hstored : Saved m E mv t w₀ w stored) (htally : Tally m E mv t w₀ w job P)
    (hlast : last ∈ w₀.data mv.fromShard mv.table) : ∃ point w', m.saveChunk w mv job last = .ok (point, w') := by
  obtain ⟨v, hv⟩ := hready.keys last hlast
  have hvalue : rowValue last t.pk = .ok v := by rw [rowValue, hv]
  have hfits : (({ job with cursor := some v.toText, phase := .backfilling } : JobState).rows : Int) ≤
      m.state.rowsMax := by
    have hle := htally.rows_le
    have hmax := hserved.countable
    show (job.rows : Int) ≤ m.state.rowsMax
    omega
  obtain ⟨jobs, hsave, -, -⟩ := saveJob_loads hstored.load hfits
  refine ⟨.scan mv { job with cursor := some v.toText, phase := .backfilling } (some v), { w with jobs }, ?_⟩
  rw [ShardMigrator.saveChunk, hready.table, ok_bind, hvalue, ok_bind]
  simp only [hsave]
  rfl

theorem resumed_progress (hready : Resumable m E mv t w₀) (hserved : Served m mv t w₀) {b : Backfill}
    (hat : AtPoint m E mv t w₀ w b.point b.moves) (hrunning : ¬ b.finished) :
    ∃ s, m.Steps E (b, w) s := by
  have hsteps : (∃ s, m.step E b w = .ok s) → ∃ s, m.Steps E (b, w) s := by
    rintro ⟨s, hs⟩
    exact ⟨s, hrunning, hs⟩
  apply hsteps
  obtain ⟨point, moves, report⟩ := b
  cases point with
  | next =>
    cases moves with
    | nil => exact absurd ⟨rfl, rfl⟩ hrunning
    | cons mv' moves =>
      obtain ⟨hmoves, hjob⟩ := hat
      obtain ⟨rfl, rfl⟩ := List.cons.inj hmoves
      obtain ⟨point, w', hstart⟩ := startMove_ok hready hserved hjob
      exact ⟨_, by simp only [ShardMigrator.step, hstart, ok_bind]; rfl⟩
  | scan mv' job cursor =>
    obtain rfl : mv' = mv := hat.1
    have hscan : ∃ point, m.scanMove E w mv' job cursor = .ok point := by
      rw [scanMove_resumed hready]
      split <;> exact ⟨_, rfl⟩
    obtain ⟨point, hscan⟩ := hscan
    exact ⟨_, by simp only [ShardMigrator.step, hscan, ok_bind]; rfl⟩
  | copy mv' job last batch n =>
    obtain ⟨rfl, -, ⟨stored, hstored⟩, hchunk, htally⟩ := hat
    cases batch with
    | nil =>
      obtain ⟨point, w', hsave⟩ := saveChunk_ok hready hserved hstored htally hchunk.found
      exact ⟨_, by simp only [ShardMigrator.step, hsave, ok_bind]; rfl⟩
    | cons row batch =>
      obtain ⟨hsource, hwithin, -⟩ := hchunk.rows row List.mem_cons_self
      obtain ⟨found, w', hcopy⟩ := copyRow_ok hready hserved htally hsource hwithin
      cases found with
      | none => exact ⟨_, by simp only [ShardMigrator.step, hcopy, ok_bind]; rfl⟩
      | some job' => exact ⟨_, by simp only [ShardMigrator.step, hcopy, ok_bind]; rfl⟩

/-! ### Crashes and reruns -/

omit [LinearOrder K] in
theorem Resumable.kept (h : Resumable m E mv t w₀) : Kept m E mv t w₀ w₀ :=
  ⟨fun _ => .rfl, h.distinct, fun _ hrow => .inr hrow, fun _ hrow _ => hrow⟩

theorem chunkSize_pos (m : ShardMigrator) (n : Nat) : 0 < (m.withChunkSize n).chunkSize :=
  lt_of_lt_of_le one_pos (Nat.le_max_right n 1)

/-- What is stored is enough to start again, wherever the move crashed. -/
theorem AtPoint.crashed {moves : List ShardMove} (h : AtPoint m E mv t w₀ w point moves) :
    w.jobs (moveId mv) = none ∨ ∃ job, Saved m E mv t w₀ w job := by
  cases point with
  | next =>
    cases moves with
    | nil =>
      obtain ⟨job, hsaved, -⟩ := h
      exact .inr ⟨job, hsaved⟩
    | cons mv' moves => exact h.2.imp_right fun ⟨job, hsaved, _⟩ => ⟨job, hsaved⟩
  | scan mv' job cursor => exact .inr ⟨job, h.2.2.1⟩
  | copy mv' job last batch n => exact .inr h.2.2.1

/-! The size of the chunks is no part of what is kept. -/

variable {m' : ShardMigrator}

omit [LinearOrder K] in
theorem Tally.resized (h : Tally m E mv t w₀ w job P) (hscope : m'.scopeRows w₀ t mv = m.scopeRows w₀ t mv) :
    Tally m' E mv t w₀ w job P := by
  obtain ⟨done, hdone⟩ := h
  exact ⟨done, hdone.nodup, by rw [hscope]; exact hdone.mem, hdone.rows, hdone.checksum, hdone.placed⟩

omit [LinearOrder K] in
theorem Kept.resized (h : Kept m E mv t w₀ w) (hscope : m'.scopeRows w₀ t mv = m.scopeRows w₀ t mv) :
    Kept m' E mv t w₀ w :=
  ⟨h.source, h.distinct, by rw [hscope]; exact h.found, by rw [hscope]; exact h.others⟩

theorem Saved.resized (h : Saved m E mv t w₀ w job) (hscope : m'.scopeRows w₀ t mv = m.scopeRows w₀ t mv)
    (hstate : m'.state = m.state) : Saved m' E mv t w₀ w job := by
  obtain ⟨mark, hmark, hfound, htally⟩ := h.tally
  exact ⟨hstate ▸ h.load, h.phase, mark, hmark, hfound, htally.resized hscope⟩

theorem AtPoint.resized {moves : List ShardMove} (h : AtPoint m E mv t w₀ w point moves)
    (hscope : m'.scopeRows w₀ t mv = m.scopeRows w₀ t mv) (hstate : m'.state = m.state) :
    AtPoint m' E mv t w₀ w point moves := by
  cases point with
  | next =>
    cases moves with
    | nil =>
      obtain ⟨job, hsaved, htally⟩ := h
      exact ⟨job, hsaved.resized hscope hstate, htally.resized hscope⟩
    | cons mv' moves =>
      refine ⟨h.1, h.2.imp_right ?_⟩
      rintro ⟨job, hsaved, cursor, hcursor, htally⟩
      exact ⟨job, hsaved.resized hscope hstate, cursor, hcursor, htally.resized hscope⟩
  | scan mv' job cursor =>
    obtain ⟨hmv, hmoves, hsaved, htally⟩ := h
    exact ⟨hmv, hmoves, hsaved.resized hscope hstate, htally.resized hscope⟩
  | copy mv' job last batch n =>
    obtain ⟨hmv, hmoves, ⟨stored, hstored⟩, hchunk, htally⟩ := h
    exact ⟨hmv, hmoves, ⟨stored, hstored.resized hscope hstate⟩, hchunk, htally.resized hscope⟩

omit [LinearOrder K] in
theorem Resumable.resized (h : Resumable m E mv t w₀) (n : Nat) : Resumable (m.withChunkSize n) E mv t w₀ :=
  ⟨h.table, h.fresh, h.distinct, h.keys⟩

/-- A step of an attempt, whatever the size of its chunks. -/
theorem attempt_step (hready : Resumable m E mv t w₀) {b b' : Backfill} (hkept : Kept m E mv t w₀ w)
    (hat : AtPoint m E mv t w₀ w b.point b.moves) (hstep : (m.withChunkSize n).Steps E (b, w) (b', w')) :
    (Kept m E mv t w₀ w' ∧ AtPoint m E mv t w₀ w' b'.point b'.moves) ∧
      (m.withChunkSize n).remaining E b' w' < (m.withChunkSize n).remaining E b w := by
  obtain ⟨⟨hkept', hat'⟩, hless⟩ := resumed_step (hready.resized n) (chunkSize_pos m n) (hkept.resized rfl)
    (hat.resized rfl rfl) hstep
  exact ⟨⟨hkept'.resized rfl, hat'.resized rfl rfl⟩, hless⟩

theorem resumed_attempts (hready : Resumable m E mv t w₀) {s s' : Option (Nat × Backfill) × World}
    (h : Resumed m E mv t w₀ s) (hrereads : Rereads m E mv t s) (hstep : m.Attempts E mv s s') :
    Resumed m E mv t w₀ s' := by
  cases hstep with
  | start n w =>
    refine ⟨h.1, rfl, h.2.imp_right ?_⟩
    rintro ⟨job, hsaved⟩
    exact ⟨job, hsaved, hsaved.reopens h.1 hrereads⟩
  | step hstep => exact (attempt_step hready h.1 h.2 hstep).1
  | crash n b w => exact ⟨h.1, h.2.crashed⟩

theorem resumed_run (hready : Resumable m E mv t w₀) {s : Option (Nat × Backfill) × World}
    (hrun : Relation.ReflTransGen (m.Reruns E mv t) (none, w₀) s) :
    Resumed m E mv t w₀ s := by
  induction hrun with
  | refl => exact ⟨hready.kept, .inl hready.fresh⟩
  | tail _ hstep ih => exact resumed_attempts hready ih hstep.1 hstep.2

theorem AtPoint.moved (hready : Resumable m E mv t w₀) (hkept : Kept m E mv t w₀ w)
    (h : AtPoint m E mv t w₀ w .next []) : Moved m E mv t w₀ w := by
  obtain ⟨job, hsaved, done, hdone⟩ := h
  have hall : ∀ row, row ∈ done ↔ row ∈ m.scopeRows w₀ t mv := fun row => (hdone.mem row).trans (and_iff_left trivial)
  have hnodup : (m.scopeRows w₀ t mv).Nodup := by
    rw [ShardMigrator.scopeRows, hready.name]
    exact hready.distinct.nodup.filter _
  have hperm : done.Perm (m.scopeRows w₀ t mv) := (List.perm_ext_iff_of_nodup hdone.nodup hnodup).2 hall
  refine ⟨?_, job, hsaved.load, by rw [hdone.rows, hperm.length_eq], by rw [hdone.checksum, statsOf_perm hperm]⟩
  intro row
  constructor
  · intro hrow
    by_cases hscope : row ∈ m.scopeRows w₀ t mv
    · exact .inl hscope
    · refine .inr ⟨(hkept.found row hrow).resolve_left hscope, fun other hother hpos => hscope ?_⟩
      rw [(hdone.placed other ((hall other).2 hother) row).1 ⟨hrow, hpos.symm⟩]
      exact hother
  · rintro (hscope | ⟨hown, hfree⟩)
    · exact ((hdone.placed row ((hall row).2 hscope) row).2 rfl).1
    · exact hkept.others row hown hfree

theorem attempts_steps {R : Option (Nat × Backfill) × World → Option (Nat × Backfill) × World → Prop}
    (hR : ∀ {n b b' w w'}, (m.withChunkSize n).Steps E (b, w) (b', w') → R (some (n, b), w) (some (n, b'), w'))
    {s : Option (Nat × Backfill) × World} {b b' : Backfill} (h : Relation.ReflTransGen R s (some (n, b), w))
    (hsteps : Relation.ReflTransGen ((m.withChunkSize n).Steps E) (b, w) (b', w')) :
    Relation.ReflTransGen R s (some (n, b'), w') := by
  generalize hs' : (b', w') = s' at hsteps
  induction hsteps generalizing b' w' with
  | refl =>
    obtain ⟨rfl, rfl⟩ := Prod.mk.inj hs'
    exact h
  | tail _ hstep ih =>
    subst hs'
    exact (ih rfl).tail (hR hstep)

omit [LinearOrder K] in
theorem rereads_fresh (hready : Resumable m E mv t w₀) : Rereads m E mv t (none, w₀) := by
  intro job hload
  obtain ⟨-, row, hrow, -⟩ := loadJob_some_iff.1 hload
  rw [hready.fresh] at hrow
  cases hrow

end

/-! ### Two orders, and one with a fraction -/

theorem intEngine_parse {text : String} {n : Int} (h : InI64 n) (hread : readInt text = n) :
    intEngine.parse text = .ok (.ofI64 n h) := by
  subst hread
  exact dif_pos h

def pairWorld : World := orderWorld [orderRow 70 "new", orderRow 80 "new"]

theorem mem_pairWorld {row : Row} (h : row ∈ pairWorld.data "s0" "orders") :
    ∃ n, (n = 70 ∨ n = 80) ∧ row = orderRow n "new" := by
  rcases List.mem_cons.1 h with rfl | h
  · exact ⟨70, .inl rfl, rfl⟩
  · exact ⟨80, .inr rfl, List.mem_singleton.1 h⟩

theorem pair_resumable : Resumable halfMigrator intEngine halfMove halfTable pairWorld := by
  refine ⟨rfl, rfl, by unfold Engine.Distinct; decide +kernel, ?_⟩
  intro row hrow
  obtain ⟨n, -, rfl⟩ := mem_pairWorld hrow
  exact ⟨intValue n, rfl⟩

theorem pair_served : Served halfMigrator halfMove halfTable pairWorld := by
  refine ⟨⟨.sqlite, rfl⟩, ⟨.sqlite, rfl, by decide⟩, rfl, ?_, by decide +kernel⟩
  intro row _ _
  exact ⟨true, rfl⟩

theorem pair_rereads {w : World} (hkept : Kept halfMigrator intEngine halfMove halfTable pairWorld w) :
    Rereads halfMigrator intEngine halfMove halfTable (none, w) := by
  intro job _ row hrow v hv _
  obtain ⟨n, hn, rfl⟩ := mem_pairWorld ((hkept.source row).1 hrow)
  obtain rfl := Option.some.inj hv
  rcases hn with rfl | rfl
  · exact ⟨.ofI64 70 (by decide), intEngine_parse (by decide) (by decide +kernel), rfl⟩
  · exact ⟨.ofI64 80 (by decide), intEngine_parse (by decide) (by decide +kernel), rfl⟩

def realTable (bounds : List Int) (h : ∀ b ∈ bounds, InI64 b) : ShardTable :=
  ⟨"orders", "customer", "id", .range bounds h, [⟨"s0", none⟩, ⟨"s1", none⟩]⟩

def realMigrator : ShardMigrator :=
  ⟨⟨[halfMove]⟩, [("s0", .sqlite), ("s1", .sqlite)], .sqlite, ⟨[realTable [100] fits_hundred]⟩,
    ⟨[realTable [50] fits_fifty]⟩, 1000⟩

/-- Reading a text gives the number nearest to it or, of some texts, the one beside it. -/
def realEngine : Engine ℚ :=
  ⟨fun v => (sqlNumber v).getD 0, fun text =>
    if text = "100.00000000000001" then .ok (.number (.float 100 "100.0")) else .error "expected value"⟩

def realKey : Value := .number (.float (7036874417766401 / 70368744177664) "100.00000000000001")

def realRow : Row := ⟨["id", "customer"], [realKey, intValue 70]⟩

theorem real_resumable : Resumable realMigrator realEngine halfMove (realTable [50] fits_fifty) (orderWorld [realRow]) := by
  refine ⟨rfl, rfl, List.nodup_singleton _, ?_⟩
  intro row hrow
  obtain rfl := List.mem_singleton.1 hrow
  exact ⟨realKey, rfl⟩

end Ecat.Shard
