import Ecat.ShardProgress

/-! A migration that runs beside writes. A write goes to the shard that the old catalog has for its
row and, later and in order, to the one that the new catalog has. -/

namespace Ecat.Shard

open Json

/-- A built migrator whose moves have ids of their own, over databases that it supports. -/
structure ShardMigrator.Built (m : ShardMigrator) : Prop where
  planned : m.Planned
  ids : (m.plan.moves.map moveId).Nodup
  source : ∀ mv ∈ m.plan.moves, ∃ d, m.client mv.fromShard = .ok d
  target : ∀ mv ∈ m.plan.moves, ∃ d, m.client mv.toShard = .ok d ∧ d ≠ .mssql
  state : stateDialect m.state = .ok ()
  chunk : 0 < m.chunkSize

/-- One that has made its job table too. -/
structure ShardMigrator.Ready (m : ShardMigrator) : Prop extends m.Built where
  schema : ensureSchema m.state = .ok ()

def freshJob : JobState := ⟨.pending, none, 0, 0⟩

theorem decode_freshRow (state : Dialect) : freshRow.decode state = .ok freshJob := by
  cases state <;> decide +kernel

section

variable {K : Type} [LinearOrder K] {E : Engine K} {m : ShardMigrator} {w : World} {mv : ShardMove}
  {t t' : ShardTable} {job : JobState} {row : Row}

omit [LinearOrder K] in
theorem startMove_fresh (h : m.Ready) (hmv : mv ∈ m.plan.moves) (hfresh : w.jobs (moveId mv) = none) :
    m.startMove E w mv =
      .ok (.scan mv freshJob none, { w with jobs := Function.update w.jobs (moveId mv) (some freshRow) }) := by
  obtain ⟨t, t', ht⟩ := h.planned.tables_of_move hmv
  obtain ⟨d, hd⟩ := h.source mv hmv
  obtain ⟨d', hd', -⟩ := h.target mv hmv
  have hinsert : insertJob w.jobs (moveId mv) = Function.update w.jobs (moveId mv) (some freshRow) := by
    rw [insertJob, hfresh]
    rfl
  have hnone : loadJob m.state w.jobs (moveId mv) = .ok none := loadJob_none h.schema hfresh
  have hload : loadJob m.state (insertJob w.jobs (moveId mv)) (moveId mv) = .ok (some freshJob) := by
    rw [loadJob_some_iff, hinsert]
    exact ⟨h.schema, freshRow, Function.update_self .., decode_freshRow _⟩
  have hensure : ensureJob m.state w.jobs mv = .ok (freshJob, insertJob w.jobs (moveId mv)) := by
    rw [ensureJob, hnone, ok_bind]
    simp only [hload, ok_bind]
    rfl
  rw [ShardMigrator.startMove, hensure, ok_bind, hinsert]
  simp [freshJob, hd, hd', ht.new, parseCursor]

omit [LinearOrder K] in
theorem schema_of_startMove {s : Point × World} (h : m.startMove E w mv = .ok s) : ensureSchema m.state = .ok () := by
  obtain ⟨_, hensure, -⟩ := bind_eq_ok.1 h
  obtain ⟨_, hload, -⟩ := bind_eq_ok.1 hensure
  obtain ⟨u, hstate, hload⟩ := bind_eq_ok.1 hload
  obtain ⟨u', hexecutes, -⟩ := bind_eq_ok.1 hload
  exact bind_eq_ok.2 ⟨u, hstate, hexecutes⟩

theorem scanMove_eq (ht : m.Tables mv.table t t') (hname : t'.name = mv.table) (cursor : Option Value) :
    m.scanMove E w mv job cursor =
      match ((E.rest t mv.keyRange cursor (w.data mv.fromShard mv.table)).take m.chunkSize).getLast? with
      | none => .ok .next
      | some last => .ok (.copy mv job last
          ((E.rest t mv.keyRange cursor (w.data mv.fromShard mv.table)).take m.chunkSize) 0) := by
  have hbatch : m.scanChunk E w mv.fromShard t' mv.keyRange cursor =
      (E.rest t mv.keyRange cursor (w.data mv.fromShard mv.table)).take m.chunkSize := by
    rw [ShardMigrator.scanChunk, select_eq, Engine.rest, Engine.rest, ht.pk, ht.key, hname]
  rw [ShardMigrator.scanMove, ht.new, ok_bind]
  simp only [hbatch]
  cases ((E.rest t mv.keyRange cursor (w.data mv.fromShard mv.table)).take m.chunkSize).getLast? <;> rfl

theorem columns_of_get {col : String} {v : Value} (h : row.get col = some v) : row.columns ≠ [] := by
  intro hnil
  rw [Row.get, hnil] at h
  cases h

theorem saveChunk_inv {last : Row} {v : Value} {point : Point} {w' : World} (ht : m.Tables mv.table t t')
    (hv : last.get t.pk = some v) (h : m.saveChunk w mv job last = .ok (point, w')) :
    ∃ jobs, saveJob m.state w.jobs mv { job with cursor := some v.toText, phase := .backfilling } = .ok jobs ∧
      point = .scan mv { job with cursor := some v.toText, phase := .backfilling } (some v) ∧
      w' = { w with jobs } := by
  have hvalue : rowValue last t'.pk = .ok v := by rw [rowValue, ht.pk, hv]
  rw [ShardMigrator.saveChunk, ht.new, ok_bind, hvalue, ok_bind] at h
  obtain ⟨jobs, hjobs, h⟩ := bind_eq_ok.1 h
  obtain ⟨rfl, rfl⟩ := Prod.mk.inj (Except.ok.inj h)
  exact ⟨jobs, hjobs, rfl, rfl⟩

end

/-! ### States and steps -/

def Point.current : Point → List ShardMove
  | .next => []
  | .scan mv _ _ => [mv]
  | .copy mv _ _ _ _ => [mv]

structure Online where
  backfill : Backfill
  world : World
  mirrors : List Mirror

namespace Migration

variable {K : Type} [LinearOrder K]

/-- One step of the backfill, one write or one mirrored write. `allowed` says which rows may be
written, by the state of the backfill. -/
inductive OnlineStep (M : Migration K) (allowed : Backfill → String → ShardTable → Row → Prop) :
    Online → Online → Prop
  | work {b b' : Backfill} {w w' : World} {q : List Mirror} (h : M.m.Steps M.E (b, w) (b', w')) :
      OnlineStep M allowed ⟨b, w, q⟩ ⟨b', w', q⟩
  | write {b : Backfill} {w : World} {q : List Mirror} {table : String} {t : ShardTable} {row : Row} {s d : String}
      (ht : M.m.old.table table = .ok t) (hfits : M.Fits table t row)
      (hs : M.home table (M.E.rowPos t.pk row) = .ok s) (hd : M.dest table (M.E.rowPos t.pk row) = .ok d)
      (h : allowed b table t row) :
      OnlineStep M allowed ⟨b, w, q⟩ ⟨b, M.write w t s table row, queued q s d table row⟩
  | mirror {b : Backfill} {w : World} {q : List Mirror} {e : Mirror} {t : ShardTable}
      (ht : M.m.old.table e.table = .ok t) :
      OnlineStep M allowed ⟨b, w, e :: q⟩ ⟨b, M.write w t e.shard e.table e.row, q⟩

/-- The backfill has not come to the position in the scan of a move. -/
def Ahead (M : Migration K) (pk : String) (mv : ShardMove) (p : K) : Point → Prop
  | .next => False
  | .scan mv' _ cursor => mv = mv' ∧ M.E.Past cursor p
  | .copy mv' _ last _ _ => mv = mv' ∧ M.E.rowPos pk last < p

def Unscanned (M : Migration K) (b : Backfill) (table : String) (t : ShardTable) (row : Row) : Prop :=
  ∀ mv ∈ M.m.plan.moves, mv.table = table → M.home table (M.E.rowPos t.pk row) = .ok mv.fromShard →
    M.Covers mv (M.E.rowPos t.pk row) → mv ∈ b.moves ∨ M.Ahead t.pk mv (M.E.rowPos t.pk row) b.point

/-! ### The invariant -/

def Stored (M : Migration K) (w : World) (mv : ShardMove) (job : JobState) : Prop :=
  loadJob M.m.state w.jobs (moveId mv) = .ok (some job) ∧ job.settled = false

/-- Among the rows of a batch: what is behind the last row and not in the batch is counted, and the
covered rows of the batch are still on their source as they were read. -/
structure Copying (M : Migration K) (w : World) (q : List Mirror) (mv : ShardMove) (t : ShardTable)
    (job : JobState) (last : Row) (batch : List Row) : Prop where
  pk : ∃ v, last.get t.pk = some v
  rows : ∀ row ∈ batch, M.Fits mv.table t row ∧ M.Sound mv.table t (M.E.rowPos t.pk row) ∧
    keyWithin mv.keyRange (row.get t.key) = true ∧ M.E.rowPos t.pk row ≤ M.E.rowPos t.pk last
  kept : ∀ row ∈ batch, M.Covers mv (M.E.rowPos t.pk row) → row ∈ w.data mv.fromShard mv.table
  distinct : M.E.Distinct t.pk batch
  progress : M.Progress w q mv t job fun p =>
    p ≤ M.E.rowPos t.pk last ∧ ∀ row ∈ batch, M.E.rowPos t.pk row ≠ p

def AtPoint (M : Migration K) (w : World) (q : List Mirror) : Point → Prop
  | .next => True
  | .scan mv job cursor => M.Stored w mv job ∧
      ∀ t, M.m.old.table mv.table = .ok t → M.Progress w q mv t job fun p => ¬ M.E.Past cursor p
  | .copy mv job last batch _ => (∃ stored, M.Stored w mv stored) ∧ job.settled = false ∧
      ∀ t, M.m.old.table mv.table = .ok t → M.Copying w q mv t job last batch

structure Inv (M : Migration K) (s : Online) (finished : List ShardMove) : Prop where
  split : M.m.plan.moves = finished ++ s.backfill.point.current ++ s.backfill.moves
  tables : ∀ table t, M.m.old.table table = .ok t → M.Consistent s.world s.mirrors table t
  fresh : ∀ mv ∈ s.backfill.moves, s.world.jobs (moveId mv) = none
  finished : ∀ mv ∈ finished, ∃ job, M.Stored s.world mv job ∧
    ∀ t, M.m.old.table mv.table = .ok t → M.Progress s.world s.mirrors mv t job fun _ => True
  point : M.AtPoint s.world s.mirrors s.backfill.point

variable {M : Migration K} {b : Backfill} {w w' : World} {q q' : List Mirror} {finished : List ShardMove} {mv : ShardMove}
  {table : String} {t t' t₂ : ShardTable} {job : JobState} {row last : Row} {batch : List Row} {s d : String}

/-- A write beside a migration changes the tables of one name. -/
structure Touches (M : Migration K) (w w' : World) (q q' : List Mirror) (table : String) : Prop where
  jobs : w'.jobs = w.jobs
  data : ∀ other, other ≠ table → ∀ shard, w'.data shard other = w.data shard other
  coming : ∀ other, other ≠ table → ∀ t shard p, M.coming t shard other p q' = M.coming t shard other p q
  queue : ∀ other, other ≠ table → ∀ e ∈ q', e.table = other → e ∈ q

theorem touches_write (M : Migration K) (w : World) (q : List Mirror) (t : ShardTable) (s d table : String)
    (row : Row) : M.Touches w (M.write w t s table row) q (queued q s d table row) table := by
  refine ⟨rfl, ?_, ?_, ?_⟩
  · intro other hother shard
    rw [data_write, if_neg fun h => hother h.2]
  · intro other hother t' shard p
    exact coming_queued (.inl hother)
  · intro other hother e he htable
    rcases mem_queued he with he | ⟨-, rfl⟩
    · exact he
    · exact absurd htable.symm hother

theorem touches_mirror (M : Migration K) (w : World) (q : List Mirror) (t : ShardTable) (e : Mirror) :
    M.Touches w (M.write w t e.shard e.table e.row) (e :: q) q e.table := by
  refine ⟨rfl, ?_, ?_, ?_⟩
  · intro other hother shard
    rw [data_write, if_neg fun h => hother h.2]
  · intro other hother t' shard p
    exact (coming_other hother.symm).symm
  · intro other hother e' he' _
    exact List.mem_cons_of_mem _ he'

theorem touches_copy (M : Migration K) (w : World) (q : List Mirror) (t : ShardTable) (shard table : String)
    (row : Row) : M.Touches w (M.write w t shard table row) q q table := by
  refine ⟨rfl, ?_, fun _ _ _ _ _ => rfl, fun _ _ _ he _ => he⟩
  intro other hother shard'
  rw [data_write, if_neg fun h => hother h.2]

/-- What a write has to leave as it is for the invariant to stay: the tables of its own name. -/
structure Harmless (M : Migration K) (b : Backfill) (w w' : World) (q q' : List Mirror) (table : String)
    (t : ShardTable) : Prop where
  consistent : M.Consistent w' q' table t
  finished : ∀ mv ∈ M.m.plan.moves, mv ∉ b.moves → mv ∉ b.point.current → mv.table = table → ∀ job,
    M.Progress w q mv t job (fun _ => True) → M.Progress w' q' mv t job fun _ => True
  scan : ∀ mv job cursor, b.point = .scan mv job cursor → mv.table = table →
    M.Progress w q mv t job (fun p => ¬ M.E.Past cursor p) → M.Progress w' q' mv t job fun p => ¬ M.E.Past cursor p
  copy : ∀ mv job last batch n, b.point = .copy mv job last batch n → mv.table = table →
    M.Copying w q mv t job last batch → M.Copying w' q' mv t job last batch

omit [LinearOrder K] in
theorem Stored.of_jobs (h : M.Stored w mv job) (hjobs : w'.jobs = w.jobs) : M.Stored w' mv job := by
  rw [Stored, hjobs]
  exact h

theorem Copying.other (h : M.Copying w q mv t job last batch) (htouch : M.Touches w w' q q' table)
    (htable : mv.table ≠ table) : M.Copying w' q' mv t job last batch := by
  refine ⟨h.pk, h.rows, ?_, h.distinct, ?_⟩
  · intro row hrow hcovers
    rw [htouch.data _ htable]
    exact h.kept row hrow hcovers
  · exact h.progress.other (htouch.data _ htable) (htouch.coming _ htable t)

theorem Inv.harmless (h : M.Inv ⟨b, w, q⟩ finished) (hids : M.m.plan.moves.Nodup)
    (ht : M.m.old.table table = .ok t) (htouch : M.Touches w w' q q' table)
    (hkeep : M.Harmless b w w' q q' table t) : M.Inv ⟨b, w', q'⟩ finished := by
  have hsame : ∀ {t₂}, M.m.old.table table = .ok t₂ → t₂ = t := fun ht₂ => Except.ok.inj (ht₂.symm.trans ht)
  have hsplit : M.m.plan.moves = finished ++ b.point.current ++ b.moves := h.split
  refine ⟨hsplit, ?_, ?_, ?_, ?_⟩
  · intro name t₂ ht₂
    by_cases hname : name = table
    · subst hname
      rw [hsame ht₂]
      exact hkeep.consistent
    · exact (h.tables name t₂ ht₂).other (htouch.data _ hname) (htouch.queue _ hname) (htouch.coming _ hname t₂)
  · intro mv hmv
    rw [htouch.jobs]
    exact h.fresh mv hmv
  · intro mv hmv
    obtain ⟨job, hstored, hprogress⟩ := h.finished mv hmv
    refine ⟨job, hstored.of_jobs htouch.jobs, ?_⟩
    intro t₂ ht₂
    by_cases hname : mv.table = table
    · rw [hname] at ht₂
      rw [hsame ht₂]
      have hin : mv ∈ M.m.plan.moves := by
        rw [hsplit]
        simp [hmv]
      rw [hsplit, List.append_assoc, List.nodup_append] at hids
      have hout : mv ∉ b.point.current ++ b.moves := fun hmem => hids.2.2 mv hmv mv hmem rfl
      rw [List.mem_append, not_or] at hout
      exact hkeep.finished mv hin hout.2 hout.1 hname job (hprogress t (hname ▸ ht))
    · exact (hprogress t₂ ht₂).other (htouch.data _ hname) (htouch.coming _ hname t₂)
  · have hpoint := h.point
    cases hb : b.point with
    | next => trivial
    | scan mv job cursor =>
      rw [hb] at hpoint
      refine ⟨hpoint.1.of_jobs htouch.jobs, ?_⟩
      intro t₂ ht₂
      by_cases hname : mv.table = table
      · rw [hname] at ht₂
        rw [hsame ht₂]
        exact hkeep.scan mv job cursor hb hname (hpoint.2 t (hname ▸ ht))
      · exact (hpoint.2 t₂ ht₂).other (htouch.data _ hname) (htouch.coming _ hname t₂)
    | copy mv job last batch n =>
      rw [hb] at hpoint
      obtain ⟨⟨stored, hstored⟩, hopen, hcopying⟩ := hpoint
      refine ⟨⟨stored, hstored.of_jobs htouch.jobs⟩, hopen, ?_⟩
      intro t₂ ht₂
      by_cases hname : mv.table = table
      · rw [hname] at ht₂
        rw [hsame ht₂]
        exact hkeep.copy mv job last batch n hb hname (hcopying t (hname ▸ ht))
      · exact (hcopying t₂ ht₂).other htouch hname

theorem Ahead.current {pk : String} {p : K} {point : Point} (h : M.Ahead pk mv p point) : mv ∈ point.current := by
  cases point with
  | next => cases h
  | scan mv' job cursor => simp [Point.current, h.1]
  | copy mv' job last batch n => simp [Point.current, h.1]

theorem Inv.current (h : M.Inv ⟨b, w, q⟩ finished) (hids : M.m.plan.moves.Nodup) (hmv : mv ∈ b.point.current) :
    mv ∈ M.m.plan.moves ∧ mv ∉ b.moves := by
  have hsplit : M.m.plan.moves = finished ++ b.point.current ++ b.moves := h.split
  rw [hsplit] at hids ⊢
  refine ⟨by simp [hmv], ?_⟩
  intro hin
  exact (List.nodup_append.1 hids).2.2 mv (by simp [hmv]) mv hin rfl

theorem Inv.write (h : M.Inv ⟨b, w, q⟩ finished) (hready : M.m.Ready) (ht : M.m.old.table table = .ok t)
    (hfits : M.Fits table t row) (hsound : M.Sound table t (M.E.rowPos t.pk row))
    (hs : M.home table (M.E.rowPos t.pk row) = .ok s) (hd : M.dest table (M.E.rowPos t.pk row) = .ok d)
    (hfree : M.Unscanned b table t row) :
    M.Inv ⟨b, M.write w t s table row, queued q s d table row⟩ finished := by
  have hids : M.m.plan.moves.Nodup := List.Nodup.of_map _ hready.ids
  have hcons := h.tables table t ht
  obtain ⟨t', htables⟩ := hready.planned.tables ht
  have hahead : ∀ mv ∈ b.point.current, mv.table = table → s = mv.fromShard →
      M.Covers mv (M.E.rowPos t.pk row) → M.Ahead t.pk mv (M.E.rowPos t.pk row) b.point := by
    intro mv hmv htable hfrom hcovers
    obtain ⟨hin, hout⟩ := h.current hids hmv
    exact (hfree mv hin htable (hfrom ▸ hs) hcovers).resolve_left hout
  refine h.harmless hids ht (M.touches_write w q t s d table row) ⟨hcons.write hfits hsound hs hd, ?_, ?_, ?_⟩
  · rintro mv hin hmoves hcurrent rfl job hprogress
    refine hprogress.write hcons hready.planned hin htables hs ?_ d
    intro hfrom hcovers _
    rcases hfree mv hin rfl (hfrom ▸ hs) hcovers with hlater | hahead
    · exact hmoves hlater
    · exact hcurrent hahead.current
  · rintro mv job cursor hb rfl hprogress
    have hmv : mv ∈ b.point.current := by simp [hb, Point.current]
    refine hprogress.write hcons hready.planned (h.current hids hmv).1 htables hs ?_ d
    intro hfrom hcovers
    have hpast := hahead mv hmv rfl hfrom hcovers
    rw [hb] at hpast
    exact not_not.2 hpast.2
  · rintro mv job last batch n hb rfl hcopying
    have hmv : mv ∈ b.point.current := by simp [hb, Point.current]
    have hbehind : s = mv.fromShard → M.Covers mv (M.E.rowPos t.pk row) →
        ¬ M.E.rowPos t.pk row ≤ M.E.rowPos t.pk last := by
      intro hfrom hcovers
      have hpast := hahead mv hmv rfl hfrom hcovers
      rw [hb] at hpast
      exact not_le.2 hpast.2
    refine ⟨hcopying.pk, hcopying.rows, ?_, hcopying.distinct, ?_⟩
    · intro other hother hcovers
      have hkeeps := write_keeps (w := w) (P := fun p => p ≤ M.E.rowPos t.pk last) hbehind hcovers (hcopying.rows other hother).2.2.2
      exact hkeeps.2 (hcopying.kept other hother hcovers)
    · refine hcopying.progress.write hcons hready.planned (h.current hids hmv).1 htables hs ?_ d
      intro hfrom hcovers hin
      exact hbehind hfrom hcovers hin.1

theorem Inv.mirror {e : Mirror} (h : M.Inv ⟨b, w, e :: q⟩ finished) (hready : M.m.Ready)
    (ht : M.m.old.table e.table = .ok t) : M.Inv ⟨b, M.write w t e.shard e.table e.row, q⟩ finished := by
  have hids : M.m.plan.moves.Nodup := List.Nodup.of_map _ hready.ids
  have hcons := h.tables e.table t ht
  obtain ⟨t', htables⟩ := hready.planned.tables ht
  have hprogress : ∀ mv ∈ M.m.plan.moves, mv.table = e.table → ∀ job P, M.Progress w (e :: q) mv t job P →
      M.Progress (M.write w t e.shard e.table e.row) q mv t job P := by
    intro mv hin htable job P hprogress
    rw [← htable] at hcons htables ⊢
    exact hprogress.mirror hcons hready.planned hin htables htable.symm
  refine h.harmless hids ht (M.touches_mirror w q t e) ⟨hcons.mirror rfl, ?_, ?_, ?_⟩
  · intro mv hin _ _ htable job
    exact hprogress mv hin htable job _
  · intro mv job cursor hb htable
    have hmv : mv ∈ b.point.current := by simp [hb, Point.current]
    exact hprogress mv (h.current hids hmv).1 htable job _
  · intro mv job last batch n hb htable hcopying
    have hin : mv ∈ M.m.plan.moves := (h.current hids (by simp [hb, Point.current])).1
    refine ⟨hcopying.pk, hcopying.rows, ?_, hcopying.distinct, hprogress mv hin htable job _ hcopying.progress⟩
    intro other hother hcovers
    rw [← htable] at hcons htables ⊢
    exact (mirror_keeps hcons hready.planned hin htables htable.symm hcovers).2 (hcopying.kept other hother hcovers)

end Migration

end Ecat.Shard
