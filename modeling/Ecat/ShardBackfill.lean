import Ecat.ShardOnline

/-! The steps of a backfill keep the invariant of a migration, and each does what the rows that are
still ahead of it say. -/

namespace Ecat.Shard

open Json

theorem saveJob_stored {state : Dialect} {jobs jobs' : Jobs} {mv : ShardMove} {stored job : JobState}
    (hload : loadJob state jobs (moveId mv) = .ok (some stored)) (hsave : saveJob state jobs mv job = .ok jobs') :
    loadJob state jobs' (moveId mv) = .ok (some job) ∧ ∀ id, id ≠ moveId mv → jobs' id = jobs id := by
  refine ⟨?_, fun id hid => saveJob_other hsave hid⟩
  obtain ⟨hstate, row, hrow, -⟩ := loadJob_some_iff.1 hload
  obtain ⟨hrows, row', hencode, rfl⟩ := saveJob_eq_ok hsave
  rw [hrow, Option.isSome_some, if_pos rfl, loadJob_some_iff]
  exact ⟨hstate, row', Function.update_self .., decode_encode hencode hrows⟩

namespace Migration

variable {K : Type} [LinearOrder K] {M : Migration K} {b b' : Backfill} {w w' : World} {q : List Mirror}
  {finished : List ShardMove} {mv : ShardMove} {t t' : ShardTable} {job job' : JobState} {row last : Row}
  {batch : List Row} {cursor : Option Value} {n : Nat}

theorem Consistent.of_jobs {table : String} (h : M.Consistent w q table t) (jobs : Jobs) :
    M.Consistent { w with jobs } q table t :=
  h.other (fun _ => rfl) (fun _ he _ => he) fun _ _ => rfl

theorem Progress.of_jobs {P : K → Prop} (h : M.Progress w q mv t job P) (jobs : Jobs) :
    M.Progress { w with jobs } q mv t job P :=
  h.other (fun _ => rfl) fun _ _ => rfl

theorem Inv.saved (h : M.Inv ⟨b, w, q⟩ finished) (hids : (M.m.plan.moves.map moveId).Nodup) {jobs : Jobs}
    {moves : List ShardMove} (hsplit : M.m.plan.moves = finished ++ mv :: moves)
    (hjobs : ∀ id, id ≠ moveId mv → jobs id = w.jobs id) (hmoves : ∀ mv' ∈ moves, mv' ∈ b.moves) :
    (∀ table t, M.m.old.table table = .ok t → M.Consistent { w with jobs } q table t) ∧
      (∀ mv' ∈ moves, jobs (moveId mv') = none) ∧
      ∀ mv' ∈ finished, ∃ job, M.Stored { w with jobs } mv' job ∧
        ∀ t, M.m.old.table mv'.table = .ok t → M.Progress { w with jobs } q mv' t job fun _ => True := by
  rw [hsplit, List.map_append, List.nodup_append, List.map_cons, List.nodup_cons] at hids
  refine ⟨fun table t ht => (h.tables table t ht).of_jobs jobs, ?_, ?_⟩
  · intro mv' hmv'
    rw [hjobs _ fun he => hids.2.1.1 (he ▸ List.mem_map_of_mem hmv')]
    exact h.fresh mv' (hmoves mv' hmv')
  · intro mv' hmv'
    obtain ⟨job, ⟨hload, hopen⟩, hprogress⟩ := h.finished mv' hmv'
    refine ⟨job, ⟨?_, hopen⟩, fun t ht => (hprogress t ht).of_jobs jobs⟩
    rw [loadJob_some_iff] at hload ⊢
    have hne : moveId mv' ≠ moveId mv := hids.2.2 _ (List.mem_map_of_mem hmv') _ (by simp)
    show _ ∧ ∃ row, jobs (moveId mv') = some row ∧ _
    rw [hjobs _ hne]
    exact hload

theorem Inv.start {moves : List ShardMove} {report : MigrationReport}
    (h : M.Inv ⟨⟨.next, mv :: moves, report⟩, w, q⟩ finished) (hready : M.m.Ready) :
    M.m.startMove M.E w mv = .ok (.scan mv freshJob none,
        { w with jobs := Function.update w.jobs (moveId mv) (some freshRow) }) ∧
      M.Inv ⟨⟨.scan mv freshJob none, moves, report⟩,
        { w with jobs := Function.update w.jobs (moveId mv) (some freshRow) }, q⟩ finished := by
  have hsplit : M.m.plan.moves = finished ++ mv :: moves := by simpa [Point.current] using h.split
  have hmv : mv ∈ M.m.plan.moves := by
    rw [hsplit]
    simp
  have hfresh : w.jobs (moveId mv) = none := h.fresh mv (by simp)
  obtain ⟨htables, hnext, hfinished⟩ := h.saved hready.ids hsplit
    (fun id hid => Function.update_of_ne hid (some freshRow) w.jobs) (fun mv' hmv' => List.mem_cons_of_mem _ hmv')
  refine ⟨startMove_fresh hready hmv hfresh, by simpa [Point.current] using hsplit, htables, hnext, hfinished, ?_⟩
  refine ⟨⟨?_, rfl⟩, ?_⟩
  · rw [loadJob_some_iff]
    exact ⟨hready.schema, freshRow, Function.update_self .., decode_freshRow _⟩
  · intro t ht
    refine Progress.none M _ q mv t rfl rfl ?_
    intro p hpast
    exact hpast fun v hv => by cases hv

/-! ### Scans -/

theorem mem_rest_of_covers (hcons : M.Consistent w q mv.table t) (hplan : M.m.Planned) (hmv : mv ∈ M.m.plan.moves)
    (ht : M.m.Tables mv.table t t') (hrow : row ∈ w.data mv.fromShard mv.table)
    (hcovers : M.Covers mv (M.E.rowPos t.pk row)) (hpast : M.E.Past cursor (M.E.rowPos t.pk row)) :
    row ∈ M.E.rest t mv.keyRange cursor (w.data mv.fromShard mv.table) := by
  obtain ⟨hfits, hsound, -⟩ := hcons.rows _ row hrow
  have hscope := (hfits.scope hplan hmv ht hsound).2.2 hcovers
  exact mem_rest.2 ⟨hrow, hpast, hscope.1⟩

theorem scan_copying (hcons : M.Consistent w q mv.table t) (hplan : M.m.Planned) (hmv : mv ∈ M.m.plan.moves)
    (ht : M.m.Tables mv.table t t') (hprogress : M.Progress w q mv t job fun p => ¬ M.E.Past cursor p)
    (hlast : ((M.E.rest t mv.keyRange cursor (w.data mv.fromShard mv.table)).take n).getLast? = some last) :
    M.Copying w q mv t job last ((M.E.rest t mv.keyRange cursor (w.data mv.fromShard mv.table)).take n) := by
  set rest := M.E.rest t mv.keyRange cursor (w.data mv.fromShard mv.table) with hrest
  have hstrict : rest.Pairwise fun a b => M.E.rowPos t.pk a < M.E.rowPos t.pk b :=
    rest_strict (hcons.keyed mv.fromShard)
  have hsplit : (rest.take n ++ rest.drop n).Pairwise fun a b => M.E.rowPos t.pk a < M.E.rowPos t.pk b := by
    rw [List.take_append_drop]
    exact hstrict
  obtain ⟨hbatch, -, hcross⟩ := List.pairwise_append.1 hsplit
  have hmem : ∀ row ∈ rest.take n, row ∈ w.data mv.fromShard mv.table ∧ M.E.Past cursor (M.E.rowPos t.pk row) ∧
      keyWithin mv.keyRange (row.get t.key) = true := fun row hrow => mem_rest.1 (List.mem_of_mem_take hrow)
  have hlastmem : last ∈ rest.take n := List.mem_of_getLast? hlast
  refine ⟨(hcons.rows _ last (hmem last hlastmem).1).1.pk, ?_, fun row hrow _ => (hmem row hrow).1, ?_, ?_⟩
  · intro row hrow
    obtain ⟨hin, -, hwithin⟩ := hmem row hrow
    obtain ⟨hfits, hsound, -⟩ := hcons.rows _ row hin
    exact ⟨hfits, hsound, hwithin, strict_le_getLast hbatch hlast hrow⟩
  · exact List.pairwise_map.2 (hbatch.imp fun hlt => hlt.ne)
  · refine hprogress.congr ?_
    intro row hrow hcovers
    constructor
    · intro hbehind
      have hnot : ∀ other ∈ rest.take n, M.E.rowPos t.pk other ≠ M.E.rowPos t.pk row := by
        intro other hother hpos
        exact hbehind (hpos ▸ (hmem other hother).2.1)
      refine ⟨?_, hnot⟩
      by_contra hlt
      refine hbehind ?_
      intro v hv
      exact ((hmem last hlastmem).2.1 v hv).trans (not_le.1 hlt)
    · rintro ⟨hrowle, hnot⟩ hpast
      have hin := mem_rest_of_covers hcons hplan hmv ht hrow hcovers hpast
      rw [← hrest, ← List.take_append_drop n rest, List.mem_append] at hin
      rcases hin with hin | hin
      · exact hnot row hin rfl
      · exact absurd hrowle (not_le.2 (hcross last hlastmem row hin))

theorem scan_finished (hcons : M.Consistent w q mv.table t) (hplan : M.m.Planned) (hmv : mv ∈ M.m.plan.moves)
    (ht : M.m.Tables mv.table t t') (hprogress : M.Progress w q mv t job fun p => ¬ M.E.Past cursor p)
    (hempty : M.E.rest t mv.keyRange cursor (w.data mv.fromShard mv.table) = []) :
    M.Progress w q mv t job fun _ => True := by
  refine hprogress.congr ?_
  intro row hrow hcovers
  refine ⟨fun _ => trivial, fun _ hpast => ?_⟩
  have hin := mem_rest_of_covers hcons hplan hmv ht hrow hcovers hpast
  rw [hempty] at hin
  cases hin

/-! ### Copies -/

theorem Inv.repoint (h : M.Inv ⟨b, w, q⟩ finished) (hmoves : b'.moves = b.moves)
    (hcurrent : b'.point.current = b.point.current) (hpoint : M.AtPoint w q b'.point) :
    M.Inv ⟨b', w, q⟩ finished := by
  have hsplit : M.m.plan.moves = finished ++ b.point.current ++ b.moves := h.split
  rw [← hcurrent, ← hmoves] at hsplit
  exact ⟨hsplit, h.tables, fun mv hmv => h.fresh mv (hmoves ▸ hmv), h.finished, hpoint⟩

theorem Inv.finish {moves : List ShardMove} {report : MigrationReport}
    (h : M.Inv ⟨⟨.scan mv job cursor, moves, report⟩, w, q⟩ finished) (hready : M.m.Ready)
    (ht : M.m.Tables mv.table t t') (hmv : mv ∈ M.m.plan.moves)
    (hlast : ((M.E.rest t mv.keyRange cursor (w.data mv.fromShard mv.table)).take M.m.chunkSize).getLast? = none) :
    M.Inv ⟨⟨.next, moves, report⟩, w, q⟩ (finished ++ [mv]) := by
  obtain ⟨hstored, hprogress⟩ := h.point
  have hempty : M.E.rest t mv.keyRange cursor (w.data mv.fromShard mv.table) = [] := by
    have htake := List.getLast?_eq_none_iff.1 hlast
    rw [List.take_eq_nil_iff] at htake
    exact htake.resolve_left hready.chunk.ne'
  have hsplit : M.m.plan.moves = finished ++ [mv] ++ moves := h.split
  refine ⟨by simpa [Point.current] using hsplit, h.tables, h.fresh, ?_, trivial⟩
  intro mv' hmv'
  rcases List.mem_append.1 hmv' with hmv' | hmv'
  · exact h.finished mv' hmv'
  · rw [List.mem_singleton.1 hmv']
    refine ⟨job, hstored, ?_⟩
    intro t₂ ht₂
    rw [Except.ok.inj (ht₂.symm.trans ht.old)]
    exact scan_finished (h.tables mv.table t ht.old) hready.planned hmv ht (hprogress t ht.old) hempty

theorem Inv.scanned {moves : List ShardMove} {report : MigrationReport}
    (h : M.Inv ⟨⟨.scan mv job cursor, moves, report⟩, w, q⟩ finished) (hready : M.m.Ready)
    (ht : M.m.Tables mv.table t t') (hmv : mv ∈ M.m.plan.moves)
    (hlast : ((M.E.rest t mv.keyRange cursor (w.data mv.fromShard mv.table)).take n).getLast? = some last) :
    M.Inv ⟨⟨.copy mv job last ((M.E.rest t mv.keyRange cursor (w.data mv.fromShard mv.table)).take n) 0, moves,
      report⟩, w, q⟩ finished := by
  obtain ⟨hstored, hprogress⟩ := h.point
  refine h.repoint rfl rfl ⟨⟨job, hstored⟩, hstored.2, ?_⟩
  intro t₂ ht₂
  rw [Except.ok.inj (ht₂.symm.trans ht.old)]
  exact scan_copying (h.tables mv.table t ht.old) hready.planned hmv ht (hprogress t ht.old) hlast

theorem Copying.skip (h : M.Copying w q mv t job last (row :: batch))
    (hcovers : ¬ M.Covers mv (M.E.rowPos t.pk row)) : M.Copying w q mv t job last batch := by
  refine ⟨h.pk, fun other ho => h.rows other (by simp [ho]), fun other ho => h.kept other (by simp [ho]),
    (List.nodup_cons.1 h.distinct).2, ?_⟩
  refine h.progress.congr ?_
  intro other _ hcovers'
  have hne : M.E.rowPos t.pk row ≠ M.E.rowPos t.pk other := fun hpos => hcovers (hpos ▸ hcovers')
  rw [List.forall_mem_cons, and_iff_right hne]

theorem Copying.count (h : M.Copying w q mv t job last (row :: batch)) (hcons : M.Consistent w q mv.table t)
    (hcovers : M.Covers mv (M.E.rowPos t.pk row)) (hcount : job.count row = .ok job')
    (harrived : mv.fromShard ≠ mv.toShard →
      M.latest w q t mv.toShard mv.table (M.E.rowPos t.pk row) = some row) :
    M.Copying w q mv t job' last batch := by
  obtain ⟨hfresh, hdistinct⟩ := List.nodup_cons.1 h.distinct
  refine ⟨h.pk, fun other ho => h.rows other (by simp [ho]), fun other ho => h.kept other (by simp [ho]),
    hdistinct, ?_⟩
  have hrow := h.kept row (by simp) hcovers
  have hadd := h.progress.add (hcons.keyed _) hrow hcovers (fun hP => hP.2 row (by simp) rfl) harrived hcount
  refine hadd.congr ?_
  intro other _ _
  rw [List.forall_mem_cons]
  constructor
  · rintro (⟨hle, -, hnot⟩ | hpos)
    · exact ⟨hle, hnot⟩
    · rw [hpos]
      refine ⟨(h.rows row (by simp)).2.2.2, ?_⟩
      intro r hr he
      exact hfresh (List.mem_map.2 ⟨r, hr, he⟩)
  · rintro ⟨hle, hnot⟩
    by_cases hpos : M.E.rowPos t.pk other = M.E.rowPos t.pk row
    · exact .inr hpos
    · exact .inl ⟨hle, fun he => hpos he.symm, hnot⟩

theorem copy_arrived {s d table : String} (hcons : M.Consistent w q table t)
    (hlook : M.look w t s table (M.E.rowPos t.pk row) = some row)
    (hs : M.home table (M.E.rowPos t.pk row) = .ok s) (hd : M.dest table (M.E.rowPos t.pk row) = .ok d)
    (hne : s ≠ d) : M.latest (M.write w t d table row) q t d table (M.E.rowPos t.pk row) = some row := by
  have hafter := hcons.copy hlook hs hd
  have hversion : ∃ version, M.latest (M.write w t d table row) q t d table (M.E.rowPos t.pk row) = some version := by
    rw [latest_write (hcons.keyed d), if_pos ⟨rfl, rfl⟩]
    cases M.coming t d table (M.E.rowPos t.pk row) q with
    | none => exact ⟨row, rfl⟩
    | some version => exact ⟨version, rfl⟩
  obtain ⟨version, hversion⟩ := hversion
  have hsource := hafter.current _ s d version hs hd hne hversion
  rw [look_write (hcons.keyed d), if_neg fun hplace => hne hplace.1, hlook] at hsource
  rw [hversion, hsource]

theorem Inv.copied {moves : List ShardMove} {report : MigrationReport}
    (h : M.Inv ⟨⟨.copy mv job last (row :: batch) n, moves, report⟩, w, q⟩ finished) (hready : M.m.Ready)
    (ht : M.m.old.table mv.table = .ok t) (hcovers : M.Covers mv (M.E.rowPos t.pk row))
    (hcount : job.count row = .ok job') :
    M.Inv ⟨⟨.copy mv job' last batch (n + 1), moves, report⟩, M.write w t mv.toShard mv.table row, q⟩ finished := by
  have hids : M.m.plan.moves.Nodup := List.Nodup.of_map _ hready.ids
  have hmv : mv ∈ M.m.plan.moves := (h.current hids (by simp [Point.current])).1
  obtain ⟨t', htables⟩ := hready.planned.tables ht
  have hcons := h.tables mv.table t ht
  obtain ⟨⟨stored, hstored⟩, hopen, hcopying⟩ := h.point
  have hcopying := hcopying t ht
  have hrow := hcopying.kept row (by simp) hcovers
  obtain ⟨-, hsound, hplaced⟩ := hcons.rows _ row hrow
  have hs := Covers.home hready.planned hmv htables hsound hplaced hcovers
  have hd := Covers.dest hready.planned hmv hs hcovers
  have hlook : M.look w t mv.fromShard mv.table (M.E.rowPos t.pk row) = some row :=
    (look_eq_some (hcons.keyed _)).2 ⟨hrow, rfl⟩
  have hprogress : ∀ mv' ∈ M.m.plan.moves, mv'.table = mv.table → ∀ job P, M.Progress w q mv' t job P →
      M.Progress (M.write w t mv.toShard mv.table row) q mv' t job P := by
    intro mv' hmv' htable job P hp
    rw [← htable] at hcons htables hlook hs hd ⊢
    exact hp.copy hcons hready.planned hmv' htables hlook hs hd
  have hkept : ∀ other ∈ row :: batch, M.Covers mv (M.E.rowPos t.pk other) →
      other ∈ (M.write w t mv.toShard mv.table row).data mv.fromShard mv.table := by
    intro other ho hc
    exact (copy_keeps hcons hready.planned hmv htables hlook hs hd hc).2 (hcopying.kept other ho hc)
  have hafter : M.Copying (M.write w t mv.toShard mv.table row) q mv t job last (row :: batch) :=
    ⟨hcopying.pk, hcopying.rows, hkept, hcopying.distinct, hprogress mv hmv rfl job _ hcopying.progress⟩
  have hcons' := hcons.copy hlook hs hd
  have hinv := h.harmless hids ht (M.touches_copy w q t mv.toShard mv.table row) ⟨hcons', ?_, ?_, ?_⟩
  · refine hinv.repoint rfl rfl ⟨⟨stored, hstored⟩, ?_, ?_⟩
    · rw [JobState.settled, (count_eq hcount).2.2.1]
      exact hopen
    · intro t₂ ht₂
      rw [Except.ok.inj (ht₂.symm.trans ht)]
      exact hafter.count hcons' hcovers hcount (copy_arrived hcons hlook hs hd)
  · intro mv' hmv' _ _ htable job
    exact hprogress mv' hmv' htable job _
  · intro mv' job' cursor hb
    cases hb
  · intro mv' job₂ last₂ batch₂ n₂ hb _ _
    cases hb
    exact hafter

theorem Inv.skipped {moves : List ShardMove} {report : MigrationReport}
    (h : M.Inv ⟨⟨.copy mv job last (row :: batch) n, moves, report⟩, w, q⟩ finished)
    (ht : M.m.old.table mv.table = .ok t) (hcovers : ¬ M.Covers mv (M.E.rowPos t.pk row)) :
    M.Inv ⟨⟨.copy mv job last batch n, moves, report⟩, w, q⟩ finished := by
  obtain ⟨hstored, hopen, hcopying⟩ := h.point
  refine h.repoint rfl rfl ⟨hstored, hopen, ?_⟩
  intro t₂ ht₂
  rw [Except.ok.inj (ht₂.symm.trans ht)]
  exact (hcopying t ht).skip hcovers

theorem Progress.of_job {P : K → Prop} (h : M.Progress w q mv t job P) (hrows : job'.rows = job.rows)
    (hchecksum : job'.checksum = job.checksum) : M.Progress w q mv t job' P := by
  obtain ⟨done, hdone⟩ := h
  exact ⟨done, hdone.nodup, hdone.mem, hrows.trans hdone.rows, hchecksum.trans hdone.checksum, hdone.arrived⟩

theorem Inv.saveChunk {moves : List ShardMove} {report report' : MigrationReport} {jobs : Jobs} {v : Value}
    (h : M.Inv ⟨⟨.copy mv job last [] n, moves, report⟩, w, q⟩ finished) (hready : M.m.Ready)
    (ht : M.m.old.table mv.table = .ok t) (hv : last.get t.pk = some v)
    (hsave : saveJob M.m.state w.jobs mv { job with cursor := some v.toText, phase := .backfilling } = .ok jobs) :
    M.Inv ⟨⟨.scan mv { job with cursor := some v.toText, phase := .backfilling } (some v), moves, report'⟩,
      { w with jobs }, q⟩ finished := by
  obtain ⟨⟨stored, hstored⟩, -, hcopying⟩ := h.point
  obtain ⟨hload, hother⟩ := saveJob_stored hstored.1 hsave
  have hsplit : M.m.plan.moves = finished ++ mv :: moves := by simpa [Point.current] using h.split
  obtain ⟨htables, hnext, hfinished⟩ := h.saved hready.ids hsplit hother fun mv' hmv' => hmv'
  refine ⟨by simpa [Point.current] using hsplit, htables, hnext, hfinished, ⟨hload, rfl⟩, ?_⟩
  intro t₂ ht₂
  rw [Except.ok.inj (ht₂.symm.trans ht)]
  have hpos : M.E.pos v = M.E.rowPos t.pk last := by rw [Engine.rowPos, hv, Option.getD_some]
  refine (((hcopying t ht).progress.congr ?_).of_jobs jobs).of_job rfl rfl
  intro row _ _
  simp [Engine.Past, hpos]

/-! ### Steps -/

theorem copyRow_covers (hready : M.m.Ready) (hmv : mv ∈ M.m.plan.moves) (ht : M.m.Tables mv.table t t')
    (hfits : M.Fits mv.table t row) (hroutes : M.m.routesTo mv row = .ok true) :
    M.m.copyRow M.E w mv job row =
      (do return (some (← job.count row), M.write w t mv.toShard mv.table row)) := by
  obtain ⟨d, hclient, hdialect⟩ := hready.target mv hmv
  obtain ⟨v, hv⟩ := hfits.pk
  have hupsert : M.m.upsertRow M.E w mv row = .ok (M.write w t mv.toShard mv.table row) := by
    rw [ShardMigrator.upsertRow, hclient, ok_bind, if_neg hdialect, ht.new, ok_bind, if_neg (columns_of_get hv), ht.pk]
    rfl
  rw [ShardMigrator.copyRow, hroutes, ok_bind, if_pos rfl, hupsert, ok_bind]

theorem Inv.copyRow {moves : List ShardMove} {report : MigrationReport}
    (h : M.Inv ⟨⟨.copy mv job last (row :: batch) n, moves, report⟩, w, q⟩ finished) (hready : M.m.Ready)
    (ht : M.m.Tables mv.table t t') :
    (M.Covers mv (M.E.rowPos t.pk row) ∧ M.m.copyRow M.E w mv job row =
        (do return (some (← job.count row), M.write w t mv.toShard mv.table row))) ∨
      (¬ M.Covers mv (M.E.rowPos t.pk row) ∧ M.m.copyRow M.E w mv job row = .ok (none, w)) := by
  have hids : M.m.plan.moves.Nodup := List.Nodup.of_map _ hready.ids
  have hmv : mv ∈ M.m.plan.moves := (h.current hids (by simp [Point.current])).1
  obtain ⟨-, -, hcopying⟩ := h.point
  obtain ⟨hfits, hsound, hwithin, -⟩ := (hcopying t ht.old).rows row (by simp)
  obtain ⟨⟨routed, hroutes⟩, hscope⟩ := hfits.scope hready.planned hmv ht hsound
  cases routed with
  | true => exact .inl ⟨hscope.1 ⟨hwithin, hroutes⟩, copyRow_covers hready hmv ht hfits hroutes⟩
  | false =>
    refine .inr ⟨fun hcovers => ?_, ?_⟩
    · rw [hroutes] at hscope
      cases (hscope.2 hcovers).2
    · rw [ShardMigrator.copyRow, hroutes]
      rfl

theorem Inv.work (h : M.Inv ⟨b, w, q⟩ finished) (hready : M.m.Ready) (hstep : M.m.Steps M.E (b, w) (b', w')) :
    (∃ finished', M.Inv ⟨b', w', q⟩ finished') ∧ w'.columns = w.columns := by
  obtain ⟨hrunning, hstep⟩ := hstep
  have hids : M.m.plan.moves.Nodup := List.Nodup.of_map _ hready.ids
  obtain ⟨point, moves, report⟩ := b
  cases point with
  | next =>
    cases moves with
    | nil => exact absurd ⟨rfl, rfl⟩ hrunning
    | cons mv moves =>
      obtain ⟨hstart, hinv⟩ := h.start hready
      simp only [ShardMigrator.step, hstart, ok_bind] at hstep
      obtain ⟨rfl, rfl⟩ := Prod.mk.inj (Except.ok.inj hstep)
      exact ⟨⟨finished, hinv⟩, rfl⟩
  | scan mv job cursor =>
    have hmv : mv ∈ M.m.plan.moves := (h.current hids (by simp [Point.current])).1
    obtain ⟨t, t', ht⟩ := hready.planned.tables_of_move hmv
    have hname := ((table_ok_iff hready.planned.new).1 ht.new).2
    simp only [ShardMigrator.step, scanMove_eq ht hname] at hstep
    cases hlast : ((M.E.rest t mv.keyRange cursor (w.data mv.fromShard mv.table)).take M.m.chunkSize).getLast? with
    | none =>
      rw [hlast] at hstep
      obtain ⟨rfl, rfl⟩ := Prod.mk.inj (Except.ok.inj hstep)
      exact ⟨⟨finished ++ [mv], h.finish hready ht hmv hlast⟩, rfl⟩
    | some last =>
      rw [hlast] at hstep
      obtain ⟨rfl, rfl⟩ := Prod.mk.inj (Except.ok.inj hstep)
      exact ⟨⟨finished, h.scanned hready ht hmv hlast⟩, rfl⟩
  | copy mv job last batch n =>
    have hmv : mv ∈ M.m.plan.moves := (h.current hids (by simp [Point.current])).1
    obtain ⟨t, t', ht⟩ := hready.planned.tables_of_move hmv
    cases batch with
    | nil =>
      obtain ⟨-, -, hcopying⟩ := h.point
      obtain ⟨v, hv⟩ := (hcopying t ht.old).pk
      simp only [ShardMigrator.step] at hstep
      obtain ⟨⟨point, w₂⟩, hchunk, hstep⟩ := bind_eq_ok.1 hstep
      obtain ⟨jobs, hsave, rfl, rfl⟩ := saveChunk_inv ht hv hchunk
      obtain ⟨rfl, rfl⟩ := Prod.mk.inj (Except.ok.inj hstep)
      exact ⟨⟨finished, h.saveChunk hready ht.old hv hsave⟩, rfl⟩
    | cons row batch =>
      rcases h.copyRow hready ht with ⟨hcovers, heq⟩ | ⟨hcovers, heq⟩
      · simp only [ShardMigrator.step, heq] at hstep
        obtain ⟨⟨found, w₂⟩, hrow, hstep⟩ := bind_eq_ok.1 hstep
        obtain ⟨job', hcount, hrow⟩ := bind_eq_ok.1 hrow
        obtain ⟨rfl, rfl⟩ := Prod.mk.inj (Except.ok.inj hrow)
        obtain ⟨rfl, rfl⟩ := Prod.mk.inj (Except.ok.inj hstep)
        exact ⟨⟨finished, h.copied hready ht.old hcovers hcount⟩, rfl⟩
      · simp only [ShardMigrator.step, heq, ok_bind] at hstep
        obtain ⟨rfl, rfl⟩ := Prod.mk.inj (Except.ok.inj hstep)
        exact ⟨⟨finished, h.skipped ht.old hcovers⟩, rfl⟩

end Migration

end Ecat.Shard
