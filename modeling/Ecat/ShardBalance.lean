import Ecat.ShardBackfill

/-! When a backfill has finished and every write is mirrored, the sources, the jobs and the target
of each group add up to the same. -/

namespace Ecat.Shard

open Json

namespace Migration

variable {K : Type} [LinearOrder K] {M : Migration K} {w : World} {q : List Mirror} {finished : List ShardMove}
  {mv mv' : ShardMove} {moves : List ShardMove} {t t' : ShardTable} {job : JobState} {row : Row} {table : String}
  {g : String ×ₗ String}

omit [LinearOrder K] in
theorem rowInMove_eq (hplan : M.m.Planned) (hmv : mv ∈ M.m.plan.moves) (ht : M.m.Tables mv.table t t')
    (hfits : M.Fits mv.table t row) (hsound : M.Sound mv.table t (M.E.rowPos t.pk row)) :
    rowInMove M.m t' row mv = .ok (M.m.covers mv (M.keyOf mv.table (M.E.rowPos t.pk row))) := by
  obtain ⟨s, hs⟩ := hsound.home
  obtain ⟨d, hd⟩ := hsound.dest
  have hvalue : rowValue row t'.key = .ok (M.keyOf mv.table (M.E.rowPos t.pk row)) := by
    rw [rowValue, ht.key, hfits.key]
  rw [rowInMove, ShardMigrator.covers]
  cases hkind : mv.keyRange with
  | none =>
    rw [Migration.dest] at hd
    simp [ShardMigrator.routesTo, hkind, ht.new, hvalue, hd]
  | some r =>
    obtain ⟨hrange, -⟩ := hplan.of_range ht hmv hkind
    rw [Migration.home, (ht.owner hplan _).1] at hs
    obtain ⟨k, hk⟩ := ShardMigrator.integer_of_owner hrange hs
    simp [hvalue, hk]

omit [LinearOrder K] in
theorem rowInAnyScope_eq (hplan : M.m.Planned) (hmoves : ∀ mv ∈ moves, mv ∈ M.m.plan.moves ∧ mv.table = table)
    (ht : M.m.Tables table t t') (hfits : M.Fits table t row) (hsound : M.Sound table t (M.E.rowPos t.pk row)) :
    rowInAnyScope M.m t' moves row =
      .ok (moves.any fun mv => M.m.covers mv (M.keyOf table (M.E.rowPos t.pk row))) := by
  induction moves with
  | nil => rfl
  | cons mv moves ih =>
    obtain ⟨hmv, rfl⟩ := hmoves mv (by simp)
    rw [rowInAnyScope, rowInMove_eq hplan hmv ht hfits hsound, ok_bind, List.any_cons,
      ih fun mv' hmv' => hmoves mv' (by simp [hmv'])]
    cases M.m.covers mv (M.keyOf mv.table (M.E.rowPos t.pk row)) <;> rfl

theorem mem_scopeRows (hcons : M.Consistent w q mv.table t) (hplan : M.m.Planned) (hmv : mv ∈ M.m.plan.moves)
    (ht : M.m.Tables mv.table t t') : row ∈ M.m.scopeRows w t' mv ↔
      row ∈ w.data mv.fromShard mv.table ∧ M.Covers mv (M.E.rowPos t.pk row) := by
  have hname := ((table_ok_iff hplan.new).1 ht.new).2
  rw [ShardMigrator.scopeRows, List.mem_filter, hname, ht.key, decide_eq_true_eq]
  refine and_congr_right fun hrow => ?_
  obtain ⟨hfits, hsound, -⟩ := hcons.rows _ row hrow
  exact (hfits.scope hplan hmv ht hsound).2

theorem scopeRows_nodup (hcons : M.Consistent w q mv.table t) (hplan : M.m.Planned)
    (ht : M.m.Tables mv.table t t') : (M.m.scopeRows w t' mv).Nodup := by
  have hname := ((table_ok_iff hplan.new).1 ht.new).2
  rw [ShardMigrator.scopeRows, hname]
  exact (hcons.keyed mv.fromShard).nodup.filter _

theorem Counted.subperm {P : K → Prop} {done : List Row} (h : M.Counted w q mv t job P done)
    (hcons : M.Consistent w q mv.table t) (hplan : M.m.Planned) (hmv : mv ∈ M.m.plan.moves)
    (ht : M.m.Tables mv.table t t') : done.Subperm (M.m.scopeRows w t' mv) := by
  refine h.nodup.subperm fun row hrow => ?_
  obtain ⟨hsource, hcovers, -⟩ := (h.mem row).1 hrow
  exact (mem_scopeRows hcons hplan hmv ht).2 ⟨hsource, hcovers⟩

theorem Progress.rows_le {P : K → Prop} (h : M.Progress w q mv t job P) (hcons : M.Consistent w q mv.table t)
    (hplan : M.m.Planned) (hmv : mv ∈ M.m.plan.moves) (ht : M.m.Tables mv.table t t') :
    job.rows ≤ (M.m.scopeRows w t' mv).length := by
  obtain ⟨done, hdone⟩ := h
  rw [hdone.rows]
  exact (hdone.subperm hcons hplan hmv ht).length_le

theorem Counted.perm {done : List Row} (h : M.Counted w q mv t job (fun _ => True) done)
    (hcons : M.Consistent w q mv.table t) (hplan : M.m.Planned) (hmv : mv ∈ M.m.plan.moves)
    (ht : M.m.Tables mv.table t t') : done.Perm (M.m.scopeRows w t' mv) := by
  refine (List.perm_ext_iff_of_nodup h.nodup (scopeRows_nodup hcons hplan ht)).2 ?_
  intro row
  rw [h.mem, mem_scopeRows hcons hplan hmv ht]
  simp

theorem stats_of_progress (hcons : M.Consistent w q mv.table t) (hplan : M.m.Planned) (hmv : mv ∈ M.m.plan.moves)
    (ht : M.m.Tables mv.table t t') (hload : loadJob M.m.state w.jobs (moveId mv) = .ok (some job))
    (h : M.Progress w q mv t job fun _ => True) : job.stats = statsOf (M.m.scopeRows w t' mv) := by
  obtain ⟨done, hdone⟩ := h
  have hperm := hdone.perm hcons hplan hmv ht
  obtain ⟨-, stored, -, hdecode⟩ := loadJob_some_iff.1 hload
  have hrows : job.rows ≤ u64Max := by
    have hle := (decode_rows hdecode).trans (rowsMax_le _)
    rw [i64Max] at hle
    rw [u64Max]
    omega
  rw [← statsOf_perm hperm, JobState.stats, hdone.checksum, hdone.rows, statsOf,
    Nat.min_eq_left (hdone.rows ▸ hrows)]

theorem mem_target (hcons : M.Consistent w [] table t) (hplan : M.m.Planned) (ht : M.m.Tables table t t')
    {target : String} (hprogress : ∀ mv ∈ M.m.plan.moves, mv.table = table →
      ∃ job, M.Progress w [] mv t job fun _ => True) :
    (row ∈ w.data target table ∧
        ∃ mv ∈ M.m.plan.moves, mv.table = table ∧ mv.toShard = target ∧ M.Covers mv (M.E.rowPos t.pk row)) ↔
      ∃ mv ∈ M.m.plan.moves, mv.table = table ∧ mv.toShard = target ∧ row ∈ w.data mv.fromShard table ∧
        M.Covers mv (M.E.rowPos t.pk row) := by
  constructor
  · rintro ⟨hrow, mv, hmv, rfl, rfl, hcovers⟩
    obtain ⟨hfits, hsound, hplaced⟩ := hcons.rows _ row hrow
    obtain ⟨s, hs⟩ := hsound.home
    obtain ⟨hd, hranged⟩ := hplan.routed hmv hs hcovers
    by_cases hself : s = mv.toShard
    · subst hself
      have hnone : mv.keyRange = none := by
        by_contra hkind
        exact (hranged hkind).2 rfl
      rw [Migration.home, (ht.owner hplan _).1] at hs
      have hin := hplan.copied_mem ht ⟨mv, hmv, rfl, hnone⟩ (owner_mem hs) (hplan.of_copy ht hmv hnone).2
      refine ⟨_, hin, rfl, rfl, hrow, ?_⟩
      rw [Covers, ShardMigrator.covers]
      exact decide_eq_true hd
    · obtain ⟨mv', hmv', htable, hfrom, hto, hcovers'⟩ := hplan.complete hs hd hself
      refine ⟨mv', hmv', htable, hto, ?_, ?_⟩
      · have hlatest : M.latest w [] t mv.toShard mv.table (M.E.rowPos t.pk row) = some row :=
          (look_eq_some (hcons.keyed _)).2 ⟨hrow, rfl⟩
        have hsource := hcons.current _ s mv.toShard row hs hd hself hlatest
        rw [hfrom]
        exact (look_pos hsource).1
      · rw [Covers, htable]
        exact hcovers'
  · rintro ⟨mv, hmv, rfl, rfl, hrow, hcovers⟩
    refine ⟨?_, mv, hmv, rfl, rfl, hcovers⟩
    by_cases hself : mv.fromShard = mv.toShard
    · rw [← hself]
      exact hrow
    · obtain ⟨job, done, hdone⟩ := hprogress mv hmv rfl
      have harrived := hdone.arrived row ((hdone.mem row).2 ⟨hrow, hcovers, trivial⟩) hself
      exact (look_pos harrived).1

omit [LinearOrder K] in
theorem mem_group : mv ∈ M.m.plan.movesIn g ↔
    mv ∈ M.m.plan.moves ∧ mv.table = (ofLex g).1 ∧ mv.toShard = (ofLex g).2 := by
  rw [mem_movesIn, ShardMove.group]
  refine and_congr_right fun _ => ?_
  constructor
  · rintro rfl
    exact ⟨rfl, rfl⟩
  · rintro ⟨htable, hto⟩
    rw [htable, hto]
    rfl

theorem sources_nodup (hcons : M.Consistent w q (ofLex g).1 t) (hready : M.m.Ready)
    (ht : M.m.Tables (ofLex g).1 t t') : ((M.m.plan.movesIn g).flatMap (M.m.scopeRows w t')).Nodup := by
  have hids : M.m.plan.moves.Nodup := List.Nodup.of_map _ hready.ids
  refine List.nodup_flatMap.2 ⟨?_, ?_⟩
  · intro mv hmv
    obtain ⟨-, htable, -⟩ := mem_group.1 hmv
    rw [← htable] at hcons ht
    exact scopeRows_nodup hcons hready.planned ht
  · refine (hids.filter _).imp_of_mem ?_
    intro mv mv' hmv hmv' hne
    obtain ⟨hin, htable, hto⟩ := mem_group.1 hmv
    obtain ⟨hin', htable', hto'⟩ := mem_group.1 hmv'
    rw [← htable] at hcons ht htable'
    refine List.disjoint_left.2 ?_
    intro row hrow hrow'
    rw [mem_scopeRows hcons hready.planned hin ht] at hrow
    rw [mem_scopeRows (htable' ▸ hcons) hready.planned hin' (htable' ▸ ht)] at hrow'
    obtain ⟨hmem, hcovers⟩ := hrow
    obtain ⟨hmem', hcovers'⟩ := hrow'
    obtain ⟨-, hsound, hplaced⟩ := hcons.rows _ row hmem
    have hhome := Covers.home hready.planned hin ht hsound hplaced hcovers
    obtain ⟨-, hsound', hplaced'⟩ := hcons.rows _ row (htable' ▸ hmem')
    have hhome' := Covers.home hready.planned hin' (htable' ▸ ht) (htable' ▸ hsound') (htable' ▸ hplaced') hcovers'
    have hfrom : mv'.fromShard = mv.fromShard := by
      rw [htable'] at hhome'
      exact Except.ok.inj (hhome'.symm.trans hhome)
    rw [Covers, htable'] at hcovers'
    exact hne (hready.planned.unique hin hin' htable' hfrom hhome hcovers hcovers')

theorem inAnyScope (hcons : M.Consistent w q (ofLex g).1 t) (hplan : M.m.Planned)
    (ht : M.m.Tables (ofLex g).1 t t') {shard : String} (hrow : row ∈ w.data shard (ofLex g).1) :
    rowInAnyScope M.m t' (M.m.plan.movesIn g) row =
      .ok ((M.m.plan.movesIn g).any fun mv => M.m.covers mv (M.keyOf (ofLex g).1 (M.E.rowPos t.pk row))) := by
  obtain ⟨hfits, hsound, -⟩ := hcons.rows _ row hrow
  refine rowInAnyScope_eq hplan ?_ ht hfits hsound
  intro mv hmv
  exact ⟨(mem_group.1 hmv).1, (mem_group.1 hmv).2.1⟩

theorem target_perm (hcons : M.Consistent w [] (ofLex g).1 t) (hready : M.m.Ready)
    (ht : M.m.Tables (ofLex g).1 t t') (hprogress : ∀ mv ∈ M.m.plan.moves, mv.table = (ofLex g).1 →
      ∃ job, M.Progress w [] mv t job fun _ => True) :
    ((w.data (ofLex g).2 (ofLex g).1).filter fun row =>
      rowInAnyScope M.m t' (M.m.plan.movesIn g) row = .ok true).Perm
        ((M.m.plan.movesIn g).flatMap (M.m.scopeRows w t')) := by
  have hplan := hready.planned
  have hnodup := (hcons.keyed (ofLex g).2).nodup.filter fun row =>
    rowInAnyScope M.m t' (M.m.plan.movesIn g) row = .ok true
  refine (List.perm_ext_iff_of_nodup hnodup (sources_nodup hcons hready ht)).2 ?_
  intro row
  have hsources : row ∈ (M.m.plan.movesIn g).flatMap (M.m.scopeRows w t') ↔
      ∃ mv ∈ M.m.plan.moves, mv.table = (ofLex g).1 ∧ mv.toShard = (ofLex g).2 ∧
        row ∈ w.data mv.fromShard (ofLex g).1 ∧ M.Covers mv (M.E.rowPos t.pk row) := by
    rw [List.mem_flatMap]
    constructor
    · rintro ⟨mv, hmv, hrow⟩
      obtain ⟨hin, htable, hto⟩ := mem_group.1 hmv
      rw [← htable] at hcons ht ⊢
      exact ⟨mv, hin, rfl, hto, (mem_scopeRows hcons hplan hin ht).1 hrow⟩
    · rintro ⟨mv, hin, htable, hto, hrow⟩
      rw [← htable] at hcons ht hrow
      exact ⟨mv, mem_group.2 ⟨hin, htable, hto⟩, (mem_scopeRows hcons hplan hin ht).2 hrow⟩
  rw [hsources, ← mem_target hcons hplan ht hprogress, List.mem_filter, decide_eq_true_eq]
  refine and_congr_right fun hrow => ?_
  rw [inAnyScope hcons hplan ht hrow, Except.ok.injEq, List.any_eq_true]
  constructor
  · rintro ⟨mv, hmv, hcovers⟩
    obtain ⟨hin, htable, hto⟩ := mem_group.1 hmv
    rw [← htable] at hcovers
    exact ⟨mv, hin, htable, hto, hcovers⟩
  · rintro ⟨mv, hin, htable, hto, hcovers⟩
    rw [Covers, htable] at hcovers
    exact ⟨mv, mem_group.2 ⟨hin, htable, hto⟩, hcovers⟩

theorem Inv.all_finished {b : Backfill} (h : M.Inv ⟨b, w, q⟩ finished) (hdone : b.finished) :
    M.m.plan.moves = finished := by
  have hsplit : M.m.plan.moves = finished ++ b.point.current ++ b.moves := h.split
  rw [hdone.1, hdone.2] at hsplit
  simpa [Point.current] using hsplit

theorem Inv.balanced {b : Backfill} (h : M.Inv ⟨b, w, []⟩ finished) (hready : M.m.Ready) (hdone : b.finished)
    (hg : g ∈ M.m.plan.groups) : Balanced M.m M.E w g := by
  have hplan := hready.planned
  have hfinished := h.all_finished hdone
  obtain ⟨mv₀, hmv₀, hgroup⟩ := mem_groups.1 hg
  have hmv₀ := mem_group.1 (mem_movesIn.2 ⟨hmv₀, hgroup⟩)
  obtain ⟨t, t', ht⟩ := hplan.tables_of_move hmv₀.1
  rw [hmv₀.2.1] at ht
  have hname := ((table_ok_iff hplan.new).1 ht.new).2
  have hcons := h.tables _ t ht.old
  have hjobs : ∀ mv ∈ M.m.plan.movesIn g, ∃ job, loadJob M.m.state w.jobs (moveId mv) = .ok (some job) ∧
      job.stats = statsOf (M.m.scopeRows w t' mv) ∧ job.settled = false := by
    intro mv hmv
    obtain ⟨hin, htable, -⟩ := mem_group.1 hmv
    obtain ⟨job, ⟨hload, hopen⟩, hprogress⟩ := h.finished mv (hfinished ▸ hin)
    rw [← htable] at hcons ht
    exact ⟨job, hload, stats_of_progress hcons hplan hin ht hload (hprogress t ht.old), hopen⟩
  refine ⟨⟨t', ht.new, ?_, ?_, ?_, ?_, ?_⟩, ?_⟩
  · intro shard
    rw [ht.pk, hname]
    exact ⟨hcons.keyed shard, fun row hrow => (hcons.rows shard row hrow).1.pk⟩
  · intro mv hmv
    obtain ⟨hin, htable, -⟩ := mem_group.1 hmv
    refine ⟨hready.source mv hin, ?_⟩
    intro row hrow _
    rw [hname, ← htable] at hrow
    rw [← htable] at hcons ht
    obtain ⟨hfits, hsound, -⟩ := hcons.rows _ row hrow
    exact (hfits.scope hplan hin ht hsound).1
  · intro row hrow
    rw [hname] at hrow
    exact ⟨_, inAnyScope hcons hplan ht hrow⟩
  · rw [hname]
    refine target_perm hcons hready ht ?_
    intro mv hin htable
    obtain ⟨job, -, hprogress⟩ := h.finished mv (hfinished ▸ hin)
    exact ⟨job, hprogress t (htable ▸ ht.old)⟩
  · have : Nonempty JobState := ⟨freshJob⟩
    choose! job hjob using hjobs
    refine ⟨(M.m.plan.movesIn g).map job, ?_, ?_, ?_⟩
    · exact List.forall₂_map_right_iff.2 (List.forall₂_same.2 fun mv hmv => (hjob mv hmv).1)
    · exact List.forall₂_map_right_iff.2 (List.forall₂_same.2 fun mv hmv => (hjob mv hmv).2.1)
    · have hin := mem_group.2 hmv₀
      rw [List.all_eq_false]
      exact ⟨job mv₀, List.mem_map_of_mem hin, by simp [(hjob mv₀ hin).2.2]⟩
  · obtain ⟨d, hd, -⟩ := hready.target mv₀ hmv₀.1
    rw [hmv₀.2.2] at hd
    exact ⟨d, hd⟩

end Migration

end Ecat.Shard
