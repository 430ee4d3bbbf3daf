import Ecat.ShardCopies
import Ecat.ShardVerify

/-! What a job has counted. Its rows are still on their source as they were counted, and they have
arrived at the target or are overtaken by a write that is still to arrive there. -/

namespace Ecat.Shard

open Json

namespace Migration

variable {K : Type} [LinearOrder K]

/-- A job has counted the covered rows of its source at some positions. -/
structure Counted (M : Migration K) (w : World) (q : List Mirror) (mv : ShardMove) (t : ShardTable)
    (job : JobState) (P : K → Prop) (done : List Row) : Prop where
  nodup : done.Nodup
  mem : ∀ row, row ∈ done ↔ row ∈ w.data mv.fromShard mv.table ∧ M.Covers mv (M.E.rowPos t.pk row) ∧
    P (M.E.rowPos t.pk row)
  rows : job.rows = done.length
  checksum : job.checksum = (statsOf done).checksum
  arrived : ∀ row ∈ done, mv.fromShard ≠ mv.toShard →
    M.latest w q t mv.toShard mv.table (M.E.rowPos t.pk row) = some row

def Progress (M : Migration K) (w : World) (q : List Mirror) (mv : ShardMove) (t : ShardTable)
    (job : JobState) (P : K → Prop) : Prop :=
  ∃ done, M.Counted w q mv t job P done

variable {M : Migration K} {w w' : World} {q q' : List Mirror} {mv mv' : ShardMove} {t t' t₂ : ShardTable}
  {job job' : JobState} {P P' : K → Prop} {row : Row} {s d : String} {table : String}

theorem Progress.congr (h : M.Progress w q mv t job P)
    (hP : ∀ row ∈ w.data mv.fromShard mv.table, M.Covers mv (M.E.rowPos t.pk row) →
      (P (M.E.rowPos t.pk row) ↔ P' (M.E.rowPos t.pk row))) : M.Progress w q mv t job P' := by
  obtain ⟨done, hdone⟩ := h
  refine ⟨done, hdone.nodup, ?_, hdone.rows, hdone.checksum, hdone.arrived⟩
  intro row
  rw [hdone.mem]
  refine and_congr_right fun hrow => and_congr_right fun hcovers => ?_
  exact hP row hrow hcovers

theorem Progress.frame (h : M.Progress w q mv t job P)
    (hdata : ∀ row, M.Covers mv (M.E.rowPos t.pk row) → P (M.E.rowPos t.pk row) →
      (row ∈ w'.data mv.fromShard mv.table ↔ row ∈ w.data mv.fromShard mv.table))
    (hlatest : ∀ row ∈ w.data mv.fromShard mv.table, M.Covers mv (M.E.rowPos t.pk row) →
      P (M.E.rowPos t.pk row) → mv.fromShard ≠ mv.toShard →
      M.latest w q t mv.toShard mv.table (M.E.rowPos t.pk row) = some row →
      M.latest w' q' t mv.toShard mv.table (M.E.rowPos t.pk row) = some row) : M.Progress w' q' mv t job P := by
  obtain ⟨done, hdone⟩ := h
  refine ⟨done, hdone.nodup, ?_, hdone.rows, hdone.checksum, ?_⟩
  · intro row
    rw [hdone.mem]
    constructor
    · rintro ⟨hrow, hcovers, hP⟩
      exact ⟨(hdata row hcovers hP).2 hrow, hcovers, hP⟩
    · rintro ⟨hrow, hcovers, hP⟩
      exact ⟨(hdata row hcovers hP).1 hrow, hcovers, hP⟩
  · intro row hrow hne
    obtain ⟨hmem, hcovers, hP⟩ := (hdone.mem row).1 hrow
    exact hlatest row hmem hcovers hP hne (hdone.arrived row hrow hne)

theorem Progress.none (M : Migration K) (w : World) (q : List Mirror) (mv : ShardMove) (t : ShardTable)
    (hrows : job.rows = 0) (hchecksum : job.checksum = 0) (hP : ∀ p, ¬ P p) : M.Progress w q mv t job P := by
  refine ⟨[], List.nodup_nil, ?_, hrows, hchecksum, by simp⟩
  intro row
  simp [hP]

theorem count_eq (h : job.count row = .ok job') : job'.rows = job.rows + 1 ∧
    job'.checksum = job.checksum ^^^ rowHash row ∧ job'.phase = job.phase ∧ job'.cursor = job.cursor := by
  rw [JobState.count] at h
  split_ifs at h with hfull
  obtain rfl := Except.ok.inj h
  exact ⟨rfl, rfl, rfl, rfl⟩

theorem Progress.add (h : M.Progress w q mv t job P) (hdistinct : M.E.Distinct t.pk (w.data mv.fromShard mv.table))
    (hrow : row ∈ w.data mv.fromShard mv.table) (hcovers : M.Covers mv (M.E.rowPos t.pk row))
    (hfresh : ¬ P (M.E.rowPos t.pk row))
    (harrived : mv.fromShard ≠ mv.toShard →
      M.latest w q t mv.toShard mv.table (M.E.rowPos t.pk row) = some row)
    (hcount : job.count row = .ok job') :
    M.Progress w q mv t job' fun p => P p ∨ p = M.E.rowPos t.pk row := by
  obtain ⟨done, hdone⟩ := h
  obtain ⟨hrows, hchecksum, -, -⟩ := count_eq hcount
  have hnew : row ∉ done := fun hin => hfresh ((hdone.mem row).1 hin).2.2
  refine ⟨row :: done, List.nodup_cons.2 ⟨hnew, hdone.nodup⟩, ?_, ?_, ?_, ?_⟩
  · intro other
    rw [List.mem_cons, hdone.mem]
    constructor
    · rintro (rfl | ⟨hother, hc, hP⟩)
      · exact ⟨hrow, hcovers, .inr rfl⟩
      · exact ⟨hother, hc, .inl hP⟩
    · rintro ⟨hother, hc, hP | hpos⟩
      · exact .inr ⟨hother, hc, hP⟩
      · exact .inl (hdistinct.eq hother hrow hpos)
  · rw [hrows, hdone.rows, List.length_cons]
  · rw [hchecksum, hdone.checksum, UInt64.xor_comm]
    rfl
  · intro other hother hne
    rcases List.mem_cons.1 hother with rfl | hother
    · exact harrived hne
    · exact hdone.arrived other hother hne

/-! ### What leaves a job's progress as it is -/

theorem latest_write (hdistinct : M.E.Distinct t.pk (w.data s table)) (shard : String) (p : K) :
    M.latest (M.write w t s table row) q t shard table p =
      (M.coming t shard table p q).or
        (if shard = s ∧ p = M.E.rowPos t.pk row then some row else M.look w t shard table p) := by
  rw [latest, look_write hdistinct]
  simp

theorem latest_write_other (hdistinct : M.E.Distinct t.pk (w.data s table)) {p : K}
    (hp : p ≠ M.E.rowPos t.pk row) (shard : String) :
    M.latest (M.write w t s table row) q t shard table p = M.latest w q t shard table p := by
  rw [latest_write hdistinct, if_neg fun h => hp h.2, latest]

theorem mem_data_write {other : Row} {shard : String} (hpos : M.E.rowPos t.pk other ≠ M.E.rowPos t.pk row) :
    other ∈ (M.write w t s table row).data shard table ↔ other ∈ w.data shard table := by
  rw [data_write]
  split_ifs with hplace
  · rw [hplace.1]
    exact mem_put_other hpos
  · rfl

theorem write_keeps {other : Row}
    (hfree : s = mv.fromShard → M.Covers mv (M.E.rowPos t.pk row) → ¬ P (M.E.rowPos t.pk row))
    (hcovers : M.Covers mv (M.E.rowPos t.pk other)) (hP : P (M.E.rowPos t.pk other)) :
    other ∈ (M.write w t s mv.table row).data mv.fromShard mv.table ↔ other ∈ w.data mv.fromShard mv.table := by
  by_cases hpos : M.E.rowPos t.pk other = M.E.rowPos t.pk row
  · rw [data_write]
    split_ifs with hplace
    · rw [hpos] at hcovers hP
      exact absurd hP (hfree hplace.1.symm hcovers)
    · rfl
  · exact mem_data_write hpos

theorem mirror_keeps {e : Mirror} {other : Row} (hcons : M.Consistent w (e :: q) mv.table t)
    (hplan : M.m.Planned) (hmv : mv ∈ M.m.plan.moves) (ht : M.m.Tables mv.table t t') (htable : e.table = mv.table)
    (hcovers : M.Covers mv (M.E.rowPos t.pk other)) :
    other ∈ (M.write w t e.shard mv.table e.row).data mv.fromShard mv.table ↔
      other ∈ w.data mv.fromShard mv.table := by
  obtain ⟨-, hsound, hdest, hhome⟩ := hcons.queue e (by simp) htable
  by_cases hpos : M.E.rowPos t.pk other = M.E.rowPos t.pk e.row
  · rw [data_write]
    split_ifs with hplace
    · rw [hpos] at hcovers
      rw [← hplace.1] at hdest hhome
      exact absurd hcovers (not_covers_at_dest hplan hmv ht hsound hdest hhome)
    · rfl
  · exact mem_data_write hpos

theorem copy_keeps {other : Row} (hcons : M.Consistent w q mv.table t)
    (hplan : M.m.Planned) (hmv : mv ∈ M.m.plan.moves) (ht : M.m.Tables mv.table t t')
    (hlook : M.look w t s mv.table (M.E.rowPos t.pk row) = some row)
    (hs : M.home mv.table (M.E.rowPos t.pk row) = .ok s) (hd : M.dest mv.table (M.E.rowPos t.pk row) = .ok d)
    (hcovers : M.Covers mv (M.E.rowPos t.pk other)) :
    other ∈ (M.write w t d mv.table row).data mv.fromShard mv.table ↔ other ∈ w.data mv.fromShard mv.table := by
  obtain ⟨hrow, -⟩ := look_pos hlook
  obtain ⟨-, hsound, -⟩ := hcons.rows s row hrow
  by_cases hpos : M.E.rowPos t.pk other = M.E.rowPos t.pk row
  · rw [data_write]
    split_ifs with hplace
    · obtain ⟨hfrom, -⟩ := hplace
      by_cases hhome : s = d
      · subst hhome
        rw [hfrom]
        exact mem_put_self (hcons.keyed s) hrow
      · have hnot := not_covers_at_dest hplan hmv ht hsound (hfrom ▸ hd)
          fun he => hhome (Except.ok.inj (hs.symm.trans (hfrom ▸ he)))
        rw [hpos] at hcovers
        exact absurd hcovers hnot
    · rfl
  · exact mem_data_write hpos

theorem Progress.write (h : M.Progress w q mv t job P) (hcons : M.Consistent w q mv.table t)
    (hplan : M.m.Planned) (hmv : mv ∈ M.m.plan.moves) (ht : M.m.Tables mv.table t t')
    (hs : M.home mv.table (M.E.rowPos t.pk row) = .ok s)
    (hfree : s = mv.fromShard → M.Covers mv (M.E.rowPos t.pk row) → ¬ P (M.E.rowPos t.pk row)) (d : String) :
    M.Progress (M.write w t s mv.table row) (queued q s d mv.table row) mv t job P := by
  refine h.frame (fun other => write_keeps hfree) ?_
  intro other hother hcovers hP hne hlatest
  have hpos : M.E.rowPos t.pk other ≠ M.E.rowPos t.pk row := by
    intro hpos
    obtain ⟨-, hsound, hplaced⟩ := hcons.rows _ other hother
    have hhome := Covers.home hplan hmv ht hsound hplaced hcovers
    rw [hpos] at hhome hcovers hP
    exact hfree (Except.ok.inj (hs.symm.trans hhome)) hcovers hP
  rw [latest, coming_queued (.inr hpos), look_write (hcons.keyed s), if_neg fun hplace => hpos hplace.2.2]
  exact hlatest

theorem Progress.mirror {e : Mirror} (h : M.Progress w (e :: q) mv t job P)
    (hcons : M.Consistent w (e :: q) mv.table t) (hplan : M.m.Planned) (hmv : mv ∈ M.m.plan.moves)
    (ht : M.m.Tables mv.table t t') (htable : e.table = mv.table) :
    M.Progress (M.write w t e.shard mv.table e.row) q mv t job P := by
  refine h.frame (fun other hcovers _ => mirror_keeps hcons hplan hmv ht htable hcovers) ?_
  intro other hother hcovers hP hne hlatest
  rw [← htable, latest_mirror (htable ▸ hcons.keyed e.shard), htable]
  exact hlatest

theorem Progress.copy (h : M.Progress w q mv t job P) (hcons : M.Consistent w q mv.table t)
    (hplan : M.m.Planned) (hmv : mv ∈ M.m.plan.moves) (ht : M.m.Tables mv.table t t')
    (hlook : M.look w t s mv.table (M.E.rowPos t.pk row) = some row)
    (hs : M.home mv.table (M.E.rowPos t.pk row) = .ok s) (hd : M.dest mv.table (M.E.rowPos t.pk row) = .ok d) :
    M.Progress (M.write w t d mv.table row) q mv t job P := by
  refine h.frame (fun other hcovers _ => copy_keeps hcons hplan hmv ht hlook hs hd hcovers) ?_
  intro other hother hcovers hP hne hlatest
  by_cases hpos : M.E.rowPos t.pk other = M.E.rowPos t.pk row
  · obtain ⟨-, hsound, hplaced⟩ := hcons.rows _ other hother
    have hhome := Covers.home hplan hmv ht hsound hplaced hcovers
    have hdest := Covers.dest hplan hmv hhome hcovers
    have hcur := hcons.current _ _ _ other hhome hdest hne hlatest
    rw [hpos] at hhome hdest
    obtain rfl := Except.ok.inj (hs.symm.trans hhome)
    rw [hpos, hlook] at hcur
    obtain rfl := Option.some.inj hcur
    rw [latest_write (hcons.keyed d)]
    rw [latest] at hlatest
    cases hcoming : M.coming t mv.toShard mv.table (M.E.rowPos t.pk row) q with
    | none =>
      rw [hcoming] at hlatest
      rw [if_pos ⟨Except.ok.inj (hdest.symm.trans hd), rfl⟩]
      rfl
    | some version =>
      rw [hcoming] at hlatest
      exact hlatest
  · rw [latest_write_other (hcons.keyed d) hpos]
    exact hlatest

theorem coming_other {p : K} {shard : String} {e : Mirror} (he : e.table ≠ table) :
    M.coming t shard table p (e :: q) = M.coming t shard table p q := by
  rw [coming, if_neg fun h => he h.2.1, Option.or_none]

theorem Progress.other (h : M.Progress w q mv t job P)
    (hdata : ∀ shard, w'.data shard mv.table = w.data shard mv.table)
    (hcoming : ∀ shard p, M.coming t shard mv.table p q' = M.coming t shard mv.table p q) :
    M.Progress w' q' mv t job P := by
  refine h.frame ?_ ?_
  · intro row _ _
    rw [hdata]
  · intro row _ _ _ _ hlatest
    rw [latest, hcoming, look, hdata]
    exact hlatest

end Migration

end Ecat.Shard
