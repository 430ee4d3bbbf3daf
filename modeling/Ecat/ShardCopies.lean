import Ecat.ShardMoves
import Ecat.ShardScan

/-! Rows and their copies during a migration, position by position. The position of a row in its
table fixes its shard key, and with it the shard it lives on and the shard it moves to. -/

namespace Ecat.Shard

open Json

/-- A write that has still to be applied at the new owner of its row. -/
structure Mirror where
  shard : String
  table : String
  row : Row

/-- The writes to mirror after a write to a row of shard `s` that moves to `d`. -/
def queued (q : List Mirror) (s d table : String) (row : Row) : List Mirror :=
  if s = d then q else q ++ [⟨d, table, row⟩]

theorem mem_queued {q : List Mirror} {s d table : String} {row : Row} {e : Mirror} (h : e ∈ queued q s d table row) :
    e ∈ q ∨ s ≠ d ∧ e = ⟨d, table, row⟩ := by
  unfold queued at h
  split_ifs at h with hsame
  · exact .inl h
  · rcases List.mem_append.1 h with h | h
    · exact .inl h
    · exact .inr ⟨hsame, List.mem_singleton.1 h⟩

/-- A migrator, the databases it works on, and the shard key that belongs to each primary key. -/
structure Migration (K : Type) where
  m : ShardMigrator
  E : Engine K
  keyOf : String → K → Value

namespace Migration

variable {K : Type}

def home (M : Migration K) (table : String) (p : K) : Except ShardError String :=
  M.m.old.owner table (M.keyOf table p)

def dest (M : Migration K) (table : String) (p : K) : Except ShardError String :=
  M.m.new.owner table (M.keyOf table p)

def Covers (M : Migration K) (mv : ShardMove) (p : K) : Prop := M.m.covers mv (M.keyOf mv.table p) = true

structure Fits (M : Migration K) (table : String) (t : ShardTable) (row : Row) : Prop where
  pk : ∃ v, row.get t.pk = some v
  key : row.get t.key = some (M.keyOf table (M.E.rowPos t.pk row))

/-- Both catalogs route the position, and a table that is copied in full has no row there that
moves into a shard it already had. -/
structure Sound (M : Migration K) (table : String) (t : ShardTable) (p : K) : Prop where
  home : ∃ s, M.home table p = .ok s
  dest : ∃ d, M.dest table p = .ok d
  clean : M.m.Copied table → ∀ s d, M.home table p = .ok s → M.dest table p = .ok d → s = d ∨ d ∉ t.shardNames

variable {M : Migration K} {table : String} {t t' : ShardTable} {mv mv' : ShardMove} {p : K} {s d : String}

theorem Covers.dest (hplan : M.m.Planned) (hmv : mv ∈ M.m.plan.moves) (hs : M.home mv.table p = .ok s)
    (h : M.Covers mv p) : M.dest mv.table p = .ok mv.toShard := (hplan.routed hmv hs h).1

theorem not_covers_at_dest (hplan : M.m.Planned) (hmv : mv ∈ M.m.plan.moves) (ht : M.m.Tables mv.table t t')
    (hsound : M.Sound mv.table t p) (hdest : M.dest mv.table p = .ok mv.fromShard)
    (hhome : M.home mv.table p ≠ .ok mv.fromShard) : ¬ M.Covers mv p := by
  intro hcovers
  obtain ⟨s, hs⟩ := hsound.home
  obtain ⟨hto, hranged⟩ := hplan.routed hmv hs hcovers
  have hself : mv.fromShard = mv.toShard := Except.ok.inj (hdest.symm.trans hto)
  cases hkind : mv.keyRange with
  | some r =>
    obtain ⟨hfrom, -⟩ := hranged (by rw [hkind]; simp)
    exact hhome (hfrom ▸ hs)
  | none =>
    rcases hsound.clean ⟨mv, hmv, rfl, hkind⟩ s mv.fromShard hs hdest with rfl | hnew
    · exact hhome hs
    · exact hnew (hplan.of_copy ht hmv hkind).1

theorem Covers.home (hplan : M.m.Planned) (hmv : mv ∈ M.m.plan.moves) (ht : M.m.Tables mv.table t t')
    (hsound : M.Sound mv.table t p) (hplaced : M.home mv.table p = .ok mv.fromShard ∨ M.dest mv.table p = .ok mv.fromShard)
    (h : M.Covers mv p) : M.home mv.table p = .ok mv.fromShard := by
  by_contra hhome
  exact not_covers_at_dest hplan hmv ht hsound (hplaced.resolve_left hhome) hhome h

/-! ### What a scan reads and a copy routes -/

theorem sqlNumber_of_asI64 {key : Value} {k : Int} (h : key.asI64 = some k) : sqlNumber key = some (k : ℚ) := by
  cases key with
  | number n =>
    cases n with
    | int n ge lt =>
      simp only [Value.asI64, Number.asI64] at h
      split_ifs at h
      cases h
      rfl
    | float value text => cases h
  | _ => cases h

theorem keyWithin_eq {key : Value} {k : Int} (h : key.asI64 = some k) (r : KeyRange) :
    keyWithin (some r) (some key) = r.covers k := by
  have hnumber := sqlNumber_of_asI64 h
  cases r with
  | mk low high => cases low <;> cases high <;> simp [keyWithin, KeyRange.covers, hnumber]

theorem Fits.scope (hplan : M.m.Planned) (hmv : mv ∈ M.m.plan.moves) (ht : M.m.Tables mv.table t t') {row : Row}
    (hfits : M.Fits mv.table t row) (hsound : M.Sound mv.table t (M.E.rowPos t.pk row)) :
    (∃ b, M.m.routesTo mv row = .ok b) ∧
      (keyWithin mv.keyRange (row.get t.key) = true ∧ M.m.routesTo mv row = .ok true ↔
        M.Covers mv (M.E.rowPos t.pk row)) := by
  obtain ⟨s, hs⟩ := hsound.home
  obtain ⟨d, hd⟩ := hsound.dest
  rw [Covers, ShardMigrator.covers, ShardMigrator.routesTo, hfits.key]
  cases hkind : mv.keyRange with
  | some r =>
    obtain ⟨hrange, -⟩ := hplan.of_range ht hmv hkind
    rw [Migration.home, (ht.owner hplan _).1] at hs
    obtain ⟨k, hk⟩ := ShardMigrator.integer_of_owner hrange hs
    simp [keyWithin_eq hk, hk]
  | none =>
    have hvalue : rowValue row t'.key = .ok (M.keyOf mv.table (M.E.rowPos t.pk row)) := by
      rw [rowValue, ht.key, hfits.key]
    have hall : keyWithin none (some (M.keyOf mv.table (M.E.rowPos t.pk row))) = true := rfl
    rw [Migration.dest] at hd
    simp only [Option.isSome_none, Bool.false_eq_true, if_false, ht.new, ok_bind, hvalue, hd, hall, true_and]
    simp

/-! ### Versions of a row -/

theorem data_setData (w : World) (shard table shard' table' : String) (rows : List Row) :
    (w.setData shard table rows).data shard' table' =
      if shard' = shard ∧ table' = table then rows else w.data shard' table' := by
  rw [World.setData]
  by_cases hshard : shard' = shard
  · subst hshard
    by_cases htable : table' = table
    · simp [htable]
    · simp [htable]
  · simp [hshard]

variable [LinearOrder K]

def write (M : Migration K) (w : World) (t : ShardTable) (shard table : String) (row : Row) : World :=
  w.setData shard table (M.E.put t.pk row (w.data shard table))

def look (M : Migration K) (w : World) (t : ShardTable) (shard table : String) (p : K) : Option Row :=
  M.E.look t.pk (w.data shard table) p

/-- The newest version of a row that is still to arrive at a shard. -/
def coming (M : Migration K) (t : ShardTable) (shard table : String) (p : K) : List Mirror → Option Row
  | [] => none
  | e :: q => (M.coming t shard table p q).or
      (if e.shard = shard ∧ e.table = table ∧ M.E.rowPos t.pk e.row = p then some e.row else none)

def latest (M : Migration K) (w : World) (q : List Mirror) (t : ShardTable) (shard table : String) (p : K) : Option Row :=
  (M.coming t shard table p q).or (M.look w t shard table p)

variable {w : World} {q : List Mirror} {row : Row} {shard : String}

theorem coming_snoc (e : Mirror) : M.coming t shard table p (q ++ [e]) =
    if e.shard = shard ∧ e.table = table ∧ M.E.rowPos t.pk e.row = p then some e.row
    else M.coming t shard table p q := by
  induction q with
  | nil => simp [coming]
  | cons e' q ih =>
    rw [List.cons_append, coming, ih, coming]
    split_ifs <;> simp

theorem coming_queued {table' : String} (hother : table ≠ table' ∨ p ≠ M.E.rowPos t.pk row) :
    M.coming t shard table p (queued q s d table' row) = M.coming t shard table p q := by
  unfold queued
  split_ifs
  · rfl
  · rw [coming_snoc, if_neg]
    rintro ⟨-, htable, hpos⟩
    exact hother.elim (fun h => h htable.symm) fun h => h hpos.symm

theorem look_write (hdistinct : M.E.Distinct t.pk (w.data shard table)) (shard' table' : String) :
    M.look (M.write w t shard table row) t shard' table' p =
      if shard' = shard ∧ table' = table ∧ p = M.E.rowPos t.pk row then some row
      else M.look w t shard' table' p := by
  rw [look, look, write, data_setData]
  by_cases hplace : shard' = shard ∧ table' = table
  · obtain ⟨rfl, rfl⟩ := hplace
    rw [if_pos ⟨rfl, rfl⟩, look_put hdistinct]
    simp
  · rw [if_neg hplace, if_neg fun h => hplace ⟨h.1, h.2.1⟩]

theorem latest_mirror {e : Mirror} (hdistinct : M.E.Distinct t.pk (w.data e.shard e.table)) (shard table : String)
    (p : K) : M.latest (M.write w t e.shard e.table e.row) q t shard table p = M.latest w (e :: q) t shard table p := by
  rw [latest, latest, look_write hdistinct, coming, Option.or_assoc]
  congr 1
  by_cases h : e.shard = shard ∧ e.table = table ∧ M.E.rowPos t.pk e.row = p
  · rw [if_pos h, if_pos ⟨h.1.symm, h.2.1.symm, h.2.2.symm⟩]
    rfl
  · rw [if_neg h, if_neg fun h' => h ⟨h'.1.symm, h'.2.1.symm, h'.2.2.symm⟩]
    rfl

/-- The tables of a name during a migration, with the writes that are still to be mirrored. -/
structure Consistent (M : Migration K) (w : World) (q : List Mirror) (table : String) (t : ShardTable) : Prop where
  keyed : ∀ shard, M.E.Distinct t.pk (w.data shard table)
  rows : ∀ shard, ∀ row ∈ w.data shard table, M.Fits table t row ∧ M.Sound table t (M.E.rowPos t.pk row) ∧
    (M.home table (M.E.rowPos t.pk row) = .ok shard ∨ M.dest table (M.E.rowPos t.pk row) = .ok shard)
  queue : ∀ e ∈ q, e.table = table → M.Fits table t e.row ∧ M.Sound table t (M.E.rowPos t.pk e.row) ∧
    M.dest table (M.E.rowPos t.pk e.row) = .ok e.shard ∧ M.home table (M.E.rowPos t.pk e.row) ≠ .ok e.shard
  current : ∀ p s d row, M.home table p = .ok s → M.dest table p = .ok d → s ≠ d →
    M.latest w q t d table p = some row → M.look w t s table p = some row

theorem data_write (shard table shard' table' : String) : (M.write w t shard table row).data shard' table' =
    if shard' = shard ∧ table' = table then M.E.put t.pk row (w.data shard table) else w.data shard' table' := by
  rw [write, data_setData]

theorem Consistent.write_keyed (h : M.Consistent w q table t) (shard' : String) :
    M.E.Distinct t.pk ((M.write w t shard table row).data shard' table) := by
  rw [data_write]
  split_ifs
  · exact distinct_put (h.keyed shard)
  · exact h.keyed shard'

theorem Consistent.write_rows (h : M.Consistent w q table t) (hfits : M.Fits table t row)
    (hsound : M.Sound table t (M.E.rowPos t.pk row)) (hplaced : M.home table (M.E.rowPos t.pk row) = .ok shard ∨
      M.dest table (M.E.rowPos t.pk row) = .ok shard) (shard' : String) :
    ∀ other ∈ (M.write w t shard table row).data shard' table, M.Fits table t other ∧
      M.Sound table t (M.E.rowPos t.pk other) ∧ (M.home table (M.E.rowPos t.pk other) = .ok shard' ∨
        M.dest table (M.E.rowPos t.pk other) = .ok shard') := by
  intro other hother
  rw [data_write] at hother
  split_ifs at hother with hshard
  · rcases mem_put.1 hother with rfl | hmem
    · exact ⟨hfits, hsound, hshard.1 ▸ hplaced⟩
    · exact hshard.1 ▸ h.rows shard other hmem.1
  · exact h.rows shard' other hother

theorem Consistent.copy (h : M.Consistent w q table t) (hlook : M.look w t s table (M.E.rowPos t.pk row) = some row)
    (hs : M.home table (M.E.rowPos t.pk row) = .ok s) (hd : M.dest table (M.E.rowPos t.pk row) = .ok d) :
    M.Consistent (M.write w t d table row) q table t := by
  obtain ⟨hmem, -⟩ := look_pos hlook
  obtain ⟨hfits, hsound, -⟩ := h.rows s row hmem
  refine ⟨h.write_keyed, h.write_rows hfits hsound (.inr hd), h.queue, ?_⟩
  intro p s' d' other hs' hd' hne hlatest
  rw [latest, look_write (h.keyed d)] at hlatest
  rw [look_write (h.keyed d), if_neg]
  · split_ifs at hlatest with hplace
    · obtain ⟨rfl, -, rfl⟩ := hplace
      obtain rfl := Except.ok.inj (hs.symm.trans hs')
      cases hcoming : M.coming t d' table (M.E.rowPos t.pk row) q with
      | none =>
        rw [hcoming] at hlatest
        rw [hlook]
        exact hlatest
      | some version =>
        rw [hcoming] at hlatest
        refine h.current _ s d' other hs' hd' hne ?_
        rw [latest, hcoming]
        exact hlatest
    · exact h.current p s' d' other hs' hd' hne hlatest
  · rintro ⟨rfl, -, rfl⟩
    obtain rfl := Except.ok.inj (hd.symm.trans hd')
    exact hne rfl

theorem Consistent.mirror {e : Mirror} (h : M.Consistent w (e :: q) table t) (htable : e.table = table) :
    M.Consistent (M.write w t e.shard e.table e.row) q table t := by
  subst htable
  obtain ⟨hfits, hsound, hd, hhome⟩ := h.queue e (by simp) rfl
  refine ⟨h.write_keyed, h.write_rows hfits hsound (.inr hd), fun e' he' => h.queue e' (by simp [he']), ?_⟩
  intro p s d other hs hd' hne hlatest
  rw [latest_mirror (h.keyed e.shard)] at hlatest
  rw [look_write (h.keyed e.shard), if_neg]
  · exact h.current p s d other hs hd' hne hlatest
  · rintro ⟨rfl, -, rfl⟩
    exact hhome hs

theorem Consistent.write (h : M.Consistent w q table t) (hfits : M.Fits table t row)
    (hsound : M.Sound table t (M.E.rowPos t.pk row)) (hs : M.home table (M.E.rowPos t.pk row) = .ok s)
    (hd : M.dest table (M.E.rowPos t.pk row) = .ok d) :
    M.Consistent (M.write w t s table row) (queued q s d table row) table t := by
  refine ⟨h.write_keyed, h.write_rows hfits hsound (.inl hs), ?_, ?_⟩
  · intro e he htable
    rcases mem_queued he with he | ⟨hmoved, rfl⟩
    · exact h.queue e he htable
    · refine ⟨hfits, hsound, hd, fun hhome => hmoved ?_⟩
      exact Except.ok.inj (hs.symm.trans hhome)
  · intro p s' d' other hs' hd' hne hlatest
    rw [latest] at hlatest
    rw [look_write (h.keyed s)] at hlatest ⊢
    by_cases hp : p = M.E.rowPos t.pk row
    · subst hp
      obtain rfl := Except.ok.inj (hs.symm.trans hs')
      obtain rfl := Except.ok.inj (hd.symm.trans hd')
      rw [queued, if_neg hne, coming_snoc, if_pos ⟨rfl, rfl, rfl⟩] at hlatest
      rw [if_pos ⟨rfl, rfl, rfl⟩]
      exact hlatest
    · rw [coming_queued (.inr hp), if_neg fun hplace => hp hplace.2.2] at hlatest
      rw [if_neg fun hplace => hp hplace.2.2]
      exact h.current p s' d' other hs' hd' hne hlatest

theorem Consistent.other {q' : List Mirror} {w' : World} (h : M.Consistent w q table t)
    (hdata : ∀ shard, w'.data shard table = w.data shard table) (hqueue : ∀ e ∈ q', e.table = table → e ∈ q)
    (hcoming : ∀ shard p, M.coming t shard table p q' = M.coming t shard table p q) : M.Consistent w' q' table t := by
  have hlook : ∀ shard p, M.look w' t shard table p = M.look w t shard table p := by
    intro shard p
    rw [look, look, hdata]
  refine ⟨fun shard => hdata shard ▸ h.keyed shard, fun shard => hdata shard ▸ h.rows shard,
    fun e he htable => h.queue e (hqueue e he htable) htable, ?_⟩
  intro p s d row hs hd hne hlatest
  rw [latest, hcoming, hlook] at hlatest
  rw [hlook]
  exact h.current p s d row hs hd hne hlatest

end Migration

end Ecat.Shard
