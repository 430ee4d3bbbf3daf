import Ecat.Trace
import Ecat.ShardConverge

/-! What a backfill can change, whatever the rows: it opens and saves jobs, and it puts rows that it
has read somewhere else. Without writes beside it, every shard keeps its rows. -/

namespace Ecat.Shard

open Json

def Point.pending : Point → List (String × Row)
  | .copy mv _ _ batch _ => batch.map (mv.table, ·)
  | _ => []

section

variable {K : Type} [LinearOrder K] {E : Engine K} {m : ShardMigrator} {b b' : Backfill} {w w' : World}
  {mv : ShardMove} {job : JobState} {point : Point} {jobs jobs' : Jobs} {row : Row}

theorem insertJob_open (state : Dialect) (jobs : Jobs) (id id' : String) :
    OpenOrKept state jobs (insertJob jobs id) id' := by
  rw [insertJob]
  split_ifs
  · exact .inl rfl
  · by_cases hid : id' = id
    · subst hid
      exact .inr ⟨freshRow, freshJob, Function.update_self .., decode_freshRow _, rfl⟩
    · exact .inl (Function.update_of_ne hid _ _)

theorem ensureJob_open {state : Dialect} (h : ensureJob state jobs mv = .ok (job, jobs')) (id : String) :
    OpenOrKept state jobs jobs' id := by
  obtain ⟨found, -, h⟩ := bind_eq_ok.1 h
  cases found with
  | some job' =>
    obtain ⟨-, rfl⟩ := Prod.mk.inj (Except.ok.inj h)
    exact .inl rfl
  | none =>
    obtain ⟨found, -, h⟩ := bind_eq_ok.1 h
    cases found with
    | none => cases h
    | some job' =>
      obtain ⟨-, rfl⟩ := Prod.mk.inj (Except.ok.inj h)
      exact insertJob_open state jobs _ id

omit [LinearOrder K] in
theorem startMove_effects (h : m.startMove E w mv = .ok (point, w')) :
    (∃ jobs, w' = { w with jobs } ∧ ∀ id, OpenOrKept m.state w.jobs jobs id) ∧ point.pending = [] := by
  obtain ⟨⟨job, jobs⟩, hensure, h⟩ := bind_eq_ok.1 h
  have hopen := ensureJob_open hensure
  simp only at h
  split_ifs at h with hphase hback
  · obtain ⟨rfl, rfl⟩ := Prod.mk.inj (Except.ok.inj h)
    exact ⟨⟨jobs, rfl, hopen⟩, rfl⟩
  · obtain ⟨⟨job', jobs'⟩, hsave, h⟩ := bind_eq_ok.1 h
    obtain ⟨saved, hsaved, he⟩ := bind_eq_ok.1 hsave
    obtain ⟨rfl, rfl⟩ := Prod.mk.inj (Except.ok.inj he)
    obtain ⟨d, -, h⟩ := bind_eq_ok.1 h
    obtain ⟨d', -, h⟩ := bind_eq_ok.1 h
    obtain ⟨t, -, h⟩ := bind_eq_ok.1 h
    obtain ⟨cursor, -, h⟩ := bind_eq_ok.1 h
    obtain ⟨rfl, rfl⟩ := Prod.mk.inj (Except.ok.inj h)
    exact ⟨⟨saved, rfl, fun id => (hopen id).trans (saveJob_open hsaved rfl id)⟩, rfl⟩
  · obtain ⟨⟨job', jobs'⟩, hkeep, h⟩ := bind_eq_ok.1 h
    obtain ⟨rfl, rfl⟩ := Prod.mk.inj (Except.ok.inj hkeep)
    obtain ⟨d, -, h⟩ := bind_eq_ok.1 h
    obtain ⟨d', -, h⟩ := bind_eq_ok.1 h
    obtain ⟨t, -, h⟩ := bind_eq_ok.1 h
    obtain ⟨cursor, -, h⟩ := bind_eq_ok.1 h
    obtain ⟨rfl, rfl⟩ := Prod.mk.inj (Except.ok.inj h)
    exact ⟨⟨jobs, rfl, hopen⟩, rfl⟩

/-- Rows are put where they are pending, and become pending where they are read. -/
structure Effects (m : ShardMigrator) (E : Engine K) (b b' : Backfill) (w w' : World) : Prop where
  columns : w'.columns = w.columns
  jobs : ∀ id, OpenOrKept m.state w.jobs w'.jobs id
  data : w'.data = w.data ∨ ∃ shard table t row, (table, row) ∈ b.point.pending ∧ m.new.table table = .ok t ∧
    w'.data = (w.setData shard table (E.put t.pk row (w.data shard table))).data
  pending : ∀ e ∈ b'.point.pending, e ∈ b.point.pending ∨
    ∃ shard t, m.new.table e.1 = .ok t ∧ e.2 ∈ w.data shard t.name

theorem scanMove_pending {cursor : Option Value} (h : m.scanMove E w mv job cursor = .ok point) :
    ∀ e ∈ point.pending, ∃ shard t, m.new.table e.1 = .ok t ∧ e.2 ∈ w.data shard t.name := by
  obtain ⟨t, ht, h⟩ := bind_eq_ok.1 h
  simp only at h
  split at h
  · obtain rfl := Except.ok.inj h
    simp [Point.pending]
  · obtain rfl := Except.ok.inj h
    intro e he
    obtain ⟨row, hrow, rfl⟩ := List.mem_map.1 he
    exact ⟨mv.fromShard, t, ht, (mem_rest.1 (List.mem_of_mem_take hrow)).1⟩

theorem copyRow_effects {found : Option JobState} (h : m.copyRow E w mv job row = .ok (found, w')) :
    w' = w ∨ ∃ t, m.new.table mv.table = .ok t ∧
      w' = w.setData mv.toShard mv.table (E.put t.pk row (w.data mv.toShard mv.table)) := by
  obtain ⟨routed, -, h⟩ := bind_eq_ok.1 h
  cases routed with
  | false =>
    obtain ⟨-, rfl⟩ := Prod.mk.inj (Except.ok.inj h)
    exact .inl rfl
  | true =>
    obtain ⟨w₂, hupsert, h⟩ := bind_eq_ok.1 h
    obtain ⟨job', -, h⟩ := bind_eq_ok.1 h
    obtain ⟨-, rfl⟩ := Prod.mk.inj (Except.ok.inj h)
    obtain ⟨d, -, hupsert⟩ := bind_eq_ok.1 hupsert
    split_ifs at hupsert with hdialect hcolumns
    · obtain ⟨t, -, hupsert⟩ := bind_eq_ok.1 hupsert
      cases hupsert
    · obtain ⟨t, ht, hupsert⟩ := bind_eq_ok.1 hupsert
      exact .inr ⟨t, ht, (Except.ok.inj hupsert).symm⟩

theorem saveChunk_effects {last : Row} (h : m.saveChunk w mv job last = .ok (point, w')) :
    (∃ jobs, w' = { w with jobs } ∧ ∀ id, OpenOrKept m.state w.jobs jobs id) ∧ point.pending = [] := by
  obtain ⟨t, -, h⟩ := bind_eq_ok.1 h
  obtain ⟨v, -, h⟩ := bind_eq_ok.1 h
  obtain ⟨jobs, hsave, h⟩ := bind_eq_ok.1 h
  obtain ⟨rfl, rfl⟩ := Prod.mk.inj (Except.ok.inj h)
  exact ⟨⟨jobs, rfl, saveJob_open hsave rfl⟩, rfl⟩

theorem step_effects (h : m.step E b w = .ok (b', w')) : Effects m E b b' w w' := by
  obtain ⟨point, moves, report⟩ := b
  cases point with
  | next =>
    cases moves with
    | nil =>
      obtain ⟨rfl, rfl⟩ := Prod.mk.inj (Except.ok.inj h)
      exact ⟨rfl, fun _ => .inl rfl, .inl rfl, fun e he => .inl he⟩
    | cons mv moves =>
      obtain ⟨⟨point, w₂⟩, hstart, h⟩ := bind_eq_ok.1 h
      obtain ⟨⟨jobs, rfl, hopen⟩, hpending⟩ := startMove_effects hstart
      obtain ⟨rfl, rfl⟩ := Prod.mk.inj (Except.ok.inj h)
      exact ⟨rfl, hopen, .inl rfl, by simp [hpending]⟩
  | scan mv job cursor =>
    obtain ⟨point, hscan, h⟩ := bind_eq_ok.1 h
    obtain ⟨rfl, rfl⟩ := Prod.mk.inj (Except.ok.inj h)
    exact ⟨rfl, fun _ => .inl rfl, .inl rfl, fun e he => .inr (scanMove_pending hscan e he)⟩
  | copy mv job last batch n =>
    cases batch with
    | nil =>
      obtain ⟨⟨point, w₂⟩, hsave, h⟩ := bind_eq_ok.1 h
      obtain ⟨⟨jobs, rfl, hopen⟩, hpending⟩ := saveChunk_effects hsave
      obtain ⟨rfl, rfl⟩ := Prod.mk.inj (Except.ok.inj h)
      exact ⟨rfl, hopen, .inl rfl, by simp [hpending]⟩
    | cons row batch =>
      obtain ⟨⟨found, w₂⟩, hcopy, h⟩ := bind_eq_ok.1 h
      have hrest : ∀ e ∈ batch.map (mv.table, ·), e ∈ (row :: batch).map (mv.table, ·) := by
        intro e he
        exact List.mem_cons_of_mem _ he
      have heffects : ∀ job' n', Effects m E ⟨.copy mv job last (row :: batch) n, moves, report⟩
          ⟨.copy mv job' last batch n', moves, report⟩ w w₂ := by
        intro job' n'
        rcases copyRow_effects hcopy with rfl | ⟨t, ht, rfl⟩
        · exact ⟨rfl, fun _ => .inl rfl, .inl rfl, fun e he => .inl (hrest e he)⟩
        · exact ⟨rfl, fun _ => .inl rfl, .inr ⟨mv.toShard, mv.table, t, row, by simp [Point.pending], ht, rfl⟩,
            fun e he => .inl (hrest e he)⟩
      cases found with
      | none =>
        obtain ⟨rfl, rfl⟩ := Prod.mk.inj (Except.ok.inj h)
        exact heffects job n
      | some job' =>
        obtain ⟨rfl, rfl⟩ := Prod.mk.inj (Except.ok.inj h)
        exact heffects job' (n + 1)

/-! ### Rows that stay -/

/-- The rows of a table before a migration: each is on the shard that the old catalog has for its
key, primary keys are unique over all shards, and an `i64` counts the rows. -/
structure LaidOut (m : ShardMigrator) (E : Engine K) (w : World) (table : String) (t : ShardTable) : Prop where
  nodup : ∀ shard, (w.data shard table).Nodup
  unique : ∀ shard shard', ∀ row ∈ w.data shard table, ∀ row' ∈ w.data shard' table,
    E.rowPos t.pk row = E.rowPos t.pk row' → row = row'
  rows : ∀ shard, ∀ row ∈ w.data shard table,
    (∃ v, row.get t.pk = some v) ∧ ∃ key, row.get t.key = some key ∧ m.old.owner table key = .ok shard
  count : ((t.shardNames.flatMap (w.data · table)).length : Int) ≤ i64Max

structure ShardMigrator.Laid (m : ShardMigrator) (E : Engine K) (w : World) : Prop where
  preflight : m.preflightSchema w = .ok ()
  jobs : ∀ mv ∈ m.plan.moves, w.jobs (moveId mv) = none
  tables : ∀ table t, m.old.table table = .ok t → LaidOut m E w table t

/-- What a backfill from `w₀` has come to. -/
structure Tracked (m : ShardMigrator) (E : Engine K) (w₀ : World) (b : Backfill) (w : World) : Prop where
  columns : w.columns = w₀.columns
  jobs : Unsettled m w.jobs
  found : ∀ shard table, ∀ row ∈ w.data shard table, ∃ s, row ∈ w₀.data s table
  pending : ∀ e ∈ b.point.pending, ∃ s, e.2 ∈ w₀.data s e.1
  distinct : ∀ table t, m.old.table table = .ok t → ∀ shard, E.Distinct t.pk (w.data shard table)
  kept : ∀ table t, m.old.table table = .ok t → ∀ shard, ∀ row ∈ w₀.data shard table, row ∈ w.data shard table

variable {w₀ : World} {table : String} {t t' : ShardTable}

omit [LinearOrder K] in
theorem LaidOut.distinct (h : LaidOut m E w table t) (shard : String) : E.Distinct t.pk (w.data shard table) :=
  List.Nodup.map_on (fun row hrow row' hrow' => h.unique shard shard row hrow row' hrow') (h.nodup shard)

omit [LinearOrder K] in
theorem ShardMigrator.Laid.tracked (h : m.Laid E w) : Tracked m E w (.begin m) w := by
  refine ⟨rfl, ?_, fun shard table row hrow => ⟨shard, hrow⟩, by simp [Backfill.begin, Point.pending], ?_, ?_⟩
  · intro mv hmv job hload
    obtain ⟨-, row, hrow, -⟩ := loadJob_some_iff.1 hload
    rw [h.jobs mv hmv] at hrow
    cases hrow
  · intro table t ht shard
    exact (h.tables table t ht).distinct shard
  · exact fun _ _ _ _ _ hrow => hrow

theorem Tracked.step (h : Tracked m E w₀ b w) (hplan : m.Planned) (hlaid : m.Laid E w₀)
    (hstep : m.step E b w = .ok (b', w')) : Tracked m E w₀ b' w' := by
  have heffects := step_effects hstep
  have hpending : ∀ e ∈ b'.point.pending, ∃ s, e.2 ∈ w₀.data s e.1 := by
    intro e he
    rcases heffects.pending e he with he | ⟨shard, t, ht, hrow⟩
    · exact h.pending e he
    · rw [((table_ok_iff hplan.new).1 ht).2] at hrow
      exact h.found shard e.1 e.2 hrow
  have hcolumns := heffects.columns.trans h.columns
  have hjobs := h.jobs.kept heffects.jobs
  rcases heffects.data with hdata | ⟨shard, table, t', row, hrow, ht', hdata⟩
  · refine ⟨hcolumns, hjobs, ?_, hpending, ?_, ?_⟩
    · rw [hdata]
      exact h.found
    · rw [hdata]
      exact h.distinct
    · rw [hdata]
      exact h.kept
  · obtain ⟨s, hs⟩ := h.pending _ hrow
    have hpk : ∀ t, m.old.table table = .ok t → t'.pk = t.pk := by
      intro t ht
      obtain ⟨t₂, htables⟩ := hplan.tables ht
      rw [← htables.pk, Except.ok.inj (ht'.symm.trans htables.new)]
    refine ⟨hcolumns, hjobs, ?_, hpending, ?_, ?_⟩
    · intro shard' table₂ other hother
      rw [hdata, Migration.data_setData] at hother
      split_ifs at hother with hplace
      · obtain ⟨rfl, rfl⟩ := hplace
        rcases mem_put.1 hother with rfl | hmem
        · exact ⟨s, hs⟩
        · exact h.found _ _ other hmem.1
      · exact h.found _ _ other hother
    · intro table₂ t ht shard'
      rw [hdata, Migration.data_setData]
      split_ifs with hplace
      · obtain ⟨rfl, rfl⟩ := hplace
        rw [hpk t ht]
        exact distinct_put (h.distinct _ t ht _)
      · exact h.distinct _ t ht _
    · intro table₂ t ht shard' other hother
      rw [hdata, Migration.data_setData]
      have hmem := h.kept _ t ht shard' other hother
      split_ifs with hplace
      · obtain ⟨rfl, rfl⟩ := hplace
        rw [hpk t ht, mem_put]
        by_cases hpos : E.rowPos t.pk other = E.rowPos t.pk row
        · exact .inl ((hlaid.tables _ t ht).unique shard' s other hother row hs hpos)
        · exact .inr ⟨hmem, hpos⟩
      · exact hmem

theorem Tracked.run (h : Tracked m E w₀ b w) (hplan : m.Planned) (hlaid : m.Laid E w₀)
    (hrun : Relation.ReflTransGen (m.Steps E) (b, w) (b', w')) : Tracked m E w₀ b' w' := by
  generalize hs' : (b', w') = s' at hrun
  induction hrun generalizing b' w' with
  | refl =>
    obtain ⟨rfl, rfl⟩ := Prod.mk.inj hs'
    exact h
  | tail _ hstep ih =>
    subst hs'
    exact (ih rfl).step hplan hlaid hstep.2

omit [LinearOrder K] in
theorem Tracked.length_le (h : Tracked m E w₀ b w) (hplan : m.Planned) (hlaid : m.Laid E w₀)
    (ht : m.old.table table = .ok t) (shard : String) : ((w.data shard table).length : Int) ≤ i64Max := by
  have hlaid := hlaid.tables table t ht
  have hsub : w.data shard table ⊆ t.shardNames.flatMap (w₀.data · table) := by
    intro row hrow
    obtain ⟨s, hs⟩ := h.found shard table row hrow
    obtain ⟨-, key, -, howner⟩ := hlaid.rows s row hs
    obtain ⟨t', htables⟩ := hplan.tables ht
    rw [(htables.owner hplan key).1] at howner
    exact List.mem_flatMap.2 ⟨s, owner_mem howner, hs⟩
  have hle := ((h.distinct table t ht shard).nodup.subperm hsub).length_le
  have hcount := hlaid.count
  omega

end

end Ecat.Shard
