import Ecat.ShardReshard

/-! A backfill without writes beside it comes to its end where the job table holds its counts: every
step succeeds, and each leaves fewer moves, rows ahead of the cursor or rows of the batch. -/

namespace Ecat.Shard

open Json

section

variable {K : Type} [LinearOrder K] {E : Engine K} {m : ShardMigrator} {b b' : Backfill} {w w' w₀ : World}
  {mv : ShardMove} {table : String} {t t' : ShardTable} {job job' : JobState} {row last : Row} {key : Value}
  {cursor : Option Value}

/-- The job table holds the number of rows of every move. -/
def ShardMigrator.Countable (m : ShardMigrator) (w : World) : Prop :=
  ∀ mv ∈ m.plan.moves, ∀ t, m.new.table mv.table = .ok t → ((m.scopeRows w t mv).length : Int) ≤ m.state.rowsMax

/-! ### What is left to do -/

def ShardMigrator.ahead (m : ShardMigrator) (E : Engine K) (w : World) (mv : ShardMove)
    (cursor : ShardTable → Option Value) : Nat :=
  match m.new.table mv.table with
  | .ok t => (E.rest t mv.keyRange (cursor t) (w.data mv.fromShard mv.table)).length
  | .error _ => 0

def ShardMigrator.remaining (m : ShardMigrator) (E : Engine K) (b : Backfill) (w : World) : ℕ ×ₗ ℕ ×ₗ ℕ :=
  match b.point with
  | .next => toLex (2 * b.moves.length, toLex (0, 0))
  | .scan mv _ cursor => toLex (2 * b.moves.length + 1, toLex (m.ahead E w mv fun _ => cursor, 0))
  | .copy mv _ last batch _ =>
    toLex (2 * b.moves.length + 1, toLex (m.ahead E w mv fun t => last.get t.pk, batch.length + 1))

theorem ahead_eq (ht : m.Tables mv.table t t') (cursor : ShardTable → Option Value) :
    m.ahead E w mv cursor = (E.rest t mv.keyRange (cursor t') (w.data mv.fromShard mv.table)).length := by
  rw [ShardMigrator.ahead, ht.new]
  simp only [Engine.rest, ht.pk, ht.key]

theorem lex_fst {β : Type} [LT β] {a a' : ℕ} {p p' : β} (h : a < a') : toLex (a, p) < toLex (a', p') :=
  Prod.Lex.toLex_lt_toLex.2 (.inl h)

theorem lex_snd {β : Type} [LT β] {a : ℕ} {p p' : β} (h : p < p') : toLex (a, p) < toLex (a, p') :=
  Prod.Lex.toLex_lt_toLex.2 (.inr ⟨rfl, h⟩)

theorem count_ok (h : job.rows + 1 ≤ u64Max) (row : Row) : ∃ job', job.count row = .ok job' := by
  rw [JobState.count, if_pos h]
  exact ⟨_, rfl⟩

end

namespace Migration

variable {K : Type} [LinearOrder K] {M : Migration K} {b b' : Backfill} {w w' w₀ : World} {finished : List ShardMove}
  {mv : ShardMove} {table : String} {t t' : ShardTable} {job job' : JobState} {row last : Row} {q : List Mirror}

/-- Without writes, the rows of a move are those it had at first. -/
theorem scopeRows_perm (hplan : M.m.Planned) (hmv : mv ∈ M.m.plan.moves) (ht : M.m.Tables mv.table t t')
    (hstart : M.Start w₀) (hsound : M.AllSound w₀) (htracked : Tracked M.m M.E w₀ b w)
    (hcons : M.Consistent w q mv.table t) : (M.m.scopeRows w t' mv).Perm (M.m.scopeRows w₀ t' mv) := by
  have hcons₀ := (hstart.inv hsound).tables mv.table t ht.old
  refine (List.perm_ext_iff_of_nodup (scopeRows_nodup hcons hplan ht) (scopeRows_nodup hcons₀ hplan ht)).2 ?_
  intro row
  rw [mem_scopeRows hcons hplan hmv ht, mem_scopeRows hcons₀ hplan hmv ht]
  refine and_congr_left fun hcovers => ⟨fun hrow => ?_, htracked.kept mv.table t ht.old mv.fromShard row⟩
  obtain ⟨-, hsound, hplaced⟩ := hcons.rows _ row hrow
  have hhome := hcovers.home hplan hmv ht hsound hplaced
  obtain ⟨s, hs⟩ := htracked.found mv.fromShard mv.table row hrow
  obtain rfl := Except.ok.inj ((hstart.rows mv.table t ht.old s row hs).2.symm.trans hhome)
  exact hs

theorem ahead_copied (ht : M.m.Tables mv.table t t') (hdistinct : M.E.Distinct t.pk (w.data mv.fromShard mv.table))
    (hrow : row ∈ w.data mv.fromShard mv.table) (cursor : ShardTable → Option Value) :
    M.m.ahead M.E (M.write w t mv.toShard mv.table row) mv cursor = M.m.ahead M.E w mv cursor := by
  rw [ahead_eq ht, ahead_eq ht, data_write]
  split_ifs with hplace
  · rw [← hplace.1, rest_put_self hdistinct hrow]
  · rfl

theorem ahead_scanned (ht : M.m.Tables mv.table t t') (hcons : M.Consistent w q mv.table t) {cursor : Option Value} {n : Nat}
    (hlast : ((M.E.rest t mv.keyRange cursor (w.data mv.fromShard mv.table)).take n).getLast? = some last) :
    M.m.ahead M.E w mv (fun t => last.get t.pk) < M.m.ahead M.E w mv fun _ => cursor := by
  set rest := M.E.rest t mv.keyRange cursor (w.data mv.fromShard mv.table) with hrest
  have hmem : last ∈ rest.take n := List.mem_of_getLast? hlast
  have hrow := (mem_rest.1 (List.mem_of_mem_take hmem)).1
  obtain ⟨v, hv⟩ := (hcons.rows _ last hrow).1.pk
  have hnext := rest_next (hcons.keyed _) (List.take_append_drop n rest).symm hlast hv
  rw [ahead_eq ht, ahead_eq ht, ht.pk, hv, hnext, ← hrest, List.length_drop]
  have hpos := List.length_pos_of_mem hmem
  rw [List.length_take] at hpos
  omega

theorem Inv.progress_copy {moves : List ShardMove} {report : MigrationReport} {batch : List Row} {n : Nat}
    (h : M.Inv ⟨⟨.copy mv job last (row :: batch) n, moves, report⟩, w, []⟩ finished) (hready : M.m.Ready)
    (hmv : mv ∈ M.m.plan.moves) (ht : M.m.Tables mv.table t t')
    (hfits : ((M.m.scopeRows w t' mv).length : Int) ≤ M.m.state.rowsMax) :
    ∃ b' w', M.m.step M.E ⟨.copy mv job last (row :: batch) n, moves, report⟩ w = .ok (b', w') ∧
      M.m.remaining M.E b' w' < M.m.remaining M.E ⟨.copy mv job last (row :: batch) n, moves, report⟩ w := by
  have hcons := h.tables mv.table t ht.old
  obtain ⟨-, -, hcopying⟩ := h.point
  have hcopying : M.Copying w [] mv t job last (row :: batch) := hcopying t ht.old
  rcases h.copyRow hready ht with ⟨hcovers, heq⟩ | ⟨hcovers, heq⟩
  · have hrows := hcopying.progress.rows_le hcons hready.planned hmv ht
    have hmax := hfits.trans (rowsMax_le _)
    have hroom : job.rows + 1 ≤ u64Max := by
      rw [i64Max] at hmax
      rw [u64Max]
      omega
    obtain ⟨job', hcount⟩ := count_ok hroom row
    rw [hcount, ok_bind] at heq
    have hrow := hcopying.kept row (by simp) hcovers
    refine ⟨_, _, by simp only [ShardMigrator.step, heq, ok_bind, pure_eq_ok]; rfl, ?_⟩
    simp only [ShardMigrator.remaining, ahead_copied ht (hcons.keyed _) hrow]
    exact lex_snd (lex_snd (by simp))
  · refine ⟨_, _, by simp only [ShardMigrator.step, heq, ok_bind]; rfl, ?_⟩
    exact lex_snd (lex_snd (by simp))

theorem Inv.progress_save {moves : List ShardMove} {report : MigrationReport} {n : Nat}
    (h : M.Inv ⟨⟨.copy mv job last [] n, moves, report⟩, w, []⟩ finished) (hplan : M.m.Planned)
    (hmv : mv ∈ M.m.plan.moves) (ht : M.m.Tables mv.table t t')
    (hcount : ((M.m.scopeRows w t' mv).length : Int) ≤ M.m.state.rowsMax) :
    ∃ b' w', M.m.step M.E ⟨.copy mv job last [] n, moves, report⟩ w = .ok (b', w') ∧
      M.m.remaining M.E b' w' < M.m.remaining M.E ⟨.copy mv job last [] n, moves, report⟩ w := by
  obtain ⟨⟨stored, hstored⟩, -, hcopying⟩ := h.point
  have hload : loadJob M.m.state w.jobs (moveId mv) = .ok (some stored) := hstored.1
  have hcopying : M.Copying w [] mv t job last [] := hcopying t ht.old
  obtain ⟨v, hv⟩ := hcopying.pk
  have hrows := hcopying.progress.rows_le (h.tables mv.table t ht.old) hplan hmv ht
  have hfits : (({ job with cursor := some v.toText, phase := .backfilling } : JobState).rows : Int) ≤
      M.m.state.rowsMax := by
    show (job.rows : Int) ≤ M.m.state.rowsMax
    omega
  obtain ⟨jobs, hsave, -, -⟩ := saveJob_loads hload hfits
  have hvalue : rowValue last t'.pk = .ok v := by rw [rowValue, ht.pk, hv]
  have hchunk : M.m.saveChunk w mv job last =
      .ok (.scan mv { job with cursor := some v.toText, phase := .backfilling } (some v), { w with jobs }) := by
    rw [ShardMigrator.saveChunk, ht.new, ok_bind, hvalue, ok_bind]
    simp only [hsave]
    rfl
  refine ⟨_, _, by simp only [ShardMigrator.step, hchunk, ok_bind]; rfl, ?_⟩
  have hahead : M.m.ahead M.E { w with jobs } mv (fun _ => some v) = M.m.ahead M.E w mv fun t => last.get t.pk := by
    rw [ahead_eq ht, ahead_eq ht, ht.pk, hv]
  simp only [ShardMigrator.remaining, hahead]
  exact lex_snd (lex_snd (by simp))

/-- Every step of a backfill that has not finished succeeds and leaves less to do. -/
theorem Inv.progress (h : M.Inv ⟨b, w, []⟩ finished) (hready : M.m.Ready)
    (hcountable : M.m.Countable w) (hrunning : ¬ b.finished) :
    ∃ b' w', M.m.step M.E b w = .ok (b', w') ∧ M.m.remaining M.E b' w' < M.m.remaining M.E b w := by
  have hids : M.m.plan.moves.Nodup := List.Nodup.of_map _ hready.ids
  obtain ⟨point, moves, report⟩ := b
  cases point with
  | next =>
    cases moves with
    | nil => exact absurd ⟨rfl, rfl⟩ hrunning
    | cons mv moves =>
      refine ⟨_, _, by simp only [ShardMigrator.step, (h.start hready).1, ok_bind]; rfl, ?_⟩
      exact lex_fst (by simp; omega)
  | scan mv job cursor =>
    have hmv : mv ∈ M.m.plan.moves := (h.current hids (by simp [Point.current])).1
    obtain ⟨t, t', ht⟩ := hready.planned.tables_of_move hmv
    have hname := ((table_ok_iff hready.planned.new).1 ht.new).2
    cases hlast : ((M.E.rest t mv.keyRange cursor (w.data mv.fromShard mv.table)).take M.m.chunkSize).getLast? with
    | none =>
      refine ⟨_, _, by simp only [ShardMigrator.step, scanMove_eq ht hname, hlast]; rfl, ?_⟩
      exact lex_fst (by simp)
    | some last =>
      refine ⟨_, _, by simp only [ShardMigrator.step, scanMove_eq ht hname, hlast]; rfl, ?_⟩
      exact lex_snd (lex_fst (ahead_scanned ht (h.tables mv.table t ht.old) hlast))
  | copy mv job last batch n =>
    have hmv : mv ∈ M.m.plan.moves := (h.current hids (by simp [Point.current])).1
    obtain ⟨t, t', ht⟩ := hready.planned.tables_of_move hmv
    have hcount := hcountable mv hmv t' ht.new
    cases batch with
    | nil => exact h.progress_save hready.planned hmv ht hcount
    | cons row batch => exact h.progress_copy hready hmv ht hcount

/-- What the job table has of a finished backfill it can hold. -/
theorem Inv.countable (h : M.Inv ⟨b, w, q⟩ finished) (hplan : M.m.Planned) (hdone : b.finished) :
    M.m.Countable w := by
  intro mv hmv t' hnew
  obtain ⟨t, t'', ht⟩ := hplan.tables_of_move hmv
  obtain rfl := Except.ok.inj (ht.new.symm.trans hnew)
  obtain ⟨job, ⟨hload, -⟩, hprogress⟩ := h.finished mv (h.all_finished hdone ▸ hmv)
  obtain ⟨done, hdone⟩ := hprogress t ht.old
  obtain ⟨-, row, -, hdecode⟩ := loadJob_some_iff.1 hload
  rw [← (hdone.perm (h.tables mv.table t ht.old) hplan hmv ht).length_eq, ← hdone.rows]
  exact decode_rows hdecode

/-- The rows of the moves are as many as at first. -/
theorem Inv.countable_iff (h : M.Inv ⟨b, w, q⟩ finished) (hplan : M.m.Planned) (hstart : M.Start w₀)
    (hsound : M.AllSound w₀) (htracked : Tracked M.m M.E w₀ b w) : M.m.Countable w ↔ M.m.Countable w₀ := by
  refine forall₂_congr fun mv hmv => forall₂_congr fun t' hnew => ?_
  obtain ⟨t, t'', ht⟩ := hplan.tables_of_move hmv
  obtain rfl := Except.ok.inj (ht.new.symm.trans hnew)
  rw [(scopeRows_perm hplan hmv ht hstart hsound htracked (h.tables mv.table t ht.old)).length_eq]

end Migration

/-! ### Resharding completes -/

section

variable {K : Type} [LinearOrder K] {E : Engine K} {m : ShardMigrator} {w : World} {table : String} {t : ShardTable}
  {row : Row} {key : Value} {shard : String}

open Classical in
noncomputable def keyAt (m : ShardMigrator) (E : Engine K) (w : World) (table : String) (p : K) : Value :=
  if h : ∃ key t shard row, m.old.table table = .ok t ∧ row ∈ w.data shard table ∧ E.rowPos t.pk row = p ∧
    row.get t.key = some key then h.choose else .null

omit [LinearOrder K] in
theorem keyAt_eq (h : LaidOut m E w table t) (ht : m.old.table table = .ok t) (hrow : row ∈ w.data shard table)
    (hkey : row.get t.key = some key) : keyAt m E w table (E.rowPos t.pk row) = key := by
  have hex : ∃ key' t' shard' row', m.old.table table = .ok t' ∧ row' ∈ w.data shard' table ∧
      E.rowPos t'.pk row' = E.rowPos t.pk row ∧ row'.get t'.key = some key' := ⟨key, t, shard, row, ht, hrow, rfl, hkey⟩
  rw [keyAt, dif_pos hex]
  obtain ⟨t', shard', row', ht', hrow', hpos, hkey'⟩ := hex.choose_spec
  obtain rfl := Except.ok.inj (ht'.symm.trans ht)
  rw [h.unique _ _ row' hrow' row hrow hpos, hkey] at hkey'
  exact (Option.some.inj hkey').symm

/-- A migrator whose rows have the shard keys they are laid out by. -/
noncomputable def ShardMigrator.withKeys (m : ShardMigrator) (E : Engine K) (w : World) : Migration K := ⟨m, E, keyAt m E w⟩

omit [LinearOrder K] in
theorem ShardMigrator.Laid.start (h : m.Laid E w) : (m.withKeys E w).Start w := by
  refine ⟨h.preflight, h.jobs, fun table t ht => (h.tables table t ht).distinct, ?_⟩
  intro table t ht shard row hrow
  have hlaid := h.tables table t ht
  obtain ⟨hpk, key, hkey, howner⟩ := hlaid.rows shard row hrow
  have heq : keyAt m E w table (E.rowPos t.pk row) = key := keyAt_eq hlaid ht hrow hkey
  refine ⟨⟨hpk, ?_⟩, ?_⟩
  · show row.get t.key = some (keyAt m E w table (E.rowPos t.pk row))
    rw [heq, hkey]
  · show m.old.owner table (keyAt m E w table (E.rowPos t.pk row)) = .ok shard
    rw [heq, howner]

omit [LinearOrder K] in
theorem Migration.Start.allSound {M : Migration K} (h : M.Start w) (hplan : M.m.Planned) (hclean : M.m.Clean w) :
    M.AllSound w := by
  intro table t ht shard row hrow
  obtain ⟨hfits, hhome⟩ := h.rows table t ht shard row hrow
  refine ⟨⟨shard, hhome⟩, ?_, ?_⟩
  · by_cases hcopied : M.m.Copied table
    · obtain ⟨d, hd, -⟩ := hclean table t ht hcopied shard row hrow _ hfits.key
      exact ⟨d, hd⟩
    · exact hplan.dest hcopied hhome
  · intro hcopied s d hs hd
    obtain ⟨d', hd', hok⟩ := hclean table t ht hcopied shard row hrow _ hfits.key
    obtain rfl := Except.ok.inj (hhome.symm.trans hs)
    obtain rfl := Except.ok.inj (hd'.symm.trans hd)
    exact hok

theorem ShardMigrator.Clean.completes (hclean : m.Clean w) (hready : m.Ready) (hlaid : m.Laid E w)
    (hcountable : m.Countable w) : m.Completes E w := by
  have hsound := hlaid.start.allSound hready.planned hclean
  have hinv := hlaid.start.inv hsound
  have hstep : ∀ s : Backfill × World,
      (∃ finished, (m.withKeys E w).Inv ⟨s.1, s.2, []⟩ finished) ∧ Tracked m E w s.1 s.2 → ¬ s.1.finished →
      ∃ s', m.Steps E s s' ∧ ((∃ finished, (m.withKeys E w).Inv ⟨s'.1, s'.2, []⟩ finished) ∧
        Tracked m E w s'.1 s'.2) ∧ m.remaining E s'.1 s'.2 < m.remaining E s.1 s.2 := by
    rintro ⟨b, w₂⟩ ⟨⟨finished, hinv⟩, htracked⟩ hrunning
    have hnow := (hinv.countable_iff hready.planned hlaid.start hsound htracked).2 hcountable
    obtain ⟨b', w', hstep, hless⟩ := hinv.progress hready hnow hrunning
    obtain ⟨hnext, -⟩ := hinv.work hready ⟨hrunning, hstep⟩
    exact ⟨(b', w'), ⟨hrunning, hstep⟩, ⟨hnext, htracked.step hready.planned hlaid hstep⟩, hless⟩
  obtain ⟨⟨b, w'⟩, hrun, ⟨⟨finished, hinv⟩, htracked⟩, hdone⟩ :=
    ends_of_decreasing (m.Steps E) _ (fun s => s.1.finished) (fun s => m.remaining E s.1 s.2) hstep
      (s := (.begin m, w)) ⟨⟨[], hinv⟩, hlaid.tracked⟩
  refine ⟨w', ⟨hlaid.preflight, hready.schema, b, hdone, hrun⟩, ?_⟩
  refine hinv.verifies hready ?_ hdone rfl
  rw [← hlaid.preflight]
  exact preflightMoves_congr htracked.columns [] m.plan.moves

theorem ShardMigrator.Completes.countable (h : m.Completes E w) (hbuilt : m.Built) (hlaid : m.Laid E w) :
    m.Countable w := by
  have hsound := hlaid.start.allSound hbuilt.planned (h.clean hbuilt hlaid)
  obtain ⟨w', ⟨-, hschema, b, hdone, hrun⟩, -⟩ := h
  have hready : m.Ready := ⟨hbuilt, hschema⟩
  obtain ⟨⟨finished, hinv⟩, -⟩ := (hlaid.start.inv hsound).onlineRun hready
    (online_of_backfill (M := m.withKeys E w) [] hrun)
  have htracked := hlaid.tracked.run hbuilt.planned hlaid hrun
  exact (hinv.countable_iff hbuilt.planned hlaid.start hsound htracked).1 (hinv.countable hbuilt.planned hdone)

theorem ShardMigrator.Completes.not_mySql (h : m.Completes E w) : m.state ≠ .mySql := by
  obtain ⟨-, ⟨-, hschema, -⟩, -⟩ := h
  exact (ensureSchema_ok_iff.1 hschema).2

end

/-! ### Orders on two shards -/

def twoTable : ShardTable := ordersTable (.hashMod 2) ["s0", "s1"]

def ordersMigrator (t' : ShardTable) : ShardMigrator :=
  ⟨⟨fullCopyMoves twoTable t'⟩, ["s0", "s1", "s2", "s3", "s4"].map (·, .sqlite), .sqlite, ⟨[twoTable]⟩, ⟨[t']⟩, 1000⟩

def firstWorld : World := orderWorld [orderRow 1 "new"]

theorem orders_table {t' t : ShardTable} {table : String} (h : (ordersMigrator t').old.table table = .ok t) :
    table = "orders" ∧ t = twoTable := by
  obtain ⟨hmem, rfl⟩ := (table_ok_iff (c := ⟨[twoTable]⟩) (by decide +kernel)).1 h
  rw [List.mem_singleton.1 hmem]
  exact ⟨rfl, rfl⟩

theorem mem_firstWorld {shard : String} {row : Row} (h : row ∈ firstWorld.data shard "orders") :
    shard = "s0" ∧ row = orderRow 1 "new" := by
  simp only [firstWorld, orderWorld] at h
  split_ifs at h with hplace
  · exact ⟨hplace.1, List.mem_singleton.1 h⟩
  · cases h

theorem orders_built {t' : ShardTable} (hplan : (ordersMigrator t').Planned)
    (hids : ((fullCopyMoves twoTable t').map moveId).Nodup)
    (hclients : ∀ shard ∈ t'.shardNames, (ordersMigrator t').client shard = .ok .sqlite) :
    (ordersMigrator t').Built := by
  have hsources : ∀ shard ∈ twoTable.shardNames, (ordersMigrator t').client shard = .ok .sqlite := by
    intro shard hshard
    have hcases : shard = "s0" ∨ shard = "s1" := by
      simpa [twoTable, ordersTable, ShardTable.shardNames] using hshard
    rcases hcases with rfl | rfl
    · rfl
    · rfl
  refine ⟨hplan, hids, ?_, ?_, rfl, Nat.succ_pos 999⟩
  · intro mv hmv
    obtain ⟨source, hsource, target, -, rfl⟩ := ShardMigrator.mem_fullCopyMoves.1 hmv
    exact ⟨.sqlite, hsources source hsource⟩
  · intro mv hmv
    obtain ⟨source, -, target, htarget, rfl⟩ := ShardMigrator.mem_fullCopyMoves.1 hmv
    exact ⟨.sqlite, hclients target htarget, by decide⟩

theorem orders_laid {t' : ShardTable} (hpreflight : (ordersMigrator t').preflightSchema firstWorld = .ok ()) :
    (ordersMigrator t').Laid intEngine firstWorld := by
  refine ⟨hpreflight, fun _ _ => rfl, ?_⟩
  intro table t ht
  obtain ⟨rfl, rfl⟩ := orders_table ht
  refine ⟨?_, ?_, ?_, by decide +kernel⟩
  · intro shard
    simp only [firstWorld, orderWorld]
    split_ifs
    · exact List.nodup_singleton _
    · exact List.nodup_nil
  · intro shard shard' row hrow row' hrow' _
    rw [(mem_firstWorld hrow).2, (mem_firstWorld hrow').2]
  · intro shard row hrow
    obtain ⟨rfl, rfl⟩ := mem_firstWorld hrow
    have howner : (⟨[twoTable]⟩ : ShardCatalog).owner "orders" (intValue 1) = .ok "s0" := by decide +kernel
    exact ⟨⟨_, rfl⟩, intValue 1, rfl, howner⟩

def freshTable : ShardTable := ordersTable (.hashMod 3) ["s2", "s3", "s4"]

theorem fresh_built : (ordersMigrator freshTable).Built := by
  refine orders_built ⟨by decide +kernel, by decide +kernel, ⟨fun _ => Iff.rfl, by decide⟩, rfl⟩ ?_ ?_
  · decide +kernel
  · decide +kernel

theorem orders_countable (t' : ShardTable) : (ordersMigrator t').Countable firstWorld := by
  intro mv _ t _
  have hrows : (firstWorld.data mv.fromShard t.name).length ≤ 1 := by
    simp only [firstWorld, orderWorld]
    split_ifs
    · exact Nat.le_refl 1
    · exact Nat.zero_le 1
  have hle : ((ordersMigrator t').scopeRows firstWorld t mv).length ≤ 1 :=
    (List.length_filter_le _ _).trans hrows
  have hmax : (1 : Int) ≤ Dialect.sqlite.rowsMax := by decide
  have hstate : (ordersMigrator t').state.rowsMax = Dialect.sqlite.rowsMax := rfl
  omega

def grownTable : ShardTable := ordersTable (.hashMod 3) ["s0", "s1", "s2"]

end Ecat.Shard
