import Ecat.ShardTrack

/-! Resharding without writes beside it. It completes only if the new catalog routes every row of a
table that is copied in full and no such row moves into a shard that the table already had. -/

namespace Ecat.Shard

open Json

section

variable {K : Type} [LinearOrder K] {E : Engine K} {m : ShardMigrator} {b b' : Backfill} {w w₀ : World}
  {mv mv' : ShardMove} {moves : List ShardMove} {table : String} {t t' : ShardTable} {row : Row} {key : Value}
  {shard d : String}

def ShardMigrator.Completes (m : ShardMigrator) (E : Engine K) (w : World) : Prop :=
  ∃ w', m.Backfills E w w' ∧ (m.verify E w').1 = .ok ()

/-- The new catalog routes the rows of every table that is copied in full, each to the shard it is
on or to one that the old catalog has not for the table. -/
def ShardMigrator.Clean (m : ShardMigrator) (w : World) : Prop :=
  ∀ table t, m.old.table table = .ok t → m.Copied table → ∀ shard, ∀ row ∈ w.data shard table,
    ∀ key, row.get t.key = some key → ∃ d, m.new.owner table key = .ok d ∧ (shard = d ∨ d ∉ t.shardNames)

/-! ### What a completed migration says -/

omit [LinearOrder K] in
theorem Tracked.keyed (h : Tracked m E w₀ b w) (hplan : m.Planned) (hlaid : m.Laid E w₀)
    (ht : m.Tables table t t') : w.Keyed E t' := by
  intro shard
  rw [ht.pk, ((table_ok_iff hplan.new).1 ht.new).2]
  refine ⟨h.distinct table t ht.old shard, ?_⟩
  intro row hrow
  obtain ⟨s, hs⟩ := h.found shard table row hrow
  exact ((hlaid.tables table t ht.old).rows s row hs).1

theorem routesTo_none (hnone : mv.keyRange = none) (ht : m.Tables mv.table t t') (hkey : row.get t.key = some key) :
    m.routesTo mv row = (do return (← m.new.owner mv.table key) = mv.toShard) := by
  have hvalue : rowValue row t'.key = .ok key := by rw [rowValue, ht.key, hkey]
  rw [ShardMigrator.routesTo, hnone, ht.new, ok_bind, hvalue]
  rfl

theorem ShardMigrator.Planned.copied_none (h : m.Planned) (ht : m.Tables mv.table t t') (hmv : mv ∈ m.plan.moves)
    (hcopied : m.Copied mv.table) : mv.keyRange = none := by
  have hin : mv ∈ m.plan.movesOf mv.table := ShardMigrator.mem_movesOf.2 ⟨hmv, rfl⟩
  rw [h.fullCopy ht hcopied] at hin
  obtain ⟨source, -, target, -, he⟩ := ShardMigrator.mem_fullCopyMoves.1 hin
  rw [he]

theorem rowInAnyScope_true (h : rowInAnyScope m t moves row = .ok true) :
    ∃ mv ∈ moves, rowInMove m t row mv = .ok true := by
  induction moves with
  | nil => cases h
  | cons mv moves ih =>
    obtain ⟨found, hfound, h⟩ := bind_eq_ok.1 h
    cases found with
    | true => exact ⟨mv, by simp, hfound⟩
    | false =>
      obtain ⟨mv', hmv', hin⟩ := ih h
      exact ⟨mv', by simp [hmv'], hin⟩

theorem length_flatMap_two {α β : Type} {l : List α} {f : α → List β} {x y : α} (hx : x ∈ l) (hy : y ∈ l)
    (hne : x ≠ y) : (f x).length + (f y).length ≤ (l.flatMap f).length := by
  have hle : ∀ {l : List α} {y}, y ∈ l → (f y).length ≤ (l.flatMap f).length := by
    intro l y hy
    obtain ⟨front, back, rfl⟩ := List.append_of_mem hy
    simp
    omega
  obtain ⟨front, back, rfl⟩ := List.append_of_mem hx
  rw [List.flatMap_append, List.flatMap_cons, List.length_append, List.length_append]
  rcases List.mem_append.1 hy with hy | hy
  · have hfront := hle hy
    omega
  · have hback := hle ((List.mem_cons.1 hy).resolve_left hne.symm)
    omega

theorem target_length_le (hplan : m.Planned) (ht : m.Tables table t t') (hcopied : m.Copied table) :
    ((w.data d t'.name).filter fun row =>
      rowInAnyScope m t' (m.plan.movesIn (toLex (table, d))) row = .ok true).length ≤
        (m.scopeRows w t' ⟨table, d, d, none⟩).length := by
  refine (List.monotone_filter_right _ ?_).length_le
  intro row hin
  obtain ⟨mv, hmv, hrow⟩ := rowInAnyScope_true (of_decide_eq_true hin)
  obtain ⟨hplanned, hgroup⟩ := mem_movesIn.1 hmv
  have hto : mv.table = table ∧ mv.toShard = d := Prod.mk.inj (toLex.injective hgroup)
  obtain ⟨rfl, rfl⟩ := hto
  have hnone := hplan.copied_none ht hplanned hcopied
  rw [rowInMove, hnone] at hrow
  have hroutes : m.routesTo ⟨mv.table, mv.toShard, mv.toShard, none⟩ row = .ok true := by
    rw [← hrow, ShardMigrator.routesTo, ShardMigrator.routesTo, hnone]
  rw [hroutes]
  exact decide_eq_true ⟨rfl, rfl⟩

theorem Compared.from_self (h : Compared m w (toLex (table, d)) t') (hplan : m.Planned) (ht : m.Tables table t t')
    (hcopied : m.Copied table) (hself : ⟨table, d, d, none⟩ ∈ m.plan.movesIn (toLex (table, d)))
    (hfrom : ⟨table, shard, d, none⟩ ∈ m.plan.movesIn (toLex (table, d)))
    (hrow : row ∈ m.scopeRows w t' ⟨table, shard, d, none⟩) (hfew : (w.data d t'.name).length < u64Max) :
    shard = d := by
  by_contra hne
  have hmoves : (⟨table, d, d, none⟩ : ShardMove) ≠ ⟨table, shard, d, none⟩ := by
    intro he
    exact hne (ShardMove.mk.inj he).2.1.symm
  have hsum := length_flatMap_two (f := m.scopeRows w t') hself hfrom hmoves
  have htarget := target_length_le (w := w) (d := d) hplan ht hcopied
  have hpos := List.length_pos_of_mem hrow
  have hfilter := List.length_filter_le
    (fun row => rowInAnyScope m t' (m.plan.movesIn (toLex (table, d))) row = .ok true) (w.data d t'.name)
  have hcount := congrArg Stats.rows h.stats
  have hgroup : (ofLex (toLex (table, d))).2 = d := rfl
  simp only [statsOf, hgroup] at hcount
  omega

theorem ShardMigrator.Completes.clean (h : m.Completes E w) (hbuilt : m.Built) (hlaid : m.Laid E w) : m.Clean w := by
  obtain ⟨w', ⟨-, -, b, -, hrun⟩, hverify⟩ := h
  have hplan := hbuilt.planned
  have htracked := hlaid.tracked.run hplan hlaid hrun
  have hcompared := verify_inv hbuilt.chunk htracked.jobs (by
    intro g hg
    obtain ⟨mv, hmv, rfl⟩ := mem_groups.1 hg
    obtain ⟨t, t', ht⟩ := hplan.tables_of_move hmv
    exact ⟨t', ht.new, htracked.keyed hplan hlaid ht⟩) hverify
  intro table t ht hcopied shard row hrow key hkey
  obtain ⟨t', htables⟩ := hplan.tables ht
  have hname := ((table_ok_iff hplan.new).1 htables.new).2
  obtain ⟨-, key', hkey', howner⟩ := (hlaid.tables table t ht).rows shard row hrow
  obtain rfl := Option.some.inj (hkey.symm.trans hkey')
  have hshard : shard ∈ t.shardNames := by
    rw [(htables.owner hplan key).1] at howner
    exact owner_mem howner
  have hmove : ∀ s ∈ t.shardNames, ∀ d ∈ t'.shardNames, ⟨table, s, d, none⟩ ∈ m.plan.movesIn (toLex (table, d)) ∧
      toLex (table, d) ∈ m.plan.groups := by
    intro s hs d hd
    have hin := hplan.copied_mem htables hcopied hs hd
    exact ⟨mem_movesIn.2 ⟨hin, rfl⟩, mem_groups.2 ⟨_, hin, rfl⟩⟩
  have hkept : row ∈ w'.data shard t'.name := by
    rw [hname]
    exact htracked.kept table t ht shard row hrow
  have hrouted : ∀ d, m.routesTo ⟨table, shard, d, none⟩ row = (do return (← m.new.owner table key) = d) :=
    fun d => routesTo_none rfl htables hkey
  have hdest : ∃ d, m.new.owner table key = .ok d := by
    obtain ⟨target, htarget⟩ := List.exists_mem_of_ne_nil _ (hplan.valid htables).2.nonempty
    obtain ⟨hin, hgroup⟩ := hmove shard hshard target.name (List.mem_map_of_mem htarget)
    obtain ⟨routed, hroutes⟩ := (hcompared _ hgroup t' htables.new).routable _ hin row hkept rfl
    rw [hrouted] at hroutes
    obtain ⟨d, hd, -⟩ := bind_eq_ok.1 hroutes
    exact ⟨d, hd⟩
  obtain ⟨d, hd⟩ := hdest
  refine ⟨d, hd, or_iff_not_imp_right.2 ?_⟩
  intro hold
  rw [not_not] at hold
  have hnew : d ∈ t'.shardNames := by
    rw [(htables.owner hplan key).2] at hd
    exact owner_mem hd
  obtain ⟨hself, hgroup⟩ := hmove d hold d hnew
  have hrows : row ∈ m.scopeRows w' t' ⟨table, shard, d, none⟩ := by
    rw [ShardMigrator.scopeRows, List.mem_filter]
    refine ⟨hkept, ?_⟩
    rw [hrouted, hd]
    simp [keyWithin]
  have hfew : (w'.data d t'.name).length < u64Max := by
    have hall := htracked.length_le hplan hlaid ht d
    rw [hname]
    rw [i64Max] at hall
    rw [u64Max]
    omega
  exact (hcompared _ hgroup t' htables.new).from_self hplan htables hcopied hself (hmove shard hshard d hnew).1 hrows hfew

end

end Ecat.Shard
