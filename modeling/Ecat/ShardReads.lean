import Ecat.ShardComplete
import Ecat.ShardScatter

/-! Reads after the cutover. The rows that have moved are still on their old shards; a scatter asks
those too, when the new catalog keeps them for the table. -/

namespace Ecat.Shard

open Json

/-! ### Writes of one key under the router's catalog -/

inductive Write
  | put (row : Row)
  | delete (key pk : Value)

section

variable {K : Type} [LinearOrder K]

/-- `DELETE … WHERE pk`. -/
def Engine.remove (E : Engine K) (pk : String) (p : K) (rows : List Row) : List Row :=
  rows.filter fun row => E.rowPos pk row ≠ p

/-- A write that the router binds to no shard changes nothing. -/
def ShardRouter.routed (r : ShardRouter) (w : World) (table : String) (key : Value)
    (change : List Row → List Row) : World :=
  match r.forKeyWithShard table key with
  | .ok shard => w.setData shard table (change (w.data shard table))
  | .error _ => w

def ShardRouter.apply (r : ShardRouter) (E : Engine K) (table : String) (t : ShardTable) (w : World) : Write → World
  | .put row => r.routed w table ((row.get t.key).getD .null) (E.put t.pk row)
  | .delete key pk => r.routed w table key (E.remove t.pk (E.pos pk))

def ShardRouter.applyAll (r : ShardRouter) (E : Engine K) (table : String) (t : ShardTable) (w : World)
    (writes : List Write) : World :=
  writes.foldl (r.apply E table t) w

end

namespace Migration

variable {K : Type} [LinearOrder K]

def Writes (M : Migration K) (table : String) (t : ShardTable) : Write → Prop
  | .put row => M.Fits table t row ∧ Present t.pk row
  | .delete key pk => key = M.keyOf table (M.E.pos pk)

/-- A request for every row of a table on a page that holds them all, and what the shards answer. -/
structure Whole (w : World) (table : String) (t' : ShardTable) (req : ScatterRequest)
    (answers : String → Option (List Row)) : Prop where
  name : req.table = table
  concurrency : req.maxConcurrency ≠ 0
  found : ∀ shard ∈ t'.shardNames, ∃ rows, answers shard = some rows ∧ rows.Perm (w.data shard table)
  ordered : ∀ shard ∈ t'.shardNames, ∀ row ∈ w.data shard table, Present req.orderBy row
  offset : req.offset = 0
  limit : (t'.shardNames.flatMap (w.data · table)).length ≤ req.limit

/-- Every scatter of the whole table returns the rows that are on the shards they belong to, one for
each primary key. -/
def ReadsOwned (M : Migration K) (router : ShardRouter) (w : World) (table : String) (t' : ShardTable) : Prop :=
  ∀ req answers, Whole w table t' req answers → ∃ rows, router.scatter req answers = .ok rows ∧
    (rows.map (M.E.rowPos t'.pk)).Nodup ∧
    ∀ row, row ∈ rows ↔ ∃ shard, M.dest table (M.E.rowPos t'.pk row) = .ok shard ∧ row ∈ w.data shard table

/-- No row moves away from a shard that the new catalog keeps for the table. -/
def Vacates (M : Migration K) (w : World) (table : String) (t t' : ShardTable) : Prop :=
  ∀ shard, ∀ row ∈ w.data shard table,
    M.dest table (M.E.rowPos t.pk row) = .ok shard ∨ shard ∉ t'.shardNames

/-- Keys of the same text have the same place in the order of the databases. -/
def ByText (M : Migration K) : Prop := ∀ v v' : Value, v.toText = v'.toText → M.E.pos v = M.E.pos v'

/-- A router under the new catalog, with a client for every shard. -/
structure Routes (M : Migration K) (router : ShardRouter) : Prop where
  catalog : router.catalog = M.m.new
  clients : ∀ t ∈ M.m.new.tables, ∀ shard ∈ t.shards, shard.name ∈ router.clients

variable {M : Migration K} {router : ShardRouter} {w : World} {table : String} {t t' : ShardTable} {row : Row}

omit [LinearOrder K] in
theorem Routes.forKey (h : M.Routes router) (ht : M.m.Tables table t t') (hplan : M.m.Planned) (key : Value) :
    router.forKeyWithShard table key = M.m.new.owner table key := by
  rw [ShardRouter.forKeyWithShard, h.catalog]
  cases howner : M.m.new.owner table key with
  | error e => rfl
  | ok shard =>
    rw [(ht.owner hplan key).2] at howner
    obtain ⟨endpoint, hin, hname⟩ := List.mem_map.1 (owner_mem howner)
    have hclient := h.clients t' ((table_ok_iff hplan.new).1 ht.new).1 endpoint hin
    rw [hname] at hclient
    rw [ok_bind, if_pos hclient]
    rfl

omit [LinearOrder K] in
theorem scatter_whole {req : ScatterRequest} {answers : String → Option (List Row)} (h : M.Routes router)
    (ht : M.m.Tables table t t') (hplan : M.m.Planned) (hwhole : Whole w table t' req answers)
    (hpk : ∀ shard ∈ t'.shardNames, ∀ row ∈ w.data shard table, Present t'.pk row) :
    ∃ rows, router.scatter req answers = .ok rows ∧ (rows.map (pkText t'.pk)).Nodup ∧
      (∀ row ∈ rows, ∃ shard ∈ t'.shardNames, row ∈ w.data shard table) ∧
      ∀ shard ∈ t'.shardNames, ∀ row ∈ w.data shard table, ∃ r ∈ rows, pkText t'.pk r = pkText t'.pk row := by
  have hfind : t'.shardNames.find? (· ∉ router.clients) = none := by
    rw [List.find?_eq_none]
    intro shard hshard
    obtain ⟨endpoint, hin, rfl⟩ := List.mem_map.1 hshard
    simpa using h.clients t' ((table_ok_iff hplan.new).1 ht.new).1 endpoint hin
  have hfailed : t'.shardNames.filter (fun shard => (answers shard).isNone) = [] := by
    rw [List.filter_eq_nil_iff]
    intro shard hshard
    obtain ⟨rows, hrows, -⟩ := hwhole.found shard hshard
    simp [hrows]
  have hperm : ∀ shard ∈ t'.shardNames, ((answers shard).getD []).Perm (w.data shard table) ∧
      answers shard = some ((answers shard).getD []) := by
    intro shard hshard
    obtain ⟨rows, hrows, hperm⟩ := hwhole.found shard hshard
    rw [hrows]
    exact ⟨hperm, rfl⟩
  have hresults : t'.shardNames.map answers = (t'.shardNames.map fun shard => (answers shard).getD []).map some := by
    rw [List.map_map]
    exact List.map_congr_left fun shard hshard => (hperm shard hshard).2
  have hin : ∀ rows ∈ t'.shardNames.map (fun shard => (answers shard).getD []), ∀ row ∈ rows,
      ∃ shard ∈ t'.shardNames, row ∈ w.data shard table := by
    intro rows hrows row hrow
    obtain ⟨shard, hshard, rfl⟩ := List.mem_map.1 hrows
    exact ⟨shard, hshard, (hperm shard hshard).1.subset hrow⟩
  have hlimit : (t'.shardNames.map fun shard => (answers shard).getD []).flatten.length ≤ req.limit := by
    have hlength : (t'.shardNames.map fun shard => (answers shard).getD []).flatten.length =
        (t'.shardNames.flatMap (w.data · table)).length := by
      rw [List.length_flatten, List.length_flatMap, List.map_map]
      exact congrArg List.sum (List.map_congr_left fun shard hshard => (hperm shard hshard).1.length_eq)
    rw [hlength]
    exact hwhole.limit
  have horder : ∀ rows ∈ t'.shardNames.map (fun shard => (answers shard).getD []), ∀ row ∈ rows,
      Present req.orderBy row := by
    intro rows hrows row hrow
    obtain ⟨shard, hshard, hmem⟩ := hin rows hrows row hrow
    exact hwhole.ordered shard hshard row hmem
  have hkeys : ∀ rows ∈ t'.shardNames.map (fun shard => (answers shard).getD []), ∀ row ∈ rows,
      Present t'.pk row := by
    intro rows hrows row hrow
    obtain ⟨shard, hshard, hmem⟩ := hin rows hrows row hrow
    exact hpk shard hshard row hmem
  obtain ⟨rows, hrows, hnodup, hfound, hall⟩ := merge_ok horder hkeys hlimit
  refine ⟨rows, ?_, hnodup, ?_, ?_⟩
  · rw [ShardRouter.scatter, if_neg hwhole.concurrency, h.catalog, hwhole.name, ht.new, ok_bind, hfind]
    simp only [hfailed, ne_eq, not_true_eq_false, if_false, hwhole.offset, hresults]
    exact hrows
  · intro row hrow
    obtain ⟨rows', hrows', hmem⟩ := List.mem_flatten.1 (hfound row hrow)
    exact hin rows' hrows' row hmem
  · intro shard hshard row hrow
    refine hall row (List.mem_flatten.2 ⟨_, List.mem_map_of_mem hshard, ?_⟩)
    exact (hperm shard hshard).1.symm.subset hrow

/-! ### Shards with rows of their own only -/

structure Owned (M : Migration K) (w : World) (table : String) (t t' : ShardTable) : Prop where
  keyed : ∀ shard ∈ t'.shardNames, M.E.Distinct t.pk (w.data shard table)
  rows : ∀ shard ∈ t'.shardNames, ∀ row ∈ w.data shard table,
    Present t.pk row ∧ M.dest table (M.E.rowPos t.pk row) = .ok shard

omit [LinearOrder K] in
theorem pos_of_text {pk : String} {r : Row} (h : M.ByText) (htext : pkText pk r = pkText pk row) :
    M.E.rowPos pk r = M.E.rowPos pk row := h _ _ htext

omit [LinearOrder K] in
theorem Owned.reads (h : M.Owned w table t t') (hroutes : M.Routes router) (ht : M.m.Tables table t t')
    (hplan : M.m.Planned) (htext : M.ByText) : M.ReadsOwned router w table t' := by
  intro req answers hwhole
  have hpk : t'.pk = t.pk := ht.pk
  obtain ⟨rows, hrows, hnodup, hfound, hall⟩ := scatter_whole hroutes ht hplan hwhole
    fun shard hshard row hrow => hpk ▸ (h.rows shard hshard row hrow).1
  have hsame : ∀ shard ∈ t'.shardNames, ∀ row ∈ w.data shard table, ∀ r ∈ rows,
      M.E.rowPos t.pk r = M.E.rowPos t.pk row → r = row := by
    intro shard hshard row hrow r hr hpos
    obtain ⟨shard', hshard', hmem⟩ := hfound r hr
    have hdest := (h.rows shard hshard row hrow).2
    have hdest' := (h.rows shard' hshard' r hmem).2
    rw [hpos, hdest] at hdest'
    obtain rfl := Except.ok.inj hdest'
    exact (h.keyed shard hshard).eq hmem hrow hpos
  refine ⟨rows, hrows, ?_, ?_⟩
  · rw [hpk]
    refine List.Nodup.map_on ?_ (List.Nodup.of_map _ hnodup)
    intro r hr row hrow hpos
    obtain ⟨shard, hshard, hmem⟩ := hfound row hrow
    exact hsame shard hshard row hmem r hr hpos
  · intro row
    rw [hpk]
    constructor
    · intro hrow
      obtain ⟨shard, hshard, hmem⟩ := hfound row hrow
      exact ⟨shard, (h.rows shard hshard row hmem).2, hmem⟩
    · rintro ⟨shard, hdest, hmem⟩
      have hshard : shard ∈ t'.shardNames := by
        rw [Migration.dest, (ht.owner hplan _).2] at hdest
        exact owner_mem hdest
      obtain ⟨r, hr, he⟩ := hall shard hshard row hmem
      have hpos := pos_of_text htext he
      rw [hpk] at hpos
      rw [← hsame shard hshard row hmem r hr hpos]
      exact hr

omit [LinearOrder K] in
theorem Owned.changed (h : M.Owned w table t t') {shard : String} {rows : List Row}
    (hkeyed : M.E.Distinct t.pk rows) (hrows : ∀ row ∈ rows, Present t.pk row ∧
      M.dest table (M.E.rowPos t.pk row) = .ok shard) : M.Owned (w.setData shard table rows) table t t' := by
  refine ⟨?_, ?_⟩
  · intro shard' hshard'
    rw [data_setData]
    split_ifs
    · exact hkeyed
    · exact h.keyed shard' hshard'
  · intro shard' hshard' row hrow
    rw [data_setData] at hrow
    split_ifs at hrow with hplace
    · rw [hplace.1]
      exact hrows row hrow
    · exact h.rows shard' hshard' row hrow

theorem Owned.apply (h : M.Owned w table t t') (hroutes : M.Routes router) (ht : M.m.Tables table t t')
    (hplan : M.m.Planned) {wr : Write} (hwr : M.Writes table t wr) :
    M.Owned (router.apply M.E table t w wr) table t t' := by
  have hmem : ∀ {p shard}, M.dest table p = .ok shard → shard ∈ t'.shardNames := by
    intro p shard hdest
    rw [Migration.dest, (ht.owner hplan _).2] at hdest
    exact owner_mem hdest
  cases wr with
  | put row =>
    obtain ⟨hfits, hpresent⟩ := hwr
    rw [ShardRouter.apply, ShardRouter.routed, hfits.key, Option.getD_some, hroutes.forKey ht hplan]
    cases hdest : M.m.new.owner table (M.keyOf table (M.E.rowPos t.pk row)) with
    | error e => exact h
    | ok shard =>
      refine h.changed (distinct_put (h.keyed shard (hmem hdest))) ?_
      intro other hother
      rcases mem_put.1 hother with rfl | hother
      · exact ⟨hpresent, hdest⟩
      · exact h.rows shard (hmem hdest) other hother.1
  | delete key pk =>
    obtain rfl : key = M.keyOf table (M.E.pos pk) := hwr
    rw [ShardRouter.apply, ShardRouter.routed, hroutes.forKey ht hplan]
    cases hdest : M.m.new.owner table (M.keyOf table (M.E.pos pk)) with
    | error e => exact h
    | ok shard =>
      refine h.changed (List.Nodup.sublist (List.filter_sublist.map _) (h.keyed shard (hmem hdest))) ?_
      intro other hother
      exact h.rows shard (hmem hdest) other (List.mem_of_mem_filter hother)

theorem Owned.applyAll (h : M.Owned w table t t') (hroutes : M.Routes router) (ht : M.m.Tables table t t')
    (hplan : M.m.Planned) {writes : List Write} (hwrites : ∀ wr ∈ writes, M.Writes table t wr) :
    M.Owned (router.applyAll M.E table t w writes) table t t' := by
  induction writes generalizing w with
  | nil => exact h
  | cons wr writes ih =>
    obtain ⟨hwr, hwrites⟩ := List.forall_mem_cons.1 hwrites
    exact ih (h.apply hroutes ht hplan hwr) hwrites

/-! ### After the cutover -/

omit [LinearOrder K] in
theorem Start.laid (h : M.Start w) (hcount : ∀ table t, M.m.old.table table = .ok t →
    ((t.shardNames.flatMap (w.data · table)).length : Int) ≤ i64Max) : M.m.Laid M.E w := by
  refine ⟨h.preflight, h.jobs, ?_⟩
  intro table t ht
  refine ⟨fun shard => (h.keyed table t ht shard).nodup, ?_, ?_, hcount table t ht⟩
  · intro shard shard' row hrow row' hrow' hpos
    have hhome := (h.rows table t ht shard row hrow).2
    have hhome' := (h.rows table t ht shard' row' hrow').2
    rw [hpos, hhome'] at hhome
    obtain rfl := Except.ok.inj hhome
    exact (h.keyed table t ht _).eq hrow hrow' hpos
  · intro shard row hrow
    obtain ⟨hfits, hhome⟩ := h.rows table t ht shard row hrow
    exact ⟨hfits.pk, _, hfits.key, hhome⟩

/-- A migration that has been backfilled, verified and cut over to the migrator's new catalog. -/
structure CutOver (M : Migration K) (w w₁ : World) (faults : Faults) (router : ShardRouter) : Prop where
  built : M.m.Built
  start : M.Start w
  count : ∀ table t, M.m.old.table table = .ok t → ((t.shardNames.flatMap (w.data · table)).length : Int) ≤ i64Max
  backfilled : M.m.Backfills M.E w w₁
  verified : (M.m.verify M.E w₁).1 = .ok ()
  finished : (M.m.cutover faults router M.m.new (M.m.verify M.E w₁).2).result = .ok ()

def switched (M : Migration K) (w₁ : World) (faults : Faults) (router : ShardRouter) : Switched :=
  M.m.cutover faults router M.m.new (M.m.verify M.E w₁).2

variable {w₁ : World} {faults : Faults}

theorem CutOver.routes (h : M.CutOver w w₁ faults router) : M.Routes (M.switched w₁ faults router).router ∧
    (M.switched w₁ faults router).world.data = w₁.data := by
  have hverify : (M.m.verify M.E w₁).2.data = w₁.data := by
    rw [ShardMigrator.verify]
    split <;> rfl
  have hok := h.finished
  by_cases hswitches : Switches M.m faults router M.m.new (M.m.verify M.E w₁).2
  · rw [switched, cutover_switches hswitches]
    exact ⟨⟨rfl, hswitches.clients⟩, hverify⟩
  · obtain ⟨e, he⟩ := cutover_refused hswitches
    rw [he] at hok
    cases hok

theorem CutOver.rows (h : M.CutOver w w₁ faults router) (ht : M.m.old.table table = .ok t) :
    M.Consistent w₁ [] table t ∧ M.AllSound w ∧
      (∀ shard, ∀ row ∈ w₁.data shard table, ∃ s, row ∈ w.data s table) ∧
      ∀ shard, ∀ row ∈ w.data shard table, row ∈ w₁.data shard table := by
  have hlaid := h.start.laid h.count
  have hclean := ShardMigrator.Completes.clean ⟨w₁, h.backfilled, h.verified⟩ h.built hlaid
  have hsound := h.start.allSound h.built.planned hclean
  obtain ⟨-, hschema, b, -, hrun⟩ := h.backfilled
  have htracked := hlaid.tracked.run h.built.planned hlaid hrun
  obtain ⟨⟨finished, hinv⟩, -⟩ := (h.start.inv hsound).onlineRun ⟨h.built, hschema⟩ (online_of_backfill [] hrun)
  exact ⟨hinv.tables table t ht, hsound, fun shard row => htracked.found shard table row,
    htracked.kept table t ht⟩

theorem CutOver.owned (h : M.CutOver w w₁ faults router) (ht : M.m.Tables table t t')
    (hpk : ∀ shard, ∀ row ∈ w.data shard table, Present t.pk row) (hvacates : M.Vacates w table t t') :
    M.Owned (M.switched w₁ faults router).world table t t' := by
  obtain ⟨hcons, -, hfound, -⟩ := h.rows ht.old
  refine ⟨?_, ?_⟩
  · intro shard _
    rw [h.routes.2]
    exact hcons.keyed shard
  · intro shard hshard row hrow
    rw [h.routes.2] at hrow
    obtain ⟨s, hs⟩ := hfound shard row hrow
    refine ⟨hpk s row hs, ?_⟩
    obtain ⟨-, -, hhome | hdest⟩ := hcons.rows shard row hrow
    · have hhome' := (h.start.rows table t ht.old s row hs).2
      obtain rfl := Except.ok.inj (hhome.symm.trans hhome')
      exact (hvacates shard row hs).resolve_right (not_not.2 hshard)
    · exact hdest

theorem CutOver.vacates (h : M.CutOver w w₁ faults router) (ht : M.m.Tables table t t')
    (hpk : ∀ shard, ∀ row ∈ w.data shard table, Present t.pk row) (htext : M.ByText)
    (hreads : ∀ writes, (∀ wr ∈ writes, M.Writes table t wr) →
      M.ReadsOwned (M.switched w₁ faults router).router
        ((M.switched w₁ faults router).router.applyAll M.E table t (M.switched w₁ faults router).world writes)
        table t') : M.Vacates w table t t' := by
  intro shard row hrow
  refine or_iff_not_imp_right.2 fun hshard => ?_
  rw [not_not] at hshard
  obtain ⟨hcons, hsound, hfound, hkept⟩ := h.rows ht.old
  obtain ⟨hroutes, hdata⟩ := h.routes
  have hplan := h.built.planned
  obtain ⟨d, hd⟩ := (hsound table t ht.old shard row hrow).dest
  by_contra hmoved
  have hne : shard ≠ d := fun he => hmoved (he ▸ hd)
  obtain ⟨v, hv, -⟩ := hpk shard row hrow
  have hpos : M.E.rowPos t.pk row = M.E.pos v := by rw [Engine.rowPos, hv, Option.getD_some]
  set out := M.switched w₁ faults router with hout
  set after := out.router.applyAll M.E table t out.world [.delete (M.keyOf table (M.E.pos v)) v] with hafter
  have hchanged : ∀ s, after.data s table =
      if s = d then M.E.remove t.pk (M.E.pos v) (w₁.data d table) else w₁.data s table := by
    intro s
    have howner : M.m.new.owner table (M.keyOf table (M.E.pos v)) = .ok d := hpos ▸ hd
    rw [hafter, ShardRouter.applyAll, List.foldl_cons, List.foldl_nil, ShardRouter.apply, ShardRouter.routed,
      hroutes.forKey ht hplan, howner]
    simp only [data_setData, hdata, and_true]
  have hpresent : ∀ s, ∀ r ∈ after.data s table, Present t.pk r := by
    intro s r hr
    have hmem : r ∈ w₁.data s table := by
      rw [hchanged] at hr
      split_ifs at hr with hs
      · exact hs ▸ List.mem_of_mem_filter hr
      · exact hr
    obtain ⟨s', hs'⟩ := hfound s r hmem
    exact hpk s' r hs'
  have hwhole : Whole after table t' ⟨table, t.pk, (t'.shardNames.flatMap (after.data · table)).length, 0, 1⟩
      (fun s => some (after.data s table)) :=
    ⟨rfl, one_ne_zero, fun s _ => ⟨_, rfl, .refl _⟩, fun s _ r hr => hpresent s r hr, rfl, le_rfl⟩
  obtain ⟨rows, hrows, -, howned⟩ := hreads [.delete (M.keyOf table (M.E.pos v)) v] (by simp [Writes]) _ _ hwhole
  obtain ⟨rows', hrows', -, -, hall⟩ := scatter_whole hroutes ht hplan hwhole
    fun s _ r hr => ht.pk ▸ hpresent s r hr
  obtain rfl := Except.ok.inj (hrows.symm.trans hrows')
  have hstale : row ∈ after.data shard table := by
    rw [hchanged, if_neg hne]
    exact hkept shard row hrow
  obtain ⟨r, hr, he⟩ := hall shard hshard row hstale
  have hsame : M.E.rowPos t'.pk r = M.E.rowPos t'.pk row := pos_of_text htext he
  obtain ⟨s, hs, hmem⟩ := (howned r).1 hr
  rw [hsame, ht.pk, hd] at hs
  obtain rfl := Except.ok.inj hs
  rw [hchanged, if_pos rfl] at hmem
  have hleft := (List.mem_filter.1 hmem).2
  rw [ht.pk, hpos] at hsame
  exact (of_decide_eq_true hleft) hsame

theorem scatter_reads_owned_iff (h : M.CutOver w w₁ faults router) (ht : M.m.Tables table t t')
    (hpk : ∀ shard, ∀ row ∈ w.data shard table, Present t.pk row) (htext : M.ByText) :
    (∀ writes, (∀ wr ∈ writes, M.Writes table t wr) →
      M.ReadsOwned (M.switched w₁ faults router).router
        ((M.switched w₁ faults router).router.applyAll M.E table t (M.switched w₁ faults router).world writes)
        table t') ↔ M.Vacates w table t t' := by
  refine ⟨h.vacates ht hpk htext, ?_⟩
  intro hvacates writes hwrites
  have howned := (h.owned ht hpk hvacates).applyAll h.routes.1 ht h.built.planned hwrites
  exact howned.reads h.routes.1 ht h.built.planned htext

end Migration

/-! ### Orders after a cutover -/

theorem byText_of_int {M : Migration Int} (h : M.E = intEngine) : M.ByText := by
  intro v v' htext
  rw [h]
  show readInt v.toText = readInt v'.toText
  rw [htext]

theorem cutOver_of_run {M : Migration Int} {w : World} (n : Nat) (router : ShardRouter) (hbuilt : M.m.Built)
    (hschema : ensureSchema M.m.state = .ok ()) (hstart : M.Start w)
    (hcount : ∀ table t, M.m.old.table table = .ok t → ((t.shardNames.flatMap (w.data · table)).length : Int) ≤ i64Max)
    (hrun : (M.m.advance M.E n (.begin M.m, w)).toOption.any (fun s => s.1.ended &&
      (M.m.verify M.E s.2).1.toBool && (M.switched s.2 noFaults router).result.toBool) = true) :
    ∃ w₁, M.CutOver w w₁ noFaults router := by
  have hok : ∀ {x : Except ShardError Unit}, x.toBool = true → x = .ok () := by
    intro x hx
    cases x with
    | error e => cases hx
    | ok u => rfl
  obtain ⟨⟨b, w₁⟩, hs, hrun⟩ := exists_ok_of_any hrun
  rw [Bool.and_eq_true, Bool.and_eq_true] at hrun
  obtain ⟨⟨hended, hverified⟩, hswitched⟩ := hrun
  exact ⟨w₁, hbuilt, hstart, hcount, ⟨hstart.preflight, hschema, b, finished_of_ended hended, advance_run hs⟩, hok hverified,
    hok hswitched⟩

theorem half_cutOver : ∃ w₁, halfOnline.CutOver startWorld w₁ noFaults ⟨narrowOrders, ["s0", "s1"]⟩ := by
  refine cutOver_of_run 5 _ half_built rfl half_start ?_ (by decide +kernel)
  intro table t ht
  obtain ⟨rfl, rfl⟩ := half_table ht
  decide +kernel

def freshOnline : Migration Int := ⟨ordersMigrator freshTable, intEngine, fun _ => intValue⟩

theorem fresh_start : freshOnline.Start firstWorld := by
  refine ⟨by decide +kernel, fun _ _ => rfl, ?_, ?_⟩
  · intro table t ht shard
    obtain ⟨rfl, rfl⟩ := orders_table ht
    simp only [firstWorld, orderWorld, Engine.Distinct]
    split_ifs
    · exact List.nodup_singleton _
    · exact List.nodup_nil
  · intro table t ht shard row hrow
    obtain ⟨rfl, rfl⟩ := orders_table ht
    obtain ⟨rfl, rfl⟩ := mem_firstWorld hrow
    have hpos : freshOnline.E.rowPos twoTable.pk (orderRow 1 "new") = 1 := by decide +kernel
    refine ⟨⟨⟨_, rfl⟩, ?_⟩, ?_⟩
    · rw [hpos]
      rfl
    · rw [hpos]
      decide +kernel

theorem fresh_tables : (ordersMigrator freshTable).Tables "orders" twoTable freshTable := ⟨rfl, rfl, rfl, rfl⟩

theorem scatter_reads_owned_fresh : ∃ w₁, freshOnline.CutOver firstWorld w₁ noFaults
      ⟨⟨[twoTable]⟩, ["s0", "s1", "s2", "s3", "s4"]⟩ ∧
    ∀ writes, (∀ wr ∈ writes, freshOnline.Writes "orders" twoTable wr) →
      freshOnline.ReadsOwned (freshOnline.switched w₁ noFaults ⟨⟨[twoTable]⟩, ["s0", "s1", "s2", "s3", "s4"]⟩).router
        ((freshOnline.switched w₁ noFaults ⟨⟨[twoTable]⟩, ["s0", "s1", "s2", "s3", "s4"]⟩).router.applyAll intEngine
          "orders" twoTable
          (freshOnline.switched w₁ noFaults ⟨⟨[twoTable]⟩, ["s0", "s1", "s2", "s3", "s4"]⟩).world writes)
        "orders" freshTable := by
  have hcount : ∀ table t, freshOnline.m.old.table table = .ok t →
      ((t.shardNames.flatMap (firstWorld.data · table)).length : Int) ≤ i64Max := by
    intro table t ht
    obtain ⟨rfl, rfl⟩ := orders_table ht
    decide +kernel
  obtain ⟨w₁, hcut⟩ := cutOver_of_run (M := freshOnline) 21 ⟨⟨[twoTable]⟩, ["s0", "s1", "s2", "s3", "s4"]⟩
    fresh_built rfl fresh_start hcount (by decide +kernel)
  refine ⟨w₁, hcut, (Migration.scatter_reads_owned_iff hcut fresh_tables ?_ (byText_of_int rfl)).2 ?_⟩
  · intro shard row hrow
    obtain ⟨rfl, rfl⟩ := mem_firstWorld hrow
    exact ⟨intValue 1, rfl, by decide⟩
  · intro shard row hrow
    obtain ⟨rfl, rfl⟩ := mem_firstWorld hrow
    exact .inr (by decide)

theorem half_tables : halfMigrator.Tables "orders" narrowTable halfTable := ⟨rfl, rfl, rfl, rfl⟩

theorem half_present (shard : String) (row : Row) (h : row ∈ startWorld.data shard "orders") :
    Present narrowTable.pk row := by
  obtain ⟨rfl, rfl⟩ := mem_startWorld h
  exact ⟨intValue 70, rfl, by decide⟩

/-- Order 70 moves from `s0` to `s1`, and both shards stay: once it is deleted on `s1`, a scatter
finds the copy on `s0`. -/
theorem deleted_order_read_back : ¬ ∀ (M : Migration Int) (w w₁ : World) (faults : Faults) (router : ShardRouter)
    (table : String) (t t' : ShardTable), M.CutOver w w₁ faults router → M.m.Tables table t t' →
    (∀ shard, ∀ row ∈ w.data shard table, Present t.pk row) → M.ByText →
    ∀ writes, (∀ wr ∈ writes, M.Writes table t wr) →
      M.ReadsOwned (M.switched w₁ faults router).router
        ((M.switched w₁ faults router).router.applyAll M.E table t (M.switched w₁ faults router).world writes)
        table t' := by
  intro h
  obtain ⟨w₁, hcut⟩ := half_cutOver
  have hreads := h halfOnline startWorld w₁ noFaults _ "orders" narrowTable halfTable hcut half_tables half_present
    (byText_of_int rfl)
  have hvacates := hcut.vacates half_tables half_present (byText_of_int rfl) hreads
  have hmem : orderRow 70 "new" ∈ startWorld.data "s0" "orders" := by simp [startWorld, orderWorld]
  rcases hvacates "s0" (orderRow 70 "new") hmem with hdest | hgone
  · have howner : halfOnline.dest "orders" (halfOnline.E.rowPos narrowTable.pk (orderRow 70 "new")) = .ok "s1" := by
      decide +kernel
    rw [howner] at hdest
    exact absurd (Except.ok.inj hdest) (by decide)
  · exact hgone (by decide)

end Ecat.Shard
