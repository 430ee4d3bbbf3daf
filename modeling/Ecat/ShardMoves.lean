import Ecat.ShardPlanExact
import Ecat.ShardMigrate

/-! What the moves of a plan say about single keys: a covered key is routed to the move's target,
a key whose owner changes is covered, and the moves from one shard share no key. -/

namespace Ecat.Shard

open Json

/-- A move covers a key, as the new catalog has it. -/
def ShardMigrator.covers (m : ShardMigrator) (mv : ShardMove) (key : Value) : Bool :=
  match mv.keyRange with
  | some r => key.asI64.any r.covers
  | none => m.new.owner mv.table key = .ok mv.toShard

def ShardMigrator.Copied (m : ShardMigrator) (table : String) : Prop :=
  ∃ mv ∈ m.plan.moves, mv.table = table ∧ mv.keyRange = none

/-- A migrator between valid catalogs of the same tables, with the plan between them. -/
structure ShardMigrator.Planned (m : ShardMigrator) : Prop where
  old : m.old.validate = .ok ()
  new : m.new.validate = .ok ()
  same : SameTables m.old m.new
  plan : ShardPlan.diff m.old m.new = .ok m.plan

/-- A table in both catalogs. -/
structure ShardMigrator.Tables (m : ShardMigrator) (name : String) (t t' : ShardTable) : Prop where
  old : m.old.table name = .ok t
  new : m.new.table name = .ok t'
  key : t'.key = t.key
  pk : t'.pk = t.pk

namespace ShardMigrator

variable {m : ShardMigrator} {name : String} {t t' : ShardTable} {mv mv' : ShardMove} {key : Value}
  {a b : String}

theorem Planned.tables (h : m.Planned) (ht : m.old.table name = .ok t) : ∃ t', m.Tables name t t' := by
  obtain ⟨hmem, hname⟩ := (table_ok_iff h.old).1 ht
  have hin : name ∈ m.new.tables.map (·.name) := (h.same.names name).1 (List.mem_map.2 ⟨t, hmem, hname⟩)
  obtain ⟨t', hmem', hname'⟩ := List.mem_map.1 hin
  obtain ⟨hkey, hpk⟩ := h.same.columns t hmem t' hmem' (hname.trans hname'.symm)
  exact ⟨t', ht, (table_ok_iff h.new).2 ⟨hmem', hname'⟩, hkey.symm, hpk.symm⟩

theorem Planned.tables_of_move (h : m.Planned) (hmv : mv ∈ m.plan.moves) : ∃ t t', m.Tables mv.table t t' := by
  obtain ⟨plan, hplan, hnames, -⟩ := diff_spec h.old h.new h.same
  rw [h.plan] at hplan
  obtain rfl := Except.ok.inj hplan
  obtain ⟨t, hmem, hname⟩ := List.mem_map.1 ((h.same.names _).2 (hnames mv hmv))
  obtain ⟨t', ht⟩ := h.tables ((table_ok_iff h.old).2 ⟨hmem, hname⟩)
  exact ⟨t, t', ht⟩

theorem Planned.exact (h : m.Planned) (ht : m.Tables name t t') :
    diffTable t t' = .ok (m.plan.movesOf name) ∧ Exact t t' (m.plan.movesOf name) := by
  obtain ⟨hmem, rfl⟩ := (table_ok_iff h.old).1 ht.old
  obtain ⟨hmem', hname⟩ := (table_ok_iff h.new).1 ht.new
  obtain ⟨plan, hplan, -, hspec⟩ := diff_spec h.old h.new h.same
  rw [h.plan] at hplan
  obtain rfl := Except.ok.inj hplan
  exact hspec t hmem t' hmem' hname.symm

theorem Planned.valid (h : m.Planned) (ht : m.Tables name t t') : t.Valid ∧ t'.Valid :=
  ⟨validate_valid h.old ((table_ok_iff h.old).1 ht.old).1, validate_valid h.new ((table_ok_iff h.new).1 ht.new).1⟩

theorem Tables.owner (h : m.Planned) (ht : m.Tables name t t') (key : Value) :
    m.old.owner name key = t.owner key ∧ m.new.owner name key = t'.owner key := by
  obtain ⟨-, rfl⟩ := (table_ok_iff h.old).1 ht.old
  obtain ⟨-, hname⟩ := (table_ok_iff h.new).1 ht.new
  refine ⟨owner_catalog ht.old key, ?_⟩
  rw [← hname]
  exact owner_catalog (hname ▸ ht.new) key

theorem covers_eq (h : m.Planned) (ht : m.Tables mv.table t t') : m.covers mv key = mv.covers t' key := by
  rw [ShardMigrator.covers, ShardMove.covers]
  cases mv.keyRange with
  | some r => rfl
  | none => simp only [(ht.owner h key).2]

theorem mem_movesOf : mv ∈ m.plan.movesOf name ↔ mv ∈ m.plan.moves ∧ mv.table = name := by
  rw [ShardPlan.movesOf, List.mem_filter, decide_eq_true_eq]

theorem Planned.kinds (h : m.Planned) (ht : m.Tables name t t') :
    (t.IsRange ∧ t'.IsRange ∧ ∀ mv ∈ m.plan.movesOf name, ∃ r, mv.keyRange = some r) ∨
      (m.plan.movesOf name = [] ∧ ∀ key, t.owner key = t'.owner key) ∨
      m.plan.movesOf name = fullCopyMoves t t' := by
  obtain ⟨hvalid, hvalid'⟩ := h.valid ht
  obtain ⟨hdiff, -⟩ := h.exact ht
  have hcolumns : ¬ (t.key ≠ t'.key ∨ t.pk ≠ t'.pk) := by simp [ht.key, ht.pk]
  rw [diffTable, if_neg hcolumns] at hdiff
  cases halg : t.algorithm with
  | hashMod n =>
    cases halg' : t'.algorithm with
    | hashMod n' =>
      rw [halg, halg'] at hdiff
      simp only at hdiff
      split_ifs at hdiff with hnames
      · refine .inr (.inl ⟨(Except.ok.inj hdiff).symm, ?_⟩)
        exact owner_sameShardNames hvalid hvalid' halg halg' (by simpa [sameShardNames] using hnames)
      · exact .inr (.inr (Except.ok.inj hdiff).symm)
    | range bs fits =>
      rw [halg, halg'] at hdiff
      exact .inr (.inr (Except.ok.inj hdiff).symm)
  | range bs fits =>
    cases halg' : t'.algorithm with
    | hashMod n' =>
      rw [halg, halg'] at hdiff
      exact .inr (.inr (Except.ok.inj hdiff).symm)
    | range bs' fits' =>
      have hrange : t.IsRange := ⟨bs, fits, halg⟩
      have hrange' : t'.IsRange := ⟨bs', fits', halg'⟩
      obtain ⟨moves, swept, hmoves, hswept, -⟩ := rangeMoves_spec ⟨hvalid, hrange⟩ ⟨hvalid', hrange'⟩
      rw [halg, halg'] at hdiff
      simp only [hmoves] at hdiff
      obtain rfl := Except.ok.inj hdiff
      refine .inl ⟨hrange, hrange', ?_⟩
      intro mv hmv
      obtain ⟨-, r, hr, -⟩ := hswept.ranged mv hmv
      exact ⟨r, hr⟩

theorem mem_fullCopyMoves : mv ∈ fullCopyMoves t t' ↔
    ∃ source ∈ t.shardNames, ∃ target ∈ t'.shardNames, mv = ⟨t.name, source, target, none⟩ := by
  simp only [fullCopyMoves, List.mem_flatMap, List.mem_map]
  constructor
  · rintro ⟨source, hsource, target, htarget, rfl⟩
    exact ⟨source, hsource, target, htarget, rfl⟩
  · rintro ⟨source, hsource, target, htarget, rfl⟩
    exact ⟨source, hsource, target, htarget, rfl⟩

theorem Planned.fullCopy (h : m.Planned) (ht : m.Tables name t t') (hcopied : m.Copied name) :
    m.plan.movesOf name = fullCopyMoves t t' := by
  obtain ⟨mv, hmv, htable, hnone⟩ := hcopied
  have hin : mv ∈ m.plan.movesOf name := mem_movesOf.2 ⟨hmv, htable⟩
  rcases h.kinds ht with ⟨-, -, hranged⟩ | ⟨hnil, -⟩ | hfull
  · obtain ⟨r, hr⟩ := hranged mv hin
    rw [hnone] at hr
    cases hr
  · rw [hnil] at hin
    cases hin
  · exact hfull

theorem Planned.copied_mem (h : m.Planned) (ht : m.Tables name t t') (hcopied : m.Copied name)
    (ha : a ∈ t.shardNames) (hb : b ∈ t'.shardNames) : ⟨name, a, b, none⟩ ∈ m.plan.moves := by
  obtain ⟨-, rfl⟩ := (table_ok_iff h.old).1 ht.old
  have hin : ⟨t.name, a, b, none⟩ ∈ m.plan.movesOf t.name := by
    rw [h.fullCopy ht hcopied]
    exact mem_fullCopyMoves.2 ⟨a, ha, b, hb, rfl⟩
  exact (mem_movesOf.1 hin).1

theorem Planned.of_copy (h : m.Planned) (ht : m.Tables mv.table t t') (hmv : mv ∈ m.plan.moves)
    (hnone : mv.keyRange = none) : mv.fromShard ∈ t.shardNames ∧ mv.toShard ∈ t'.shardNames := by
  have hin : mv ∈ m.plan.movesOf mv.table := mem_movesOf.2 ⟨hmv, rfl⟩
  rw [h.fullCopy ht ⟨mv, hmv, rfl, hnone⟩] at hin
  obtain ⟨source, hsource, target, htarget, he⟩ := mem_fullCopyMoves.1 hin
  rw [he]
  exact ⟨hsource, htarget⟩

theorem Planned.of_range (h : m.Planned) (ht : m.Tables mv.table t t') (hmv : mv ∈ m.plan.moves) {r : KeyRange}
    (hr : mv.keyRange = some r) : t.IsRange ∧ t'.IsRange := by
  have hin : mv ∈ m.plan.movesOf mv.table := mem_movesOf.2 ⟨hmv, rfl⟩
  obtain ⟨hrange, hrange', -⟩ | ⟨hnil, -⟩ | hfull := h.kinds ht
  · exact ⟨hrange, hrange'⟩
  · rw [hnil] at hin
    cases hin
  · rw [hfull] at hin
    obtain ⟨source, -, target, -, he⟩ := mem_fullCopyMoves.1 hin
    rw [he] at hr
    cases hr

theorem Planned.complete (h : m.Planned) (ha : m.old.owner name key = .ok a)
    (hb : m.new.owner name key = .ok b) (hab : a ≠ b) :
    ∃ mv ∈ m.plan.moves, mv.table = name ∧ mv.fromShard = a ∧ mv.toShard = b ∧ m.covers mv key = true := by
  obtain ⟨t, ht, -⟩ := bind_eq_ok.1 ha
  obtain ⟨t', ht⟩ := h.tables ht
  rw [(ht.owner h key).1] at ha
  rw [(ht.owner h key).2] at hb
  obtain ⟨mv, hmv, hsource, htarget, hcovers⟩ := (h.exact ht).2.complete key a b ha hb hab
  obtain ⟨hmem, rfl⟩ := mem_movesOf.1 hmv
  exact ⟨mv, hmem, rfl, hsource, htarget, by rw [covers_eq h ht]; exact hcovers⟩

theorem integer_of_owner (hrange : t.IsRange) (ha : t.owner key = .ok a) : ∃ k, key.asI64 = some k := by
  obtain ⟨i, hi, -⟩ := owner_ok_iff.1 ha
  obtain ⟨-, -, ⟨n, hash, halg, -, -⟩ | ⟨-, -, k, -, hk, -⟩⟩ := shardFor_cases hi
  · exact absurd hrange (isRange_hash halg)
  · exact ⟨k, hk⟩

theorem exact_unique {moves : List ShardMove} (h : Exact t t' moves) (hrange : t.IsRange)
    (hrange' : t'.IsRange) (hmv : mv ∈ moves) (hmv' : mv' ∈ moves) {k : Int} (hk : key.asI64 = some k)
    (hcovers : mv.covers t' key = true) (hcovers' : mv'.covers t' key = true) : mv = mv' := by
  by_contra hne
  have hsymm : Std.Symm fun mv mv' : ShardMove => ∀ key k, key.asI64 = some k →
      ¬ (mv.covers t' key = true ∧ mv'.covers t' key = true) := ⟨fun _ _ h key k hk hboth => h key k hk hboth.symm⟩
  exact (h.disjoint hrange hrange').forall hmv hmv' hne key k hk ⟨hcovers, hcovers'⟩

theorem Planned.routed (h : m.Planned) (hmv : mv ∈ m.plan.moves) (ha : m.old.owner mv.table key = .ok a)
    (hcovers : m.covers mv key = true) : m.new.owner mv.table key = .ok mv.toShard ∧
      (mv.keyRange ≠ none → mv.fromShard = a ∧ a ≠ mv.toShard) := by
  obtain ⟨t, t', ht⟩ := h.tables_of_move hmv
  have hin : mv ∈ m.plan.movesOf mv.table := mem_movesOf.2 ⟨hmv, rfl⟩
  cases hkind : mv.keyRange with
  | none =>
    rw [ShardMigrator.covers, hkind] at hcovers
    exact ⟨of_decide_eq_true hcovers, fun hne => absurd rfl hne⟩
  | some r =>
    rw [(ht.owner h key).1] at ha
    rw [(ht.owner h key).2]
    rw [covers_eq h ht] at hcovers
    obtain ⟨hrange, hrange'⟩ := h.of_range ht hmv hkind
    obtain ⟨k, hk⟩ := integer_of_owner hrange ha
    have hexact := (h.exact ht).2
    have hne : t.owner key ≠ t'.owner key := by
      intro heq
      have hzero := List.countP_eq_zero.1 (hexact.never hrange hrange' key k hk heq) mv hin
      exact hzero hcovers
    obtain ⟨hvalid, hvalid'⟩ := h.valid ht
    obtain ⟨b, hb⟩ := shardAt_ok hvalid' hrange' k
    rw [← owner_eq_shardAt hvalid' hrange' hk] at hb
    have hab : a ≠ b := by
      rintro rfl
      exact hne (ha.trans hb.symm)
    obtain ⟨mv', hmv', hsource, htarget, hcovers'⟩ := hexact.complete key a b ha hb hab
    obtain rfl := exact_unique hexact hrange hrange' hin hmv' hk hcovers hcovers'
    rw [hb, htarget]
    exact ⟨rfl, fun _ => ⟨hsource, hab⟩⟩

theorem Planned.unique (h : m.Planned) (hmv : mv ∈ m.plan.moves) (hmv' : mv' ∈ m.plan.moves)
    (htable : mv'.table = mv.table) (hsource : mv'.fromShard = mv.fromShard)
    (ha : m.old.owner mv.table key = .ok a) (hcovers : m.covers mv key = true)
    (hcovers' : m.covers mv' key = true) : mv = mv' := by
  obtain ⟨t, t', ht⟩ := h.tables_of_move hmv
  have hin : mv ∈ m.plan.movesOf mv.table := mem_movesOf.2 ⟨hmv, rfl⟩
  have hin' : mv' ∈ m.plan.movesOf mv.table := mem_movesOf.2 ⟨hmv', htable⟩
  have hto := (h.routed hmv ha hcovers).1
  have hto' := (h.routed hmv' (htable ▸ ha) hcovers').1
  rw [htable, hto] at hto'
  obtain ⟨hrange, hrange', -⟩ | ⟨hnil, -⟩ | hfull := h.kinds ht
  · rw [(ht.owner h key).1] at ha
    obtain ⟨k, hk⟩ := integer_of_owner hrange ha
    rw [covers_eq h ht] at hcovers
    rw [covers_eq h (htable ▸ ht)] at hcovers'
    exact exact_unique (h.exact ht).2 hrange hrange' hin hin' hk hcovers hcovers'
  · rw [hnil] at hin
    cases hin
  · rw [hfull] at hin hin'
    obtain ⟨source, -, target, -, rfl⟩ := mem_fullCopyMoves.1 hin
    obtain ⟨source', -, target', -, rfl⟩ := mem_fullCopyMoves.1 hin'
    obtain rfl : source' = source := hsource
    obtain rfl : target = target' := Except.ok.inj hto'
    rfl

theorem Planned.dest (h : m.Planned) (hcopied : ¬ m.Copied name) (ha : m.old.owner name key = .ok a) :
    ∃ b, m.new.owner name key = .ok b := by
  obtain ⟨t, ht, -⟩ := bind_eq_ok.1 ha
  obtain ⟨t', ht⟩ := h.tables ht
  rw [(ht.owner h key).1] at ha
  rw [(ht.owner h key).2]
  obtain ⟨hrange, hrange', -⟩ | ⟨-, heq⟩ | hfull := h.kinds ht
  · obtain ⟨k, hk⟩ := integer_of_owner hrange ha
    rw [owner_eq_shardAt (h.valid ht).2 hrange' hk]
    exact shardAt_ok (h.valid ht).2 hrange' k
  · exact ⟨a, by rw [← heq, ha]⟩
  · obtain ⟨hvalid, hvalid'⟩ := h.valid ht
    obtain ⟨source, hsource⟩ := List.exists_mem_of_ne_nil _ hvalid.nonempty
    obtain ⟨target, htarget⟩ := List.exists_mem_of_ne_nil _ hvalid'.nonempty
    have hin : ⟨t.name, source.name, target.name, none⟩ ∈ m.plan.movesOf name := by
      rw [hfull]
      exact mem_fullCopyMoves.2 ⟨_, List.mem_map_of_mem hsource, _, List.mem_map_of_mem htarget, rfl⟩
    obtain ⟨hmv, hname⟩ := mem_movesOf.1 hin
    exact absurd ⟨_, hmv, hname, rfl⟩ hcopied

end ShardMigrator

theorem fits_fifty : ∀ b ∈ [(50 : Int)], InI64 b := by decide

def halfTable : ShardTable := ordersTable (.range [50] fits_fifty) ["s0", "s1"]

def halfOrders : ShardCatalog := ⟨[ordersTable (.range [50] (by decide)) ["s0", "s1"]]⟩

def halfMove : ShardMove := ⟨"orders", "s0", "s1", some ⟨some 50, some 100⟩⟩

def halfMigrator : ShardMigrator :=
  ⟨⟨[halfMove]⟩, [("s0", .sqlite), ("s1", .sqlite)], .sqlite, narrowOrders, halfOrders, 1000⟩

end Ecat.Shard
