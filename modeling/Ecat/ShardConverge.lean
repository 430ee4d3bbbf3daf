import Ecat.ShardBalance

/-! Online migrations: when no write reaches a row that a move has already read, the migration ends
in a state that verify accepts, whatever the order of writes, mirrored writes and backfill. -/

namespace Ecat.Shard

open Json

theorem preflightMoves_congr {m : ShardMigrator} {w w' : World} (h : w'.columns = w.columns)
    (inspected : List (String × String)) (moves : List ShardMove) :
    preflightMoves m w' inspected moves = preflightMoves m w inspected moves := by
  induction moves generalizing inspected with
  | nil => rfl
  | cons mv moves ih =>
    have hsource : ∀ d, sourceColumns w' d mv.fromShard mv.table = sourceColumns w d mv.fromShard mv.table := by
      intro d
      simp only [sourceColumns, h]
    simp only [preflightMoves, hsource, ih]

namespace Migration

variable {K : Type} [LinearOrder K]

/-- Before a migration: every row is on the shard that the old catalog has for it, and the plan has
no jobs. -/
structure Start (M : Migration K) (w : World) : Prop where
  preflight : M.m.preflightSchema w = .ok ()
  jobs : ∀ mv ∈ M.m.plan.moves, w.jobs (moveId mv) = none
  keyed : ∀ table t, M.m.old.table table = .ok t → ∀ shard, M.E.Distinct t.pk (w.data shard table)
  rows : ∀ table t, M.m.old.table table = .ok t → ∀ shard, ∀ row ∈ w.data shard table,
    M.Fits table t row ∧ M.home table (M.E.rowPos t.pk row) = .ok shard

def AllSound (M : Migration K) (w : World) : Prop :=
  ∀ table t, M.m.old.table table = .ok t → ∀ shard, ∀ row ∈ w.data shard table,
    M.Sound table t (M.E.rowPos t.pk row)

def Quiet (M : Migration K) (b : Backfill) (table : String) (t : ShardTable) (row : Row) : Prop :=
  M.Sound table t (M.E.rowPos t.pk row) ∧ M.Unscanned b table t row

variable {M : Migration K} {w : World} {s s' : Online} {finished : List ShardMove}

theorem Start.inv (h : M.Start w) (hsound : M.AllSound w) : M.Inv ⟨.begin M.m, w, []⟩ [] := by
  refine ⟨by simp [Backfill.begin, Point.current], ?_, h.jobs, by simp, trivial⟩
  intro table t ht
  refine ⟨h.keyed table t ht, ?_, by simp, ?_⟩
  · intro shard row hrow
    obtain ⟨hfits, hhome⟩ := h.rows table t ht shard row hrow
    exact ⟨hfits, hsound table t ht shard row hrow, .inl hhome⟩
  · intro p s d row hs hd hne hlatest
    obtain ⟨hrow, rfl⟩ := look_pos hlatest
    have hhome := (h.rows table t ht d row hrow).2
    exact absurd (Except.ok.inj (hs.symm.trans hhome)) hne

theorem Inv.onlineStep (h : M.Inv s finished) (hready : M.m.Ready) (hstep : M.OnlineStep M.Quiet s s') :
    (∃ finished', M.Inv s' finished') ∧ s'.world.columns = s.world.columns := by
  cases hstep with
  | work hstep => exact h.work hready hstep
  | write ht hfits hs hd hquiet => exact ⟨⟨finished, h.write hready ht hfits hquiet.1 hs hd hquiet.2⟩, rfl⟩
  | mirror ht => exact ⟨⟨finished, h.mirror hready ht⟩, rfl⟩

theorem Inv.onlineRun (h : M.Inv s finished) (hready : M.m.Ready)
    (hrun : Relation.ReflTransGen (M.OnlineStep M.Quiet) s s') :
    (∃ finished', M.Inv s' finished') ∧ s'.world.columns = s.world.columns := by
  induction hrun with
  | refl => exact ⟨⟨finished, h⟩, rfl⟩
  | tail _ hstep ih =>
    obtain ⟨⟨finished', hinv⟩, hcolumns⟩ := ih
    obtain ⟨hnext, hcolumns'⟩ := hinv.onlineStep hready hstep
    exact ⟨hnext, hcolumns'.trans hcolumns⟩

theorem Inv.verifies (h : M.Inv s finished) (hready : M.m.Ready) (hpreflight : M.m.preflightSchema s.world = .ok ())
    (hdone : s.backfill.finished) (hmirrors : s.mirrors = []) : (M.m.verify M.E s.world).1 = .ok () := by
  obtain ⟨b, w, q⟩ := s
  obtain rfl : q = [] := hmirrors
  exact verify_ok hpreflight hready.chunk hready.ids fun g hg => h.balanced hready hdone hg

/-- Without a job table no move starts. -/
theorem begun_of_no_schema (hschema : ensureSchema M.m.state ≠ .ok ())
    (hrun : Relation.ReflTransGen (M.OnlineStep M.Quiet) ⟨.begin M.m, w, []⟩ s) :
    s.backfill = .begin M.m := by
  induction hrun with
  | refl => rfl
  | tail _ hstep ih =>
    cases hstep with
    | work hstep =>
      subst ih
      obtain ⟨hrunning, hstep⟩ := hstep
      refine absurd ?_ hschema
      cases hmoves : M.m.plan.moves with
      | nil => exact absurd ⟨rfl, hmoves⟩ hrunning
      | cons mv moves =>
        simp only [ShardMigrator.step, Backfill.begin, hmoves] at hstep
        obtain ⟨_, hstart, -⟩ := bind_eq_ok.1 hstep
        exact schema_of_startMove hstart
    | write => exact ih
    | mirror => exact ih

end Migration

/-! ### Runs on a table of two shards -/

section

variable {K : Type} [LinearOrder K] {m : ShardMigrator} {E : Engine K} {n : Nat} {s s' : Backfill × World}

def ShardMigrator.advance (m : ShardMigrator) (E : Engine K) :
    Nat → Backfill × World → Except ShardError (Backfill × World)
  | 0, s => .ok s
  | n + 1, s => do m.advance E n (← m.step E s.1 s.2)

theorem advance_run (h : m.advance E n s = .ok s') : Relation.ReflTransGen (m.Steps E) s s' := by
  induction n generalizing s with
  | zero =>
    obtain rfl := Except.ok.inj h
    exact .refl
  | succ n ih =>
    obtain ⟨mid, hstep, hrest⟩ := bind_eq_ok.1 h
    by_cases hdone : s.1.finished
    · obtain ⟨⟨point, moves, report⟩, w⟩ := s
      obtain ⟨rfl, rfl⟩ := hdone
      obtain rfl := Except.ok.inj hstep
      exact ih hrest
    · exact .head ⟨hdone, hstep⟩ (ih hrest)

theorem online_of_backfill {M : Migration K} {allowed : Backfill → String → ShardTable → Row → Prop} {b b' : Backfill}
    {w w' : World} (q : List Mirror) (h : Relation.ReflTransGen (M.m.Steps M.E) (b, w) (b', w')) :
    Relation.ReflTransGen (M.OnlineStep allowed) ⟨b, w, q⟩ ⟨b', w', q⟩ := by
  generalize hs' : (b', w') = s' at h
  induction h generalizing b' w' with
  | refl =>
    obtain ⟨rfl, rfl⟩ := Prod.mk.inj hs'
    exact .refl
  | tail _ hstep ih =>
    subst hs'
    exact (ih rfl).tail (.work hstep)

end

def readInt (text : String) : Int :=
  match text.toList with
  | '-' :: cs => -Nat.ofDigitChars 10 cs 0
  | cs => Nat.ofDigitChars 10 cs 0

def intEngine : Engine Int :=
  ⟨fun v => readInt v.toText, fun text =>
    if h : InI64 (readInt text) then .ok (.ofI64 (readInt text) h) else .error "number out of range"⟩

def intValue (n : Int) : Value := if h : InI64 n then .ofI64 n h else .null

def orderRow (id : Int) (note : String) : Row := ⟨["id", "note"], [intValue id, .string note]⟩

def orderWorld (rows : List Row) : World :=
  ⟨fun shard table => if shard = "s0" ∧ table = "orders" then rows else [],
    fun _ _ _ => [⟨["name", "data_type"], [.string "id", .string "INTEGER"]⟩], fun _ => none⟩

theorem fits_hundred : ∀ b ∈ [(100 : Int)], InI64 b := by decide

def narrowTable : ShardTable := ordersTable (.range [100] fits_hundred) ["s0", "s1"]

def halfOnline : Migration Int := ⟨halfMigrator, intEngine, fun _ => intValue⟩

theorem half_built : halfMigrator.Built := by
  refine ⟨⟨by decide +kernel, by decide +kernel, ⟨fun _ => Iff.rfl, by decide⟩, rfl⟩, ?_, ?_, ?_, rfl, by decide⟩
  · exact List.nodup_singleton _
  · intro mv hmv
    rw [List.mem_singleton.1 hmv]
    exact ⟨.sqlite, rfl⟩
  · intro mv hmv
    rw [List.mem_singleton.1 hmv]
    exact ⟨.sqlite, rfl, by decide⟩

theorem half_table {table : String} {t : ShardTable} (h : narrowOrders.table table = .ok t) :
    table = "orders" ∧ t = narrowTable := by
  obtain ⟨hmem, rfl⟩ := (table_ok_iff (by decide +kernel)).1 h
  rw [List.mem_singleton.1 hmem]
  exact ⟨rfl, rfl⟩

theorem half_fits {note : String} {id : Int} (h : intEngine.rowPos "id" (orderRow id note) = id) :
    halfOnline.Fits "orders" narrowTable (orderRow id note) := by
  have hget : (orderRow id note).get "id" = some (intValue id) := rfl
  refine ⟨⟨_, hget⟩, ?_⟩
  show (orderRow id note).get "id" = some (intValue (intEngine.rowPos "id" (orderRow id note)))
  rw [h, hget]

theorem half_sound (id : Int) (hs : halfOnline.home "orders" id = .ok "s0")
    (hd : halfOnline.dest "orders" id = .ok "s1") : halfOnline.Sound "orders" narrowTable id := by
  refine ⟨⟨_, hs⟩, ⟨_, hd⟩, ?_⟩
  rintro ⟨mv, hmv, -, hnone⟩
  rw [List.mem_singleton.1 hmv] at hnone
  cases hnone

def startWorld : World := orderWorld [orderRow 70 "new"]

theorem mem_startWorld {shard : String} {row : Row} (h : row ∈ startWorld.data shard "orders") :
    shard = "s0" ∧ row = orderRow 70 "new" := by
  simp only [startWorld, orderWorld] at h
  split_ifs at h with hplace
  · exact ⟨hplace.1, List.mem_singleton.1 h⟩
  · cases h

theorem half_start : halfOnline.Start startWorld := by
  refine ⟨by decide +kernel, fun _ _ => rfl, ?_, ?_⟩
  · intro table t ht shard
    obtain ⟨rfl, rfl⟩ := half_table ht
    simp only [startWorld, orderWorld, Engine.Distinct]
    split_ifs
    · exact List.nodup_singleton _
    · exact List.nodup_nil
  · intro table t ht shard row hrow
    obtain ⟨rfl, rfl⟩ := half_table ht
    obtain ⟨rfl, rfl⟩ := mem_startWorld hrow
    exact ⟨half_fits (by decide +kernel), by decide +kernel⟩

theorem half_allSound : halfOnline.AllSound startWorld := by
  intro table t ht shard row hrow
  obtain ⟨rfl, rfl⟩ := half_table ht
  obtain ⟨rfl, rfl⟩ := mem_startWorld hrow
  have hpos : halfOnline.E.rowPos narrowTable.pk (orderRow 70 "new") = 70 := by decide +kernel
  rw [hpos]
  exact half_sound 70 (by decide +kernel) (by decide +kernel)

def writtenBoth (w : World) (row : Row) : World :=
  halfOnline.write (halfOnline.write w narrowTable "s0" "orders" row) narrowTable "s1" "orders" row

theorem half_written {allowed : Backfill → String → ShardTable → Row → Prop} (b : Backfill) (w : World) (id : Int)
    (note : String) (hpos : intEngine.rowPos "id" (orderRow id note) = id) (hs : halfOnline.home "orders" id = .ok "s0")
    (hd : halfOnline.dest "orders" id = .ok "s1") (hallowed : allowed b "orders" narrowTable (orderRow id note)) :
    Relation.ReflTransGen (halfOnline.OnlineStep allowed) ⟨b, w, []⟩ ⟨b, writtenBoth w (orderRow id note), []⟩ := by
  have hpos : halfOnline.E.rowPos narrowTable.pk (orderRow id note) = id := hpos
  have hwrite : halfOnline.OnlineStep allowed ⟨b, w, []⟩
      ⟨b, halfOnline.write w narrowTable "s0" "orders" (orderRow id note), [⟨"s1", "orders", orderRow id note⟩]⟩ :=
    .write (t := narrowTable) rfl (half_fits hpos) (hpos.symm ▸ hs) (hpos.symm ▸ hd) hallowed
  exact .tail (.single hwrite) (.mirror rfl)

def Backfill.ended (b : Backfill) : Bool :=
  match b.point, b.moves with
  | .next, [] => true
  | _, _ => false

theorem finished_of_ended {b : Backfill} (h : b.ended = true) : b.finished := by
  obtain ⟨point, moves, report⟩ := b
  cases point with
  | next =>
    cases moves with
    | nil => exact ⟨rfl, rfl⟩
    | cons mv moves => cases h
  | scan => cases h
  | copy => cases h

/-- The scan of the half of the orders goes on before the position. -/
def Backfill.scansBefore (b : Backfill) (p : Int) : Bool :=
  match b.point with
  | .scan mv _ cursor => mv = halfMove && cursor.all (intEngine.pos · < p)
  | _ => false

theorem ahead_of_scansBefore {b : Backfill} {p : Int} (h : b.scansBefore p = true) :
    halfOnline.Ahead narrowTable.pk halfMove p b.point := by
  obtain ⟨point, moves, report⟩ := b
  cases point with
  | scan mv job cursor =>
    simp only [Backfill.scansBefore, Bool.and_eq_true, decide_eq_true_eq] at h
    obtain ⟨rfl, hbefore⟩ := h
    refine ⟨rfl, fun v hv => ?_⟩
    rw [hv, Option.all_some, decide_eq_true_eq] at hbefore
    exact hbefore
  | next => cases h
  | copy => cases h

end Ecat.Shard
