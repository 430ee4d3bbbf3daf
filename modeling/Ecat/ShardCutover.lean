import Ecat.ShardMoves

/-! The router and the cutover. The gate, the switch of the catalog and the marking of the jobs
are three passes; a call of each pass may fail, and only the first two come before the switch. -/

namespace Ecat.Shard

open Json

/-! ### The router -/

structure ShardRouter where
  catalog : ShardCatalog
  clients : List String

def validateClients (catalog : ShardCatalog) (clients : List String) : Except ShardError Unit :=
  catalog.tables.forM fun t =>
    match t.shards.find? (fun shard => shard.name ∉ clients) with
    | some shard => .error (.config s!"table `{t.name}` shard `{shard.name}` has no client")
    | none => .ok ()

def ShardRouter.build (catalog : ShardCatalog) (clients : List String) : Except ShardError ShardRouter := do
  catalog.validate
  validateClients catalog clients
  return ⟨catalog, clients⟩

def ShardRouter.reload (r : ShardRouter) (catalog : ShardCatalog) : Except ShardError ShardRouter := do
  catalog.validate
  validateClients catalog r.clients
  return { r with catalog }

/-- The shard a key is bound to; its client has the same name. -/
def ShardRouter.forKeyWithShard (r : ShardRouter) (table : String) (key : Value) : Except ShardError String := do
  let shard ← r.catalog.owner table key
  if shard ∈ r.clients then return shard else .error (.config s!"shard `{shard}` has no client")

/-! ### Cutover and rollback -/

/-- The calls that fail: the check of the columns, the reads of the gate, and for each move the
read and the write that mark its job. -/
structure Faults where
  preflight : Option ShardError
  gate : ShardMove → Option ShardError
  again : ShardMove → Option ShardError
  save : ShardMove → Option ShardError

def faulty {α : Type} (fault : Option ShardError) (answer : Except ShardError α) : Except ShardError α :=
  fault.elim answer .error

def gateMove (m : ShardMigrator) (faults : Faults) (jobs : Jobs) (mv : ShardMove) : Except ShardError Unit := do
  match ← faulty (faults.gate mv) (loadJob m.state jobs (moveId mv)) with
  | none => .error (.config s!"migration job for {mv.table} {mv.fromShard}→{mv.toShard} is missing")
  | some job =>
    if job.phase = .verified ∨ job.phase = .done then .ok ()
    else .error (.config (s!"migration job for {mv.table} {mv.fromShard}→{mv.toShard} is not verified " ++
      s!"(phase `{job.phase.asStr}`)"))

def markJobs (m : ShardMigrator) (faults : Faults) (phase : Phase) :
    List ShardMove → Jobs → Except ShardError Unit × Jobs
  | [], jobs => (.ok (), jobs)
  | mv :: moves, jobs =>
    match faulty (faults.again mv) (loadJob m.state jobs (moveId mv)) with
    | .error e => (.error e, jobs)
    | .ok none => markJobs m faults phase moves jobs
    | .ok (some job) =>
      match faulty (faults.save mv) (saveJob m.state jobs mv { job with phase }) with
      | .error e => (.error e, jobs)
      | .ok jobs => markJobs m faults phase moves jobs

structure Switched where
  result : Except ShardError Unit
  router : ShardRouter
  world : World

def ShardMigrator.reloadAndMark (m : ShardMigrator) (faults : Faults) (phase : Phase) (router : ShardRouter)
    (catalog : ShardCatalog) (w : World) : Switched :=
  match router.reload catalog with
  | .error e => ⟨.error e, router, w⟩
  | .ok router =>
    let marked := markJobs m faults phase m.plan.moves w.jobs
    ⟨marked.1, router, { w with jobs := marked.2 }⟩

def ShardMigrator.cutover (m : ShardMigrator) (faults : Faults) (router : ShardRouter) (catalog : ShardCatalog)
    (w : World) : Switched :=
  match (do
    faulty faults.preflight (m.preflightSchema w)
    m.plan.moves.forM (gateMove m faults w.jobs)) with
  | .error e => ⟨.error e, router, w⟩
  | .ok _ => m.reloadAndMark faults .done router catalog w

def ShardMigrator.rollback (m : ShardMigrator) (faults : Faults) (router : ShardRouter) (w : World) : Switched :=
  m.reloadAndMark faults .rolledBack router m.old w

/-! ### When the catalog is switched -/

theorem faulty_ok_iff {α : Type} {fault : Option ShardError} {answer : Except ShardError α} {a : α} :
    faulty fault answer = .ok a ↔ fault = none ∧ answer = .ok a := by
  cases fault <;> simp [faulty]

def Cleared (job : JobState) : Prop := job.phase = .verified ∨ job.phase = .done

instance (job : JobState) : Decidable (Cleared job) := inferInstanceAs (Decidable (_ ∨ _))

theorem gateMove_ok_iff {m : ShardMigrator} {faults : Faults} {jobs : Jobs} {mv : ShardMove} :
    gateMove m faults jobs mv = .ok () ↔
      faults.gate mv = none ∧ ∃ job, loadJob m.state jobs (moveId mv) = .ok (some job) ∧ Cleared job := by
  rw [gateMove, bind_eq_ok]
  constructor
  · rintro ⟨found, hload, hphase⟩
    obtain ⟨hfault, hload⟩ := faulty_ok_iff.1 hload
    cases found with
    | none => cases hphase
    | some job =>
      refine ⟨hfault, job, hload, ?_⟩
      by_contra hnot
      change (if Cleared job then _ else _) = _ at hphase
      rw [if_neg hnot] at hphase
      cases hphase
  · rintro ⟨hfault, job, hload, hcleared⟩
    exact ⟨some job, faulty_ok_iff.2 ⟨hfault, hload⟩, if_pos hcleared⟩

/-- The state and the calls before the switch let it happen. -/
structure Switches (m : ShardMigrator) (faults : Faults) (router : ShardRouter) (catalog : ShardCatalog)
    (w : World) : Prop where
  answered : faults.preflight = none ∧ ∀ mv ∈ m.plan.moves, faults.gate mv = none
  preflight : m.preflightSchema w = .ok ()
  cleared : ∀ mv ∈ m.plan.moves, ∃ job, loadJob m.state w.jobs (moveId mv) = .ok (some job) ∧ Cleared job
  valid : catalog.validate = .ok ()
  clients : ∀ t ∈ catalog.tables, ∀ shard ∈ t.shards, shard.name ∈ router.clients

theorem validateClients_ok_iff {catalog : ShardCatalog} {clients : List String} :
    validateClients catalog clients = .ok () ↔ ∀ t ∈ catalog.tables, ∀ shard ∈ t.shards, shard.name ∈ clients := by
  rw [validateClients, forM_ok_iff]
  refine forall₂_congr ?_
  intro t ht
  cases hfind : t.shards.find? (fun shard => shard.name ∉ clients) with
  | none => simpa using hfind
  | some shard =>
    have hmem := List.mem_of_find?_eq_some hfind
    have hmissing := List.find?_some hfind
    simp only [decide_not, Bool.not_eq_true', decide_eq_false_iff_not] at hmissing
    simp only [reduceCtorEq, false_iff]
    exact fun h => hmissing (h shard hmem)

theorem reload_ok_iff {router router' : ShardRouter} {catalog : ShardCatalog} :
    router.reload catalog = .ok router' ↔ catalog.validate = .ok () ∧
      (∀ t ∈ catalog.tables, ∀ shard ∈ t.shards, shard.name ∈ router.clients) ∧
      router' = { router with catalog } := by
  rw [ShardRouter.reload, bind_eq_ok, ← validateClients_ok_iff]
  constructor
  · rintro ⟨u, hvalid, hrest⟩
    obtain ⟨u', hclients, hrouter⟩ := bind_eq_ok.1 hrest
    exact ⟨hvalid, hclients, (Except.ok.inj hrouter).symm⟩
  · rintro ⟨hvalid, hclients, rfl⟩
    exact ⟨(), hvalid, bind_eq_ok.2 ⟨(), hclients, rfl⟩⟩

section

variable {m : ShardMigrator} {faults : Faults} {router : ShardRouter} {catalog : ShardCatalog} {w : World}

theorem cutover_switches (h : Switches m faults router catalog w) :
    m.cutover faults router catalog w =
      ⟨(markJobs m faults .done m.plan.moves w.jobs).1, { router with catalog },
        { w with jobs := (markJobs m faults .done m.plan.moves w.jobs).2 }⟩ := by
  have hgate : (do
      faulty faults.preflight (m.preflightSchema w)
      m.plan.moves.forM (gateMove m faults w.jobs)) = .ok () := by
    refine bind_eq_ok.2 ⟨(), faulty_ok_iff.2 ⟨h.answered.1, h.preflight⟩, forM_ok_iff.2 ?_⟩
    intro mv hmv
    exact gateMove_ok_iff.2 ⟨h.answered.2 mv hmv, h.cleared mv hmv⟩
  have hreload := reload_ok_iff.2 ⟨h.valid, h.clients, rfl⟩
  rw [ShardMigrator.cutover, hgate]
  simp only [ShardMigrator.reloadAndMark, hreload]

theorem cutover_refused (h : ¬ Switches m faults router catalog w) :
    ∃ e, m.cutover faults router catalog w = ⟨.error e, router, w⟩ := by
  rw [ShardMigrator.cutover]
  cases hgate : (do
      faulty faults.preflight (m.preflightSchema w)
      m.plan.moves.forM (gateMove m faults w.jobs)) with
  | error e => exact ⟨e, rfl⟩
  | ok u =>
    simp only [ShardMigrator.reloadAndMark]
    cases hreload : router.reload catalog with
    | error e => exact ⟨e, rfl⟩
    | ok router' =>
      obtain ⟨u, hpreflight, hmoves⟩ := bind_eq_ok.1 hgate
      obtain ⟨hanswered, hpreflight⟩ := faulty_ok_iff.1 hpreflight
      have hmoves := fun mv hmv => gateMove_ok_iff.1 (forM_ok_iff.1 hmoves mv hmv)
      obtain ⟨hvalid, hclients, -⟩ := reload_ok_iff.1 hreload
      exact absurd ⟨⟨hanswered, fun mv hmv => (hmoves mv hmv).1⟩, hpreflight,
        fun mv hmv => (hmoves mv hmv).2, hvalid, hclients⟩ h

/-! ### Marking the jobs -/

theorem markJobs_ok_iff {phase : Phase} {moves : List ShardMove} {jobs : Jobs}
    (h : ∀ mv ∈ moves, ∃ job, loadJob m.state jobs (moveId mv) = .ok (some job)) :
    (markJobs m faults phase moves jobs).1 = .ok () ↔
      ∀ mv ∈ moves, faults.again mv = none ∧ faults.save mv = none := by
  induction moves generalizing jobs with
  | nil => simp [markJobs]
  | cons mv moves ih =>
    obtain ⟨job, hload⟩ := h mv (by simp)
    obtain ⟨-, row, -, hdecode⟩ := loadJob_some_iff.1 hload
    have hjob : (job.rows : Int) ≤ m.state.rowsMax := decode_rows hdecode
    have hrows : (({ job with phase } : JobState).rows : Int) ≤ m.state.rowsMax := hjob
    obtain ⟨jobs', hsave, hloads, hother⟩ := saveJob_loads hload hrows
    rw [List.forall_mem_cons, markJobs, hload]
    cases hagain : faults.again mv with
    | some e => simp [faulty]
    | none =>
      simp only [faulty, Option.elim_none, hsave]
      cases hfault : faults.save mv with
      | some e => simp
      | none =>
        simp only [Option.elim_none, true_and]
        refine ih ?_
        intro mv' hmv'
        by_cases hid : moveId mv' = moveId mv
        · exact ⟨_, hid ▸ hloads⟩
        · obtain ⟨job', hload'⟩ := h mv' (by simp [hmv'])
          obtain ⟨hstate, row', hrow', hdecode'⟩ := loadJob_some_iff.1 hload'
          exact ⟨job', loadJob_some_iff.2 ⟨hstate, row', by rw [hother _ hid]; exact hrow', hdecode'⟩⟩

/-! ### The gate -/

/-- The catalog routes the keys of every migrated table as the migrator's own new catalog. -/
def Agrees (m : ShardMigrator) (catalog : ShardCatalog) : Prop :=
  ∀ mv ∈ m.plan.moves, ∀ key, catalog.owner mv.table key = m.new.owner mv.table key

/-- What a cutover has to keep to: success only past the gate and onto the new catalog, and a
failure leaves the router as it was. -/
structure Gated (m : ShardMigrator) (router : ShardRouter) (w : World) (out : Switched) : Prop where
  cleared : out.result = .ok () →
    ∀ mv ∈ m.plan.moves, ∃ job, loadJob m.state w.jobs (moveId mv) = .ok (some job) ∧ Cleared job
  routes : out.result = .ok () →
    ∀ mv ∈ m.plan.moves, ∀ key, out.router.forKeyWithShard mv.table key = m.new.owner mv.table key
  unchanged : ∀ e, out.result = .error e → out.router = router

theorem forKeyWithShard_eq (hvalid : catalog.validate = .ok ())
    (hclients : ∀ t ∈ catalog.tables, ∀ shard ∈ t.shards, shard.name ∈ router.clients) (table : String)
    (key : Value) : ({ router with catalog } : ShardRouter).forKeyWithShard table key = catalog.owner table key := by
  rw [ShardRouter.forKeyWithShard]
  cases howner : catalog.owner table key with
  | error e => rfl
  | ok shard =>
    obtain ⟨t, ht, hshard⟩ := bind_eq_ok.1 howner
    obtain ⟨endpoint, hendpoint, rfl⟩ := List.mem_map.1 (owner_mem hshard)
    have hmem := hclients t ((table_ok_iff hvalid).1 ht).1 endpoint hendpoint
    rw [ok_bind, if_pos hmem]
    rfl

/-- A cutover that fails has only to leave the router as it was. -/
theorem gated_of_error {out : Switched} {e : ShardError} (he : out.result = .error e) :
    Gated m router w out ↔ out.router = router := by
  constructor
  · exact fun h => h.unchanged e he
  · intro hrouter
    refine ⟨?_, ?_, fun _ _ => hrouter⟩
    · intro hok
      cases he.symm.trans hok
    · intro hok
      cases he.symm.trans hok

theorem gated_of_ok {out : Switched} (hswitch : Switches m faults router catalog w) (hok : out.result = .ok ())
    (hrouter : out.router = { router with catalog }) : Gated m router w out ↔ Agrees m catalog := by
  have hroutes : ∀ table key, out.router.forKeyWithShard table key = catalog.owner table key := by
    rw [hrouter]
    exact forKeyWithShard_eq hswitch.valid hswitch.clients
  constructor
  · intro h mv hmv key
    rw [← hroutes]
    exact h.routes hok mv hmv key
  · intro hagrees
    refine ⟨fun _ => hswitch.cleared, ?_, ?_⟩
    · intro _ mv hmv key
      rw [hroutes]
      exact hagrees mv hmv key
    · intro e he
      cases hok.symm.trans he

/-- Exactly when a cutover keeps to its contract: it is refused before the switch, or no call
after the switch fails and the catalog handed in agrees with the migrator's, or a call after the
switch fails and the catalog handed in is the one the router had. -/
theorem cutover_gated_iff (m : ShardMigrator) (faults : Faults) (router : ShardRouter) (catalog : ShardCatalog)
    (w : World) : Gated m router w (m.cutover faults router catalog w) ↔
      ¬ Switches m faults router catalog w ∨
      ((∀ mv ∈ m.plan.moves, faults.again mv = none ∧ faults.save mv = none) ∧ Agrees m catalog) ∨
      ((∃ mv ∈ m.plan.moves, faults.again mv ≠ none ∨ faults.save mv ≠ none) ∧ catalog = router.catalog) := by
  by_cases hswitch : Switches m faults router catalog w
  · have hloads : ∀ mv ∈ m.plan.moves, ∃ job, loadJob m.state w.jobs (moveId mv) = .ok (some job) := by
      intro mv hmv
      obtain ⟨job, hload, -⟩ := hswitch.cleared mv hmv
      exact ⟨job, hload⟩
    have hmark : (markJobs m faults .done m.plan.moves w.jobs).1 = .ok () ↔ _ := markJobs_ok_iff hloads
    rw [cutover_switches hswitch]
    by_cases hlate : ∀ mv ∈ m.plan.moves, faults.again mv = none ∧ faults.save mv = none
    · have hnone : ¬ ∃ mv ∈ m.plan.moves, faults.again mv ≠ none ∨ faults.save mv ≠ none := by
        rintro ⟨mv, hmv, hfault | hfault⟩
        · exact hfault (hlate mv hmv).1
        · exact hfault (hlate mv hmv).2
      rw [gated_of_ok hswitch (hmark.2 hlate) rfl]
      constructor
      · exact fun hagrees => .inr (.inl ⟨hlate, hagrees⟩)
      · rintro (hnot | ⟨-, hagrees⟩ | ⟨hfault, -⟩)
        · exact absurd hswitch hnot
        · exact hagrees
        · exact absurd hfault hnone
    · have herror : ∃ e, (markJobs m faults .done m.plan.moves w.jobs).1 = .error e := by
        cases hresult : (markJobs m faults .done m.plan.moves w.jobs).1 with
        | error e => exact ⟨e, rfl⟩
        | ok u => exact absurd (hmark.1 hresult) hlate
      obtain ⟨e, he⟩ := herror
      have hfault : ∃ mv ∈ m.plan.moves, faults.again mv ≠ none ∨ faults.save mv ≠ none := by
        by_contra hnone
        push Not at hnone
        exact hlate hnone
      rw [gated_of_error he]
      constructor
      · exact fun hrouter => .inr (.inr ⟨hfault, congrArg ShardRouter.catalog hrouter⟩)
      · rintro (hnot | ⟨hnone, -⟩ | ⟨-, rfl⟩)
        · exact absurd hswitch hnot
        · exact absurd hnone hlate
        · rfl
  · obtain ⟨e, he⟩ := cutover_refused hswitch
    rw [he]
    exact iff_of_true ((gated_of_error rfl).2 rfl) (.inl hswitch)

end

theorem zero_inI64 : InI64 0 := by decide

def verifiedWorld : World :=
  ⟨fun _ _ => [], fun _ _ _ => [⟨["name", "data_type"], [.string "id", .string "INTEGER"]⟩],
    fun id => if id = moveId halfMove then
      some ⟨.string "verified", .null, .ofI64 0 zero_inI64, .string "0"⟩ else none⟩

def noFaults : Faults := ⟨none, fun _ => none, fun _ => none, fun _ => none⟩

/-- The catalog handed in is not compared with the migrator's: a verified migration is cut over
to the old catalog. -/
theorem cutover_onto_other_catalog : ¬ ∀ (old new catalog : ShardCatalog) (plan : ShardPlan)
    (clients : List (String × Dialect)) (m : ShardMigrator) (router : ShardRouter) (faults : Faults) (w : World),
    ShardPlan.diff old new = .ok plan → ShardMigrator.build plan clients .sqlite old new = .ok m →
    ShardRouter.build old (clients.map (·.1)) = .ok router →
    Gated m router w (m.cutover faults router catalog w) := by
  intro h
  have hgated := h narrowOrders halfOrders narrowOrders ⟨[halfMove]⟩ [("s0", .sqlite), ("s1", .sqlite)]
    halfMigrator ⟨narrowOrders, ["s0", "s1"]⟩ noFaults verifiedWorld rfl rfl rfl
  have hroutes := hgated.routes (by decide +kernel) halfMove (by decide) (.ofI64 70 (by decide))
  exact absurd hroutes (by decide +kernel)

end Ecat.Shard
