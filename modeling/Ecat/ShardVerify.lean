import Ecat.Chunks
import Ecat.ShardScan

/-! `verify`: for each target of the plan, the rows and checksums of the sources, the jobs and the
target. A scan in chunks adds up the same rows whatever the size of the chunks. -/

namespace Ecat.Shard

open Json

structure Stats where
  rows : Nat
  checksum : UInt64
  deriving DecidableEq, Repr

def Stats.zero : Stats := ⟨0, 0⟩

def Stats.add (s s' : Stats) : Stats := ⟨saturatingAdd s.rows s'.rows, s.checksum ^^^ s'.checksum⟩

def hex16 (c : UInt64) : String :=
  let digits := Nat.toDigits 16 c.toNat
  String.ofList (List.replicate (16 - digits.length) '0' ++ digits)

/-! ### Scans that add up -/

def tally (inScope : Row → Except ShardError Bool) : List Row → Stats → Except ShardError Stats
  | [], s => .ok s
  | row :: rows, s => do
    if ← inScope row then tally inScope rows ⟨saturatingAdd s.rows 1, s.checksum ^^^ (← rowChecksum row)⟩
    else tally inScope rows s

/-- The loop of a scan. It is given more rounds than there are rows, which is enough. -/
def scanStats (fetch : Option Value → List Row) (pk : String) (inScope : Row → Except ShardError Bool) :
    Nat → Option Value → Stats → Except ShardError Stats
  | 0, _, _ => .error (.database "scan does not end")
  | rounds + 1, cursor, s =>
    match (fetch cursor).getLast? with
    | none => .ok s
    | some last => do
      let s ← tally inScope (fetch cursor) s
      scanStats fetch pk inScope rounds (some (← rowValue last pk)) s

def rowInMove (m : ShardMigrator) (t : ShardTable) (row : Row) (mv : ShardMove) : Except ShardError Bool :=
  match mv.keyRange with
  | none => m.routesTo mv row
  | some range => do
    match (← rowValue row t.key).asI64 with
    | none => .error (.database s!"range migration key in `{mv.table}` is not an integer")
    | some key => return range.covers key

def rowInAnyScope (m : ShardMigrator) (t : ShardTable) : List ShardMove → Row → Except ShardError Bool
  | [], _ => .ok false
  | mv :: moves, row => do
    if ← rowInMove m t row mv then return true else rowInAnyScope m t moves row

section

variable {K : Type} [LinearOrder K]

def ShardMigrator.scanMoveStats (m : ShardMigrator) (E : Engine K) (w : World) (t : ShardTable) (mv : ShardMove) :
    Except ShardError Stats :=
  scanStats (m.scanChunk E w mv.fromShard t mv.keyRange) t.pk (m.routesTo mv)
    ((w.data mv.fromShard t.name).length + 1) none .zero

def ShardMigrator.scanTargetStats (m : ShardMigrator) (E : Engine K) (w : World) (t : ShardTable) (target : String)
    (moves : List ShardMove) : Except ShardError Stats :=
  scanStats (m.scanChunk E w target t none) t.pk (rowInAnyScope m t moves) ((w.data target t.name).length + 1)
    none .zero

/-! ### Groups -/

def JobState.stats (job : JobState) : Stats := ⟨job.rows, job.checksum⟩

def JobState.settled (job : JobState) : Bool := job.phase = .done || job.phase = .rolledBack

def groupJobs (m : ShardMigrator) (jobs : Jobs) : List ShardMove → Except ShardError (List JobState)
  | [] => .ok []
  | mv :: moves => do
    match ← loadJob m.state jobs (moveId mv) with
    | none => .error (.config (s!"migration job for {mv.table} {mv.fromShard}→{mv.toShard} is missing; " ++
        "run backfill first"))
    | some job => return job :: (← groupJobs m jobs moves)

def ShardMigrator.sourceStats (m : ShardMigrator) (E : Engine K) (w : World) (t : ShardTable) :
    List ShardMove → Stats → Except ShardError Stats
  | [], s => .ok s
  | mv :: moves, s => do
    let _ ← m.client mv.fromShard
    m.sourceStats E w t moves (s.add (← m.scanMoveStats E w t mv))

def markVerified (m : ShardMigrator) : List (ShardMove × JobState) → Jobs → Except ShardError Jobs
  | [], jobs => .ok jobs
  | (mv, job) :: rest, jobs => do
    markVerified m rest (← saveJob m.state jobs mv { job with phase := .verified })

def ShardMigrator.verifyGroup (m : ShardMigrator) (E : Engine K) (w : World) (table target : String)
    (moves : List ShardMove) : Except ShardError Jobs := do
  let t ← m.new.table table
  let jobs ← groupJobs m w.jobs moves
  if jobs.all (·.settled) then return w.jobs
  else
    let job := (jobs.map (·.stats)).foldl .add .zero
    let source ← m.sourceStats E w t moves .zero
    let _ ← m.client target
    let found ← m.scanTargetStats E w t target moves
    if source ≠ job then
      .error (.config (s!"backfill incomplete for table `{table}` target `{target}`: " ++
        s!"source {source.rows}/{hex16 source.checksum}, job {job.rows}/{hex16 job.checksum}"))
    else if source ≠ found then
      .error (.config (s!"verify mismatch for table `{table}` target `{target}`: " ++
        s!"source {source.rows}/{hex16 source.checksum}, target {found.rows}/{hex16 found.checksum}"))
    else markVerified m (moves.zip jobs) w.jobs

def ShardMove.group (mv : ShardMove) : String ×ₗ String := toLex (mv.table, mv.toShard)

def ShardPlan.groups (plan : ShardPlan) : List (String ×ₗ String) :=
  dedupBy (fun a b => a = b) ((plan.moves.map (·.group)).insertionSort (· ≤ ·))

def ShardPlan.movesIn (plan : ShardPlan) (g : String ×ₗ String) : List ShardMove :=
  plan.moves.filter (·.group = g)

def ShardMigrator.verifyGroups (m : ShardMigrator) (E : Engine K) (w : World) :
    List (String ×ₗ String) → Jobs → Except ShardError Unit × Jobs
  | [], jobs => (.ok (), jobs)
  | g :: gs, jobs =>
    match m.verifyGroup E { w with jobs } (ofLex g).1 (ofLex g).2 (m.plan.movesIn g) with
    | .error e => (.error e, jobs)
    | .ok jobs => m.verifyGroups E w gs jobs

def ShardMigrator.verify (m : ShardMigrator) (E : Engine K) (w : World) : Except ShardError Unit × World :=
  match m.preflightSchema w with
  | .error e => (.error e, w)
  | .ok _ =>
    let out := m.verifyGroups E w m.plan.groups w.jobs
    (out.1, { w with jobs := out.2 })

end

/-! ### What a scan adds up -/

def rowHash (row : Row) : UInt64 := fnv1a64 (utf8 (writeCanonical row.toObject))

theorem rowChecksum_eq (row : Row) : rowChecksum row = .ok (rowHash row) := rfl

def statsOf (l : List Row) : Stats := ⟨min l.length u64Max, l.foldr (fun row c => rowHash row ^^^ c) 0⟩

theorem statsOf_perm {l l' : List Row} (h : l.Perm l') : statsOf l = statsOf l' := by
  have hcomm : LeftCommutative fun row c => rowHash row ^^^ c :=
    ⟨fun a b c => by rw [← UInt64.xor_assoc, ← UInt64.xor_assoc, UInt64.xor_comm (rowHash a)]⟩
  rw [statsOf, statsOf, h.length_eq, h.foldr_eq]

theorem statsOf_append (l l' : List Row) : statsOf (l ++ l') = (statsOf l).add (statsOf l') := by
  have hxor : ∀ c, l.foldr (fun row c => rowHash row ^^^ c) c = l.foldr (fun row c => rowHash row ^^^ c) 0 ^^^ c := by
    intro c
    induction l with
    | nil => simp
    | cons row l ih => rw [List.foldr_cons, List.foldr_cons, ih, UInt64.xor_assoc]
  rw [statsOf, statsOf, statsOf, Stats.add, List.foldr_append, hxor, saturatingAdd, List.length_append]
  congr 1
  simp only [u64Max]
  omega

theorem Stats.add_assoc (s s' s'' : Stats) : (s.add s').add s'' = s.add (s'.add s'') := by
  rw [Stats.add, Stats.add, Stats.add, Stats.add, saturatingAdd, saturatingAdd, saturatingAdd, saturatingAdd,
    UInt64.xor_assoc]
  congr 1
  simp only [u64Max]
  omega

theorem Stats.add_rows_le (s s' : Stats) : (s.add s').rows ≤ u64Max := Nat.min_le_right _ _

theorem Stats.add_nil {s : Stats} (hs : s.rows ≤ u64Max) : s.add (statsOf []) = s := by
  have hrows : saturatingAdd s.rows 0 = s.rows := Nat.min_eq_left hs
  rw [Stats.add, statsOf]
  simp [hrows]

theorem tally_row {inScope : Row → Except ShardError Bool} {row : Row} (l : List Row) (s : Stats)
    (hrow : inScope row = .ok true) : tally inScope (row :: l) s = tally inScope l (s.add (statsOf [row])) := by
  have hnext : (⟨saturatingAdd s.rows 1, s.checksum ^^^ rowHash row⟩ : Stats) = s.add (statsOf [row]) := by
    rw [Stats.add, statsOf]
    simp [u64Max]
  rw [tally, hrow, ok_bind, rowChecksum_eq, ← hnext]
  rfl

theorem tally_ok_iff {inScope : Row → Except ShardError Bool} {l : List Row} {s s' : Stats} (hs : s.rows ≤ u64Max) :
    tally inScope l s = .ok s' ↔ (∀ row ∈ l, ∃ b, inScope row = .ok b) ∧
      s' = s.add (statsOf (l.filter fun row => inScope row = .ok true)) := by
  induction l generalizing s with
  | nil =>
    rw [tally, List.filter_nil, Stats.add_nil hs]
    simp [eq_comm]
  | cons row l ih =>
    rw [List.forall_mem_cons]
    cases hrow : inScope row with
    | error e =>
      rw [tally, hrow]
      simp
    | ok b =>
      have hdefined : (∃ b', Except.ok b = (Except.ok b' : Except ShardError Bool)) := ⟨b, rfl⟩
      rw [and_iff_right hdefined]
      cases b with
      | false =>
        rw [tally, hrow, ok_bind, List.filter_cons_of_neg (by simp [hrow])]
        exact ih hs
      | true =>
        rw [tally_row l s hrow, ih (s.add_rows_le _), List.filter_cons_of_pos (by simp [hrow]), Stats.add_assoc,
          ← statsOf_append]
        rfl

theorem tally_append (inScope : Row → Except ShardError Bool) (l l' : List Row) (s : Stats) :
    tally inScope (l ++ l') s = (do tally inScope l' (← tally inScope l s)) := by
  induction l generalizing s with
  | nil => rfl
  | cons row l ih =>
    rw [List.cons_append, tally, tally]
    cases inScope row with
    | error e => rfl
    | ok b =>
      cases b with
      | false => exact ih s
      | true => simp [rowChecksum_eq, ih]

section

variable {K : Type} [LinearOrder K] {E : Engine K} {t : ShardTable} {range : Option KeyRange} {rows : List Row}
  {inScope : Row → Except ShardError Bool} {n : Nat}

theorem scanStats_eq (h : E.Distinct t.pk rows) (hn : 0 < n) (hpk : ∀ row ∈ rows, ∃ v, row.get t.pk = some v)
    {rounds : Nat} {cursor : Option Value} (hrounds : (E.rest t range cursor rows).length < rounds) (s : Stats) :
    scanStats (fun cursor => E.select t range cursor n rows) t.pk inScope rounds cursor s =
      tally inScope (E.rest t range cursor rows) s := by
  induction rounds generalizing cursor s with
  | zero => omega
  | succ rounds ih =>
    rw [scanStats, select_eq]
    have hsplit := (List.take_append_drop n (E.rest t range cursor rows)).symm
    cases hlast : ((E.rest t range cursor rows).take n).getLast? with
    | none =>
      have hempty : E.rest t range cursor rows = [] := by
        have htake := List.getLast?_eq_none_iff.1 hlast
        rw [List.take_eq_nil_iff] at htake
        exact htake.resolve_left (by omega)
      rw [hempty]
      rfl
    | some last =>
      have hmem : last ∈ E.rest t range cursor rows := List.mem_of_mem_take (List.mem_of_getLast? hlast)
      obtain ⟨v, hv⟩ := hpk last (mem_rest.1 hmem).1
      have hvalue : rowValue last t.pk = .ok v := by rw [rowValue, hv]
      have hrest := rest_next h hsplit hlast hv
      have hlen : (E.rest t range (some v) rows).length < rounds := by
        have hpos := List.length_pos_of_mem hmem
        rw [hrest, List.length_drop]
        omega
      simp only [hvalue, ok_bind, ih hlen]
      rw [hrest]
      conv_rhs => rw [hsplit, tally_append]

/-- A scan of a whole table adds up the rows in scope, and fails when the scope of a row does. -/
theorem scan_ok_iff (h : E.Distinct t.pk rows) (hn : 0 < n) (hpk : ∀ row ∈ rows, ∃ v, row.get t.pk = some v)
    {s : Stats} : scanStats (fun cursor => E.select t range cursor n rows) t.pk inScope (rows.length + 1) none .zero =
      .ok s ↔ (∀ row ∈ rows, keyWithin range (row.get t.key) = true → ∃ b, inScope row = .ok b) ∧
        s = statsOf (rows.filter fun row => keyWithin range (row.get t.key) ∧ inScope row = .ok true) := by
  have hpast : ∀ p : K, E.Past none p := fun p v hv => by cases hv
  have hlen : (E.rest t range none rows).length < rows.length + 1 := by
    rw [Engine.rest, List.length_insertionSort]
    exact Nat.lt_succ_of_le (List.length_filter_le _ _)
  have hperm : ((E.rest t range none rows).filter fun row => inScope row = .ok true).Perm
      (rows.filter fun row => keyWithin range (row.get t.key) ∧ inScope row = .ok true) := by
    refine (List.perm_ext_iff_of_nodup ((rest_strict h).nodup.filter _) (h.nodup.filter _)).2 ?_
    intro row
    simp only [List.mem_filter, mem_rest, decide_eq_true_eq, Bool.decide_and, Bool.and_eq_true, hpast, true_and]
    tauto
  rw [scanStats_eq h hn hpk hlen, tally_ok_iff (by simp [Stats.zero]), statsOf_perm hperm]
  have hzero : ∀ x : List Row, Stats.zero.add (statsOf x) = statsOf x := by
    intro x
    rw [Stats.add, Stats.zero, statsOf, saturatingAdd]
    simp
  rw [hzero]
  refine and_congr_left fun _ => ?_
  simp only [mem_rest, hpast, true_and, and_imp]

end

/-! ### Groups that balance -/

section

variable {K : Type} [LinearOrder K] {E : Engine K} {m : ShardMigrator} {w : World} {t : ShardTable}
  {moves : List ShardMove} {mv : ShardMove} {jobs jobs' : Jobs} {l : List JobState}

/-- The tables of a name have one row for each primary key, on every shard. -/
def World.Keyed (w : World) (E : Engine K) (t : ShardTable) : Prop :=
  ∀ shard, E.Distinct t.pk (w.data shard t.name) ∧ ∀ row ∈ w.data shard t.name, ∃ v, row.get t.pk = some v

def ShardMigrator.scopeRows (m : ShardMigrator) (w : World) (t : ShardTable) (mv : ShardMove) : List Row :=
  (w.data mv.fromShard t.name).filter fun row => keyWithin mv.keyRange (row.get t.key) ∧ m.routesTo mv row = .ok true

def ShardMigrator.Routable (m : ShardMigrator) (w : World) (t : ShardTable) (mv : ShardMove) : Prop :=
  ∀ row ∈ w.data mv.fromShard t.name, keyWithin mv.keyRange (row.get t.key) = true → ∃ b, m.routesTo mv row = .ok b

theorem scanMoveStats_ok_iff (hw : w.Keyed E t) (hn : 0 < m.chunkSize) {s : Stats} :
    m.scanMoveStats E w t mv = .ok s ↔ m.Routable w t mv ∧ s = statsOf (m.scopeRows w t mv) :=
  scan_ok_iff (hw mv.fromShard).1 hn (hw mv.fromShard).2

theorem scanTargetStats_ok_iff (hw : w.Keyed E t) (hn : 0 < m.chunkSize) {target : String} {s : Stats} :
    m.scanTargetStats E w t target moves = .ok s ↔
      (∀ row ∈ w.data target t.name, ∃ b, rowInAnyScope m t moves row = .ok b) ∧
        s = statsOf ((w.data target t.name).filter fun row => rowInAnyScope m t moves row = .ok true) := by
  have hall : ∀ key, keyWithin none key = true := fun _ => rfl
  refine (scan_ok_iff (hw target).1 hn (hw target).2).trans ?_
  simp only [hall, forall_const, true_and]

theorem sourceStats_ok_iff (hw : w.Keyed E t) (hn : 0 < m.chunkSize) {s s' : Stats} (hs : s.rows ≤ u64Max) :
    m.sourceStats E w t moves s = .ok s' ↔
      (∀ mv ∈ moves, (∃ d, m.client mv.fromShard = .ok d) ∧ m.Routable w t mv) ∧
        s' = s.add (statsOf (moves.flatMap (m.scopeRows w t))) := by
  induction moves generalizing s with
  | nil =>
    rw [ShardMigrator.sourceStats, List.flatMap_nil, Stats.add_nil hs]
    simp [eq_comm]
  | cons mv moves ih =>
    rw [ShardMigrator.sourceStats, bind_eq_ok, List.forall_mem_cons, List.flatMap_cons, statsOf_append]
    constructor
    · rintro ⟨d, hd, hrest⟩
      obtain ⟨found, hfound, hrest⟩ := bind_eq_ok.1 hrest
      obtain ⟨hroutable, rfl⟩ := (scanMoveStats_ok_iff hw hn).1 hfound
      obtain ⟨hmoves, rfl⟩ := (ih (s.add_rows_le _)).1 hrest
      exact ⟨⟨⟨⟨d, hd⟩, hroutable⟩, hmoves⟩, Stats.add_assoc ..⟩
    · rintro ⟨⟨⟨⟨d, hd⟩, hroutable⟩, hmoves⟩, rfl⟩
      have hfound := (scanMoveStats_ok_iff hw hn).2 ⟨hroutable, rfl⟩
      refine ⟨d, hd, bind_eq_ok.2 ⟨_, hfound, ?_⟩⟩
      exact (ih (s.add_rows_le _)).2 ⟨hmoves, (Stats.add_assoc ..).symm⟩

def Loaded (m : ShardMigrator) (jobs : Jobs) (moves : List ShardMove) (l : List JobState) : Prop :=
  List.Forall₂ (fun mv job => loadJob m.state jobs (moveId mv) = .ok (some job)) moves l

theorem groupJobs_ok_iff : groupJobs m jobs moves = .ok l ↔ Loaded m jobs moves l := by
  induction moves generalizing l with
  | nil =>
    rw [groupJobs, Loaded, List.forall₂_nil_left_iff]
    simp [eq_comm]
  | cons mv moves ih =>
    rw [groupJobs, bind_eq_ok, Loaded, List.forall₂_cons_left_iff]
    constructor
    · rintro ⟨found, hfound, hrest⟩
      cases found with
      | none => cases hrest
      | some job =>
        obtain ⟨l', hl', hl⟩ := bind_eq_ok.1 hrest
        exact ⟨job, l', hfound, ih.1 hl', (Except.ok.inj hl).symm⟩
    · rintro ⟨job, l', hload, hl', rfl⟩
      exact ⟨some job, hload, bind_eq_ok.2 ⟨l', ih.2 hl', rfl⟩⟩

theorem total_jobs {rowsOf : ShardMove → List Row} {s : Stats}
    (h : List.Forall₂ (fun mv (job : JobState) => job.stats = statsOf (rowsOf mv)) moves l) (hs : s.rows ≤ u64Max) :
    (l.map (·.stats)).foldl .add s = s.add (statsOf (moves.flatMap rowsOf)) := by
  induction h generalizing s with
  | nil =>
    rw [List.flatMap_nil, Stats.add_nil hs]
    rfl
  | cons hjob hrest ih =>
    rw [List.map_cons, List.foldl_cons, ih (s.add_rows_le _), hjob, List.flatMap_cons, statsOf_append, Stats.add_assoc]

def OpenOrKept (state : Dialect) (jobs jobs' : Jobs) (id : String) : Prop :=
  jobs' id = jobs id ∨ ∃ row job, jobs' id = some row ∧ row.decode state = .ok job ∧ job.settled = false

theorem OpenOrKept.trans {state : Dialect} {jobs'' : Jobs} {id : String} (h : OpenOrKept state jobs jobs' id)
    (h' : OpenOrKept state jobs' jobs'' id) : OpenOrKept state jobs jobs'' id := by
  rcases h' with hsame | hopen
  · rw [OpenOrKept, hsame]
    exact h
  · exact .inr hopen

theorem saveJob_open {state : Dialect} {job : JobState} (h : saveJob state jobs mv job = .ok jobs')
    (hopen : job.settled = false) (id : String) : OpenOrKept state jobs jobs' id := by
  by_cases hid : id = moveId mv
  · subst hid
    obtain ⟨hrows, row, hencode, rfl⟩ := saveJob_eq_ok h
    unfold OpenOrKept
    split_ifs
    · exact .inr ⟨row, job, Function.update_self .., decode_encode hencode hrows, hopen⟩
    · exact .inl rfl
  · exact .inl (saveJob_other h hid)

theorem markVerified_keeps {rest : List (ShardMove × JobState)} (h : markVerified m rest jobs = .ok jobs')
    (id : String) : OpenOrKept m.state jobs jobs' id ∧ ((∀ p ∈ rest, moveId p.1 ≠ id) → jobs' id = jobs id) := by
  induction rest generalizing jobs with
  | nil =>
    obtain rfl := Except.ok.inj h
    exact ⟨.inl rfl, fun _ => rfl⟩
  | cons p rest ih =>
    obtain ⟨saved, hsave, hrest⟩ := bind_eq_ok.1 h
    obtain ⟨hkept, hother⟩ := ih hrest
    refine ⟨(saveJob_open hsave rfl id).trans hkept, ?_⟩
    intro hids
    rw [hother fun q hq => hids q (by simp [hq]), saveJob_other hsave fun he => hids p (by simp) he.symm]

theorem markVerified_loads {rest : List (ShardMove × JobState)}
    (hloads : ∀ p ∈ rest, ∃ job, loadJob m.state jobs (moveId p.1) = .ok (some job))
    (hrows : ∀ p ∈ rest, (p.2.rows : Int) ≤ m.state.rowsMax) : ∃ jobs', markVerified m rest jobs = .ok jobs' := by
  induction rest generalizing jobs with
  | nil => exact ⟨jobs, rfl⟩
  | cons p rest ih =>
    obtain ⟨found, hload⟩ := hloads p (by simp)
    have hmarked : ((({ p.2 with phase := .verified } : JobState).rows : Nat) : Int) ≤ m.state.rowsMax :=
      hrows p (by simp)
    obtain ⟨saved, hsave, hagain, hother⟩ := saveJob_loads hload hmarked
    have hnext : ∀ q ∈ rest, ∃ job, loadJob m.state saved (moveId q.1) = .ok (some job) := by
      intro q hq
      by_cases hid : moveId q.1 = moveId p.1
      · exact ⟨_, hid ▸ hagain⟩
      · obtain ⟨job', hload'⟩ := hloads q (by simp [hq])
        obtain ⟨hstate, row, hrow, hdecode⟩ := loadJob_some_iff.1 hload'
        exact ⟨job', loadJob_some_iff.2 ⟨hstate, row, by rw [hother _ hid]; exact hrow, hdecode⟩⟩
    obtain ⟨jobs', hrest⟩ := ih hnext fun q hq => hrows q (by simp [hq])
    exact ⟨jobs', bind_eq_ok.2 ⟨saved, hsave, hrest⟩⟩

theorem markVerified_ok (h : Loaded m jobs moves l) : ∃ jobs', markVerified m (moves.zip l) jobs = .ok jobs' := by
  have hload : ∀ p ∈ moves.zip l, loadJob m.state jobs (moveId p.1) = .ok (some p.2) := fun p hp =>
    List.forall₂_zip h hp
  refine markVerified_loads (fun p hp => ⟨p.2, hload p hp⟩) ?_
  intro p hp
  obtain ⟨-, row, -, hdecode⟩ := loadJob_some_iff.1 (hload p hp)
  exact decode_rows hdecode

/-! ### The whole of verify -/

variable {g : String ×ₗ String} {gs : List (String ×ₗ String)}

/-- Sources, jobs and target of a group add up to the same, and the group is not settled. -/
structure Balanced (m : ShardMigrator) (E : Engine K) (w : World) (g : String ×ₗ String) : Prop where
  table : ∃ t, m.new.table (ofLex g).1 = .ok t ∧ w.Keyed E t ∧
    (∀ mv ∈ m.plan.movesIn g, (∃ d, m.client mv.fromShard = .ok d) ∧ m.Routable w t mv) ∧
    (∀ row ∈ w.data (ofLex g).2 t.name, ∃ b, rowInAnyScope m t (m.plan.movesIn g) row = .ok b) ∧
    ((w.data (ofLex g).2 t.name).filter fun row => rowInAnyScope m t (m.plan.movesIn g) row = .ok true).Perm
      ((m.plan.movesIn g).flatMap (m.scopeRows w t)) ∧
    ∃ l, Loaded m w.jobs (m.plan.movesIn g) l ∧
      List.Forall₂ (fun mv (job : JobState) => job.stats = statsOf (m.scopeRows w t mv)) (m.plan.movesIn g) l ∧
      l.all (·.settled) = false
  client : ∃ d, m.client (ofLex g).2 = .ok d

theorem zero_add (x : List Row) : Stats.zero.add (statsOf x) = statsOf x := by
  rw [Stats.add, Stats.zero, statsOf, saturatingAdd]
  simp

theorem verifyGroup_ok (hn : 0 < m.chunkSize) (h : Balanced m E w g) (hjobs : ∀ mv ∈ m.plan.movesIn g,
    jobs (moveId mv) = w.jobs (moveId mv)) : ∃ jobs',
      m.verifyGroup E { w with jobs } (ofLex g).1 (ofLex g).2 (m.plan.movesIn g) = .ok jobs' ∧
      ∀ id, (∀ mv ∈ m.plan.movesIn g, moveId mv ≠ id) → jobs' id = jobs id := by
  obtain ⟨⟨t, ht, hkeyed, hsources, htarget, hperm, l, hload, hstats, hsettled⟩, d, hclient⟩ := h
  have hload' : Loaded m jobs (m.plan.movesIn g) l := by
    refine (List.forall₂_iff_zip.2 ⟨hload.length_eq, ?_⟩)
    intro mv job hp
    have hfound := List.forall₂_zip hload hp
    rw [loadJob_some_iff] at hfound ⊢
    rwa [hjobs mv (List.of_mem_zip hp).1]
  have hkeyed' : ({ w with jobs } : World).Keyed E t := hkeyed
  have hzero : Stats.zero.rows ≤ u64Max := by simp [Stats.zero]
  have hsource : m.sourceStats E { w with jobs } t (m.plan.movesIn g) .zero =
      .ok (statsOf ((m.plan.movesIn g).flatMap (m.scopeRows w t))) :=
    (sourceStats_ok_iff hkeyed' hn hzero).2 ⟨hsources, (zero_add _).symm⟩
  have hfound : m.scanTargetStats E { w with jobs } t (ofLex g).2 (m.plan.movesIn g) =
      .ok (statsOf ((m.plan.movesIn g).flatMap (m.scopeRows w t))) :=
    (scanTargetStats_ok_iff hkeyed' hn).2 ⟨htarget, statsOf_perm hperm.symm⟩
  obtain ⟨jobs', hmarked⟩ := markVerified_ok hload'
  refine ⟨jobs', ?_, ?_⟩
  · rw [ShardMigrator.verifyGroup, ht, ok_bind, groupJobs_ok_iff.2 hload', ok_bind, if_neg (by simp [hsettled]), hsource,
      ok_bind, hclient, ok_bind, hfound, ok_bind, total_jobs hstats hzero, zero_add, if_neg (not_not.2 rfl),
      if_neg (not_not.2 rfl)]
    exact hmarked
  · intro id hid
    refine (markVerified_keeps hmarked id).2 ?_
    intro p hp
    exact hid p.1 (List.of_mem_zip hp).1

theorem mem_groups : g ∈ m.plan.groups ↔ ∃ mv ∈ m.plan.moves, mv.group = g := by
  have hmem : g ∈ (m.plan.moves.map (·.group)).insertionSort (· ≤ ·) ↔ ∃ mv ∈ m.plan.moves, mv.group = g := by
    rw [List.mem_insertionSort, List.mem_map]
  constructor
  · intro hg
    exact hmem.1 ((dedupBy_sublist _ _).subset hg)
  · intro hg
    obtain ⟨g', hg', hsame⟩ := exists_mem_dedupBy (fun a b : String ×ₗ String => decide (a = b)) (by simp)
      (hmem.2 hg)
    rw [of_decide_eq_true hsame]
    exact hg'

theorem groups_nodup (plan : ShardPlan) : plan.groups.Nodup := by
  have hstrict := pairwise_dedupBy (fun a b : String ×ₗ String => a ≤ b) (fun a b => decide (a = b))
    (fun _ _ _ => le_trans) (fun a b hab => by
      rw [decide_eq_true_eq]
      exact ⟨fun he => he.le, fun hle => le_antisymm hle hab⟩)
    (List.pairwise_insertionSort (· ≤ ·) (plan.moves.map (·.group)))
  exact hstrict.imp fun hab he => hab.2 he.ge

theorem mem_movesIn : mv ∈ m.plan.movesIn g ↔ mv ∈ m.plan.moves ∧ mv.group = g := by
  rw [ShardPlan.movesIn, List.mem_filter, decide_eq_true_eq]

theorem verifyGroups_ok (hn : 0 < m.chunkSize) (hids : (m.plan.moves.map moveId).Nodup)
    (h : ∀ g ∈ gs, Balanced m E w g) (hgs : gs.Nodup)
    (hjobs : ∀ g ∈ gs, ∀ mv ∈ m.plan.movesIn g, jobs (moveId mv) = w.jobs (moveId mv)) :
    (m.verifyGroups E w gs jobs).1 = .ok () := by
  induction gs generalizing jobs with
  | nil => rfl
  | cons g gs ih =>
    obtain ⟨hfresh, hrest⟩ := List.nodup_cons.1 hgs
    obtain ⟨jobs', hgroup, hkept⟩ := verifyGroup_ok hn (h g (by simp)) (hjobs g (by simp))
    rw [ShardMigrator.verifyGroups, hgroup]
    refine ih (fun g' hg' => h g' (by simp [hg'])) hrest ?_
    intro g' hg' mv hmv
    rw [hkept _ ?_, hjobs g' (by simp [hg']) mv hmv]
    intro mv' hmv' hid
    obtain ⟨hin, hgroup'⟩ := mem_movesIn.1 hmv
    obtain ⟨hin', hgroup⟩ := mem_movesIn.1 hmv'
    obtain rfl := List.inj_on_of_nodup_map hids hin' hin hid
    exact hfresh (hgroup ▸ hgroup' ▸ hg')

theorem verify_ok (hpreflight : m.preflightSchema w = .ok ()) (hn : 0 < m.chunkSize)
    (hids : (m.plan.moves.map moveId).Nodup) (h : ∀ g ∈ m.plan.groups, Balanced m E w g) :
    (m.verify E w).1 = .ok () := by
  rw [ShardMigrator.verify, hpreflight]
  exact verifyGroups_ok hn hids h (groups_nodup _) fun _ _ _ _ => rfl

/-! ### What verify has compared -/

def Unsettled (m : ShardMigrator) (jobs : Jobs) : Prop :=
  ∀ mv ∈ m.plan.moves, ∀ job, loadJob m.state jobs (moveId mv) = .ok (some job) → job.settled = false

theorem Unsettled.kept (h : Unsettled m jobs) (hkept : ∀ id, OpenOrKept m.state jobs jobs' id) : Unsettled m jobs' := by
  intro mv hmv job hload
  rcases hkept (moveId mv) with hsame | ⟨row, job', hrow, hdecode, hopen⟩
  · rw [loadJob_some_iff, hsame] at hload
    exact h mv hmv job (loadJob_some_iff.2 hload)
  · obtain ⟨-, row', hrow', hdecode'⟩ := loadJob_some_iff.1 hload
    rw [hrow] at hrow'
    obtain rfl := Option.some.inj hrow'
    rw [hdecode] at hdecode'
    obtain rfl := Except.ok.inj hdecode'
    exact hopen

/-- What verify has found of a group that was not settled. -/
structure Compared (m : ShardMigrator) (w : World) (g : String ×ₗ String) (t : ShardTable) : Prop where
  routable : ∀ mv ∈ m.plan.movesIn g, m.Routable w t mv
  stats : statsOf ((m.plan.movesIn g).flatMap (m.scopeRows w t)) =
    statsOf ((w.data (ofLex g).2 t.name).filter fun row => rowInAnyScope m t (m.plan.movesIn g) row = .ok true)

theorem verifyGroup_inv (hn : 0 < m.chunkSize) (hg : g ∈ m.plan.groups) (hjobs : Unsettled m jobs)
    {t : ShardTable} (ht : m.new.table (ofLex g).1 = .ok t) (hkeyed : w.Keyed E t)
    (h : m.verifyGroup E { w with jobs } (ofLex g).1 (ofLex g).2 (m.plan.movesIn g) = .ok jobs') :
    (∀ id, OpenOrKept m.state jobs jobs' id) ∧ Compared m w g t := by
  rw [ShardMigrator.verifyGroup, ht, ok_bind] at h
  obtain ⟨l, hl, h⟩ := bind_eq_ok.1 h
  have hloaded := groupJobs_ok_iff.1 hl
  have hsettled : l.all (·.settled) = false := by
    obtain ⟨mv, hmv, hgroup⟩ := mem_groups.1 hg
    have hin : mv ∈ m.plan.movesIn g := mem_movesIn.2 ⟨hmv, hgroup⟩
    obtain ⟨job, hjob, hload⟩ := exists_right_of_forall₂ hloaded hin
    by_contra hall
    have hdone := List.all_eq_true.1 (by simpa using hall) job hjob
    rw [hjobs mv hmv job hload] at hdone
    cases hdone
  rw [if_neg (by simp [hsettled])] at h
  obtain ⟨source, hsource, h⟩ := bind_eq_ok.1 h
  obtain ⟨d, -, h⟩ := bind_eq_ok.1 h
  obtain ⟨found, hfound, h⟩ := bind_eq_ok.1 h
  split_ifs at h with hjob htarget
  have hkeyed' : ({ w with jobs } : World).Keyed E t := hkeyed
  have hzero : Stats.zero.rows ≤ u64Max := by simp [Stats.zero]
  obtain ⟨hroutable, hsource⟩ := (sourceStats_ok_iff hkeyed' hn hzero).1 hsource
  obtain ⟨-, hfound⟩ := (scanTargetStats_ok_iff hkeyed' hn).1 hfound
  rw [zero_add] at hsource
  refine ⟨fun id => (markVerified_keeps h id).1, fun mv hmv => (hroutable mv hmv).2, ?_⟩
  rw [not_not.1 htarget, hfound] at hsource
  exact hsource.symm

theorem verifyGroups_inv (hn : 0 < m.chunkSize) (hjobs : Unsettled m jobs)
    (htables : ∀ g ∈ gs, g ∈ m.plan.groups ∧ ∃ t, m.new.table (ofLex g).1 = .ok t ∧ w.Keyed E t)
    (h : (m.verifyGroups E w gs jobs).1 = .ok ()) :
    ∀ g ∈ gs, ∀ t, m.new.table (ofLex g).1 = .ok t → Compared m w g t := by
  induction gs generalizing jobs with
  | nil => simp
  | cons g gs ih =>
    obtain ⟨hg, t, ht, hkeyed⟩ := htables g (by simp)
    rw [ShardMigrator.verifyGroups] at h
    cases hgroup : m.verifyGroup E { w with jobs } (ofLex g).1 (ofLex g).2 (m.plan.movesIn g) with
    | error e =>
      rw [hgroup] at h
      cases h
    | ok jobs' =>
      rw [hgroup] at h
      obtain ⟨hkept, hcompared⟩ := verifyGroup_inv hn hg hjobs ht hkeyed hgroup
      refine List.forall_mem_cons.2 ⟨?_, ih (hjobs.kept hkept) (fun g' hg' => htables g' (by simp [hg'])) h⟩
      intro t' ht'
      rw [ht] at ht'
      obtain rfl := Except.ok.inj ht'
      exact hcompared

theorem verify_inv (hn : 0 < m.chunkSize) (hjobs : Unsettled m w.jobs)
    (htables : ∀ g ∈ m.plan.groups, ∃ t, m.new.table (ofLex g).1 = .ok t ∧ w.Keyed E t)
    (h : (m.verify E w).1 = .ok ()) :
    ∀ g ∈ m.plan.groups, ∀ t, m.new.table (ofLex g).1 = .ok t → Compared m w g t := by
  rw [ShardMigrator.verify] at h
  cases hpreflight : m.preflightSchema w with
  | error e =>
    rw [hpreflight] at h
    cases h
  | ok u =>
    rw [hpreflight] at h
    exact verifyGroups_inv hn hjobs (fun g hg => ⟨hg, htables g hg⟩) h

end

end Ecat.Shard
