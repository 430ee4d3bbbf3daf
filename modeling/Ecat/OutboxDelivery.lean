import Ecat.OutboxRelay

/-! Every record that is not done comes back from a later claim, as long as no retry
counter has run up to the largest value the code and the column can hold. -/

namespace Ecat.Outbox

variable {T : Type} {stamps : Stamps} {dialect : Dialect}

def counterMax (dialect : Dialect) : Nat := min u32Max dialect.capacity

/-- A time and a lease that `claim` can compute with. -/
structure ValidClaim (now lease : Int) : Prop where
  year : yearZero ≤ now
  backoff : now + staleBackoff ≤ maxTime
  nonneg : 0 ≤ lease
  cutoff : minTime ≤ now - lease

/-- One of the next `n` claims made at one time returns the record. -/
def ClaimsReturn (stamps : Stamps) (dialect : Dialect) (limit : UInt32) (lease now : Int) (id : String) :
    Nat → List Row → Prop
  | 0, _ => False
  | n + 1, rows => ∃ records rows', claim stamps dialect limit lease now rows = .ok (records, rows') ∧
      ((∃ record ∈ records, record.id = id) ∨ ClaimsReturn stamps dialect limit lease now id n rows')

/-- At least once, and nothing lost. -/
structure Delivers (stamps : Stamps) (dialect : Dialect) (w : World T) : Prop where
  handled : ∀ row ∈ w.rows, row.status = .done → ∃ record, row.Is record ∧ .handled record true ∈ w.log
  kept : ∀ r, .appended r ∈ w.log → ∃ row ∈ w.rows, row.Is r
  leased : ∀ row ∈ w.rows, row.status = .processing → row.claimedAt.isSome = true
  due : ∀ row ∈ w.rows, row.status = .pending ∨ row.status = .failed → ∀ limit ≠ 0, ∀ lease now,
    ValidClaim now lease → row.nextAttemptAt ≤ now →
      ∃ n, ClaimsReturn stamps dialect limit lease now row.id n w.rows
  expired : ∀ row ∈ w.rows, row.status = .processing → ∀ claimed, row.claimedAt = some claimed →
    ∀ limit ≠ 0, ∀ lease now, ValidClaim now lease → claimed + lease < now →
      ∃ records rows, claim stamps dialect limit lease now w.rows = .ok (records, rows) ∧
        ∀ limit' ≠ 0, ∀ lease' later, ValidClaim later lease' → now + staleBackoff ≤ later →
          ∃ n, ClaimsReturn stamps dialect limit' lease' later row.id n rows

/-! ### One claim -/

/-- What a claim at the given time needs of the table: the counters fit, also after one more
failure for the rows that may have to be put back. -/
structure Ready (dialect : Dialect) (now : Int) (rows : List Row) : Prop where
  ids : (rows.map (·.id)).Nodup
  attempts : ∀ row ∈ rows, row.attempts ≤ counterMax dialect
  next : ∀ row ∈ rows, yearZero ≤ row.nextAttemptAt
  claimed : ∀ row ∈ rows, ∀ c, row.claimedAt = some c → yearZero ≤ c ∧
    (row.status = .processing → c < now → row.attempts < counterMax dialect)

theorem checkedAdd_cutoff {now lease : Int} (h : ValidClaim now lease) :
    checkedAdd now (-lease) = some (now - lease) := by
  have hle : now - lease ≤ maxTime := by
    have hb := h.backoff
    have hn := h.nonneg
    simp only [staleBackoff, second] at hb
    omega
  rw [checkedAdd, if_pos ⟨h.cutoff, hle⟩]
  rfl

theorem checkedAdd_staleBackoff {now lease : Int} (h : ValidClaim now lease) :
    checkedAdd now staleBackoff = some (now + staleBackoff) := by
  have hle : minTime ≤ now + staleBackoff := by
    have hy := h.year
    simp only [minTime, yearZero, staleBackoff, second] at hy ⊢
    omega
  rw [checkedAdd, if_pos ⟨hle, h.backoff⟩]

theorem stale_iff {row : Row} {cutoff : Int} (hc : ∀ c, row.claimedAt = some c → yearZero ≤ c) :
    row.stale stamps cutoff = true ↔ row.status = .processing ∧ ∃ c, row.claimedAt = some c ∧ c < cutoff := by
  rw [Row.stale, Bool.and_eq_true, beq_iff_eq]
  refine and_congr_right fun _ => ?_
  cases hclaimed : row.claimedAt with
  | none => simp
  | some c =>
    have hyear := hc c hclaimed
    simp only [Option.any_some, Bool.not_eq_true', Option.some.injEq, exists_eq_left']
    rcases Int.lt_or_le cutoff yearZero with hsigned | hsigned
    · rw [stamps.le_of_signed cutoff c hsigned hyear]
      have : ¬ c < cutoff := by omega
      simp [this]
    · rw [← Bool.not_eq_true, stamps.le_iff cutoff c hsigned hyear]
      exact Int.not_le

theorem due_iff {row : Row} {now : Int} (hnext : yearZero ≤ row.nextAttemptAt) (hnow : yearZero ≤ now) :
    row.due stamps now = true ↔ (row.status = .pending ∨ row.status = .failed) ∧ row.nextAttemptAt ≤ now := by
  rw [Row.due, Bool.and_eq_true, Bool.or_eq_true, beq_iff_eq, beq_iff_eq, stamps.le_iff _ _ hnext hnow]

theorem fromRows_ok (dialect : Dialect) {rows : List Row}
    (h : ∀ row ∈ rows, row.attempts ≤ counterMax dialect ∧ yearZero ≤ row.nextAttemptAt) :
    ∃ records, fromRows rows = .ok records ∧ records.map (·.id) = rows.map (·.id) := by
  induction rows with
  | nil => exact ⟨[], rfl, rfl⟩
  | cons row rows ih =>
    obtain ⟨⟨hattempts, hnext⟩, hrest⟩ := List.forall_mem_cons.1 h
    obtain ⟨records, hrecords, hids⟩ := ih hrest
    have hread : fromRow row = .ok ⟨row.id, row.aggregate, row.payload, row.status,
        UInt32.ofNat row.attempts, row.nextAttemptAt⟩ := by
      have hmax : ¬ u32Max < row.attempts := Nat.not_lt.2 (hattempts.trans (Nat.min_le_left _ _))
      rw [fromRow, if_neg hmax, if_neg (Int.not_lt.2 hnext)]
    exact ⟨_, by rw [fromRows, hread, hrecords], by simp [hids]⟩

section Claim

variable {now lease : Int} {rows : List Row} {limit : UInt32}

theorem not_due_reclaim (hv : ValidClaim now lease) (row : Row) :
    (row.reclaim (now + staleBackoff)).due stamps now = false := by
  have hyear := hv.year
  have hlater : ¬ now + staleBackoff ≤ now := by
    simp only [staleBackoff, second]
    omega
  have hnext : yearZero ≤ (row.reclaim (now + staleBackoff)).nextAttemptAt := by
    simp only [Row.reclaim, staleBackoff, second]
    omega
  rw [Bool.eq_false_iff, ne_eq, due_iff hnext hyear]
  exact fun h => hlater h.2

theorem not_due_of_stale {row : Row} {cutoff : Int} (h : row.stale stamps cutoff = true) :
    row.due stamps now = false := by
  have hstatus : row.status = .processing := by
    rw [Row.stale, Bool.and_eq_true, beq_iff_eq] at h
    exact h.1
  simp [Row.due, hstatus]

theorem filter_due_reclaimStale (hv : ValidClaim now lease) (rows : List Row) :
    (reclaimStale stamps (now - lease) (now + staleBackoff) rows).filter (·.due stamps now) =
      rows.filter (·.due stamps now) := by
  induction rows with
  | nil => rfl
  | cons row rows ih =>
    rw [reclaimStale, List.map_cons, ← reclaimStale]
    cases hstale : row.stale stamps (now - lease) with
    | false => simp [List.filter_cons, ih]
    | true => simp [ih, not_due_reclaim hv, not_due_of_stale hstale]

theorem selectDue_subset {row : Row} {n : Nat} (h : row ∈ selectDue stamps n now rows) :
    row ∈ rows ∧ row.due stamps now = true :=
  List.mem_filter.1 ((List.perm_insertionSort _ _).mem_iff.1 (List.mem_of_mem_take h))

theorem claim_ready (stamps : Stamps) (h : Ready dialect now rows) (hv : ValidClaim now lease)
    (hlimit : limit ≠ 0) (hdialect : dialect ≠ .mssql) : ∃ records : List OutboxRecord,
      records.map (·.id) = (selectDue stamps limit.toNat now rows).map (·.id) ∧
      claim stamps dialect limit lease now rows = .ok (records, rows.map
        (Row.claimedBy stamps (records.map (·.id)) now (now - lease) (now + staleBackoff))) := by
  have hfits : ¬ (rows.any fun row => row.stale stamps (now - lease) &&
      decide (dialect.capacity ≤ row.attempts)) = true := by
    simp only [List.any_eq_true, Bool.and_eq_true, decide_eq_true_eq, not_exists, not_and]
    intro row hrow hstale hfull
    obtain ⟨hstatus, c, hc, hlt⟩ := (stale_iff fun c hc => (h.claimed row hrow c hc).1).1 hstale
    have hcount := (h.claimed row hrow c hc).2 hstatus (by have := hv.nonneg; omega)
    exact absurd hfull (Nat.not_le.2 (hcount.trans_le (Nat.min_le_right _ _)))
  have hselect : selectDue stamps limit.toNat now
      (reclaimStale stamps (now - lease) (now + staleBackoff) rows) =
        selectDue stamps limit.toNat now rows := by
    rw [selectDue, filter_due_reclaimStale hv, ← selectDue]
  obtain ⟨picked, hpicked, hids⟩ := fromRows_ok dialect
    fun row (hrow : row ∈ selectDue stamps limit.toNat now rows) =>
      ⟨h.attempts row (selectDue_subset hrow).1, h.next row (selectDue_subset hrow).1⟩
  have hprocessing : (picked.map fun r => { r with status := .processing }).map (·.id) =
      picked.map (·.id) := by
    rw [List.map_map]
    rfl
  refine ⟨picked.map fun r => { r with status := .processing }, hprocessing.trans hids, ?_⟩
  rw [hprocessing]
  rw [claim, if_neg hlimit, if_neg hdialect, checkedAdd_cutoff hv]
  dsimp only
  rw [checkedAdd_staleBackoff hv]
  dsimp only
  rw [claimTx, if_neg hfits]
  dsimp only
  rw [hselect, hpicked, ← leaseRows_reclaimStale]
  dsimp only
  split
  · rename_i hempty
    rw [List.isEmpty_iff.1 hempty]
    simp [leaseRows_nil]
  · rfl

theorem due_of_mem_ids (h : Ready dialect now rows) {n : Nat} {ids : List String}
    (hids : ids = (selectDue stamps n now rows).map (·.id)) {row : Row} (hrow : row ∈ rows)
    (hmem : row.id ∈ ids) : row.due stamps now = true := by
  rw [hids] at hmem
  obtain ⟨row', hrow', hid⟩ := List.mem_map.1 hmem
  have heq : row' = row := List.inj_on_of_nodup_map h.ids (selectDue_subset hrow').1 hrow hid
  exact heq ▸ (selectDue_subset hrow').2

theorem claimedBy_cases (h : Ready dialect now rows) {n : Nat} {ids : List String}
    (hids : ids = (selectDue stamps n now rows).map (·.id)) {row : Row} (hrow : row ∈ rows)
    (cutoff staleNext : Int) :
    row.stale stamps cutoff = true ∧ row.claimedBy stamps ids now cutoff staleNext = row.reclaim staleNext ∨
      row.due stamps now = true ∧ row.id ∈ ids ∧ row.claimedBy stamps ids now cutoff staleNext =
        { row with status := .processing, claimedAt := some now } ∨
      row.id ∉ ids ∧ row.claimedBy stamps ids now cutoff staleNext = row := by
  by_cases hmem : row.id ∈ ids
  · have hdue := due_of_mem_ids h hids hrow hmem
    have hfresh : row.stale stamps cutoff = false := by
      rw [Bool.eq_false_iff]
      intro hstale
      simp [not_due_of_stale hstale] at hdue
    exact .inr (.inl ⟨hdue, hmem, by simp [Row.claimedBy, hfresh, hmem]⟩)
  · cases hstale : row.stale stamps cutoff with
    | true => exact .inl ⟨rfl, by simp [Row.claimedBy, hstale, hmem, Row.reclaim]⟩
    | false => exact .inr (.inr ⟨hmem, by simp [Row.claimedBy, hstale, hmem]⟩)

theorem ready_claim (h : Ready dialect now rows) (hv : ValidClaim now lease) {n : Nat} {ids : List String}
    (hids : ids = (selectDue stamps n now rows).map (·.id)) {later : Int}
    (hlater : later = now ∨ ∀ row ∈ rows, row.attempts < counterMax dialect) :
    Ready dialect later (rows.map (Row.claimedBy stamps ids now (now - lease) (now + staleBackoff))) := by
  have hyear := hv.year
  have hnonneg := hv.nonneg
  refine ⟨?_, List.forall_mem_map.2 fun row hrow => ?_, List.forall_mem_map.2 fun row hrow => ?_,
    List.forall_mem_map.2 fun row hrow => ?_⟩
  · rw [List.map_map]
    have hsame : rows.map ((·.id) ∘ Row.claimedBy stamps ids now (now - lease) (now + staleBackoff)) =
        rows.map (·.id) := List.map_congr_left fun row _ => (claimedBy_same _ _ _ _ row).1
    exact hsame ▸ h.ids
  · rcases claimedBy_cases h hids hrow (now - lease) (now + staleBackoff) with
      ⟨hstale, he⟩ | ⟨_, _, he⟩ | ⟨_, he⟩ <;> rw [he]
    · obtain ⟨hstatus, c, hc, hlt⟩ := (stale_iff fun c hc => (h.claimed row hrow c hc).1).1 hstale
      exact (h.claimed row hrow c hc).2 hstatus (by omega)
    · exact h.attempts row hrow
    · exact h.attempts row hrow
  · rcases claimedBy_cases h hids hrow (now - lease) (now + staleBackoff) with
      ⟨_, he⟩ | ⟨_, _, he⟩ | ⟨_, he⟩ <;> rw [he]
    · simp only [Row.reclaim, staleBackoff, second]
      omega
    · exact h.next row hrow
    · exact h.next row hrow
  · rcases claimedBy_cases h hids hrow (now - lease) (now + staleBackoff) with
      ⟨_, he⟩ | ⟨_, _, he⟩ | ⟨_, he⟩ <;> rw [he]
    · exact fun c hc => (nomatch hc)
    · rintro c hc
      cases hc
      refine ⟨hyear, fun _ hlt => ?_⟩
      rcases hlater with rfl | hlow
      · exact absurd hlt (Int.lt_irrefl later)
      · exact hlow row hrow
    · rcases hlater with rfl | hlow
      · exact h.claimed row hrow
      · exact fun c hc => ⟨(h.claimed row hrow c hc).1, fun _ _ => hlow row hrow⟩

theorem due_reclaimed_or_kept (h : Ready dialect now rows) (hv : ValidClaim now lease) {n : Nat}
    {ids : List String} (hids : ids = (selectDue stamps n now rows).map (·.id)) {row : Row}
    (hrow : row ∈ rows) :
    (row.claimedBy stamps ids now (now - lease) (now + staleBackoff)).due stamps now =
      (row.due stamps now && decide (row.id ∉ ids)) := by
  rcases claimedBy_cases h hids hrow (now - lease) (now + staleBackoff) with
    ⟨hstale, he⟩ | ⟨_, hmem, he⟩ | ⟨hmem, he⟩ <;> rw [he]
  · simp [not_due_reclaim hv, not_due_of_stale hstale]
  · simp [Row.due, hmem]
  · simp [hmem]

theorem exists_mem_selectDue (hlimit : limit ≠ 0) {row : Row} (hrow : row ∈ rows)
    (hdue : row.due stamps now = true) : ∃ first, first ∈ selectDue stamps limit.toNat now rows := by
  have hmem : row ∈ (rows.filter (·.due stamps now)).insertionSort fun a b => a.before stamps b = true :=
    (List.perm_insertionSort _ _).mem_iff.2 (List.mem_filter.2 ⟨hrow, hdue⟩)
  obtain ⟨k, hk⟩ : ∃ k, limit.toNat = k + 1 := by
    refine Nat.exists_eq_succ_of_ne_zero fun hzero => hlimit ?_
    exact UInt32.toNat_inj.1 hzero
  rw [selectDue, hk]
  cases hsorted : (rows.filter (·.due stamps now)).insertionSort fun a b => a.before stamps b = true with
  | nil => simp [hsorted] at hmem
  | cons first rest => exact ⟨first, by simp⟩

theorem due_count_claim (h : Ready dialect now rows) (hv : ValidClaim now lease) (hlimit : limit ≠ 0)
    {ids : List String} (hids : ids = (selectDue stamps limit.toNat now rows).map (·.id)) {row : Row}
    (hrow : row ∈ rows) (hdue : row.due stamps now = true) :
    (rows.map (Row.claimedBy stamps ids now (now - lease) (now + staleBackoff))).countP (·.due stamps now) <
      rows.countP (·.due stamps now) := by
  obtain ⟨first, hfirst⟩ := exists_mem_selectDue hlimit hrow hdue
  have hpicked : first ∈ rows.filter (·.due stamps now) := List.mem_filter.2 (selectDue_subset hfirst)
  have hid : first.id ∈ ids := hids ▸ List.mem_map_of_mem hfirst
  calc (rows.map (Row.claimedBy stamps ids now (now - lease) (now + staleBackoff))).countP (·.due stamps now)
      = rows.countP (fun row => decide (row.id ∉ ids) && row.due stamps now) := by
        rw [List.countP_map]
        refine List.countP_congr fun row hrow => ?_
        rw [Function.comp_apply, due_reclaimed_or_kept h hv hids hrow, Bool.and_comm]
    _ = (rows.filter (·.due stamps now)).countP (fun row => decide (row.id ∉ ids)) := List.countP_filter.symm
    _ < (rows.filter (·.due stamps now)).length := by
        refine lt_of_le_of_ne List.countP_le_length fun hall => ?_
        simpa [hid] using List.countP_eq_length.1 hall first hpicked
    _ = rows.countP (·.due stamps now) := List.countP_eq_length_filter.symm

theorem claims_return (hdialect : dialect ≠ .mssql) (hv : ValidClaim now lease) (hlimit : limit ≠ 0)
    (h : Ready dialect now rows) {row : Row} (hrow : row ∈ rows) (hdue : row.due stamps now = true) :
    ∃ n, ClaimsReturn stamps dialect limit lease now row.id n rows := by
  generalize hcount : rows.countP (·.due stamps now) = k
  induction k using Nat.strong_induction_on generalizing rows with
  | _ k ih =>
    obtain ⟨records, hids, hclaim⟩ := claim_ready stamps h hv hlimit hdialect
    by_cases hmem : row.id ∈ records.map (·.id)
    · obtain ⟨record, hrecord, hid⟩ := List.mem_map.1 hmem
      exact ⟨1, records, _, hclaim, .inl ⟨record, hrecord, hid⟩⟩
    · have hless := due_count_claim h hv hlimit hids hrow hdue
      have hkept : row.claimedBy stamps (records.map (·.id)) now (now - lease) (now + staleBackoff) =
          row := by
        rcases claimedBy_cases h hids hrow (now - lease) (now + staleBackoff) with
          ⟨hstale, _⟩ | ⟨_, hmem', _⟩ | ⟨_, he⟩
        · simp [not_due_of_stale hstale] at hdue
        · exact absurd hmem' hmem
        · exact he
      obtain ⟨n, hn⟩ := ih _ (hcount ▸ hless) (ready_claim h hv hids (.inl rfl))
        (List.mem_map.2 ⟨row, hrow, hkept⟩) rfl
      exact ⟨n + 1, records, _, hclaim, .inr hn⟩

end Claim

/-! ### Runs -/

/-- The step brings no retry counter to its largest value and writes no time before year zero. -/
def CountersLow (stamps : Stamps) (dialect : Dialect) (_ : T) (o : Op) (_ : Reply) (w : World T) : Prop :=
  match o with
  | .append r => r.attempts.toNat < counterMax dialect ∧ yearZero ≤ r.nextAttemptAt
  | .claim _ lease => ∀ row ∈ w.rows, row.stale stamps (w.now - lease) = true →
      row.attempts + 1 < counterMax dialect
  | .markFailed id retryAfter => yearZero ≤ w.now + retryAfter ∧ ∀ row ∈ w.rows, row.id = id →
      row.status = .processing → row.attempts + 1 < counterMax dialect
  | .handle _ | .markDone _ => True

structure LowRow (dialect : Dialect) (row : Row) : Prop where
  supported : dialect ≠ .mssql
  attempts : row.attempts < counterMax dialect
  next : yearZero ≤ row.nextAttemptAt
  claimed : ∀ c, row.claimedAt = some c → yearZero ≤ c

structure Low (dialect : Dialect) (w : World T) : Prop where
  clock : yearZero ≤ w.now
  rows : ∀ row ∈ w.rows, LowRow dialect row

variable {w : World T}

theorem checkedAdd_eq {t d r : Int} (h : checkedAdd t d = some r) : r = t + d := by
  rw [checkedAdd] at h
  split at h
  · exact (Option.some.inj h).symm
  · cases h

theorem Low.update (h : Low dialect w) {rows : List Row} (events : List (Event T))
    (hrows : ∀ row ∈ rows, LowRow dialect row) : Low dialect (w.update rows events) :=
  ⟨h.clock, hrows⟩

theorem low_claim (h : Low dialect w) {limit : UInt32} {lease : Int} {records : List OutboxRecord}
    {rows : List Row} (hrows : claim stamps dialect limit lease w.now w.rows = .ok (records, rows))
    (hlow : ∀ row ∈ w.rows, row.stale stamps (w.now - lease) = true → row.attempts + 1 < counterMax dialect) :
    ∀ row ∈ rows, LowRow dialect row := by
  have hclock := h.clock
  obtain ⟨_, rfl⟩ | ⟨cutoff, staleNext, picked, hcutoff, hstaleNext, _, _, rfl⟩ := claim_eq_ok hrows
  · exact h.rows
  · have hcut : cutoff = w.now - lease := checkedAdd_eq hcutoff
    have hnext : yearZero ≤ staleNext := by
      rw [checkedAdd_eq hstaleNext, staleBackoff, second]
      omega
    rw [leaseRows_reclaimStale]
    refine List.forall_mem_map.2 fun row hrow => ?_
    have hold := h.rows row hrow
    unfold Row.claimedBy
    dsimp only
    split <;> split
    all_goals rename_i hstale hmem
    · exact ⟨hold.supported, hlow row hrow (hcut ▸ hstale), hnext, fun c hc => Option.some.inj hc ▸ hclock⟩
    · exact ⟨hold.supported, hlow row hrow (hcut ▸ hstale), hnext, fun c hc => (nomatch hc)⟩
    · exact ⟨hold.supported, hold.attempts, hold.next, fun c hc => Option.some.inj hc ▸ hclock⟩
    · exact hold

theorem low_mark (h : Low dialect w) {id : String} {f : Row → Row}
    (hf : ∀ row ∈ w.rows, row.id = id → row.status = .processing → LowRow dialect (f row)) :
    ∀ row ∈ updateProcessing id f w.rows, LowRow dialect row := by
  refine List.forall_mem_map.2 fun row hrow => ?_
  split
  · rename_i hrow'
    exact hf row hrow hrow'.1 hrow'.2
  · exact h.rows row hrow

theorem low_exec (t : T) (o : Op) (c : Reply) (hlow : CountersLow stamps dialect t o c w)
    (h : Low dialect w) : Low dialect (exec stamps dialect t o c w).2 := by
  cases o with
  | append r =>
    refine attempt_cases (I := Low dialect) c h fun a w' hw' => ?_
    obtain ⟨rows, hrows, he⟩ := map_eq_ok hw'
    cases he
    obtain ⟨hdialect, _, rfl⟩ := append_eq_ok hrows
    refine h.update _ (List.forall_mem_append.2 ⟨h.rows, List.forall_mem_singleton.2 ?_⟩)
    exact ⟨hdialect, hlow.1, hlow.2, fun c hc => (nomatch hc)⟩
  | claim limit lease =>
    refine attempt_cases (I := Low dialect) c h fun a w' hw' => ?_
    obtain ⟨⟨records, rows⟩, hrows, he⟩ := map_eq_ok hw'
    cases he
    exact h.update _ (low_claim h hrows hlow)
  | handle record => exact h.update _ h.rows
  | markDone id =>
    refine attempt_cases (I := Low dialect) c h fun a w' hw' => ?_
    obtain ⟨rows, hrows, he⟩ := map_eq_ok hw'
    cases he
    rw [markDone_eq_ok hrows]
    refine h.update _ (low_mark h fun row hrow _ _ => ?_)
    have hold := h.rows row hrow
    exact ⟨hold.supported, hold.attempts, hold.next, hold.claimed⟩
  | markFailed id retryAfter =>
    refine attempt_cases (I := Low dialect) c h fun a w' hw' => ?_
    obtain ⟨rows, hrows, he⟩ := map_eq_ok hw'
    cases he
    obtain ⟨next, hnext, rfl⟩ := markFailed_eq_ok hrows
    refine h.update _ (low_mark h fun row hrow hid hstatus => ?_)
    exact ⟨(h.rows row hrow).supported, hlow.2 row hrow hid hstatus, checkedAdd_eq hnext ▸ hlow.1,
      fun c hc => (nomatch hc)⟩

theorem Low.ready (h : Low dialect w) (hids : (w.rows.map (·.id)).Nodup) (now : Int) :
    Ready dialect now w.rows :=
  ⟨hids, fun row hrow => Nat.le_of_lt (h.rows row hrow).attempts, fun row hrow => (h.rows row hrow).next,
    fun row hrow c hc => ⟨(h.rows row hrow).claimed c hc, fun _ _ => (h.rows row hrow).attempts⟩⟩

theorem delivers_of_low (hinv : Inv w) (hlow : Low dialect w) : Delivers stamps dialect w := by
  refine ⟨hinv.handled, hinv.kept, hinv.leased, ?_, ?_⟩
  · intro row hrow hstatus limit hlimit lease now hv hnext
    have hold := hlow.rows row hrow
    exact claims_return hold.supported hv hlimit (hlow.ready hinv.ids now) hrow
      ((due_iff hold.next hv.year).2 ⟨hstatus, hnext⟩)
  · intro row hrow hstatus claimed hclaimed limit hlimit lease now hv hexpired
    have hold := hlow.rows row hrow
    have hready := hlow.ready hinv.ids now
    obtain ⟨records, hids, hclaim⟩ := claim_ready stamps hready hv hlimit hold.supported
    refine ⟨records, _, hclaim, fun limit' hlimit' lease' later hv' hlater => ?_⟩
    have hstale : row.stale stamps (now - lease) = true :=
      (stale_iff hold.claimed).2 ⟨hstatus, claimed, hclaimed, by omega⟩
    have hback : row.claimedBy stamps (records.map (·.id)) now (now - lease) (now + staleBackoff) =
        row.reclaim (now + staleBackoff) := by
      rcases claimedBy_cases hready hids hrow (now - lease) (now + staleBackoff) with
        ⟨_, he⟩ | ⟨hdue, _⟩ | ⟨hmem, _⟩
      · exact he
      · simp [not_due_of_stale hstale] at hdue
      · simp [Row.claimedBy, hstale, hmem, Row.reclaim]
    change ∃ n, ClaimsReturn stamps dialect limit' lease' later (row.reclaim (now + staleBackoff)).id n _
    refine claims_return hold.supported hv' hlimit'
      (ready_claim hready hv hids (.inr fun row hrow => (hlow.rows row hrow).attempts))
      (List.mem_map.2 ⟨row, hrow, hback⟩) ?_
    refine (due_iff ?_ hv'.year).2 ⟨.inl rfl, hlater⟩
    have hyear := hv.year
    simp only [Row.reclaim, staleBackoff, second]
    omega

variable [DecidableEq T]

/-- In every run in which no retry counter reaches its largest value, the outbox delivers. -/
theorem outbox_delivers {now : Int} (hnow : yearZero ≤ now) {s : Sys T Op Res Outcome (World T)}
    (h : (relays T stamps dialect).Reach (CountersLow stamps dialect) (empty T now) s) :
    Delivers stamps dialect s.world := by
  refine delivers_of_low (inv_of_reach (h.mono fun _ _ _ _ _ => trivial)) ?_
  refine h.world_inv (I := Low dialect) (fun t o c w hlow hw => low_exec t o c hlow hw) (fun _ hw => hw) ?_
    ⟨hnow, fun _ hrow => (nomatch hrow)⟩
  rintro _ w _ ⟨t, hlater, _, rfl⟩ hw
  exact ⟨Int.le_trans hw.clock hlater, hw.rows⟩

/-- A relay is lost with the record in its hands. -/
theorem outbox_delivers_after_loss :
    ∃ s, (relays Bool chronological .sqlite).Reach (CountersLow chronological .sqlite) (empty Bool 0) s ∧
      s.world.rows = [⟨"a", "order", [1], .processing, 0, 0, some 0⟩] ∧
      Delivers chronological .sqlite s.world := by
  have appended := Host.Reach.launch (relays Bool chronological .sqlite) (CountersLow chronological .sqlite)
    true (.append order) [.ok] (empty Bool 0) rfl trivial ⟨⟨by decide, by decide⟩, trivial⟩
  have hfresh : CountersLow chronological .sqlite false (.claim 10 (60 * second)) .ok
      ⟨0, [⟨"a", "order", [1], .pending, 0, 0, none⟩], [.appended order]⟩ := by
    rintro row hrow hstale
    cases List.mem_singleton.1 hrow
    cases hstale
  have started := appended.tail (.start false (.runOnce 10 (60 * second)) rfl trivial)
  have lost := (started.tail (.call .ok rfl hfresh)).tail (.stop false)
  exact ⟨_, lost, rfl, outbox_delivers (by decide) lost⟩

/-- A record that comes with the largest counter and then fails once can no longer be read, and every
claim that selects it fails. -/
theorem full_counter_blocks_claims :
    ¬ ∀ s, (relays Bool chronological .sqlite).Reach Host.Free (empty Bool 0) s →
      Delivers chronological .sqlite s.world := by
  intro hall
  have appended := Host.Reach.launch (relays Bool chronological .sqlite) Host.Free true
    (.append { order with attempts := 4294967295 }) [.ok] (empty Bool 0) rfl trivial (Host.permits_free ..)
  have failed := appended.trans (Host.Reach.launch (relays Bool chronological .sqlite) Host.Free false
    (.runOnce 10 (60 * second)) [.ok, .handled (.error "no route"), .ok] _ rfl trivial (Host.permits_free ..))
  obtain ⟨n, hn⟩ := (hall _ failed).due ⟨"a", "order", [1], .failed, 4294967296, 3600 * second, none⟩
    (by decide) (.inr rfl) 10 (by decide) (60 * second) (3600 * second)
    ⟨by decide, by decide, by decide, by decide⟩ (by decide)
  cases n with
  | zero => exact hn
  | succ n =>
    obtain ⟨records, rows, hclaim, _⟩ := hn
    cases hclaim

end Ecat.Outbox
