import Ecat.OutboxDelivery
import Ecat.Runs

/-! The lease of a claim. A call of `claim` or `mark_failed` reads the clock first, and its transaction
runs any time later; between two claims of a record without a failure of it lies the lease and the
backoff of a stale row. -/

namespace Ecat.Outbox

/-- The text of an instant before year zero comes before that of any later one. -/
structure TextStamps extends Stamps where
  not_le_of_signed : ∀ a b, a < yearZero → yearZero ≤ b → le b a = false

/-- A call that has read the clock. -/
inductive Pending
  | claim (limit : UInt32) (reading : Int)
  | markFailed (id : String) (retryAfter reading : Int)

/-- What the transactions did, in order: a claim with the records it leased, and the marks that met a
row in `processing`. -/
inductive Note
  | claimed (ids : List String) (reading : Int)
  | failed (id : String)
  | done (id : String)

structure Store (T : Type) where
  clock : Int
  rows : List Row
  pending : T → Option Pending
  log : List Note

def Store.init (T : Type) (now : Int) : Store T := ⟨now, [], fun _ => none, []⟩

inductive Act (T : Type)
  | tick (now : Int)
  | append (record : OutboxRecord)
  | claim (t : T) (limit : UInt32)
  | markFailed (t : T) (id : String) (retryAfter : Int)
  | run (t : T)
  | markDone (id : String)

section

variable {T : Type} [DecidableEq T] (stamps : Stamps) (dialect : Dialect) (lease : Int)

def Store.open (s : Store T) (t : T) (call : Pending) : Option (Store T) :=
  if (s.pending t).isNone then some { s with pending := Function.update s.pending t (some call) } else none

def Store.close (s : Store T) (t : T) : Store T := { s with pending := Function.update s.pending t none }

/-- The note of a mark that meets a row in `processing`. -/
def marks (id : String) (note : Note) (rows : List Row) : List Note :=
  if rows.any fun row => row.id = id ∧ row.status = .processing then [note] else []

def Store.runClaim (s : Store T) (limit : UInt32) (reading : Int) : Store T :=
  match Outbox.claim stamps dialect limit lease reading s.rows with
  | .error _ => s
  | .ok (records, rows) => { s with rows, log := s.log ++ [.claimed (records.map (·.id)) reading] }

def Store.runMarkFailed (s : Store T) (id : String) (retryAfter reading : Int) : Store T :=
  match Outbox.markFailed dialect id retryAfter reading s.rows with
  | .error _ => s
  | .ok rows => { s with rows, log := s.log ++ marks id (.failed id) s.rows }

def Store.runMarkDone (s : Store T) (id : String) : Store T :=
  match Outbox.markDone dialect id s.rows with
  | .error _ => s
  | .ok rows => { s with rows, log := s.log ++ marks id (.done id) s.rows }

def Store.runAppend (s : Store T) (record : OutboxRecord) : Store T :=
  match Outbox.append dialect record s.rows with
  | .error _ => s
  | .ok rows => { s with rows }

def Store.run (s : Store T) : Pending → Store T
  | .claim limit reading => s.runClaim stamps dialect lease limit reading
  | .markFailed id retryAfter reading => s.runMarkFailed dialect id retryAfter reading

def storeStep (s : Store T) : Act T → Option (Store T)
  | .tick now => if s.clock ≤ now then some { s with clock := now } else none
  | .append record => some (s.runAppend dialect record)
  | .claim t limit => s.open t (.claim limit s.clock)
  | .markFailed t id retryAfter => s.open t (.markFailed id retryAfter s.clock)
  | .run t => (s.pending t).map fun call => (s.close t).run stamps dialect lease call
  | .markDone id => some (s.runMarkDone dialect id)

end

/-! ### The claims that are still open -/

/-- A claim with this reading returned the record, and no failure of it was marked since. -/
def Open (log : List Note) (id : String) (reading : Int) : Prop :=
  ∃ (pre : List Note) (ids : List String) (post : List Note),
    log = pre ++ Note.claimed ids reading :: post ∧ id ∈ ids ∧ Note.failed id ∉ post

theorem open_snoc {log : List Note} {note : Note} {id : String} {reading : Int}
    (h : Open (log ++ [note]) id reading) :
    (∃ ids, note = .claimed ids reading ∧ id ∈ ids) ∨ (note ≠ .failed id ∧ Open log id reading) := by
  obtain ⟨pre, ids, post, heq, hid, hpost⟩ := h
  rcases List.eq_nil_or_concat post with rfl | ⟨post, last, rfl⟩
  · have hlast := (List.append_inj' heq rfl).2
    exact .inl ⟨ids, List.head_eq_of_cons_eq hlast, hid⟩
  · have hsplit : log ++ [note] = (pre ++ .claimed ids reading :: post) ++ [last] := by simpa using heq
    obtain ⟨hlog, hlast⟩ := List.append_inj' hsplit rfl
    have hnote : note = last := List.head_eq_of_cons_eq hlast
    refine .inr ⟨?_, pre, ids, post, hlog, hid, ?_⟩
    · rintro rfl
      exact hpost (by simp [hnote])
    · intro hmem
      exact hpost (by simp [hmem])

theorem open_marks {log : List Note} {rows : List Row} {id : String} {note : Note} {other : String} {reading : Int}
    (hnote : ∀ ids r, note ≠ .claimed ids r) (h : Open (log ++ marks id note rows) other reading) :
    Open log other reading ∧
      (note = .failed other → ∀ row ∈ rows, row.id = id → row.status ≠ .processing) := by
  unfold marks at h
  split_ifs at h with hany
  · rcases open_snoc h with ⟨ids, heq, -⟩ | ⟨hne, hopen⟩
    · exact absurd heq (hnote ids reading)
    · exact ⟨hopen, fun heq => absurd heq hne⟩
  · rw [List.append_nil] at h
    refine ⟨h, fun _ row hrow hid hstatus => hany ?_⟩
    exact List.any_eq_true.2 ⟨row, hrow, by simp [hid, hstatus]⟩

/-! ### What holds of a row with an open claim -/

/-- The row is still leased, or has to wait for the lease and the backoff after the claim, or is done. -/
inductive Held (lease reading : Int) (row : Row) : Prop
  | done (hstatus : row.status = .done)
  | leased (at' : Int) (hstatus : row.status = .processing) (hclaimed : row.claimedAt = some at')
      (hle : reading ≤ at') (hyear : yearZero ≤ at')
  | waits (hstatus : row.status = .pending) (hlt : reading + lease + staleBackoff < row.nextAttemptAt)
      (hyear : yearZero ≤ row.nextAttemptAt)

section

variable {stamps : TextStamps} {lease reading now : Int} {row : Row}

theorem due_year (hnext : yearZero ≤ row.nextAttemptAt) (h : row.due stamps.toStamps now = true) :
    yearZero ≤ now ∧ row.nextAttemptAt ≤ now := by
  have hyear : yearZero ≤ now := by
    by_contra hlt
    rw [Row.due, stamps.not_le_of_signed now row.nextAttemptAt (Int.not_le.1 hlt) hnext, Bool.and_false] at h
    cases h
  exact ⟨hyear, ((due_iff hnext hyear).1 h).2⟩

theorem staleBackoff_pos : 0 < staleBackoff := by
  simp only [staleBackoff, second]
  omega

theorem Held.reclaim (h : Held lease reading row) (hlease : 0 < lease) :
    Held lease reading
      (if row.stale stamps.toStamps (now - lease) then row.reclaim (now + staleBackoff) else row) := by
  have hback := staleBackoff_pos
  split_ifs with hstale
  · have hprocessing : row.status = .processing := by
      rw [Row.stale, Bool.and_eq_true, beq_iff_eq] at hstale
      exact hstale.1
    cases h with
    | done hstatus => exact absurd (hstatus.symm.trans hprocessing) (by decide)
    | leased at' hstatus hclaimed hle hyear =>
      have hbound : ∀ c, row.claimedAt = some c → yearZero ≤ c := by
        intro c hc
        rw [hclaimed] at hc
        exact Option.some.inj hc ▸ hyear
      obtain ⟨-, c, hc, hlt⟩ := (stale_iff hbound).1 hstale
      rw [hclaimed] at hc
      have hcat := Option.some.inj hc
      refine .waits rfl ?_ ?_
      · change reading + lease + staleBackoff < now + staleBackoff
        omega
      · change yearZero ≤ now + staleBackoff
        omega
    | waits hstatus => exact absurd (hstatus.symm.trans hprocessing) (by decide)
  · exact h

theorem Held.due (h : Held lease reading row) (hnext : yearZero ≤ row.nextAttemptAt)
    (hdue : row.due stamps.toStamps now = true) : reading + lease + staleBackoff < now := by
  obtain ⟨hyear, hle⟩ := due_year hnext hdue
  have hstatus := ((due_iff hnext hyear).1 hdue).1
  cases h with
  | done hdone =>
    rw [hdone] at hstatus
    exact absurd hstatus (by decide)
  | leased at' hprocessing =>
    rw [hprocessing] at hstatus
    exact absurd hstatus (by decide)
  | waits hpending hlt => exact lt_of_lt_of_le hlt hle

end

/-! ### What a claim returns -/

/-- The row as the first update of a claim leaves it. -/
def Row.recovered (stamps : Stamps) (lease reading : Int) (row : Row) : Row :=
  if row.stale stamps (reading - lease) then row.reclaim (reading + staleBackoff) else row

def Row.leased (reading : Int) (row : Row) : Row := { row with status := .processing, claimedAt := some reading }

theorem recovered_id (stamps : Stamps) (lease reading : Int) (row : Row) :
    (row.recovered stamps lease reading).id = row.id := by
  unfold Row.recovered
  split_ifs
  · rfl
  · rfl

theorem recovered_done {stamps : Stamps} {lease reading : Int} {row : Row} (h : row.status = .done) :
    row.recovered stamps lease reading = row := by
  rw [Row.recovered, if_neg]
  intro hstale
  rw [Row.stale, h] at hstale
  cases hstale

section

variable {stamps : Stamps} {dialect : Dialect} {limit : UInt32} {lease reading : Int} {rows rows' : List Row}
  {records : List OutboxRecord}

theorem fromRows_ids {picked : List Row} (h : fromRows picked = .ok records) :
    records.map (·.id) = picked.map (·.id) := by
  have hread := fromRows_eq_ok h
  clear h
  induction hread with
  | nil => rfl
  | cons hfirst _ ih =>
    obtain ⟨-, -, rfl⟩ := fromRow_eq_ok hfirst
    rw [List.map_cons, List.map_cons, ih]

theorem claim_spec (hnodup : (rows.map (·.id)).Nodup)
    (h : Outbox.claim stamps dialect limit lease reading rows = .ok (records, rows')) :
    (records.map (·.id)).Nodup ∧
    (∀ id ∈ records.map (·.id), ∃ row ∈ rows, row.id = id ∧
      (row.recovered stamps lease reading).due stamps reading = true ∧
      yearZero ≤ (row.recovered stamps lease reading).nextAttemptAt) ∧
    ∃ f : Row → Row, rows' = rows.map f ∧ (∀ row, (f row).id = row.id) ∧ ∀ row,
      (row.id ∈ records.map (·.id) → f row = (row.recovered stamps lease reading).leased reading) ∧
      (row.id ∉ records.map (·.id) → f row = row ∨ f row = row.recovered stamps lease reading) := by
  obtain ⟨rfl, rfl⟩ | ⟨cutoff, staleNext, picked, hcutoff, hstale, hpicked, rfl, rfl⟩ := claim_eq_ok h
  · exact ⟨List.nodup_nil, by simp, id, by simp, fun _ => rfl, fun _ => ⟨by simp, fun _ => .inl rfl⟩⟩
  have hcutoff := checkedAdd_eq hcutoff
  have hstale := checkedAdd_eq hstale
  rw [← Int.sub_eq_add_neg] at hcutoff
  subst hcutoff hstale
  have hids : (picked.map fun r => { r with status := .processing }).map (·.id) = picked.map (·.id) := by
    rw [List.map_map]
    rfl
  have hrecovered : reclaimStale stamps (reading - lease) (reading + staleBackoff) rows =
      rows.map (Row.recovered stamps lease reading) := rfl
  have hreclaimed : (rows.map (Row.recovered stamps lease reading)).map (·.id) = rows.map (·.id) := by
    rw [List.map_map]
    exact List.map_congr_left fun row _ => recovered_id stamps lease reading row
  rw [hids]
  rw [hrecovered] at hpicked
  refine ⟨?_, ?_, ?_⟩
  · rw [fromRows_ids hpicked]
    have hperm := (List.perm_insertionSort (fun a b => a.before stamps b = true)
      ((rows.map (Row.recovered stamps lease reading)).filter (·.due stamps reading))).map (·.id)
    have hfilter : (((rows.map (Row.recovered stamps lease reading)).filter (·.due stamps reading)).map
        (·.id)).Nodup := by
      rw [← hreclaimed] at hnodup
      exact hnodup.sublist (List.filter_sublist.map _)
    exact (hperm.nodup_iff.2 hfilter).sublist ((List.take_sublist _ _).map _)
  · intro id hid
    obtain ⟨record, hrecord, rfl⟩ := List.mem_map.1 hid
    obtain ⟨found, hfound, hread⟩ := exists_right_of_forall₂ (fromRows_eq_ok hpicked).flip hrecord
    obtain ⟨hmem, hdue⟩ := selectDue_subset hfound
    obtain ⟨row, hrow, rfl⟩ := List.mem_map.1 hmem
    obtain ⟨-, hyear, rfl⟩ := fromRow_eq_ok hread
    exact ⟨row, hrow, (recovered_id stamps lease reading row).symm, hdue, hyear⟩
  · rw [hrecovered, leaseRows, List.map_map]
    refine ⟨_, rfl, ?_, ?_⟩
    · intro row
      rw [Function.comp_apply]
      split_ifs
      · exact recovered_id stamps lease reading row
      · exact recovered_id stamps lease reading row
    · intro row
      have hid := recovered_id stamps lease reading row
      constructor
      · intro hmem
        exact if_pos (by rwa [hid])
      · intro hmem
        exact .inr (if_neg (by rwa [hid]))

end

/-! ### Over every run -/

/-- A claim returns no record twice and none that was marked done, and the clock readings of two claims
of a record, with no failure marked in between, are further apart than the lease and the backoff. -/
def Apart (lease : Int) (pre : List Note) (note : Note) : Prop :=
  ∀ ids reading, note = .claimed ids reading → ids.Nodup ∧ ∀ id ∈ ids, .done id ∉ pre ∧
    ∀ earlier, Open pre id earlier → earlier + lease + staleBackoff < reading

structure Leasing {T : Type} (lease : Int) (s : Store T) : Prop where
  nodup : (s.rows.map (·.id)).Nodup
  known : ∀ ids reading, .claimed ids reading ∈ s.log → ∀ id ∈ ids, ∃ row ∈ s.rows, row.id = id
  held : ∀ row ∈ s.rows, ∀ reading, Open s.log row.id reading → Held lease reading row
  done : ∀ id, .done id ∈ s.log → ∃ row ∈ s.rows, row.id = id ∧ row.status = .done
  logged : ∀ row ∈ s.rows, row.status = .done → .done row.id ∈ s.log
  apart : Always (Apart lease) s.log

section

variable {T : Type} {stamps : TextStamps} {dialect : Dialect} {lease : Int} {s : Store T}

theorem leasing_init (now : Int) : Leasing lease (Store.init T now) where
  nodup := List.nodup_nil
  known := by
    intro ids reading h
    cases h
  held := by
    intro row hrow
    cases hrow
  done := by
    intro id h
    cases h
  logged := by
    intro row hrow
    cases hrow
  apart := always_nil

theorem row_unique {rows : List Row} (h : (rows.map (·.id)).Nodup) {a b : Row} (ha : a ∈ rows) (hb : b ∈ rows)
    (hid : a.id = b.id) : a = b := List.inj_on_of_nodup_map h ha hb hid

theorem Open.mem {log : List Note} {id : String} {reading : Int} (h : Open log id reading) :
    ∃ ids, .claimed ids reading ∈ log ∧ id ∈ ids := by
  obtain ⟨pre, ids, post, rfl, hid, -⟩ := h
  exact ⟨ids, by simp, hid⟩

theorem Leasing.runAppend (h : Leasing lease s) (record : OutboxRecord) :
    Leasing lease (s.runAppend dialect record) := by
  unfold Store.runAppend
  split
  · exact h
  next rows hrows =>
    obtain ⟨-, hfresh, rfl⟩ := append_eq_ok hrows
    refine ⟨?_, ?_, ?_, ?_, ?_, h.apart⟩
    · rw [List.map_append]
      refine List.nodup_append.2 ⟨h.nodup, List.nodup_singleton _, ?_⟩
      intro a ha b hb hab
      obtain ⟨row, hrow, rfl⟩ := List.mem_map.1 ha
      rw [List.mem_singleton.1 hb] at hab
      exact hfresh row hrow hab
    · intro ids reading hmem id hid
      obtain ⟨row, hrow, hrid⟩ := h.known ids reading hmem id hid
      exact ⟨row, List.mem_append_left _ hrow, hrid⟩
    · intro row hrow reading hopen
      rcases List.mem_append.1 hrow with hrow | hrow
      · exact h.held row hrow reading hopen
      · rw [List.mem_singleton.1 hrow] at hopen
        obtain ⟨ids, hmem, hid⟩ := hopen.mem
        obtain ⟨old, hold, hoid⟩ := h.known ids reading hmem _ hid
        exact absurd hoid (hfresh old hold)
    · intro id hmem
      obtain ⟨row, hrow, hrest⟩ := h.done id hmem
      exact ⟨row, List.mem_append_left _ hrow, hrest⟩
    · intro row hrow hstatus
      rcases List.mem_append.1 hrow with hrow | hrow
      · exact h.logged row hrow hstatus
      · rw [List.mem_singleton.1 hrow] at hstatus
        cases hstatus

theorem mem_marks {id : String} {note other : Note} {rows : List Row} :
    other ∈ marks id note rows ↔ other = note ∧ ∃ row ∈ rows, row.id = id ∧ row.status = .processing := by
  have hany : (rows.any fun row => row.id = id ∧ row.status = .processing) = true ↔
      ∃ row ∈ rows, row.id = id ∧ row.status = .processing := by simp
  unfold marks
  split_ifs with hmet
  · rw [List.mem_singleton, and_iff_left (hany.1 hmet)]
  · exact iff_of_false List.not_mem_nil fun h => hmet (hany.2 h.2)

theorem updateProcessing_id {id : String} {f : Row → Row} (hid : ∀ row, (f row).id = row.id) (row : Row) :
    (if row.id = id ∧ row.status = .processing then f row else row).id = row.id := by
  split_ifs
  · exact hid row
  · rfl

theorem updateProcessing_ids {f : Row → Row} (hid : ∀ row, (f row).id = row.id) (id : String) (rows : List Row) :
    (updateProcessing id f rows).map (·.id) = rows.map (·.id) := by
  rw [updateProcessing, List.map_map]
  exact List.map_congr_left fun row _ => updateProcessing_id hid row

/-- A row that is done is none in `processing`. -/
theorem exists_updateProcessing {f : Row → Row} (hid : ∀ row, (f row).id = row.id) (id : String) {rows : List Row}
    {row : Row} (hrow : row ∈ rows) :
    ∃ row' ∈ updateProcessing id f rows, row'.id = row.id ∧ (row.status = .done → row' = row) := by
  refine ⟨_, List.mem_map_of_mem hrow, updateProcessing_id hid row, ?_⟩
  intro hdone
  rw [if_neg]
  rintro ⟨-, hstatus⟩
  exact absurd (hdone.symm.trans hstatus) (by decide)

/-- A mark rewrites the rows of its id that are in `processing`, and leaves all others. -/
theorem Leasing.mark (h : Leasing lease s) {id : String} {note : Note} {f : Row → Row}
    (hnote : (note = .failed id ∧ ∀ row, (f row).status = .failed) ∨
      (note = .done id ∧ ∀ row, (f row).status = .done))
    (hid : ∀ row, (f row).id = row.id) :
    Leasing lease { s with rows := updateProcessing id f s.rows, log := s.log ++ marks id note s.rows } := by
  have hclaimed : ∀ ids r, note ≠ .claimed ids r := by
    intro ids r heq
    rcases hnote with ⟨rfl, -⟩ | ⟨rfl, -⟩
    · cases heq
    · cases heq
  refine ⟨?_, ?_, ?_, ?_, ?_, ?_⟩
  · rw [updateProcessing_ids hid]
    exact h.nodup
  · intro ids reading hlog other hother
    rcases List.mem_append.1 hlog with hlog | hlog
    · obtain ⟨row, hrow, rfl⟩ := h.known ids reading hlog other hother
      obtain ⟨row', hrow', hrid, -⟩ := exists_updateProcessing hid id hrow
      exact ⟨row', hrow', hrid⟩
    · exact absurd (mem_marks.1 hlog).1.symm (hclaimed ids reading)
  · intro row' hrow' reading hopen
    obtain ⟨row, hrow, rfl⟩ := List.mem_map.1 hrow'
    rw [updateProcessing_id hid] at hopen
    obtain ⟨hold, hfailed⟩ := open_marks hclaimed hopen
    split_ifs with hmet
    · rcases hnote with ⟨rfl, -⟩ | ⟨rfl, hdone⟩
      · exact absurd hmet.2 (hfailed (by rw [hmet.1]) row hrow hmet.1)
      · exact .done (hdone row)
    · exact h.held row hrow reading hold
  · intro other hlog
    rcases List.mem_append.1 hlog with hlog | hlog
    · obtain ⟨row, hrow, hrid, hstatus⟩ := h.done other hlog
      obtain ⟨row', hrow', hrid', hsame⟩ := exists_updateProcessing hid id hrow
      exact ⟨row', hrow', hrid'.trans hrid, by rw [hsame hstatus, hstatus]⟩
    · obtain ⟨heq, row, hrow, hmet⟩ := mem_marks.1 hlog
      rcases hnote with ⟨rfl, -⟩ | ⟨rfl, hdone⟩
      · cases heq
      · cases heq
        refine ⟨f row, List.mem_map.2 ⟨row, hrow, if_pos hmet⟩, ?_, hdone row⟩
        rw [hid row, hmet.1]
  · intro row' hrow' hstatus
    obtain ⟨row, hrow, rfl⟩ := List.mem_map.1 hrow'
    split_ifs at hstatus ⊢ with hmet
    · rcases hnote with ⟨rfl, hfailed⟩ | ⟨rfl, -⟩
      · exact absurd ((hfailed row).symm.trans hstatus) (by decide)
      · rw [hid row, hmet.1]
        exact List.mem_append_right _ (mem_marks.2 ⟨rfl, row, hrow, hmet⟩)
    · exact List.mem_append_left _ (h.logged row hrow hstatus)
  · refine h.apart.append ?_
    intro e he pre ids reading heq
    exact absurd ((mem_marks.1 he).1.symm.trans heq) (hclaimed ids reading)

theorem Leasing.runClaim (h : Leasing lease s) (hlease : 0 < lease) (limit : UInt32) (reading : Int) :
    Leasing lease (s.runClaim stamps.toStamps dialect lease limit reading) := by
  unfold Store.runClaim
  split
  · exact h
  next records rows hclaim =>
  obtain ⟨hidsNodup, hdue, f, rfl, hfid, hf⟩ := claim_spec h.nodup hclaim
  generalize records.map (·.id) = ids at *
  have hback := staleBackoff_pos
  have hpicked : ∀ id ∈ ids, .done id ∉ s.log ∧ yearZero ≤ reading ∧
      ∀ earlier, Open s.log id earlier → earlier + lease + staleBackoff < reading := by
    intro id hid
    obtain ⟨row, hrow, rfl, hrowdue, hyear⟩ := hdue id hid
    refine ⟨?_, (due_year hyear hrowdue).1, ?_⟩
    · intro hlog
      obtain ⟨other, hother, hoid, hdone⟩ := h.done row.id hlog
      cases row_unique h.nodup hother hrow hoid
      rw [recovered_done hdone, Row.due, hdone] at hrowdue
      cases hrowdue
    · intro earlier hopen
      exact ((h.held row hrow earlier hopen).reclaim hlease).due hyear hrowdue
  have hids : (s.rows.map f).map (·.id) = s.rows.map (·.id) := by
    rw [List.map_map]
    exact List.map_congr_left fun row _ => hfid row
  refine ⟨?_, ?_, ?_, ?_, ?_, ?_⟩
  · rw [hids]
    exact h.nodup
  · intro ids' r hlog id hid
    have hrow : ∃ row ∈ s.rows, row.id = id := by
      rcases List.mem_append.1 hlog with hlog | hlog
      · exact h.known ids' r hlog id hid
      · cases List.mem_singleton.1 hlog
        obtain ⟨row, hrow, hrid, -⟩ := hdue id hid
        exact ⟨row, hrow, hrid⟩
    obtain ⟨row, hrow, rfl⟩ := hrow
    exact ⟨f row, List.mem_map_of_mem hrow, hfid row⟩
  · intro row' hrow' r hopen
    obtain ⟨row, hrow, rfl⟩ := List.mem_map.1 hrow'
    rw [hfid] at hopen
    by_cases hmem : row.id ∈ ids
    · rw [(hf row).1 hmem]
      have hle : r ≤ reading := by
        rcases open_snoc hopen with ⟨ids', heq, -⟩ | ⟨-, hold⟩
        · cases heq
          exact le_refl _
        · have hlt := (hpicked row.id hmem).2.2 r hold
          omega
      exact .leased reading rfl rfl hle (hpicked row.id hmem).2.1
    · have hheld : Held lease r row := by
        rcases open_snoc hopen with ⟨ids', heq, hid⟩ | ⟨-, hold⟩
        · cases heq
          exact absurd hid hmem
        · exact h.held row hrow r hold
      rcases (hf row).2 hmem with heq | heq
      · rw [heq]
        exact hheld
      · rw [heq]
        exact hheld.reclaim hlease
  · intro id hlog
    have hold : .done id ∈ s.log := by simpa using hlog
    obtain ⟨row, hrow, rfl, hdone⟩ := h.done id hold
    have hmem : row.id ∉ ids := fun hmem => (hpicked row.id hmem).1 hold
    refine ⟨f row, List.mem_map_of_mem hrow, hfid row, ?_⟩
    rcases (hf row).2 hmem with heq | heq
    · rw [heq, hdone]
    · rw [heq, recovered_done hdone, hdone]
  · intro row' hrow' hstatus
    obtain ⟨row, hrow, rfl⟩ := List.mem_map.1 hrow'
    rw [hfid]
    apply List.mem_append_left
    apply h.logged row hrow
    by_cases hmem : row.id ∈ ids
    · rw [(hf row).1 hmem] at hstatus
      cases hstatus
    · rcases (hf row).2 hmem with heq | heq
      · rwa [heq] at hstatus
      · rw [heq, Row.recovered] at hstatus
        split_ifs at hstatus
        · cases hstatus
        · exact hstatus
  · refine h.apart.snoc ?_
    intro ids' r heq
    cases heq
    exact ⟨hidsNodup, fun id hid => ⟨(hpicked id hid).1, (hpicked id hid).2.2⟩⟩

theorem Leasing.runMarkFailed (h : Leasing lease s) (id : String) (retryAfter reading : Int) :
    Leasing lease (s.runMarkFailed dialect id retryAfter reading) := by
  unfold Store.runMarkFailed
  split
  · exact h
  next rows hrows =>
    obtain ⟨next, -, rfl⟩ := markFailed_eq_ok hrows
    exact h.mark (.inl ⟨rfl, fun _ => rfl⟩) fun _ => rfl

theorem Leasing.runMarkDone (h : Leasing lease s) (id : String) : Leasing lease (s.runMarkDone dialect id) := by
  unfold Store.runMarkDone
  split
  · exact h
  next rows hrows =>
    cases markDone_eq_ok hrows
    exact h.mark (.inr ⟨rfl, fun _ => rfl⟩) fun _ => rfl

theorem Leasing.run (h : Leasing lease s) (hlease : 0 < lease) (call : Pending) :
    Leasing lease (s.run stamps.toStamps dialect lease call) := by
  cases call with
  | claim limit reading => exact h.runClaim hlease limit reading
  | markFailed id retryAfter reading => exact h.runMarkFailed id retryAfter reading

variable [DecidableEq T]

theorem Leasing.step (hlease : 0 < lease) (s : Store T) (a : Act T) (t : Store T) (h : Leasing lease s)
    (hstep : storeStep stamps.toStamps dialect lease s a = some t) : Leasing lease t := by
  cases a with
  | tick now =>
    simp only [storeStep] at hstep
    split_ifs at hstep
    cases hstep
    exact ⟨h.nodup, h.known, h.held, h.done, h.logged, h.apart⟩
  | append record =>
    cases hstep
    exact h.runAppend record
  | claim t limit =>
    simp only [storeStep, Store.open] at hstep
    split_ifs at hstep
    cases hstep
    exact ⟨h.nodup, h.known, h.held, h.done, h.logged, h.apart⟩
  | markFailed t id retryAfter =>
    simp only [storeStep, Store.open] at hstep
    split_ifs at hstep
    cases hstep
    exact ⟨h.nodup, h.known, h.held, h.done, h.logged, h.apart⟩
  | run t =>
    obtain ⟨call, -, rfl⟩ := Option.map_eq_some_iff.1 hstep
    have hclose : Leasing lease (s.close t) := ⟨h.nodup, h.known, h.held, h.done, h.logged, h.apart⟩
    exact hclose.run hlease call
  | markDone id =>
    cases hstep
    exact h.runMarkDone id

end

def chronologicalText : TextStamps where
  toStamps := chronological
  not_le_of_signed := by
    intro a b ha hb
    exact decide_eq_false (by omega)

/-- A record is claimed, its lease runs out, and a late claim takes it back and returns it. -/
def reclaimed : List (Act Bool) :=
  [.append order, .claim false 1, .run false, .tick (61 * second), .claim true 1, .run true,
    .tick (92 * second), .claim false 1, .run false]

end Ecat.Outbox
