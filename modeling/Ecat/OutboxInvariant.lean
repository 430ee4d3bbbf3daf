import Ecat.OutboxHost
import Ecat.Chunks

/-! What relays and producers keep true of the outbox in every run: no record is lost,
a row being processed carries the time of its claim, and a row is done only after its
handler has returned well. -/

namespace Ecat.Outbox

variable {T : Type} {stamps : Stamps} {dialect : Dialect} {w w' : World T}

def Row.Is (row : Row) (record : OutboxRecord) : Prop :=
  row.id = record.id ∧ row.aggregate = record.aggregate ∧ row.payload = record.payload

def Row.Same (a b : Row) : Prop := a.id = b.id ∧ a.aggregate = b.aggregate ∧ a.payload = b.payload

theorem Row.Same.is {a b : Row} {record : OutboxRecord} (h : a.Same b) (hb : b.Is record) : a.Is record :=
  ⟨h.1.trans hb.1, h.2.1.trans hb.2.1, h.2.2.trans hb.2.2⟩

structure Inv (w : World T) : Prop where
  ids : (w.rows.map (·.id)).Nodup
  kept : ∀ r, .appended r ∈ w.log → ∃ row ∈ w.rows, row.Is r
  leased : ∀ row ∈ w.rows, row.status = .processing → row.claimedAt.isSome = true
  handled : ∀ row ∈ w.rows, row.status = .done → ∃ record, row.Is record ∧ .handled record true ∈ w.log

theorem inv_empty (now : Int) : Inv (empty T now).world :=
  ⟨List.nodup_nil, fun _ h => (nomatch h), fun _ h => (nomatch h), fun _ h => (nomatch h)⟩

structure Grows (w w' : World T) : Prop where
  rows : ∀ row ∈ w.rows, ∃ row' ∈ w'.rows, row'.Same row
  log : ∀ e ∈ w.log, e ∈ w'.log

theorem Grows.refl (w : World T) : Grows w w := ⟨fun row h => ⟨row, h, rfl, rfl, rfl⟩, fun _ h => h⟩

theorem Grows.trans {w₁ w₂ w₃ : World T} (h : Grows w₁ w₂) (h' : Grows w₂ w₃) : Grows w₁ w₃ := by
  refine ⟨fun row hrow => ?_, fun e he => h'.log e (h.log e he)⟩
  obtain ⟨row₂, hrow₂, hsame⟩ := h.rows row hrow
  obtain ⟨row₃, hrow₃, hsame'⟩ := h'.rows row₂ hrow₂
  exact ⟨row₃, hrow₃, hsame'.1.trans hsame.1, hsame'.2.1.trans hsame.2.1, hsame'.2.2.trans hsame.2.2⟩

theorem grows_map {f : Row → Row} (hf : ∀ row, (f row).Same row) (events : List (Event T)) :
    Grows w (w.update (w.rows.map f) events) :=
  ⟨fun row h => ⟨f row, List.mem_map_of_mem h, hf row⟩, fun _ h => List.mem_append_left _ h⟩

theorem Inv.map (h : Inv w) {f : Row → Row} (hf : ∀ row, (f row).Same row) (events : List (Event T))
    (hevents : ∀ r, .appended r ∉ events)
    (hleased : ∀ row ∈ w.rows, (f row).status = .processing → (f row).claimedAt.isSome = true)
    (hdone : ∀ row ∈ w.rows, (f row).status = .done →
      ∃ record, row.Is record ∧ .handled record true ∈ w.log ++ events) :
    Inv (w.update (w.rows.map f) events) := by
  have hids : (w.rows.map f).map (·.id) = w.rows.map (·.id) := by
    rw [List.map_map]
    exact List.map_congr_left fun row _ => (hf row).1
  refine ⟨hids ▸ h.ids, fun r hr => ?_, List.forall_mem_map.2 hleased, List.forall_mem_map.2 ?_⟩
  · obtain ⟨row, hrow, his⟩ := h.kept r ((List.mem_append.1 hr).resolve_right (hevents r))
    exact ⟨f row, List.mem_map_of_mem hrow, (hf row).is his⟩
  · intro row hrow hstatus
    obtain ⟨record, his, hlog⟩ := hdone row hrow hstatus
    exact ⟨record, (hf row).is his, hlog⟩

/-! ### The calls -/

theorem inv_append (h : Inv w) {r : OutboxRecord} {rows : List Row}
    (hrows : append dialect r w.rows = .ok rows) :
    Inv (w.update rows [.appended r]) ∧ Grows w (w.update rows [.appended r]) := by
  obtain ⟨_, hid, rfl⟩ := append_eq_ok hrows
  refine ⟨⟨?_, fun r' hr' => ?_, fun row hrow hstatus => ?_, fun row hrow hstatus => ?_⟩,
    ⟨fun row hrow => ⟨row, List.mem_append_left _ hrow, rfl, rfl, rfl⟩,
      fun _ he => List.mem_append_left _ he⟩⟩
  · simp only [World.update, List.map_append, List.map_cons, List.map_nil, List.nodup_append]
    refine ⟨h.ids, List.nodup_singleton _, ?_⟩
    simp only [List.mem_map, List.mem_singleton]
    rintro _ ⟨row, hrow, rfl⟩ _ rfl
    exact hid row hrow
  · rcases List.mem_append.1 hr' with hr' | hr'
    · obtain ⟨row, hrow, his⟩ := h.kept r' hr'
      exact ⟨row, List.mem_append_left _ hrow, his⟩
    · cases List.mem_singleton.1 hr'
      exact ⟨_, List.mem_append_right _ (List.mem_singleton.2 rfl), rfl, rfl, rfl⟩
  · rcases List.mem_append.1 hrow with hrow | hrow
    · exact h.leased row hrow hstatus
    · cases List.mem_singleton.1 hrow
      cases hstatus
  · rcases List.mem_append.1 hrow with hrow | hrow
    · obtain ⟨record, his, hlog⟩ := h.handled row hrow hstatus
      exact ⟨record, his, List.mem_append_left _ hlog⟩
    · cases List.mem_singleton.1 hrow
      cases hstatus

def Row.claimedBy (stamps : Stamps) (ids : List String) (now cutoff staleNext : Int) (row : Row) : Row :=
  let row := if row.stale stamps cutoff then row.reclaim staleNext else row
  if row.id ∈ ids then { row with status := .processing, claimedAt := some now } else row

theorem leaseRows_reclaimStale (ids : List String) (now cutoff staleNext : Int) (rows : List Row) :
    leaseRows ids now (reclaimStale stamps cutoff staleNext rows) =
      rows.map (Row.claimedBy stamps ids now cutoff staleNext) := by
  rw [leaseRows, reclaimStale, List.map_map]
  rfl

theorem claimedBy_same (ids : List String) (now cutoff staleNext : Int) (row : Row) :
    (row.claimedBy stamps ids now cutoff staleNext).Same row := by
  unfold Row.claimedBy
  dsimp only
  split <;> split <;> exact ⟨rfl, rfl, rfl⟩

theorem inv_claim (h : Inv w) {limit : UInt32} {lease : Int} {records : List OutboxRecord}
    {rows : List Row} (t : T) (hrows : claim stamps dialect limit lease w.now w.rows = .ok (records, rows)) :
    Inv (w.update rows (records.map fun r => .claimed t r.id)) ∧
      Grows w (w.update rows (records.map fun r => .claimed t r.id)) ∧
      ∀ record ∈ records, ∃ row ∈ rows, row.Is record := by
  have hevents : ∀ r, (.appended r : Event T) ∉ records.map fun r => .claimed t r.id := by simp
  obtain ⟨rfl, rfl⟩ | ⟨cutoff, staleNext, picked, _, _, hpicked, rfl, rfl⟩ := claim_eq_ok hrows
  · refine ⟨?_, ⟨fun row hrow => ⟨row, hrow, rfl, rfl, rfl⟩, fun _ he => List.mem_append_left _ he⟩, by simp⟩
    simpa [World.update] using h
  · rw [leaseRows_reclaimStale]
    refine ⟨h.map (claimedBy_same _ _ _ _) _ hevents (fun row hrow => ?_) fun row hrow => ?_,
      grows_map (claimedBy_same _ _ _ _) _, List.forall_mem_map.2 fun record hrecord => ?_⟩
    · unfold Row.claimedBy
      dsimp only
      split <;> split
      · exact fun _ => rfl
      · exact fun hstatus => (nomatch hstatus)
      · exact fun _ => rfl
      · exact h.leased row hrow
    · unfold Row.claimedBy
      dsimp only
      split <;> split
      · exact fun hstatus => (nomatch hstatus)
      · exact fun hstatus => (nomatch hstatus)
      · exact fun hstatus => (nomatch hstatus)
      · intro hstatus
        obtain ⟨record, his, hlog⟩ := h.handled row hrow hstatus
        exact ⟨record, his, List.mem_append_left _ hlog⟩
    · obtain ⟨row, hrow, hread⟩ := exists_right_of_forall₂ (fromRows_eq_ok hpicked).flip hrecord
      obtain ⟨row₀, hrow₀, rfl⟩ : ∃ row₀ ∈ w.rows,
          (if row₀.stale stamps cutoff then row₀.reclaim staleNext else row₀) = row := by
        have hdue := (List.perm_insertionSort _ _).mem_iff.1 (List.mem_of_mem_take hrow)
        exact List.mem_map.1 (List.mem_of_mem_filter hdue)
      obtain ⟨_, _, rfl⟩ := fromRow_eq_ok hread
      refine ⟨_, List.mem_map_of_mem hrow₀, (claimedBy_same _ _ _ _ row₀).is ?_⟩
      split <;> exact ⟨rfl, rfl, rfl⟩

theorem inv_handled (h : Inv w) (record : OutboxRecord) (ok : Bool) :
    Inv (w.update w.rows [.handled record ok]) ∧ Grows w (w.update w.rows [.handled record ok]) := by
  have hsame (row : Row) : (id row).Same row := ⟨rfl, rfl, rfl⟩
  refine ⟨?_, ?_⟩
  · have hmap := h.map hsame [.handled record ok] (by simp) h.leased fun row hrow hstatus => ?_
    · rwa [List.map_id] at hmap
    · obtain ⟨record', his, hlog⟩ := h.handled row hrow hstatus
      exact ⟨record', his, List.mem_append_left _ hlog⟩
  · have hgrows := grows_map (w := w) hsame [.handled record ok]
    rwa [List.map_id] at hgrows

theorem inv_mark (h : Inv w) (t : T) {id : String} {f : Row → Row} (hf : ∀ row, (f row).Same row)
    (hprocessing : ∀ row, (f row).status ≠ .processing)
    (hdone : ∀ row ∈ w.rows, row.id = id → (f row).status = .done →
      ∃ record, row.Is record ∧ .handled record true ∈ w.log) :
    Inv (w.mark t id (updateProcessing id f w.rows)) ∧
      Grows w (w.mark t id (updateProcessing id f w.rows)) := by
  have hsame (row : Row) : (if row.id = id ∧ row.status = .processing then f row else row).Same row := by
    split
    · exact hf row
    · exact ⟨rfl, rfl, rfl⟩
  refine ⟨h.map hsame _ (by simp) (fun row hrow => ?_) fun row hrow => ?_, grows_map hsame _⟩
  · split
    · exact fun hstatus => absurd hstatus (hprocessing row)
    · exact h.leased row hrow
  · split
    · rename_i hrow'
      intro hstatus
      obtain ⟨record, his, hlog⟩ := hdone row hrow hrow'.1 hstatus
      exact ⟨record, his, List.mem_append_left _ hlog⟩
    · intro hstatus
      obtain ⟨record, his, hlog⟩ := h.handled row hrow hstatus
      exact ⟨record, his, List.mem_append_left _ hlog⟩

end Ecat.Outbox
