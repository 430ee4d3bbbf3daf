import Ecat.OutboxModel

/-! The surroundings of an outbox: clients that run any programs over one store, relays
and producers among them, and a clock that only goes forward. -/

namespace Ecat.Outbox

variable {T : Type}

def advanceClock (w w' : World T) : Prop :=
  ∃ t, w.now ≤ t ∧ t ≤ maxTime ∧ w' = { w with now := t }

inductive Outcome
  | relayed (result : Except ShardError RelayReport)
  | appended (result : Except ShardError Unit)

def clients (T : Type) (stamps : Stamps) (dialect : Dialect) :
    Host T Op Res Outcome (World T) Reply (Proc Outcome) where
  exec := exec stamps dialect
  prog _ p := p
  admits _ _ _ := True
  crash := id
  env _ := advanceClock

inductive Cmd
  | append (record : OutboxRecord)
  | runOnce (batch : UInt32) (lease : Int)

def prog : Cmd → Proc Outcome
  | .append record => do return .appended (← perform (.append record))
  | .runOnce batch lease => do return .relayed (← runOnce batch lease)

def relays (T : Type) (stamps : Stamps) (dialect : Dialect) :
    Host T Op Res Outcome (World T) Reply Cmd :=
  { clients T stamps dialect with prog := fun _ => prog, admits := fun _ _ _ => True }

def empty (T : Type) (now : Int) : Sys T Op Res Outcome (World T) := ⟨⟨now, [], []⟩, fun _ => none⟩

def chronological : Stamps where
  le a b := decide (a ≤ b)
  le_iff := by simp
  le_of_signed a b ha hb := decide_eq_true (Int.le_trans (Int.le_of_lt ha) hb)

def order : OutboxRecord := ⟨"a", "order", [1], .pending, 0, 0⟩

theorem attempt_cases {α : Type} {I : World T → Prop} (c : Reply) {w : World T}
    {result : Except ShardError (α × World T)} (hw : I w)
    (hresult : ∀ a w', result = .ok (a, w') → I w') : I (attempt c w result).2 := by
  cases result with
  | error e => exact hw
  | ok p =>
    obtain ⟨a, w'⟩ := p
    have hw' := hresult a w' rfl
    cases c with
    | lost applied e => cases applied <;> assumption
    | ok => exact hw'
    | handled outcome => exact hw'

theorem attempt_ok {α : Type} {c : Reply} {w : World T} {result : Except ShardError (α × World T)} {a : α}
    (h : (attempt c w result).1 = .ok a) : result = .ok (a, (attempt c w result).2) := by
  cases result with
  | error e => cases h
  | ok p =>
    obtain ⟨a', w'⟩ := p
    cases c with
    | lost applied e => cases h
    | ok => cases h; rfl
    | handled outcome => cases h; rfl

theorem map_eq_ok {α β : Type} {x : Except ShardError α} {f : α → β} {b : β} (h : x.map f = .ok b) :
    ∃ a, x = .ok a ∧ f a = b := by
  cases x with
  | error e => cases h
  | ok a => exact ⟨a, rfl, Except.ok.inj h⟩

/-! ### What the calls of the store do -/

section Spec

variable {stamps : Stamps} {dialect : Dialect} {id : String} {rows rows' : List Row}

theorem append_eq_ok {r : OutboxRecord} (h : append dialect r rows = .ok rows') :
    dialect ≠ .mssql ∧ (∀ row ∈ rows, row.id ≠ r.id) ∧
      rows' = rows ++
        [⟨r.id, r.aggregate, r.payload, .pending, r.attempts.toNat, r.nextAttemptAt, none⟩] := by
  rw [append] at h
  split at h
  · cases h
  split at h
  · cases h
  rename_i hdialect
  split at h
  · cases h
  split at h
  · cases h
  rename_i hid
  refine ⟨hdialect, fun row hrow he => hid ?_, (Except.ok.inj h).symm⟩
  exact List.any_eq_true.2 ⟨row, hrow, by simpa using he⟩

theorem markDone_eq_ok (h : markDone dialect id rows = .ok rows') :
    rows' = updateProcessing id Row.markedDone rows := by
  rw [markDone] at h
  split at h
  · cases h
  · exact (Except.ok.inj h).symm

theorem markFailed_eq_ok {retryAfter now : Int} (h : markFailed dialect id retryAfter now rows = .ok rows') :
    ∃ next, checkedAdd now retryAfter = some next ∧
      rows' = updateProcessing id (Row.markedFailed next) rows := by
  rw [markFailed] at h
  split at h
  · cases h
  split at h
  · cases h
  · rename_i next hnext
    split at h
    · cases h
    · exact ⟨next, hnext, (Except.ok.inj h).symm⟩

theorem fromRow_eq_ok {row : Row} {record : OutboxRecord} (h : fromRow row = .ok record) :
    row.attempts ≤ u32Max ∧ yearZero ≤ row.nextAttemptAt ∧ record =
      ⟨row.id, row.aggregate, row.payload, row.status, UInt32.ofNat row.attempts, row.nextAttemptAt⟩ := by
  rw [fromRow] at h
  split at h
  · cases h
  rename_i hattempts
  split at h
  · cases h
  · rename_i hnext
    exact ⟨Nat.le_of_not_lt hattempts, Int.not_lt.1 hnext, (Except.ok.inj h).symm⟩

theorem fromRows_eq_ok {records : List OutboxRecord} (h : fromRows rows = .ok records) :
    List.Forall₂ (fun row record => fromRow row = .ok record) rows records := by
  induction rows generalizing records with
  | nil =>
    cases h
    exact .nil
  | cons row rows ih =>
    rw [fromRows] at h
    split at h
    · cases h
    · rename_i record hrecord
      split at h
      · cases h
      · rename_i rest hrest
        cases h
        exact .cons hrecord (ih hrest)

theorem leaseRows_nil (now : Int) (rows : List Row) : leaseRows [] now rows = rows := by
  simp [leaseRows]

theorem claim_eq_ok {limit : UInt32} {lease now : Int} {records : List OutboxRecord}
    (h : claim stamps dialect limit lease now rows = .ok (records, rows')) :
    records = [] ∧ rows' = rows ∨
      ∃ cutoff staleNext picked, checkedAdd now (-lease) = some cutoff ∧
        checkedAdd now staleBackoff = some staleNext ∧
        fromRows (selectDue stamps limit.toNat now (reclaimStale stamps cutoff staleNext rows)) = .ok picked ∧
        records = picked.map (fun r => { r with status := .processing }) ∧
        rows' = leaseRows (picked.map (·.id)) now (reclaimStale stamps cutoff staleNext rows) := by
  rw [claim] at h
  split at h
  · cases h
    exact .inl ⟨rfl, rfl⟩
  split at h
  · cases h
  split at h
  · cases h
  rename_i cutoff hcutoff
  split at h
  · cases h
  rename_i staleNext hstale
  rw [claimTx] at h
  split at h
  · cases h
  dsimp only at h
  split at h
  · cases h
  rename_i picked hpicked
  refine .inr ⟨cutoff, staleNext, picked, hcutoff, hstale, hpicked, ?_⟩
  split at h
  · rename_i hempty
    cases h
    rw [List.isEmpty_iff.1 hempty]
    exact ⟨rfl, (leaseRows_nil _ _).symm⟩
  · cases h
    exact ⟨rfl, rfl⟩

end Spec

end Ecat.Outbox
