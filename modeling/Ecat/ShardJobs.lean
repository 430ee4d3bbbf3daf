import Ecat.Results
import Ecat.ShardPlan

/-! The job table of a migration: one row for each move, under an id made of the move's parts.
A row holds what the database returns for its columns, so that reading it back may fail. -/

namespace Ecat.Shard

open Json

inductive Dialect
  | mySql | postgres | sqlite | mssql | standard
  deriving DecidableEq, Repr

inductive Phase
  | pending | backfilling | verified | cutover | done | rolledBack
  deriving DecidableEq, Repr

def Phase.asStr : Phase → String
  | pending => "pending"
  | backfilling => "backfilling"
  | verified => "verified"
  | cutover => "cutover"
  | done => "done"
  | rolledBack => "rolled_back"

def Phase.parse (text : String) : Except ShardError Phase :=
  if text = "pending" then .ok pending
  else if text = "backfilling" then .ok backfilling
  else if text = "verified" then .ok verified
  else if text = "cutover" then .ok cutover
  else if text = "done" then .ok done
  else if text = "rolled_back" then .ok rolledBack
  else .error (.database s!"unknown migration phase `{text}`")

@[simp] theorem Phase.parse_asStr (p : Phase) : Phase.parse p.asStr = .ok p := by
  cases p <;> decide

structure JobState where
  phase : Phase
  cursor : Option String
  rows : Nat
  checksum : UInt64
  deriving DecidableEq, Repr

/-- The largest `rows_moved`: an `INTEGER` column has 32 bits in Postgres. -/
def Dialect.rowsMax : Dialect → Int
  | .postgres => 2147483647
  | _ => i64Max

theorem rowsMax_le (state : Dialect) : state.rowsMax ≤ i64Max := by
  cases state <;> decide

/-- A row of the job table, as the database returns it. -/
structure JobRow where
  phase : Value
  cursor : Value
  rowsMoved : Value
  checksum : Value

/-! ### Reading a row -/

def rowText (col : String) : Value → Except ShardError String
  | .string text => .ok text
  | _ => .error (.database s!"migration row missing text column `{col}`")

/-- The column holds no number above `max`. -/
def rowInt (max : Int) (col : String) (v : Value) : Except ShardError Int :=
  match v.asI64.filter (· ≤ max) with
  | some n => .ok n
  | none => .error (.database s!"migration row missing integer column `{col}`")

def readU64From (n : Nat) : List Char → Except String Nat
  | [] => .ok n
  | c :: cs =>
    if c.isDigit then
      if n * 10 + (c.toNat - '0'.toNat) < 2 ^ 64 then readU64From (n * 10 + (c.toNat - '0'.toNat)) cs
      else .error "number too large to fit in target type"
    else .error "invalid digit found in string"

/-- `str::parse::<u64>`. -/
def parseU64 (text : String) : Except String Nat :=
  match text.toList with
  | [] => .error "cannot parse integer from empty string"
  | ['+'] => .error "invalid digit found in string"
  | '+' :: cs => readU64From 0 cs
  | cs => readU64From 0 cs

def readChecksum (v : Value) : Except ShardError UInt64 := do
  match parseU64 (← rowText "checksum" v) with
  | .ok n => return .ofNat n
  | .error e => .error (.database s!"migration checksum is invalid: {e}")

def outOfRange : ShardError := .database "migration rows_moved out of range"

def JobRow.decode (state : Dialect) (row : JobRow) : Except ShardError JobState := do
  let rows ← rowInt state.rowsMax "rows_moved" row.rowsMoved
  if rows < 0 then .error outOfRange
  else
    let checksum ← readChecksum row.checksum
    let phase ← Phase.parse (← rowText "phase" row.phase)
    return ⟨phase, row.cursor.asStr, rows.toNat, checksum⟩

theorem inI64_natCast {n : Nat} (h : (n : Int) ≤ i64Max) : InI64 n := ⟨by rw [i64Min]; omega, h⟩

def JobState.encode (job : JobState) : Except ShardError JobRow :=
  if h : (job.rows : Int) ≤ i64Max then
    .ok ⟨.string job.phase.asStr, job.cursor.elim .null .string,
      .ofI64 job.rows (inI64_natCast h), .string (toString job.checksum.toNat)⟩
  else .error outOfRange

/-! ### Ids and statements -/

def boundText (bound : Option Int) : String := bound.elim "*" toString

def moveId (mv : ShardMove) : String :=
  let range := mv.keyRange.elim "none" fun r => s!"{boundText r.low}:{boundText r.high}"
  s!"{mv.table}|{mv.fromShard}|{mv.toShard}|{range}"

abbrev Jobs := String → Option JobRow

def stateDialect (state : Dialect) : Except ShardError Unit :=
  if state = .mssql then .error .unsupportedDialect else .ok ()

/-- What the database says to a statement on the job table that stores `rows`: in MySQL the column
name `cursor` is a reserved word. The texts of its errors are not those of the databases. -/
def Dialect.executes (state : Dialect) (rows : Nat) : Except ShardError Unit :=
  if state = .mySql then .error (.database "syntax error at `cursor`")
  else if state.rowsMax < rows then .error (.database "integer out of range")
  else .ok ()

def ensureSchema (state : Dialect) : Except ShardError Unit := do
  stateDialect state
  state.executes 0

def loadJob (state : Dialect) (jobs : Jobs) (id : String) : Except ShardError (Option JobState) := do
  stateDialect state
  state.executes 0
  match jobs id with
  | none => return none
  | some row => return some (← row.decode state)

def freshRow : JobRow :=
  ⟨.string Phase.pending.asStr, .null, .ofI64 0 (by decide), .string "0"⟩

/-- A job row is inserted once; a second insert does nothing. -/
def insertJob (jobs : Jobs) (id : String) : Jobs :=
  if (jobs id).isSome then jobs else Function.update jobs id (some freshRow)

def ensureJob (state : Dialect) (jobs : Jobs) (mv : ShardMove) : Except ShardError (JobState × Jobs) := do
  match ← loadJob state jobs (moveId mv) with
  | some job => return (job, jobs)
  | none =>
    match ← loadJob state (insertJob jobs (moveId mv)) (moveId mv) with
    | some job => return (job, insertJob jobs (moveId mv))
    | none => .error (.database "migration job vanished after insert")

/-- An update of a row that does not exist does nothing. -/
def saveJob (state : Dialect) (jobs : Jobs) (mv : ShardMove) (job : JobState) : Except ShardError Jobs := do
  stateDialect state
  let row ← job.encode
  state.executes job.rows
  return if (jobs (moveId mv)).isSome then Function.update jobs (moveId mv) (some row) else jobs

theorem saveJob_other {state : Dialect} {jobs jobs' : Jobs} {mv : ShardMove} {job : JobState}
    (h : saveJob state jobs mv job = .ok jobs') {id : String} (hid : id ≠ moveId mv) : jobs' id = jobs id := by
  obtain ⟨u, -, h⟩ := bind_eq_ok.1 h
  obtain ⟨row, -, h⟩ := bind_eq_ok.1 h
  obtain ⟨u, -, h⟩ := bind_eq_ok.1 h
  rw [← Except.ok.inj h]
  split_ifs
  · exact Function.update_of_ne hid _ _
  · rfl

/-! ### Rows read back as they were written -/

theorem readU64From_eq {cs : List Char} (hdigits : ∀ c ∈ cs, c.isDigit = true) {n : Nat}
    (hlt : Nat.ofDigitChars 10 cs n < 2 ^ 64) : readU64From n cs = .ok (Nat.ofDigitChars 10 cs n) := by
  induction cs generalizing n with
  | nil => rfl
  | cons c cs ih =>
    have hcons : Nat.ofDigitChars 10 (c :: cs) n = Nat.ofDigitChars 10 cs (n * 10 + (c.toNat - '0'.toNat)) := by
      rw [Nat.ofDigitChars_cons, Nat.mul_comm]
    rw [hcons] at hlt ⊢
    have hle : n * 10 + (c.toNat - '0'.toNat) ≤ Nat.ofDigitChars 10 cs (n * 10 + (c.toNat - '0'.toNat)) := by
      rw [Nat.ofDigitChars_eq_ofDigitChars_zero]
      have hpow : 1 ≤ 10 ^ cs.length := Nat.one_le_pow _ _ (by omega)
      nlinarith
    rw [readU64From, if_pos (hdigits c (by simp)), if_pos (lt_of_le_of_lt hle hlt)]
    exact ih (fun d hd => hdigits d (by simp [hd])) hlt

theorem parseU64_toString {n : Nat} (h : n < 2 ^ 64) : parseU64 (toString n) = .ok n := by
  have hlist : (toString n).toList = Nat.toDigits 10 n := Nat.toList_repr
  have hdigits : ∀ c ∈ Nat.toDigits 10 n, c.isDigit = true := fun c hc =>
    Nat.isDigit_of_mem_toDigits (by omega) (by omega) hc
  have hread : readU64From 0 (Nat.toDigits 10 n) = .ok n := by
    rw [readU64From_eq hdigits (by rw [Nat.ofDigitChars_ten_toDigits]; exact h), Nat.ofDigitChars_ten_toDigits]
  rw [parseU64, hlist]
  cases hcs : Nat.toDigits 10 n with
  | nil => exact absurd hcs Nat.toDigits_ne_nil
  | cons c cs =>
    have hplus : c ≠ '+' := by
      rintro rfl
      have := hdigits '+' (by rw [hcs]; simp)
      exact absurd this (by decide)
    rw [hcs] at hread
    split
    · next heq => cases heq
    · next heq => exact absurd (List.cons.inj heq).1 hplus
    · next heq => exact absurd (List.cons.inj heq).1 hplus
    · exact hread

theorem asI64_ofI64 {n : Int} (h : InI64 n) : (Value.ofI64 n h).asI64 = some n := by
  rw [Value.ofI64, Value.asI64, Number.asI64, if_pos h.2]

theorem executes_ok_iff {state : Dialect} {rows : Nat} :
    state.executes rows = .ok () ↔ state ≠ .mySql ∧ (rows : Int) ≤ state.rowsMax := by
  unfold Dialect.executes
  split_ifs with hmysql hrows
  · simp [hmysql]
  · simp [hrows]
  · simp [hmysql, not_lt.1 hrows]

theorem ensureSchema_ok_iff {state : Dialect} :
    ensureSchema state = .ok () ↔ stateDialect state = .ok () ∧ state ≠ .mySql := by
  cases state <;> decide

theorem rowInt_ofI64 {max n : Int} (h : InI64 n) (hle : n ≤ max) (col : String) :
    rowInt max col (.ofI64 n h) = .ok n := by
  rw [rowInt, asI64_ofI64, Option.filter_some, if_pos (decide_eq_true hle)]

theorem decode_encode {state : Dialect} {job : JobState} {row : JobRow} (h : job.encode = .ok row)
    (hrows : (job.rows : Int) ≤ state.rowsMax) : row.decode state = .ok job := by
  unfold JobState.encode at h
  split_ifs at h with hfits
  obtain rfl := Except.ok.inj h
  have hchecksum : readChecksum (.string (toString job.checksum.toNat)) = .ok job.checksum := by
    rw [readChecksum, rowText, ok_bind, parseU64_toString job.checksum.toNat_lt]
    exact congrArg Except.ok UInt64.ofNat_toNat
  have hcursor : (job.cursor.elim .null .string : Value).asStr = job.cursor := by
    cases job.cursor <;> rfl
  rw [JobRow.decode, rowInt_ofI64 _ hrows, ok_bind, if_neg (by omega), hchecksum, ok_bind]
  simp [rowText, hcursor]

theorem encode_ok {job : JobState} (h : (job.rows : Int) ≤ i64Max) : ∃ row, job.encode = .ok row := by
  rw [JobState.encode, dif_pos h]
  exact ⟨_, rfl⟩

theorem decode_rows {state : Dialect} {row : JobRow} {job : JobState} (h : row.decode state = .ok job) :
    (job.rows : Int) ≤ state.rowsMax := by
  obtain ⟨rows, hrows, h⟩ := bind_eq_ok.1 h
  split_ifs at h with hneg
  obtain ⟨checksum, -, h⟩ := bind_eq_ok.1 h
  obtain ⟨text, -, h⟩ := bind_eq_ok.1 h
  obtain ⟨phase, -, h⟩ := bind_eq_ok.1 h
  obtain rfl := Except.ok.inj h
  rw [rowInt] at hrows
  cases hvalue : row.rowsMoved.asI64.filter (· ≤ state.rowsMax) with
  | none =>
    rw [hvalue] at hrows
    cases hrows
  | some n =>
    rw [hvalue] at hrows
    obtain rfl := Except.ok.inj hrows
    have hle : n ≤ state.rowsMax := of_decide_eq_true (Option.filter_eq_some_iff.1 hvalue).2
    show ((n.toNat : Nat) : Int) ≤ state.rowsMax
    omega

theorem loadJob_some_iff {state : Dialect} {jobs : Jobs} {id : String} {job : JobState} :
    loadJob state jobs id = .ok (some job) ↔
      ensureSchema state = .ok () ∧ ∃ row, jobs id = some row ∧ row.decode state = .ok job := by
  rw [loadJob, bind_eq_ok]
  constructor
  · rintro ⟨u, hstate, hrow⟩
    obtain ⟨u', hexecutes, hrow⟩ := bind_eq_ok.1 hrow
    have hschema : ensureSchema state = .ok () := bind_eq_ok.2 ⟨u, hstate, hexecutes⟩
    cases hid : jobs id with
    | none =>
      rw [hid] at hrow
      cases hrow
    | some row =>
      rw [hid] at hrow
      obtain ⟨job', hdecode, hjob⟩ := bind_eq_ok.1 hrow
      obtain rfl := Option.some.inj (Except.ok.inj hjob)
      exact ⟨hschema, row, rfl, hdecode⟩
  · rintro ⟨hschema, row, hid, hdecode⟩
    obtain ⟨u, hstate, hexecutes⟩ := bind_eq_ok.1 hschema
    refine ⟨u, hstate, ?_⟩
    rw [hexecutes, ok_bind, hid]
    exact bind_eq_ok.2 ⟨job, hdecode, rfl⟩

theorem loadJob_none {state : Dialect} {jobs : Jobs} {id : String} (hschema : ensureSchema state = .ok ())
    (hnone : jobs id = none) : loadJob state jobs id = .ok none := by
  obtain ⟨u, hstate, hexecutes⟩ := bind_eq_ok.1 hschema
  rw [loadJob, hstate, ok_bind, hexecutes, ok_bind, hnone]
  rfl

theorem none_of_loadJob {state : Dialect} {jobs : Jobs} {id : String} (h : loadJob state jobs id = .ok none) :
    jobs id = none := by
  obtain ⟨u, -, h⟩ := bind_eq_ok.1 h
  obtain ⟨u', -, h⟩ := bind_eq_ok.1 h
  cases hid : jobs id with
  | none => rfl
  | some row =>
    rw [hid] at h
    obtain ⟨job, -, hjob⟩ := bind_eq_ok.1 h
    cases hjob

theorem saveJob_eq_ok {state : Dialect} {jobs jobs' : Jobs} {mv : ShardMove} {job : JobState}
    (h : saveJob state jobs mv job = .ok jobs') : (job.rows : Int) ≤ state.rowsMax ∧
      ∃ row, job.encode = .ok row ∧
        jobs' = if (jobs (moveId mv)).isSome then Function.update jobs (moveId mv) (some row) else jobs := by
  obtain ⟨u, -, h⟩ := bind_eq_ok.1 h
  obtain ⟨row, hencode, h⟩ := bind_eq_ok.1 h
  obtain ⟨u', hexecutes, h⟩ := bind_eq_ok.1 h
  exact ⟨(executes_ok_iff.1 hexecutes).2, row, hencode, (Except.ok.inj h).symm⟩

theorem saveJob_loads {state : Dialect} {jobs : Jobs} {mv : ShardMove} {job job' : JobState}
    (hload : loadJob state jobs (moveId mv) = .ok (some job)) (hrows : (job'.rows : Int) ≤ state.rowsMax) :
    ∃ jobs', saveJob state jobs mv job' = .ok jobs' ∧ loadJob state jobs' (moveId mv) = .ok (some job') ∧
      ∀ id, id ≠ moveId mv → jobs' id = jobs id := by
  obtain ⟨hschema, row, hid, hdecode⟩ := loadJob_some_iff.1 hload
  obtain ⟨hstate, hmysql⟩ := ensureSchema_ok_iff.1 hschema
  obtain ⟨row', hencode⟩ := encode_ok (hrows.trans (rowsMax_le state))
  refine ⟨Function.update jobs (moveId mv) (some row'), ?_, ?_, ?_⟩
  · rw [saveJob, hstate, ok_bind, hencode, ok_bind, executes_ok_iff.2 ⟨hmysql, hrows⟩, ok_bind, hid]
    rfl
  · exact loadJob_some_iff.2 ⟨hschema, row', by rw [Function.update_self], decode_encode hencode hrows⟩
  · intro id hne
    rw [Function.update_of_ne hne]

end Ecat.Shard
