import Ecat.OrmSoftDelete

/-! Optimistic locking: clients that read the rows of a table and update them, one by one or many at
a time, and when the version column keeps one of them from overwriting another. -/

namespace Ecat.Orm

variable {V : Type}

namespace Client

variable (c : Client V)

/-- Integers are compared by `=` as numbers, and come back as they were sent. -/
structure Integers : Prop where
  range : ∀ v n, c.vals.asI64 v = some n → -2 ^ 63 ≤ n ∧ n < 2 ^ 63
  sent : ∀ n, -2 ^ 63 ≤ n → n < 2 ^ 63 → c.vals.asI64 (c.vals.ofI64 n) = some n
  equal : ∀ v w m n, c.vals.asI64 v = some m → c.vals.asI64 w = some n → c.sql.cmp .eq v w = some true → m = n

/-- The version flag is on a column of its own. -/
structure Versioned (column : String) : Prop where
  flag : c.entity.version = some column
  written : ∃ d ∈ c.entity.columns, d.name = column ∧ d.pk = false
  plain : c.entity.updatedAt ≠ some column

def number (column : String) (row : Row V) : Option Int := (row column).bind c.vals.asI64

/-- The entity that the statement of the call writes into a row, if it reaches the row. -/
def writes (s : Store V) : Call V → Row V → Option (Row V × UpdateRow V)
  | .update e now => if (updateRow c.vals c.entity now e).set.isEmpty then fun _ => none else c.single e now
  | .send call now pick => match s.pending[call]? with
    | some (chunk :: _) => c.chosen now pick chunk
    | _ => fun _ => none
  | _ => fun _ => none

/-- The version in the `i`-th row of the table. -/
def stored (column : String) (i : Nat) (s : Store V) : Option Int := (s.table[i]?).bind (c.number column)

/-- One update of a row: the version of the entity, which its client has read, and the versions of
the row before and after the statement. -/
structure Success where
  read : Option Int
  before : Option Int
  after : Option Int
  deriving DecidableEq, Repr

def success (column : String) (i : Nat) (p : Store V × Call V × Store V) : Option Success :=
  ((p.1.table[i]?).bind (c.writes p.1 p.2.1)).map fun w =>
    ⟨c.number column w.1, c.stored column i p.1, c.stored column i p.2.2⟩

/-- Every row that a call reports has been written by it; each write of the `i`-th row is of the version it has,
takes that to the next, and no two are of one version. -/
structure LosesNoUpdate (column : String) (i : Nat) (past : List (Store V × Call V × Store V)) : Prop where
  reported : ∀ p ∈ past, ∀ n, c.exec p.1 p.2.1 = some (.affected n, p.2.2) →
    n = p.1.table.countP fun row => (c.writes p.1 p.2.1 row).isSome
  based : ∀ e ∈ past.filterMap (c.success column i), e.read = e.before
  advanced : ∀ e ∈ past.filterMap (c.success column i), ∃ n, e.before = some n ∧ e.after = some (n + 1)
  distinct : ((past.filterMap (c.success column i)).map Success.read).Nodup

end Client

def Call.isDelete : Call V → Bool
  | .deleteById .. => true
  | _ => false

/-- The call reads or updates, and where it writes the row both versions are integers with a
successor. -/
def Client.Counts (c : Client V) (column : String) (i : Nat) (s : Store V) (a : Call V) : Prop :=
  a.isDelete = false ∧ ∀ w, (s.table[i]?).bind (c.writes s a) = some w →
    ∃ m n, c.stored column i s = some m ∧ c.number column w.1 = some n ∧ n + 1 < 2 ^ 63

namespace Client

variable {c : Client V} {column : String} {i : Nat} {s t : Store V} {a : Call V}

/-! ### One statement -/

theorem step_write (hstep : c.step s a = some t) (hdelete : a.isDelete = false) :
    t.table = write (c.writes s a) s.table := by
  cases a with
  | find key withTrashed =>
    cases hstep
    simp [writes, write]
  | updateMany entities =>
    have htable : t.table = s.table := by
      simp only [step, exec] at hstep
      split at hstep <;> cases hstep <;> rfl
    simp [writes, write, htable]
  | deleteById key now => cases hdelete
  | send call now pick =>
    simp only [step, exec] at hstep
    split at hstep
    next chunk rest hpending =>
      cases hstep
      simp only [writes, hpending]
      rfl
    next => cases hstep
  | update e now =>
    cases hstep
    by_cases hset : (updateRow c.vals c.entity now e).set = []
    · simp [writes, write, update, hset]
    · rw [update_write hset, writes, if_neg (by simpa using hset)]

theorem writes_reaching (s : Store V) (a : Call V) : c.Reaching (c.writes s a) := by
  intro row w hw
  cases a with
  | update e now =>
    rw [writes] at hw
    split at hw
    · cases hw
    · exact single_reaching e now row w hw
  | send call now pick =>
    rcases hpending : s.pending[call]? with _ | _ | ⟨chunk, rest⟩
    · simp [writes, hpending] at hw
    · simp [writes, hpending] at hw
    · simp only [writes, hpending] at hw
      exact chosen_reaching now pick chunk row w hw
  | _ => cases hw

theorem reported_eq {n : Nat} (hexec : c.exec s a = some (.affected n, t)) (hdelete : a.isDelete = false) :
    n = s.table.countP fun row => (c.writes s a row).isSome := by
  cases a with
  | find key withTrashed => cases hexec
  | updateMany entities =>
    simp only [exec] at hexec
    split at hexec <;> cases hexec
  | deleteById key now => cases hdelete
  | send call now pick =>
    simp only [exec] at hexec
    split at hexec
    next chunk rest hpending =>
      cases hexec
      simp only [writes, hpending]
      rfl
    next => cases hexec
  | update e now =>
    have hreply : (c.update e now s.table).1 = .affected n := congrArg Prod.fst (Option.some.inj hexec)
    by_cases hset : (updateRow c.vals c.entity now e).set.isEmpty = true
    · simp [update, hset] at hreply
    · have hcount : (fun row => (c.writes s (.update e now) row).isSome) =
          (updateRow c.vals c.entity now e).reaches c.sql c.entity := by
        funext row
        rw [writes, if_neg hset, single]
        split
        next hreach => exact hreach.symm
        next hreach => simpa using hreach
      rw [hcount]
      simp only [update, hset, Bool.false_eq_true, if_false] at hreply
      split at hreply
      · cases hreply
      next m hm =>
        cases hreply
        exact hm.symm

/-! ### One row -/

theorem setCells_version (hv : c.Versioned column) (now : String → V) (e row : Row V) :
    Sql.setCells row (updateRow c.vals c.entity now e).set column = some (nextVersion c.vals (e column)) := by
  obtain ⟨d, hd, rfl, hpk⟩ := hv.written
  rw [Sql.setCells, updateRow_set, c.entity.lookup_written _ _ hd (by simp [hpk]), Option.getD_some,
    if_pos hv.flag, autoTimestamp, if_neg fun h => hv.plain h.1, Option.none_or]

theorem oldVersion_eq (hv : c.Versioned column) (now : String → V) (e : Row V) :
    (updateRow c.vals c.entity now e).oldVersion = some (e column) := by
  obtain ⟨d, hd, rfl, hpk⟩ := hv.written
  rw [updateRow, hv.flag]
  show (updateParts c.entity now e).lookup d.name = _
  rw [updateParts, c.entity.lookup_written _ _ hd (by simp [hpk]), autoTimestamp, if_neg fun h => hv.plain h.1,
    Option.none_or]

theorem reaches_version (hv : c.Versioned column) {now : String → V} {e row : Row V}
    (hreach : (updateRow c.vals c.entity now e).reaches c.sql c.entity row = true) :
    c.sql.equals row column (e column) = true := by
  have hmatch := (Bool.and_eq_true_iff.1 hreach).2
  rw [hv.flag, oldVersion_eq hv] at hmatch
  exact hmatch

theorem number_of_equals (hi : c.Integers) {row : Row V} {value : Option V} {m n : Int}
    (hequals : c.sql.equals row column value = true) (hm : c.number column row = some m)
    (hn : value.bind c.vals.asI64 = some n) : m = n := by
  obtain ⟨w, hw, hcompare⟩ := (Option.any_eq_true _ _).1 hequals
  obtain ⟨v, hv, hasm⟩ := Option.bind_eq_some_iff.1 hm
  rw [hw, Option.bind_some] at hn
  have heq : c.sql.compare row column .eq w = some true := eq_of_beq hcompare
  rw [Sql.compare, hv, Option.bind_some] at heq
  exact hi.equal v w m n hasm hn heq

theorem wrapI64_eq {n : Int} (hle : -2 ^ 63 ≤ n) (hlt : n < 2 ^ 63) : wrapI64 n = n := by
  unfold wrapI64
  omega

theorem number_nextVersion (hi : c.Integers) {old : Option V} {n : Int} (hn : old.bind c.vals.asI64 = some n)
    (hlt : n + 1 < 2 ^ 63) : c.vals.asI64 (nextVersion c.vals old) = some (n + 1) := by
  obtain ⟨v, _, hv⟩ := Option.bind_eq_some_iff.1 hn
  have hle := (hi.range v n hv).1
  rw [nextVersion, hn, Option.getD_some, wrapI64_eq (by omega) hlt]
  exact hi.sent _ (by omega) hlt

/-- What a counting step does to the version of the row. -/
theorem step_stored (hv : c.Versioned column) (hi : c.Integers) (hcounts : c.Counts column i s a)
    (hstep : c.step s a = some t) :
    (c.success column i (s, a, t) = none ∧ c.stored column i t = c.stored column i s) ∨
      ∃ n, c.success column i (s, a, t) = some ⟨some n, some n, some (n + 1)⟩ ∧
        c.stored column i s = some n ∧ c.stored column i t = some (n + 1) := by
  obtain ⟨hdelete, hcounts⟩ := hcounts
  have htable := step_write hstep hdelete
  have hrow : t.table[i]? = (s.table[i]?).map fun row =>
      ((c.writes s a row).map fun p => Sql.setCells row p.2.set).getD row := by
    rw [htable, write, List.getElem?_map]
  cases hcell : s.table[i]? with
  | none =>
    rw [hcell, Option.map_none] at hrow
    exact .inl ⟨by simp [success, hcell], by simp [stored, hcell, hrow]⟩
  | some row =>
    rw [hcell, Option.map_some] at hrow
    cases hw : c.writes s a row with
    | none =>
      rw [hw, Option.map_none, Option.getD_none] at hrow
      exact .inl ⟨by simp [success, hcell, hw], by simp [stored, hcell, hrow]⟩
    | some w =>
      rw [hw, Option.map_some, Option.getD_some] at hrow
      obtain ⟨m, n, hm, hn, hlt⟩ := hcounts w (by rw [hcell, Option.bind_some, hw])
      obtain ⟨⟨now, hset⟩, hreach⟩ := writes_reaching s a row w hw
      have hmrow : c.number column row = some m := by rwa [stored, hcell, Option.bind_some] at hm
      rw [hset] at hreach hrow
      obtain rfl : m = n := number_of_equals hi (reaches_version hv hreach) hmrow hn
      have hafter : c.stored column i t = some (m + 1) := by
        rw [stored, hrow, Option.bind_some, number, setCells_version hv, Option.bind_some]
        exact number_nextVersion hi hn hlt
      refine .inr ⟨m, ?_, hm, hafter⟩
      simp [success, hcell, hw, hn, hm, hafter]

/-! ### Whole runs -/

/-- The invariant: besides what is claimed, every version written so far is behind the row's. -/
structure Ahead (c : Client V) (column : String) (i : Nat) (past : List (Store V × Call V × Store V))
    (s : Store V) : Prop where
  sound : c.LosesNoUpdate column i past
  behind : ∀ e ∈ past.filterMap (c.success column i), ∃ m n, e.read = some m ∧ c.stored column i s = some n ∧ m < n

theorem ahead_step {past : List (Store V × Call V × Store V)} (hv : c.Versioned column) (hi : c.Integers)
    (h : Ahead c column i past s) (hcounts : c.Counts column i s a) (hstep : c.step s a = some t) :
    Ahead c column i (past ++ [(s, a, t)]) t := by
  have hreported : ∀ p ∈ past ++ [(s, a, t)], ∀ n, c.exec p.1 p.2.1 = some (.affected n, p.2.2) →
      n = p.1.table.countP fun row => (c.writes p.1 p.2.1 row).isSome := by
    intro p hp n hexec
    rcases List.mem_append.1 hp with hpast | hlast
    · exact h.sound.reported p hpast n hexec
    · cases List.mem_singleton.1 hlast
      exact reported_eq hexec hcounts.1
  rcases step_stored hv hi hcounts hstep with ⟨hnone, hstored⟩ | ⟨n, hsome, hbefore, hafter⟩
  · have hevents : (past ++ [(s, a, t)]).filterMap (c.success column i) = past.filterMap (c.success column i) := by
      simp [hnone]
    constructor
    · constructor
      · exact hreported
      · rw [hevents]
        exact h.sound.based
      · rw [hevents]
        exact h.sound.advanced
      · rw [hevents]
        exact h.sound.distinct
    · rw [hevents, hstored]
      exact h.behind
  · have hevents : (past ++ [(s, a, t)]).filterMap (c.success column i) =
        past.filterMap (c.success column i) ++ [⟨some n, some n, some (n + 1)⟩] := by
      simp [hsome]
    constructor
    · constructor
      · exact hreported
      · rw [hevents, List.forall_mem_append]
        exact ⟨h.sound.based, by simp⟩
      · rw [hevents, List.forall_mem_append]
        exact ⟨h.sound.advanced, by simp⟩
      · rw [hevents, List.map_append, List.nodup_append]
        refine ⟨h.sound.distinct, by simp, ?_⟩
        intro r hr r' hr' heq
        obtain ⟨e, he, rfl⟩ := List.mem_map.1 hr
        obtain ⟨m, n', hread, hcur, hlt⟩ := h.behind e he
        cases hbefore.symm.trans hcur
        obtain rfl : r' = some n := by simpa using hr'
        rw [hread, Option.some.injEq] at heq
        omega
    · rw [hevents, List.forall_mem_append]
      constructor
      · intro e he
        obtain ⟨m, n', hread, hcur, hlt⟩ := h.behind e he
        cases hbefore.symm.trans hcur
        exact ⟨m, n + 1, hread, hafter, by omega⟩
      · intro e he
        cases List.mem_singleton.1 he
        exact ⟨n, n + 1, rfl, hafter, by omega⟩

/-- No update of a row is lost while every statement that writes it finds two integer versions below
the last one. -/
theorem loses_no_update (hv : c.Versioned column) (hi : c.Integers) {calls : List (Call V)}
    (hmeets : Meets c.step (c.Counts column i) s calls) (hrun : runFrom c.step s calls = some t) :
    c.LosesNoUpdate column i (steps c.step s calls) := by
  have hinit : Ahead c column i [] s := by
    constructor
    · constructor <;> simp
    · simp
  have hahead : Ahead c column i (steps c.step s calls) t :=
    meets_steps_invariant (Q := fun past s => Ahead c column i past s) hinit
      (fun _ _ _ _ h hcounts hstep => ahead_step hv hi h hcounts hstep) hmeets hrun
  exact hahead.sound

end Client

/-! ### The notes -/

def i64Values : Values Int := ⟨fun n => if -2 ^ 63 ≤ n ∧ n < 2 ^ 63 then some n else none, id, fun _ _ _ => none⟩

def sharedNotes : Client Int := ⟨integers constants, i64Values, .sqlite, note⟩

theorem sharedNotes_versioned : sharedNotes.Versioned "version" :=
  ⟨rfl, ⟨⟨"version", .i64, false, false, false⟩, by decide, rfl, rfl⟩, by decide⟩

theorem i64Values_eq {v n : Int} : i64Values.asI64 v = some n ↔ (-2 ^ 63 ≤ n ∧ n < 2 ^ 63) ∧ v = n := by
  simp only [i64Values]
  split
  next h => simp only [Option.some.injEq]; grind
  next h => simp only [reduceCtorEq, false_iff]; grind

theorem sharedNotes_integers : sharedNotes.Integers := by
  refine ⟨?_, ?_, ?_⟩
  · intro v n h
    exact (i64Values_eq.1 h).1
  · intro n hle hlt
    exact i64Values_eq.2 ⟨⟨hle, hlt⟩, rfl⟩
  · intro v w m n hm hn heq
    rw [← (i64Values_eq.1 hm).2, ← (i64Values_eq.1 hn).2]
    exact eq_of_beq (Option.some.inj heq)

/-- Of two clients that read version 1, the second to save is refused. -/
theorem second_save_refused :
    let s : Store Int := ⟨[noteRow 5 1 none], []⟩
    let calls : List (Call Int) := [.update (noteRow 6 1 none) fun _ => 10, .update (noteRow 7 1 none) fun _ => 11]
    (∃ t, runFrom sharedNotes.step s calls = some t ∧ sharedNotes.stored "version" 0 t = some 2) ∧
      sharedNotes.LosesNoUpdate "version" 0 (steps sharedNotes.step s calls) := by
  refine ⟨⟨_, rfl, by decide⟩, ?_⟩
  refine Client.loses_no_update sharedNotes_versioned sharedNotes_integers ?_ rfl
  refine ⟨⟨rfl, ?_⟩, ⟨rfl, ?_⟩, trivial⟩
  · rintro w ⟨⟩
    exact ⟨1, 1, by decide, by decide, by decide⟩
  · rintro w ⟨⟩

theorem last_version_wraps :
    let s : Store Int := ⟨[noteRow 5 (2 ^ 63 - 1) none], []⟩
    let calls : List (Call Int) := [.update (noteRow 6 (2 ^ 63 - 1) none) fun _ => 10]
    (∃ t, sharedNotes.exec s (.update (noteRow 6 (2 ^ 63 - 1) none) fun _ => 10) = some (.affected 1, t) ∧
      sharedNotes.stored "version" 0 t = some (-2 ^ 63)) ∧
      ¬ sharedNotes.LosesNoUpdate "version" 0 (steps sharedNotes.step s calls) := by
  refine ⟨⟨_, rfl, by decide⟩, ?_⟩
  intro h
  obtain ⟨n, hbefore, hafter⟩ := h.advanced ⟨some (2 ^ 63 - 1), some (2 ^ 63 - 1), some (-2 ^ 63)⟩ (by decide)
  cases hbefore
  revert hafter
  decide

end Ecat.Orm
