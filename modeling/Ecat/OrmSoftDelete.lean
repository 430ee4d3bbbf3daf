import Ecat.OrmEntity
import Ecat.OrmDeleteExact
import Ecat.Runs

/-! Clients that find, update and soft delete the rows of one table, statement by statement, and
when an update brings a deleted row back. -/

namespace Ecat.Orm

variable {V : Type}

namespace Sql

def equals (sql : Sql V) (row : Row V) (column : String) (value : Option V) : Bool :=
  value.any fun v => sql.compare row column .eq v == some true

def setCells (row : Row V) (cells : List (String × Option V)) : Row V :=
  fun c => (cells.lookup c).getD (row c)

end Sql

/-- The WHERE clause of one updated row: its key and, if there is one, its version. -/
def UpdateRow.reaches (sql : Sql V) (m : TableMeta) (u : UpdateRow V) (row : Row V) : Bool :=
  sql.equals row m.pk u.pk && match m.version, u.oldVersion with
    | some vc, some old => sql.equals row vc old
    | _, _ => true

/-- A table and the chunks that the calls of `update_many` have still to send. -/
structure Store (V : Type) where
  table : Table V
  pending : List (List (List (Row V)))

/-- One statement of some client, or the start of an `update_many`. Where one statement holds
several new values for a row, `pick` says which of them the database takes. -/
inductive Call (V : Type)
  | find (key : V) (withTrashed : Bool)
  | update (e : Row V) (now : String → V)
  | updateMany (entities : List (Row V))
  | send (call : Nat) (now : Nat → String → V) (pick : Row V → Nat)
  | deleteById (key : Option V) (now : V)

inductive Reply (V : Type)
  | rows (rows : List (Row V))
  | affected (n : Nat)
  | started
  | failed (error : OrmError)

structure Client (V : Type) where
  sql : Sql V
  vals : Values V
  dialect : Dialect
  entity : TableMeta

namespace Client

variable (c : Client V)

def find (key : V) (withTrashed : Bool) (table : Table V) : List (Row V) :=
  match renderWhere c.entity.toEntityMeta [.cmp c.entity.pk .eq key] withTrashed with
  | none => table
  | some conds => table.filter (c.sql.selects conds table)

def update (e : Row V) (now : String → V) (table : Table V) : Reply V × Table V :=
  let u := updateRow c.vals c.entity now e
  if u.set.isEmpty then (.failed (.rdbms "syntax error"), table)
  else
    let table' := table.map fun row => if u.reaches c.sql c.entity row then Sql.setCells row u.set else row
    match table.countP (u.reaches c.sql c.entity) with
    | 0 => (.failed (if c.entity.version.isSome then .optimisticLockConflict else .notFound), table')
    | n + 1 => (.affected (n + 1), table')

def updateChunks (entities : List (Row V)) : Except OrmError (List (List (Row V))) :=
  let setCols := (c.entity.columns.filter fun column => !column.pk).map ColumnMeta.name
  if entities.isEmpty then .ok []
  else if setCols.isEmpty then .error (.rdbms "entity has no updatable columns")
  else
    let whereExtra := c.entity.version.toList.filter fun vc => setCols.contains vc
    .ok (chunks (chunkSize c.dialect.maxParamsPerStmt (1 + setCols.length + whereExtra.length)) entities)

def candidates (now : Nat → String → V) (chunk : List (Row V)) (row : Row V) :
    List (Row V × UpdateRow V) :=
  (chunk.mapIdx fun i e => (e, updateRow c.vals c.entity (now i) e)).filter fun p =>
    p.2.reaches c.sql c.entity row

def chosen (now : Nat → String → V) (pick : Row V → Nat) (chunk : List (Row V)) (row : Row V) :
    Option (Row V × UpdateRow V) :=
  (c.candidates now chunk row)[pick row % (c.candidates now chunk row).length]?

def updateChunk (now : Nat → String → V) (pick : Row V → Nat) (chunk : List (Row V)) (table : Table V) :
    Nat × Table V :=
  (table.countP fun row => (c.chosen now pick chunk row).isSome,
    table.map fun row => ((c.chosen now pick chunk row).map fun p => Sql.setCells row p.2.set).getD row)

def deleteById (key : Option V) (now : V) (table : Table V) : Reply V × Table V :=
  match c.entity.softDelete with
  | some sd =>
    let live := fun row : Row V => c.sql.equals row c.entity.pk key && (row sd).isNone
    let table' := table.map fun row => if live row then Sql.setCell row sd now else row
    match table.countP live with
    | 0 => (.failed .notFound, table')
    | n + 1 => (.affected (n + 1), table')
  | none =>
    let table' := table.filter fun row => !c.sql.equals row c.entity.pk key
    match table.countP fun row => c.sql.equals row c.entity.pk key with
    | 0 => (.failed .notFound, table')
    | n + 1 => (.affected (n + 1), table')

def exec (s : Store V) : Call V → Option (Reply V × Store V)
  | .find key withTrashed => some (.rows (c.find key withTrashed s.table), s)
  | .update e now => some ((c.update e now s.table).1, { s with table := (c.update e now s.table).2 })
  | .updateMany entities =>
    match c.updateChunks entities with
    | .error error => some (.failed error, s)
    | .ok chunks => some (.started, { s with pending := s.pending ++ [chunks] })
  | .send call now pick =>
    match s.pending[call]? with
    | some (chunk :: rest) =>
      let (n, table) := c.updateChunk now pick chunk s.table
      some (.affected n, { table, pending := s.pending.set call rest })
    | _ => none
  | .deleteById key now =>
    some ((c.deleteById key now s.table).1, { s with table := (c.deleteById key now s.table).2 })

def step (s : Store V) (a : Call V) : Option (Store V) := (c.exec s a).map Prod.snd

/-- No query without `with_trashed` finds a row with the key. -/
def Hidden (k : V) (s : Store V) : Prop :=
  ∀ row ∈ s.table, c.sql.equals row c.entity.pk (some k) = true → gateOpen c.entity.softDelete row = false

/-- The entity's soft delete column is NULL, and no other flag has the update write that column. -/
def WritesNull (e : Row V) : Prop :=
  ∃ sd, c.entity.softDelete = some sd ∧ e sd = none ∧ c.entity.updatedAt ≠ some sd ∧
    c.entity.version ≠ some sd

/-- The call sends no update that reaches a row with the key and holds NULL for its soft delete
column: the entity was read after the deletion, or its version is no longer that of the row. -/
def Spares (k : V) (s : Store V) : Call V → Prop
  | .update e now =>
    ∀ row ∈ s.table, c.sql.equals row c.entity.pk (some k) = true →
      (updateRow c.vals c.entity now e).reaches c.sql c.entity row = true → ¬ c.WritesNull e
  | .send call now pick =>
    ∀ chunk rest, s.pending[call]? = some (chunk :: rest) → ∀ row ∈ s.table,
      c.sql.equals row c.entity.pk (some k) = true →
        ∀ p, c.chosen now pick chunk row = some p → ¬ c.WritesNull p.1
  | _ => True

/-! ### One row -/

variable {c} {k : V} {row : Row V} {e : Row V} {now : String → V} {sd : String}

theorem isSome_of_equals {sql : Sql V} {column : String} {value : Option V}
    (h : sql.equals row column value = true) : (row column).isSome ∧ value.isSome := by
  cases value with
  | none => simp [Sql.equals] at h
  | some v =>
    cases hcell : row column with
    | none => simp [Sql.equals, Sql.compare, hcell] at h
    | some cell => simp

theorem reaches_key {u : UpdateRow V} {m : TableMeta} {sql : Sql V}
    (h : u.reaches sql m row = true) : (row m.pk).isSome ∧ u.pk.isSome :=
  isSome_of_equals (Bool.and_eq_true_iff.1 h).1

theorem updateRow_set (vals : Values V) (m : TableMeta) (now : String → V) (e : Row V) :
    (updateRow vals m now e).set = (m.columns.filter fun d => !d.pk).map fun d =>
      (d.name, if m.version = some d.name then
          some (nextVersion vals ((autoTimestamp m.updatedAt d.name (e d.name) true (now d.name)).or (e d.name)))
        else (autoTimestamp m.updatedAt d.name (e d.name) true (now d.name)).or (e d.name)) := by
  simp [updateRow, updateParts, Function.comp_def]

theorem setCells_key (vals : Values V) (m : TableMeta) (now : String → V) (e row : Row V) :
    Sql.setCells row (updateRow vals m now e).set m.pk = row m.pk := by
  obtain ⟨d, hd, hname, hpk⟩ := m.exists_key
  rw [Sql.setCells, updateRow_set, ← hname, m.lookup_skipped _ _ hd (by simp [hpk]), Option.getD_none]

theorem setCells_softDelete (hsd : c.entity.softDelete = some sd) (hkey : sd ≠ c.entity.pk) (row : Row V) :
    Sql.setCells row (updateRow c.vals c.entity now e).set sd = none ↔ c.WritesNull e := by
  obtain ⟨d, hd, rfl⟩ := List.mem_map.1 (c.entity.softDelete_mem sd hsd)
  have hpk : d.pk = false := by
    rw [Bool.eq_false_iff]
    exact fun h => hkey ((c.entity.key d hd).1 h)
  rw [Sql.setCells, updateRow_set, c.entity.lookup_written _ _ hd (by simp [hpk]), Option.getD_some]
  by_cases hversion : c.entity.version = some d.name
  · simp [WritesNull, hsd, hversion]
  · by_cases hupdated : c.entity.updatedAt = some d.name
    · simp [WritesNull, hsd, hversion, hupdated, autoTimestamp]
    · simp [WritesNull, hsd, hversion, hupdated, autoTimestamp]

theorem gateOpen_setCells (hsd : c.entity.softDelete = some sd)
    (hreach : (updateRow c.vals c.entity now e).reaches c.sql c.entity row = true) :
    gateOpen c.entity.softDelete (Sql.setCells row (updateRow c.vals c.entity now e).set) = true ↔
      c.WritesNull e := by
  rw [hsd, gateOpen, Option.all_some, Option.isNone_iff_eq_none]
  by_cases hkey : sd = c.entity.pk
  · obtain ⟨hrow, hpk⟩ := reaches_key hreach
    rw [hkey, setCells_key]
    have hne : ¬ c.WritesNull e := by
      rintro ⟨sd', hsd', hnull, _⟩
      cases hsd.symm.trans hsd'
      have hpk : (e c.entity.pk).isSome := hpk
      simp [← hkey, hnull] at hpk
    simp [hne, Option.isSome_iff_ne_none.1 hrow]
  · exact setCells_softDelete hsd hkey row

/-! ### One step -/

def write (choose : Row V → Option (Row V × UpdateRow V)) (table : Table V) : Table V :=
  table.map fun row => ((choose row).map fun p => Sql.setCells row p.2.set).getD row

def Reaching (c : Client V) (choose : Row V → Option (Row V × UpdateRow V)) : Prop :=
  ∀ row p, choose row = some p →
    (∃ now, p.2 = updateRow c.vals c.entity now p.1) ∧ p.2.reaches c.sql c.entity row = true

variable {choose : Row V → Option (Row V × UpdateRow V)} {s t : Store V}

theorem hidden_write (hsd : c.entity.softDelete = some sd) (hchoose : c.Reaching choose)
    (h : c.Hidden k s) (pending : List (List (List (Row V)))) :
    c.Hidden k ⟨write choose s.table, pending⟩ ↔
      ∀ row ∈ s.table, c.sql.equals row c.entity.pk (some k) = true →
        ∀ p, choose row = some p → ¬ c.WritesNull p.1 := by
  simp only [Hidden, write, List.forall_mem_map]
  refine forall₂_congr fun row hrow => ?_
  cases hp : choose row with
  | none =>
    simp only [Option.map_none, Option.getD_none, reduceCtorEq, false_implies, implies_true, iff_true]
    exact h row hrow
  | some p =>
    obtain ⟨⟨now, hu⟩, hreach⟩ := hchoose row p hp
    rw [hu] at hreach
    have hkey : c.sql.equals (Sql.setCells row p.2.set) c.entity.pk (some k) =
        c.sql.equals row c.entity.pk (some k) := by
      simp [Sql.equals, Sql.compare, hu, setCells_key]
    have hgate := gateOpen_setCells hsd hreach
    rw [← hu] at hgate
    simp only [Option.map_some, Option.getD_some, hkey, Option.some.injEq, forall_eq', ← hgate,
      Bool.not_eq_true]

def single (c : Client V) (e : Row V) (now : String → V) (row : Row V) : Option (Row V × UpdateRow V) :=
  if (updateRow c.vals c.entity now e).reaches c.sql c.entity row then
    some (e, updateRow c.vals c.entity now e)
  else none

theorem single_eq_some {p : Row V × UpdateRow V} : c.single e now row = some p ↔
    (updateRow c.vals c.entity now e).reaches c.sql c.entity row = true ∧
      (e, updateRow c.vals c.entity now e) = p := by
  unfold single
  split
  next hreach => simp [hreach]
  next hreach => simp [hreach]

theorem single_reaching (e : Row V) (now : String → V) : c.Reaching (c.single e now) := by
  intro row p hp
  obtain ⟨hreach, rfl⟩ := single_eq_some.1 hp
  exact ⟨⟨now, rfl⟩, hreach⟩

theorem update_write (hset : (updateRow c.vals c.entity now e).set ≠ []) (table : Table V) :
    (c.update e now table).2 = write (c.single e now) table := by
  have hempty : (updateRow c.vals c.entity now e).set.isEmpty = false := by simpa using hset
  have hrows : (c.update e now table).2 = table.map fun row =>
      if (updateRow c.vals c.entity now e).reaches c.sql c.entity row then
        Sql.setCells row (updateRow c.vals c.entity now e).set else row := by
    simp only [update, hempty, Bool.false_eq_true, if_false]
    split <;> rfl
  rw [hrows, write]
  refine List.map_congr_left fun row _ => ?_
  unfold single
  split <;> simp

theorem chosen_reaching (now : Nat → String → V) (pick : Row V → Nat) (chunk : List (Row V)) :
    c.Reaching (c.chosen now pick chunk) := by
  intro row p hp
  have hmem : p ∈ c.candidates now chunk row := List.mem_of_getElem? hp
  obtain ⟨hmem, hreach⟩ := List.mem_filter.1 hmem
  obtain ⟨i, hi, rfl⟩ := List.mem_mapIdx.1 hmem
  exact ⟨⟨now i, rfl⟩, hreach⟩

theorem deleteById_rows (hsd : c.entity.softDelete = some sd) (key : Option V) (now : V)
    (table : Table V) : (c.deleteById key now table).2 = table.map fun row =>
      if c.sql.equals row c.entity.pk key && (row sd).isNone then Sql.setCell row sd now else row := by
  simp only [deleteById, hsd]
  split <;> rfl

theorem hidden_delete_iff (hsd : c.entity.softDelete = some sd) (key : Option V) (now : V)
    (table : Table V) (pending : List (List (List (Row V)))) :
    c.Hidden k ⟨(c.deleteById key now table).2, pending⟩ ↔
      ∀ row ∈ table, (c.sql.equals row c.entity.pk key && (row sd).isNone) = false →
        c.sql.equals row c.entity.pk (some k) = true → gateOpen c.entity.softDelete row = false := by
  rw [Hidden, deleteById_rows hsd, List.forall_mem_map]
  refine forall₂_congr fun row hrow => ?_
  cases hlive : c.sql.equals row c.entity.pk key && (row sd).isNone with
  | true => simp [hsd, gateOpen, Sql.setCell]
  | false => simp

theorem step_hidden_iff (hsd : c.entity.softDelete = some sd) {a : Call V} (h : c.Hidden k s)
    (hstep : c.step s a = some t) : c.Hidden k t ↔ c.Spares k s a := by
  cases a with
  | find key withTrashed =>
    cases hstep
    simpa [Spares] using h
  | updateMany entities =>
    have htable : t.table = s.table := by
      simp only [step, exec] at hstep
      split at hstep <;> cases hstep <;> rfl
    simpa [Spares, Hidden, htable] using h
  | deleteById key now =>
    cases hstep
    have hkeep := (hidden_delete_iff hsd key now s.table s.pending).2 fun row hrow _ hkey => h row hrow hkey
    simpa [Spares] using hkeep
  | send call now pick =>
    simp only [step, exec] at hstep
    split at hstep
    next chunk rest hpending =>
      cases hstep
      rw [show c.updateChunk now pick chunk s.table = (_, write (c.chosen now pick chunk) s.table) from rfl,
        hidden_write hsd (chosen_reaching now pick chunk) h]
      simp [Spares, hpending]
    next => cases hstep
  | update e now =>
    cases hstep
    by_cases hset : (updateRow c.vals c.entity now e).set = []
    · have hspares : c.Spares k s (.update e now) := by
        intro row hrow hkey hreach hnull
        have hgate := (gateOpen_setCells hsd hreach).2 hnull
        rw [hset, show Sql.setCells row [] = row from rfl, h row hrow hkey] at hgate
        cases hgate
      simpa [update, hset, hspares] using h
    · rw [update_write hset, hidden_write hsd (single_reaching e now) h]
      simp [Spares, single_eq_some]

/-! ### Whole runs -/

theorem hidden_of_deleted (hsd : c.entity.softDelete = some sd) {now : V} {reply : Reply V}
    (hdel : c.exec s (.deleteById (some k) now) = some (reply, t)) : c.Hidden k t := by
  cases hdel
  rw [hidden_delete_iff hsd]
  intro row _ hlive hkey
  rw [hkey, Bool.true_and] at hlive
  simp [hsd, gateOpen, hlive]

theorem spares_of_step_eq_none {a : Call V} (h : c.step s a = none) : c.Spares k s a := by
  cases a with
  | find => trivial
  | updateMany => trivial
  | deleteById => trivial
  | update e now => cases h
  | send call now pick =>
    intro chunk rest hpending
    simp [step, exec, hpending] at h

theorem stays_deleted_iff (hsd : c.entity.softDelete = some sd) {now : V} {n : Nat}
    (hdel : c.exec s (.deleteById (some k) now) = some (.affected n, t)) (calls : List (Call V)) :
    Throughout c.step (c.Hidden k) t calls ↔ Meets c.step (c.Spares k) t calls :=
  throughout_iff_meets (hidden_of_deleted hsd hdel) (fun _ _ => spares_of_step_eq_none)
    fun _ _ _ h hstep => step_hidden_iff hsd h hstep

end Client

/-! ### A stale update -/

def noteColumns : List ColumnMeta :=
  [⟨"id", .i64, false, true, true⟩, ⟨"body", .i64, false, false, false⟩,
    ⟨"deleted_at", .i64, true, false, false⟩, ⟨"version", .i64, false, false, false⟩]

def note : TableMeta where
  softDelete := some "deleted_at"
  table := "notes"
  pk := "id"
  columns := noteColumns
  createdAt := none
  updatedAt := none
  version := some "version"
  nodup := by decide
  key := by decide
  key_mem := by decide
  softDelete_mem := by decide

def intValues : Values Int := ⟨some, id, fun _ _ _ => none⟩

def notes : Client Int := ⟨integers constants, intValues, .sqlite, note⟩

def noteRow (body version : Int) (deletedAt : Option Int) : Row Int := fun column =>
  [("id", some 1), ("body", some body), ("deleted_at", deletedAt), ("version", some version)].lookup column
    |>.getD none

/-- A client reads the note, another deletes it, and the first saves the text it changed. -/
theorem stale_update_restores :
    ∃ (s t u : Store Int) (read : Row Int),
      notes.exec s (.find 1 false) = some (.rows [read], s) ∧
      notes.exec s (.deleteById (some 1) 9) = some (.affected 1, t) ∧
      notes.exec t (.update (Sql.setCell read "body" 6) fun _ => 10) = some (.affected 1, u) ∧
      ¬ notes.Hidden 1 u := by
  refine ⟨⟨[noteRow 5 1 none], []⟩, _, _, noteRow 5 1 none, rfl, rfl, rfl, ?_⟩
  intro hhidden
  have hgate := hhidden _ List.mem_cons_self (by decide)
  exact absurd hgate (by decide)

theorem overtaken_update_refused :
    Throughout notes.step (notes.Hidden 1) ⟨[Sql.setCell (noteRow 5 2 none) "deleted_at" 9], []⟩
      [.update (noteRow 6 1 none) fun _ => 10] :=
  (Client.stays_deleted_iff (show notes.entity.softDelete = some "deleted_at" from rfl)
    (show notes.exec ⟨[noteRow 5 2 none], []⟩ (.deleteById (some 1) 9) =
      some (.affected 1, ⟨[Sql.setCell (noteRow 5 2 none) "deleted_at" 9], []⟩) from rfl) _).2
    ⟨fun row hrow _ hreach => by
      cases List.mem_singleton.1 hrow
      exact absurd hreach (by decide), trivial⟩

end Ecat.Orm
