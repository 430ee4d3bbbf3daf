import Ecat.OrmText

/-! Inserting and updating many entities: the statements that `insert_many` and `update_many` cut the
entities into, each with as many rows as the parameters of one statement allow. -/

namespace Ecat.Orm

open Clause

variable {V : Type}

/-- The loop of `split_chunks`, by what is left. -/
def splitChunks (total perChunk : Nat) : List Nat :=
  if total = 0 then []
  else min total (max perChunk 1) :: splitChunks (total - min total (max perChunk 1)) perChunk
termination_by total

theorem sum_splitChunks (total perChunk : Nat) : (splitChunks total perChunk).sum = total := by
  fun_induction splitChunks total perChunk with
  | case1 => rfl
  | case2 total h ih =>
    rw [List.sum_cons, ih]
    omega

theorem mem_splitChunks {total perChunk size : Nat} (h : size ∈ splitChunks total perChunk) :
    0 < size ∧ size ≤ max perChunk 1 := by
  fun_induction splitChunks total perChunk with
  | case1 => cases h
  | case2 total hne ih =>
    rcases List.mem_cons.1 h with rfl | h
    · omega
    · exact ih h

theorem splitChunks_of_pos {total : Nat} (h : 0 < total) (perChunk : Nat) :
    splitChunks total perChunk =
      min total (max perChunk 1) :: splitChunks (total - min total (max perChunk 1)) perChunk := by
  rw [splitChunks, if_neg h.ne']

theorem chunks_eq_sliceBy {α : Type} {n : Nat} (hn : 0 < n) (l : List α) :
    chunks n l = sliceBy (splitChunks l.length n) l := by
  induction hlength : l.length using Nat.strong_induction_on generalizing l with
  | _ total ih =>
    by_cases hl : l = []
    · subst hl
      subst hlength
      rw [chunks_nil hn, List.length_nil, splitChunks]
      rfl
    · have hpos : 0 < total := hlength ▸ List.length_pos_of_ne_nil hl
      have hmax : max n 1 = n := by omega
      have htake : l.take (min total n) = l.take n := by
        rw [← hlength, List.take_eq_take_iff]
        omega
      have hdrop : l.drop (min total n) = l.drop n := by
        rw [← hlength, List.drop_eq_drop_iff]
        omega
      have hrest : chunks n (l.drop n) = sliceBy (splitChunks (total - min total n) n) (l.drop n) := by
        apply ih
        · omega
        · rw [List.length_drop]
          omega
      rw [chunks_cons hn hl, hrest, splitChunks_of_pos hpos, hmax, sliceBy, htake, hdrop]

theorem mul_le_of_le_chunkSize {limit perRow n : Nat} (hpos : 0 < perRow) (hfits : perRow ≤ limit)
    (h : n ≤ max (chunkSize limit perRow) 1) : n * perRow ≤ limit := by
  have hquotient : 1 ≤ limit / perRow := (Nat.one_le_div_iff hpos).2 hfits
  have hn : n ≤ limit / perRow := by
    have hper : max perRow 1 = perRow := by omega
    rw [chunkSize, hper] at h
    omega
  exact (Nat.mul_le_mul_right perRow hn).trans (Nat.div_mul_le_self limit perRow)

def TableMeta.column (m : TableMeta) (name : String) : Option ColumnMeta :=
  m.columns.find? fun c => c.name = name

/-- What an entity lists of itself: the cells of `to_values`, which are columns of the table, and its key. -/
structure Listed (V : Type) (m : TableMeta) where
  values : List (String × Option V)
  key : Option V
  known : ∀ cell ∈ values, cell.1 ∈ m.names

/-- The derive lists every column in the order of the table. -/
def derived (m : TableMeta) (e : Row V) : Listed V m where
  values := m.columns.map fun c => (c.name, e c.name)
  key := e m.pk
  known cell hcell := by
    obtain ⟨c, hc, rfl⟩ := List.mem_map.1 hcell
    exact List.mem_map_of_mem hc

namespace Batch

variable (vals : Values V) (dialect : Dialect) (m : TableMeta)

/-! ### Rows -/

def insertParts (now : String → V) (e : Listed V m) : List (String × Option V) :=
  (e.values.filter fun cell => !(m.column cell.1).any fun c => c.pk && c.autoIncrement).map fun (name, v) =>
    let v := (autoTimestamp m.createdAt name v false (now name)).or v
    (name, (autoTimestamp m.updatedAt name v true (now name)).or v)

def updateParts (now : String → V) (e : Listed V m) : List (String × Option V) :=
  (e.values.filter fun cell => !(m.column cell.1).any ColumnMeta.pk).map fun (name, v) =>
    (name, (autoTimestamp m.updatedAt name v true (now name)).or v)

/-- The version is the first column of its name. -/
def updateRow (now : String → V) (e : Listed V m) : UpdateRow V :=
  let parts := updateParts m now e
  match m.version.bind fun vc => parts.findIdx? fun cell => cell.1 = vc with
  | none => ⟨e.key, parts, none⟩
  | some pos =>
    ⟨e.key, parts.modify pos fun (c, v) => (c, some (nextVersion vals v)), parts[pos]?.map Prod.snd⟩

/-- The parameters of a row, in the order of `update_many_aliases`. -/
def updateValues (whereExtra : List String) (row : UpdateRow V) : List (Option V) :=
  row.pk :: row.set.map Prod.snd ++ whereExtra.map fun c =>
    (if m.version = some c then row.oldVersion else none).getD none

/-! ### INSERT -/

/-- `count` is the number of columns of the first entity. -/
def valueTuples (count : Nat) : Bound (Option V) → List (List (Option V)) →
    Except OrmError (List String × Bound (Option V))
  | bound, [] => .ok ([], bound)
  | bound, values :: rows =>
    if values.length ≠ count then
      .error (.rdbms "to_values() returned a different column count for a later row")
    else
      let (ps, bound) := bound.takeAll dialect values
      match valueTuples count bound rows with
      | .error error => .error error
      | .ok (tuples, bound) => .ok (("(" ++ ", ".intercalate ps ++ ")") :: tuples, bound)

def insertHead (cols : List String) : String :=
  "INSERT INTO " ++ dialect.quote m.table ++ " (" ++ ", ".intercalate (cols.map fun c => dialect.quote c) ++ ") VALUES "

def insertChunk (cols : List String) (rows : List (List (String × Option V))) : Except OrmError (Built (Option V)) :=
  match valueTuples dialect cols.length ⟨0, []⟩ (rows.map fun row => row.map Prod.snd) with
  | .error error => .error error
  | .ok (tuples, bound) => .ok ⟨insertHead dialect m cols ++ ", ".intercalate tuples, bound.params⟩

/-- The statements sent and the answer. `limit` is the dialect's `max_params_per_stmt`, and `now r` the
times that the clock shows at the `r`-th entity. -/
def insertMany (limit : Nat) (now : Nat → String → V) (execute : Nat → Built (Option V) → Except OrmError Nat)
    (entities : List (Listed V m)) : List (Built (Option V)) × Except OrmError Nat :=
  match entities with
  | [] => ([], .ok 0)
  | first :: _ =>
    let cols := (insertParts m (now 0) first).map Prod.fst
    if cols.isEmpty then ([], .error (.rdbms "entity has no insertable columns"))
    else
      let rows := entities.mapIdx fun r e => insertParts m (now r) e
      Text.sendAll execute 0 0
        ((sliceBy (splitChunks entities.length (chunkSize limit cols.length)) rows).map (insertChunk dialect m cols))

/-! ### UPDATE -/

def updateManyAliases (pk : String) (setCols whereExtra : List String) : List String :=
  (pk :: setCols ++ whereExtra.map fun c => c ++ "__old").map fun c => dialect.quote c

def rowPlaceholders (perRow r : Nat) : List String :=
  (List.range perRow).map fun c => dialect.placeholder (r * perRow + c + 1)

/-- The rows of `VALUES`, which start at parameter 1 in every statement. -/
def valuesRows (perRow rows : Nat) : String :=
  ", ".intercalate ((List.range rows).map fun r => "(" ++ ", ".intercalate (rowPlaceholders dialect perRow r) ++ ")")

def updateManyFromValues (table pk : String) (setCols whereExtra : List String) (rows : Nat) : String :=
  let names := ", ".intercalate (updateManyAliases dialect pk setCols whereExtra)
  let perRow := 1 + setCols.length + whereExtra.length
  let sets := ", ".intercalate (setCols.map fun c => dialect.quote c ++ " = v." ++ dialect.quote c)
  let table := dialect.quote table
  let conds := (table ++ "." ++ dialect.quote pk ++ " = v." ++ dialect.quote pk) ::
    whereExtra.map fun c => table ++ "." ++ dialect.quote c ++ " = v." ++ dialect.quote (c ++ "__old")
  "UPDATE " ++ table ++ " SET " ++ sets ++ " FROM (VALUES " ++ valuesRows dialect perRow rows ++ ") AS v(" ++ names ++
    ") WHERE " ++ " AND ".intercalate conds

/-- SQLite takes no names for the columns of `VALUES` and calls them `column1`, `column2` and so on. -/
def updateManySqlite (table pk : String) (setCols whereExtra : List String) (rows : Nat) : String :=
  let perRow := 1 + setCols.length + whereExtra.length
  let sets := ", ".intercalate (setCols.mapIdx fun i c =>
    Dialect.sqlite.quote c ++ " = v." ++ Dialect.sqlite.quote ("column" ++ toString (i + 2)))
  let table := Dialect.sqlite.quote table
  let conds := (table ++ "." ++ Dialect.sqlite.quote pk ++ " = v." ++ Dialect.sqlite.quote "column1") ::
    whereExtra.mapIdx fun i c => table ++ "." ++ Dialect.sqlite.quote c ++ " = v." ++
      Dialect.sqlite.quote ("column" ++ toString (setCols.length + i + 2))
  "UPDATE " ++ table ++ " SET " ++ sets ++ " FROM (VALUES " ++ valuesRows .sqlite perRow rows ++ ") AS v WHERE " ++
    " AND ".intercalate conds

/-- MySQL joins a derived table, whose columns have the names of its first SELECT. -/
def updateManyMySql (table pk : String) (setCols whereExtra : List String) (rows : Nat) : String :=
  let names := updateManyAliases .mysql pk setCols whereExtra
  let selects := " UNION ALL ".intercalate ((List.range rows).map fun r =>
    let ps := rowPlaceholders .mysql names.length r
    let cols := if r = 0 then List.zipWith (fun p a => p ++ " AS " ++ a) ps names else ps
    "SELECT " ++ ", ".intercalate cols)
  let table := Dialect.mysql.quote table
  let sets := ", ".intercalate (setCols.map fun c =>
    table ++ "." ++ Dialect.mysql.quote c ++ " = v." ++ Dialect.mysql.quote c)
  let sql := "UPDATE " ++ table ++ " JOIN (" ++ selects ++ ") AS v ON " ++ table ++ "." ++ Dialect.mysql.quote pk ++
    " = v." ++ Dialect.mysql.quote pk ++ " SET " ++ sets
  if whereExtra.isEmpty then sql
  else
    let conds := whereExtra.map fun c =>
      table ++ "." ++ Dialect.mysql.quote c ++ " = v." ++ Dialect.mysql.quote (c ++ "__old")
    sql ++ " WHERE " ++ " AND ".intercalate conds

def updateManyStmt (table pk : String) (setCols whereExtra : List String) (rows : Nat) : Dialect → String
  | .standard => updateManyFromValues .standard table pk setCols whereExtra rows
  | .sqlite => updateManySqlite table pk setCols whereExtra rows
  | .postgres => updateManyFromValues .postgres table pk setCols whereExtra rows
  | .mysql => updateManyMySql table pk setCols whereExtra rows
  | .mssql => updateManyFromValues .mssql table pk setCols whereExtra rows

def updateChunk (setCols whereExtra : List String) (rows : List (UpdateRow V)) : Except OrmError (Built (Option V)) :=
  if rows.any fun row => row.set.length ≠ setCols.length then
    .error (.rdbms "to_values() returned a different column count for a later row")
  else .ok ⟨updateManyStmt m.table m.pk setCols whereExtra rows.length dialect, rows.flatMap (updateValues m whereExtra)⟩

/-- The version is compared where it is among the columns to set. -/
def whereExtra (setCols : List String) : List String :=
  match m.version with
  | some vc => if setCols.any fun c => c = vc then [vc] else []
  | none => []

def updateMany (limit : Nat) (now : Nat → String → V) (execute : Nat → Built (Option V) → Except OrmError Nat)
    (entities : List (Listed V m)) : List (Built (Option V)) × Except OrmError Nat :=
  match entities with
  | [] => ([], .ok 0)
  | first :: _ =>
    let setCols := (updateRow vals m (now 0) first).set.map Prod.fst
    if setCols.isEmpty then ([], .error (.rdbms "entity has no updatable columns"))
    else
      let extra := whereExtra m setCols
      let perRow := 1 + setCols.length + extra.length
      let rows := entities.mapIdx fun r e => updateRow vals m (now r) e
      Text.sendAll execute 0 0
        ((sliceBy (splitChunks entities.length (chunkSize limit perRow)) rows).map (updateChunk dialect m setCols extra))

/-! ### The cells of a row -/

section Rows

variable (vals : Values V) (m : TableMeta) (now : String → V) {e : Listed V m} {listed : List String}

def insertColumns (listed : List String) : List String :=
  listed.filter fun name => !(m.column name).any fun c => c.pk && c.autoIncrement

def setColumns (listed : List String) : List String := listed.filter fun name => !(m.column name).any ColumnMeta.pk

theorem insertParts_columns (h : e.values.map Prod.fst = listed) :
    (insertParts m now e).map Prod.fst = insertColumns m listed := by
  rw [insertParts, List.map_map, insertColumns, ← h, List.filter_map]
  rfl

theorem updateParts_columns (h : e.values.map Prod.fst = listed) :
    (updateParts m now e).map Prod.fst = setColumns m listed := by
  rw [updateParts, List.map_map, setColumns, ← h, List.filter_map]
  rfl

theorem updateRow_columns (h : e.values.map Prod.fst = listed) :
    (updateRow vals m now e).set.map Prod.fst = setColumns m listed := by
  rw [← updateParts_columns m now h, updateRow]
  split
  · rfl
  · rename_i pos _
    apply List.ext_getElem (by simp)
    intro i hi hi'
    by_cases hpos : pos = i <;> simp [hpos]

theorem length_updateValues (h : e.values.map Prod.fst = listed) (whereExtra : List String) :
    (updateValues m whereExtra (updateRow vals m now e)).length =
      1 + (setColumns m listed).length + whereExtra.length := by
  have hset := congrArg List.length (updateRow_columns vals m now h)
  rw [List.length_map] at hset
  simp [updateValues, hset]
  omega

end Rows

/-- The cell that is overwritten is the one a lookup finds. -/
theorem lookup_findIdx? {β : Type} (name : String) (cells : List (String × β)) :
    cells.lookup name = (cells.findIdx? fun cell => cell.1 = name).bind fun pos => cells[pos]?.map Prod.snd := by
  induction cells with
  | nil => rfl
  | cons cell cells ih =>
    obtain ⟨c, v⟩ := cell
    rw [List.findIdx?_cons, List.lookup_cons]
    by_cases hc : c = name
    · simp [hc]
    · have hbeq : (name == c) = false := by simpa using Ne.symm hc
      simp [hbeq, hc, ih, Option.bind_map]

theorem oldVersion_eq (vals : Values V) (m : TableMeta) (now : String → V) (e : Listed V m) {vc : String}
    (hvc : m.version = some vc) : (updateRow vals m now e).oldVersion = (updateParts m now e).lookup vc := by
  rw [lookup_findIdx?, updateRow, hvc, Option.bind_some]
  cases (updateParts m now e).findIdx? fun cell => cell.1 = vc <;> rfl

/-! ### The derive's entities -/

section Derived

variable (vals : Values V) (m : TableMeta) (now : String → V) (e : Row V)

theorem column_eq {c : ColumnMeta} (hc : c ∈ m.columns) : m.column c.name = some c := by
  have hsome : (m.columns.find? fun d => d.name = c.name).isSome = true :=
    List.find?_isSome.2 ⟨c, hc, by simp⟩
  obtain ⟨d, hd⟩ := Option.isSome_iff_exists.1 hsome
  have hname : d.name = c.name := by simpa using List.find?_some hd
  rw [TableMeta.column, hd, m.eq_of_name_eq (List.mem_of_find?_eq_some hd) hc hname]

theorem insertParts_derived : insertParts m now (derived m e) = Orm.insertParts m now e := by
  have hskip : ∀ c ∈ m.columns, (!(m.column c.name).any fun c => c.pk && c.autoIncrement) =
      !(c.pk && c.autoIncrement) := by
    intro c hc
    rw [column_eq m hc, Option.any_some]
  rw [insertParts, derived, Orm.insertParts, List.filter_map, List.map_map]
  exact congrArg (List.map _) (List.filter_congr hskip)

theorem updateParts_derived : updateParts m now (derived m e) = Orm.updateParts m now e := by
  have hskip : ∀ c ∈ m.columns, (!(m.column c.name).any ColumnMeta.pk) = !c.pk := by
    intro c hc
    rw [column_eq m hc, Option.any_some]
  rw [updateParts, derived, Orm.updateParts, List.filter_map, List.map_map]
  exact congrArg (List.map _) (List.filter_congr hskip)

theorem overwrite_absent {β : Type} (g : β → β) {name : String} {cells : List (String × β)}
    (h : name ∉ cells.map Prod.fst) :
    (cells.map fun cell => (cell.1, if name = cell.1 then g cell.2 else cell.2)) = cells := by
  induction cells with
  | nil => rfl
  | cons cell cells ih =>
    rw [List.map_cons, List.mem_cons, not_or] at h
    rw [List.map_cons, if_neg h.1, ih h.2]

/-- Where no two cells have one name, the first of a name is the only one. -/
theorem overwrite_first {β : Type} (g : β → β) {name : String} {cells : List (String × β)} {pos : Nat}
    (hnodup : (cells.map Prod.fst).Nodup) (h : cells.findIdx? (fun cell => cell.1 = name) = some pos) :
    (cells.modify pos fun cell => (cell.1, g cell.2)) =
      cells.map fun cell => (cell.1, if name = cell.1 then g cell.2 else cell.2) := by
  induction cells generalizing pos with
  | nil => simp at h
  | cons cell cells ih =>
    obtain ⟨c, v⟩ := cell
    rw [List.map_cons, List.nodup_cons] at hnodup
    rw [List.findIdx?_cons] at h
    by_cases hc : c = name
    · subst hc
      have hpos : pos = 0 := by simpa using h.symm
      subst hpos
      simp [overwrite_absent g hnodup.1]
    · rw [if_neg (by simpa using hc), Option.map_eq_some_iff] at h
      obtain ⟨p, hp, rfl⟩ := h
      simp [ih hnodup.2 hp, Ne.symm hc]

theorem nodup_updateParts : ((Orm.updateParts m now e).map Prod.fst).Nodup := by
  rw [Orm.updateParts, List.map_map]
  exact m.nodup.sublist (List.filter_sublist.map ColumnMeta.name)

theorem updateRow_derived : updateRow vals m now (derived m e) = Orm.updateRow vals m now e := by
  have hnodup := nodup_updateParts m now e
  rw [updateRow, updateParts_derived, Orm.updateRow]
  generalize Orm.updateParts m now e = parts at hnodup
  cases m.version with
  | none => simp [derived]
  | some vc =>
    cases hpos : parts.findIdx? fun cell => cell.1 = vc with
    | none =>
      have hne : ∀ cell ∈ parts, cell.1 ≠ vc := by simpa using hpos
      have habsent : vc ∉ parts.map Prod.fst := by
        intro hmem
        obtain ⟨cell, hcell, hname⟩ := List.mem_map.1 hmem
        exact hne cell hcell hname
      have hlookup := lookup_findIdx? vc parts
      rw [hpos] at hlookup
      have hsame := overwrite_absent (fun v => some (nextVersion vals v)) habsent
      simp [hpos, hsame, hlookup, derived]
    | some pos =>
      have hmodify := overwrite_first (fun v => some (nextVersion vals v)) hnodup hpos
      have hlookup := lookup_findIdx? vc parts
      rw [hpos] at hlookup
      simp [hpos, hmodify, hlookup, derived]

end Derived

end Batch

end Ecat.Orm
