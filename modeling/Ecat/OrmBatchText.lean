import Ecat.OrmBatch
import Ecat.OrmPlaceholders

/-! The batch statements with their values in place: `VALUES` rows, or on MySQL the rows of a derived
table, and the columns of that table by their positions. -/

namespace Ecat.Orm

open Clause Template

namespace Batch

variable {V W : Type}

def tupleTemplate (values : List W) : Template W :=
  .inl "(" :: ([.inl ", "].intercalate (values.map fun v => [.inr v]) ++ [.inl ")"])

def insertTemplate (dialect : Dialect) (m : TableMeta) (cols : List String) (rows : List (List W)) : Template W :=
  .inl (insertHead dialect m cols) :: [.inl ", "].intercalate (rows.map tupleTemplate)

/-- The columns of the table `v` that an UPDATE reads its rows from. -/
def derivedColumns (pk : String) (setCols whereExtra : List String) : List String :=
  pk :: setCols ++ whereExtra.map fun c => c ++ "__old"

/-- What the statement calls the `i`-th column of `v`. -/
def columnName (columns : List String) (i : Nat) : Dialect → String
  | .sqlite => "column" ++ toString (i + 1)
  | .standard | .postgres | .mysql | .mssql => columns[i]?.getD ""

section Update

variable (dialect : Dialect) (table pk : String) (setCols whereExtra : List String)

/-- `column = v.column`, with the `i`-th column of `v`. -/
def equation (target : String) (i : Nat) : String :=
  target ++ " = v." ++ dialect.quote (columnName (derivedColumns pk setCols whereExtra) i dialect)

def qualified (column : String) : String := dialect.quote table ++ "." ++ dialect.quote column

/-- Each column to set takes the value that stands where it does behind the key. -/
def setClause : String :=
  ", ".intercalate (setCols.mapIdx fun j c => equation dialect pk setCols whereExtra
    (if dialect = .mysql then qualified dialect table c else dialect.quote c) (1 + j))

def keyCondition : String := equation dialect pk setCols whereExtra (qualified dialect table pk) 0

/-- The columns to compare come behind those to set. -/
def oldConditions : List String :=
  whereExtra.mapIdx fun j c =>
    equation dialect pk setCols whereExtra (qualified dialect table c) (1 + setCols.length + j)

def selectTemplates (names : List String) : List (List W) → List (Template W)
  | [] => []
  | first :: rows =>
    (.inl "SELECT " :: [.inl ", "].intercalate (List.zipWith (fun v a => [.inr v, .inl (" AS " ++ a)]) first names)) ::
      rows.map fun values => .inl "SELECT " :: [.inl ", "].intercalate (values.map fun v => [.inr v])

def updateTemplate (rows : List (List W)) : Template W :=
  let names := updateManyAliases dialect pk setCols whereExtra
  let sets := setClause dialect table pk setCols whereExtra
  let key := keyCondition dialect table pk setCols whereExtra
  let olds := oldConditions dialect table pk setCols whereExtra
  match dialect with
  | .mysql =>
    .inl ("UPDATE " ++ dialect.quote table ++ " JOIN (") ::
      ([.inl " UNION ALL "].intercalate (selectTemplates names rows) ++
        [.inl (") AS v ON " ++ key ++ " SET " ++ sets ++
          if whereExtra.isEmpty then "" else " WHERE " ++ " AND ".intercalate olds)])
  | .sqlite =>
    .inl ("UPDATE " ++ dialect.quote table ++ " SET " ++ sets ++ " FROM (VALUES ") ::
      ([.inl ", "].intercalate (rows.map tupleTemplate) ++
        [.inl (") AS v WHERE " ++ " AND ".intercalate (key :: olds))])
  | .standard | .postgres | .mssql =>
    .inl ("UPDATE " ++ dialect.quote table ++ " SET " ++ sets ++ " FROM (VALUES ") ::
      ([.inl ", "].intercalate (rows.map tupleTemplate) ++
        [.inl (") AS v(" ++ ", ".intercalate names ++ ") WHERE " ++ " AND ".intercalate (key :: olds))])

end Update

/-! ### INSERT -/

theorem operands_tupleTemplate (values : List W) : (tupleTemplate values).operands = values := by
  rw [tupleTemplate, operands_text, operands_append, Text.operands_list]
  simp

theorem operands_tuples (rows : List (List W)) :
    operands ([.inl ", "].intercalate (rows.map tupleTemplate)) = rows.flatten := by
  rw [operands_intercalate, List.flatMap_map]
  simp [operands_tupleTemplate, List.flatMap_id']

theorem write_tupleTemplate (placeholder : Nat → String) (k : Nat) (values : List W) :
    (tupleTemplate values).write placeholder k =
      "(" ++ ", ".intercalate (writeEach placeholder k (values.map fun v => [.inr v])) ++ ")" := by
  rw [tupleTemplate, write_text, write_append, write_intercalate, String.append_assoc]
  simp [write]

theorem valueTuples_eq (dialect : Dialect) (count : Nat) (bound : Bound (Option V)) {rows : List (List (Option V))}
    (h : ∀ row ∈ rows, row.length = count) : valueTuples dialect count bound rows =
      .ok (writeEach (fun k => dialect.placeholder k) bound.next (rows.map tupleTemplate),
        Text.after bound rows.flatten) := by
  induction rows generalizing bound with
  | nil => simp [valueTuples, writeEach, Text.after]
  | cons row rows ih =>
    obtain ⟨hrow, hrows⟩ := List.forall_mem_cons.1 h
    have hrest := ih (Text.after bound row) hrows
    rw [Text.after_after] at hrest
    rw [valueTuples, if_neg (by simpa using hrow), Text.takeAll_eq]
    dsimp only
    rw [hrest, List.map_cons, writeEach, write_tupleTemplate, operands_tupleTemplate, List.flatten_cons]
    rfl

theorem insertChunk_eq (dialect : Dialect) (m : TableMeta) (cols : List String) {rows : List (List (String × Option V))}
    (h : ∀ row ∈ rows, row.length = cols.length) : insertChunk dialect m cols rows =
      .ok ⟨(insertTemplate dialect m cols (rows.map fun row => row.map Prod.snd)).write (fun k => dialect.placeholder k) 0,
        (rows.map fun row => row.map Prod.snd).flatten⟩ := by
  have hlength : ∀ row ∈ rows.map fun row => row.map Prod.snd, row.length = cols.length := by
    intro row hrow
    obtain ⟨cells, hcells, rfl⟩ := List.mem_map.1 hrow
    rw [List.length_map]
    exact h cells hcells
  rw [insertChunk, valueTuples_eq dialect cols.length ⟨0, []⟩ hlength]
  simp [insertTemplate, write_intercalate, Text.after]

/-! ### UPDATE -/

theorem writeEach_values (placeholder : Nat → String) (k : Nat) (values : List W) :
    writeEach placeholder k (values.map fun v => [.inr v]) =
      (List.range values.length).map fun c => placeholder (k + c + 1) := by
  induction values generalizing k with
  | nil => rfl
  | cons v values ih =>
    rw [List.map_cons, writeEach, List.length_cons, List.range_succ_eq_map, List.map_cons, List.map_map]
    have hrest : writeEach placeholder (k + 1) (values.map fun v => [.inr v]) =
        (List.range values.length).map ((fun c => placeholder (k + c + 1)) ∘ Nat.succ) := by
      rw [ih]
      apply List.map_congr_left
      intro c _
      rw [Function.comp_apply, Nat.succ_eq_add_one, Nat.add_right_comm k 1 c]
      rfl
    rw [operands_value, operands_nil, List.length_singleton, hrest]
    simp [write]

/-- Rows of one width, each written from its own values on. -/
theorem writeEach_rows (placeholder : Nat → String) {width k : Nat} {rows : List (List W)} (f : List W → Template W)
    (text : List String → String) (hrows : ∀ row ∈ rows, row.length = width)
    (hf : ∀ k row, (f row).write placeholder k = text (writeEach placeholder k (row.map fun v => [.inr v])))
    (hoperands : ∀ row, (f row).operands = row) : writeEach placeholder k (rows.map f) =
      (List.range rows.length).map fun r =>
        text ((List.range width).map fun c => placeholder (k + (r * width + c + 1))) := by
  induction rows generalizing k with
  | nil => rfl
  | cons row rows ih =>
    obtain ⟨hrow, hrest⟩ := List.forall_mem_cons.1 hrows
    rw [List.map_cons, writeEach, hf, hoperands, hrow, ih hrest, List.length_cons, List.range_succ_eq_map, List.map_cons,
      List.map_map, writeEach_values, hrow]
    congr 1
    · simp [Nat.add_assoc]
    · apply List.map_congr_left
      intro r _
      have hstart (c : Nat) : k + width + (r * width + c + 1) = k + (r.succ * width + c + 1) := by
        rw [Nat.succ_mul]
        omega
      simp only [Function.comp_apply, hstart]

theorem valuesRows_eq (dialect : Dialect) {perRow : Nat} {rows : List (List W)} (h : ∀ row ∈ rows, row.length = perRow) :
    valuesRows dialect perRow rows.length =
      ", ".intercalate (writeEach (fun k => dialect.placeholder k) 0 (rows.map tupleTemplate)) := by
  rw [writeEach_rows _ tupleTemplate (fun ps => "(" ++ ", ".intercalate ps ++ ")") h
    (fun k row => write_tupleTemplate _ k row) operands_tupleTemplate, valuesRows]
  simp [rowPlaceholders]

section Columns

variable {dialect : Dialect} {table pk : String} {setCols whereExtra : List String}

theorem columnName_named (columns : List String) (i : Nat) (hd : dialect ≠ .sqlite) :
    columnName columns i dialect = columns[i]?.getD "" := by
  cases dialect with
  | sqlite => exact absurd rfl hd
  | standard | postgres | mysql | mssql => rfl

theorem columnName_set (hd : dialect ≠ .sqlite) {j : Nat} (hj : j < setCols.length) :
    columnName (derivedColumns pk setCols whereExtra) (1 + j) dialect = setCols[j] := by
  rw [columnName_named _ _ hd, derivedColumns, Nat.add_comm, List.cons_append, List.getElem?_cons_succ,
    List.getElem?_append_left hj, List.getElem?_eq_getElem hj]
  rfl

theorem columnName_old (hd : dialect ≠ .sqlite) {j : Nat} (hj : j < whereExtra.length) :
    columnName (derivedColumns pk setCols whereExtra) (1 + setCols.length + j) dialect = whereExtra[j] ++ "__old" := by
  rw [columnName_named _ _ hd, derivedColumns, Nat.add_assoc, Nat.add_comm]
  simp [hj]

/-- Names and positions say the same columns of `v`. -/
theorem setClause_named (hd : dialect ≠ .sqlite) (target : String → String) :
    (setCols.mapIdx fun j c => equation dialect pk setCols whereExtra (target c) (1 + j)) =
      setCols.map fun c => target c ++ " = v." ++ dialect.quote c := by
  apply List.ext_getElem (by simp)
  intro j hj hj'
  rw [List.length_mapIdx] at hj
  simp [equation, columnName_set hd hj]

theorem oldConditions_named (hd : dialect ≠ .sqlite) : oldConditions dialect table pk setCols whereExtra =
    whereExtra.map fun c => qualified dialect table c ++ " = v." ++ dialect.quote (c ++ "__old") := by
  apply List.ext_getElem (by simp [oldConditions])
  intro j hj hj'
  rw [List.length_map] at hj'
  simp [oldConditions, equation, columnName_old hd hj']

theorem keyCondition_named (hd : dialect ≠ .sqlite) : keyCondition dialect table pk setCols whereExtra =
    qualified dialect table pk ++ " = v." ++ dialect.quote pk := by
  rw [keyCondition, equation, columnName_named _ _ hd]
  rfl

end Columns

section Statements

variable (table pk : String) (setCols whereExtra : List String) {rows : List (List W)}

theorem updateManyFromValues_eq {dialect : Dialect} (hd : dialect = .standard ∨ dialect = .postgres ∨ dialect = .mssql)
    (h : ∀ row ∈ rows, row.length = 1 + setCols.length + whereExtra.length) :
    updateManyFromValues dialect table pk setCols whereExtra rows.length =
      (updateTemplate dialect table pk setCols whereExtra rows).write (fun k => dialect.placeholder k) 0 := by
  have hsqlite : dialect ≠ .sqlite := by rcases hd with rfl | rfl | rfl <;> decide
  have hmysql : dialect ≠ .mysql := by rcases hd with rfl | rfl | rfl <;> decide
  have hsets : setClause dialect table pk setCols whereExtra =
      ", ".intercalate (setCols.map fun c => dialect.quote c ++ " = v." ++ dialect.quote c) := by
    rw [setClause, ← @setClause_named dialect pk setCols whereExtra hsqlite]
    simp only [if_neg hmysql]
  simp only [updateManyFromValues, valuesRows_eq dialect h]
  rcases hd with rfl | rfl | rfl <;>
    simp [updateTemplate, hsets, keyCondition_named, oldConditions_named, qualified, write, write_append, write_intercalate,
      String.append_assoc]

theorem updateManySqlite_eq (h : ∀ row ∈ rows, row.length = 1 + setCols.length + whereExtra.length) :
    updateManySqlite table pk setCols whereExtra rows.length =
      (updateTemplate .sqlite table pk setCols whereExtra rows).write (fun k => Dialect.sqlite.placeholder k) 0 := by
  have hkey : "column1" = "column" ++ Nat.repr 1 := rfl
  have hset (j : Nat) : 1 + j + 1 = j + 2 := by omega
  have hold (j : Nat) : 1 + setCols.length + j + 1 = setCols.length + j + 2 := by omega
  simp only [updateManySqlite, valuesRows_eq .sqlite h]
  simp [updateTemplate, setClause, keyCondition, oldConditions, equation, columnName, qualified, write, write_append,
    write_intercalate, String.append_assoc, hkey, hset, hold]

theorem writeEach_named (placeholder : Nat → String) (k : Nat) (values : List W) (names : List String) :
    writeEach placeholder k (List.zipWith (fun v a => [.inr v, .inl (" AS " ++ a)]) values names) =
      List.zipWith (fun p a => p ++ " AS " ++ a) (writeEach placeholder k (values.map fun v => [.inr v])) names := by
  induction values generalizing k names with
  | nil => rfl
  | cons v values ih =>
    cases names with
    | nil => rfl
    | cons a names => simp [writeEach, write, ih, String.append_assoc]

theorem operands_named {values : List W} {names : List String} (h : values.length = names.length) :
    operands ([.inl ", "].intercalate (List.zipWith (fun v a => [.inr v, .inl (" AS " ++ a)]) values names)) = values := by
  rw [operands_intercalate]
  induction values generalizing names with
  | nil => rfl
  | cons v values ih =>
    cases names with
    | nil => simp at h
    | cons a names => simp [ih (by simpa using h)]

/-- The first row of the derived table carries the names. -/
theorem selects_eq {names : List String} (h : ∀ row ∈ rows, row.length = names.length) :
    ((List.range rows.length).map fun r =>
      let ps := rowPlaceholders .mysql names.length r
      let cols := if r = 0 then List.zipWith (fun p a => p ++ " AS " ++ a) ps names else ps
      "SELECT " ++ ", ".intercalate cols) =
      writeEach (fun k => Dialect.mysql.placeholder k) 0 (selectTemplates names rows) := by
  cases rows with
  | nil => rfl
  | cons first rows =>
    obtain ⟨hfirst, hrows⟩ := List.forall_mem_cons.1 h
    have hwrite (k : Nat) (row : List W) :
        write (fun k => Dialect.mysql.placeholder k) k (.inl "SELECT " :: [.inl ", "].intercalate (row.map fun v => [.inr v])) =
          "SELECT " ++ ", ".intercalate (writeEach (fun k => Dialect.mysql.placeholder k) k (row.map fun v => [.inr v])) := by
      rw [write_text, write_intercalate]
    rw [selectTemplates, writeEach, operands_text, operands_named hfirst, hfirst,
      writeEach_rows _ _ (fun ps => "SELECT " ++ ", ".intercalate ps) hrows hwrite Text.operands_list,
      write_text, write_intercalate, writeEach_named, writeEach_values, hfirst, List.length_cons, List.range_succ_eq_map,
      List.map_cons, List.map_map]
    have hstart (r c : Nat) : (r + 1) * names.length + c + 1 = 0 + names.length + (r * names.length + c + 1) := by
      rw [Nat.succ_mul]
      omega
    simp [rowPlaceholders, hstart]

theorem updateManyMySql_eq (h : ∀ row ∈ rows, row.length = 1 + setCols.length + whereExtra.length) :
    updateManyMySql table pk setCols whereExtra rows.length =
      (updateTemplate .mysql table pk setCols whereExtra rows).write (fun k => Dialect.mysql.placeholder k) 0 := by
  have hwidth : (updateManyAliases .mysql pk setCols whereExtra).length = 1 + setCols.length + whereExtra.length := by
    simp [updateManyAliases]
    omega
  have hsets : setClause .mysql table pk setCols whereExtra = ", ".intercalate (setCols.map fun c =>
      qualified .mysql table c ++ " = v." ++ Dialect.mysql.quote c) := by
    rw [setClause, ← @setClause_named .mysql pk setCols whereExtra (by decide)]
    rfl
  have hselects := @selects_eq W rows (updateManyAliases .mysql pk setCols whereExtra) (hwidth ▸ h)
  simp only [updateManyMySql, hselects]
  by_cases hextra : whereExtra.isEmpty = true
  · simp [updateTemplate, hsets, keyCondition_named, qualified, write, write_append, write_intercalate,
      String.append_assoc, hextra]
  · simp [updateTemplate, hsets, keyCondition_named, oldConditions_named, qualified, write, write_append,
      write_intercalate, String.append_assoc, hextra]

theorem updateManyStmt_eq (dialect : Dialect) (h : ∀ row ∈ rows, row.length = 1 + setCols.length + whereExtra.length) :
    updateManyStmt table pk setCols whereExtra rows.length dialect =
      (updateTemplate dialect table pk setCols whereExtra rows).write (fun k => dialect.placeholder k) 0 := by
  cases dialect with
  | standard => exact updateManyFromValues_eq table pk setCols whereExtra (.inl rfl) h
  | sqlite => exact updateManySqlite_eq table pk setCols whereExtra h
  | postgres => exact updateManyFromValues_eq table pk setCols whereExtra (.inr (.inl rfl)) h
  | mysql => exact updateManyMySql_eq table pk setCols whereExtra h
  | mssql => exact updateManyFromValues_eq table pk setCols whereExtra (.inr (.inr rfl)) h

theorem operands_updateTemplate (dialect : Dialect)
    (h : ∀ row ∈ rows, row.length = 1 + setCols.length + whereExtra.length) :
    (updateTemplate dialect table pk setCols whereExtra rows).operands = rows.flatten := by
  have hnames : (updateManyAliases .mysql pk setCols whereExtra).length = 1 + setCols.length + whereExtra.length := by
    simp [updateManyAliases]
    omega
  have hselects : operands ([.inl " UNION ALL "].intercalate
      (selectTemplates (updateManyAliases .mysql pk setCols whereExtra) rows)) = rows.flatten := by
    cases rows with
    | nil => rfl
    | cons first rows =>
      obtain ⟨hfirst, _⟩ := List.forall_mem_cons.1 h
      rw [operands_intercalate, selectTemplates, List.flatMap_cons, operands_text, operands_named (hfirst.trans hnames.symm),
        List.flatMap_map, List.flatten_cons]
      simp [Text.operands_list, List.flatMap_id']
  cases dialect with
  | mysql => simp [updateTemplate, hselects]
  | standard | sqlite | postgres | mssql => simp [updateTemplate, operands_tuples]

end Statements

/-! ### Lining up -/

section Statements

variable (dialect : Dialect) (m : TableMeta)

/-- No name of the table can end its quotation. -/
def PlainTable : Prop := ∀ name ∈ m.table :: m.names, dialect.closingQuote ∉ name.toList

variable {dialect} {m} in
theorem PlainTable.table (h : PlainTable dialect m) : dialect.marking.Inert (dialect.quote m.table) :=
  Text.inert_quote (h _ List.mem_cons_self)

variable {dialect} {m} in
theorem PlainTable.column (h : PlainTable dialect m) {name : String} (hname : name ∈ m.names) :
    dialect.marking.Inert (dialect.quote name) :=
  Text.inert_quote (h name (List.mem_cons_of_mem _ hname))

theorem legible_tuples (rows : List (List W)) :
    Legible dialect.marking false ([.inl ", "].intercalate (rows.map tupleTemplate)) := by
  have hopen : dialect.marking.Inert "(" := by cases dialect <;> decide
  have hclose : dialect.marking.Inert ")" := by cases dialect <;> decide
  apply Legible.intercalate rfl rfl (Text.inert_comma dialect)
  intro t ht
  obtain ⟨values, _, rfl⟩ := List.mem_map.1 ht
  refine ⟨hopen, by simp, ?_⟩
  exact (Text.legible_values dialect values).append (legible_separator rfl rfl hclose trivial)

theorem inert_quoted {names : List String} (h : ∀ name ∈ names, dialect.closingQuote ∉ name.toList) :
    dialect.marking.Inert (", ".intercalate (names.map fun name => dialect.quote name)) := by
  apply Marking.Inert.intercalate (Text.inert_comma dialect)
  intro text htext
  obtain ⟨name, hname, rfl⟩ := List.mem_map.1 htext
  exact Text.inert_quote (h name hname)

theorem legible_insertTemplate (hplain : PlainTable dialect m) {cols : List String} (hcols : ∀ c ∈ cols, c ∈ m.names)
    (rows : List (List W)) : (insertTemplate dialect m cols rows).Legible dialect.marking false := by
  have hinsert : dialect.marking.Inert "INSERT INTO " := by cases dialect <;> decide
  have hopen : dialect.marking.Inert " (" := by cases dialect <;> decide
  have hvalues : dialect.marking.Inert ") VALUES " := by cases dialect <;> decide
  have hnames : dialect.marking.Inert (", ".intercalate (cols.map fun c => dialect.quote c)) := by
    apply inert_quoted
    intro c hc
    exact hplain c (List.mem_cons_of_mem _ (hcols c hc))
  refine ⟨(((hinsert.append hplain.table).append hopen).append hnames).append hvalues, by simp, ?_⟩
  exact legible_tuples dialect rows

section Update

variable {dialect} {m} {setCols whereExtra : List String}

theorem plain_derivedColumns (hplain : PlainTable dialect m) (hset : ∀ c ∈ setCols, c ∈ m.names)
    (hextra : ∀ c ∈ whereExtra, c ∈ m.names) :
    ∀ c ∈ derivedColumns m.pk setCols whereExtra, dialect.closingQuote ∉ c.toList := by
  intro c hc
  rw [derivedColumns, List.mem_append, List.mem_cons, List.mem_map] at hc
  rcases hc with (rfl | hc) | ⟨column, hcolumn, rfl⟩
  · exact hplain m.pk (List.mem_cons_of_mem _ m.key_mem)
  · exact hplain c (List.mem_cons_of_mem _ (hset c hc))
  · have hold : dialect.closingQuote ∉ "__old".toList := by cases dialect <;> decide
    rw [String.toList_append, List.mem_append, not_or]
    exact ⟨hplain column (List.mem_cons_of_mem _ (hextra column hcolumn)), hold⟩

theorem inert_columnName {columns : List String} (h : ∀ c ∈ columns, dialect.closingQuote ∉ c.toList) (i : Nat) :
    dialect.marking.Inert (dialect.quote (columnName columns i dialect)) := by
  apply Text.inert_quote
  by_cases hd : dialect = .sqlite
  · subst hd
    have hlist : (toString (i + 1)).toList = Nat.toDigits 10 (i + 1) := Nat.toList_repr
    have hword : Dialect.sqlite.closingQuote ∉ "column".toList := by decide
    rw [columnName, String.toList_append, List.mem_append, not_or, hlist]
    refine ⟨hword, ?_⟩
    intro hdigit
    have hisDigit := Nat.isDigit_of_mem_toDigits (by omega) (by omega) hdigit
    revert hisDigit
    decide
  · rw [columnName_named _ _ hd]
    cases hc : columns[i]? with
    | none => simp
    | some c => exact h c (List.mem_of_getElem? hc)

theorem inert_equation (hplain : PlainTable dialect m) (hset : ∀ c ∈ setCols, c ∈ m.names)
    (hextra : ∀ c ∈ whereExtra, c ∈ m.names) {target : String} (htarget : dialect.marking.Inert target) (i : Nat) :
    dialect.marking.Inert (equation dialect m.pk setCols whereExtra target i) := by
  have hequals : dialect.marking.Inert " = v." := by cases dialect <;> decide
  exact (htarget.append hequals).append (inert_columnName (plain_derivedColumns hplain hset hextra) i)

theorem inert_qualified (hplain : PlainTable dialect m) {column : String} (hcolumn : column ∈ m.names) :
    dialect.marking.Inert (qualified dialect m.table column) := by
  have hdot : dialect.marking.Inert "." := by cases dialect <;> decide
  exact (hplain.table.append hdot).append (hplain.column hcolumn)

theorem inert_setClause (hplain : PlainTable dialect m) (hset : ∀ c ∈ setCols, c ∈ m.names)
    (hextra : ∀ c ∈ whereExtra, c ∈ m.names) :
    dialect.marking.Inert (setClause dialect m.table m.pk setCols whereExtra) := by
  apply Marking.Inert.intercalate (Text.inert_comma dialect)
  intro text htext
  obtain ⟨j, hj, rfl⟩ := List.mem_mapIdx.1 htext
  have hmem : setCols[j] ∈ m.names := hset _ (List.getElem_mem hj)
  apply inert_equation hplain hset hextra
  split
  · exact inert_qualified hplain hmem
  · exact hplain.column hmem

theorem inert_conditions (hplain : PlainTable dialect m) (hset : ∀ c ∈ setCols, c ∈ m.names)
    (hextra : ∀ c ∈ whereExtra, c ∈ m.names) :
    dialect.marking.Inert (keyCondition dialect m.table m.pk setCols whereExtra) ∧
      ∀ text ∈ oldConditions dialect m.table m.pk setCols whereExtra, dialect.marking.Inert text := by
  refine ⟨inert_equation hplain hset hextra (inert_qualified hplain m.key_mem) 0, ?_⟩
  intro text htext
  obtain ⟨j, hj, rfl⟩ := List.mem_mapIdx.1 htext
  exact inert_equation hplain hset hextra (inert_qualified hplain (hextra _ (List.getElem_mem hj))) _

end Update

theorem legible_selects {names : List String} (hnames : ∀ name ∈ names, dialect.marking.Inert name)
    (rows : List (List W)) :
    Legible dialect.marking false ([.inl " UNION ALL "].intercalate (selectTemplates names rows)) := by
  have hunion : dialect.marking.Inert " UNION ALL " := by cases dialect <;> decide
  have hselect : dialect.marking.Inert "SELECT " := by cases dialect <;> decide
  have has : dialect.marking.Inert " AS " := by cases dialect <;> decide
  apply Legible.intercalate rfl rfl hunion
  cases rows with
  | nil => simp [selectTemplates]
  | cons first rows =>
    rw [selectTemplates, List.forall_mem_cons]
    constructor
    · refine ⟨hselect, by simp, ?_⟩
      apply Legible.intercalate rfl rfl (Text.inert_comma dialect)
      intro t ht
      obtain ⟨i, hi, rfl⟩ := List.mem_iff_getElem.1 ht
      rw [List.getElem_zipWith]
      have hname := hnames _ (List.getElem_mem (by simp at hi; exact hi.2))
      exact legible_separator (head?_append rfl _) rfl (has.append hname) trivial
    · intro t ht
      obtain ⟨values, _, rfl⟩ := List.mem_map.1 ht
      exact ⟨hselect, by simp, Text.legible_values dialect values⟩

theorem legible_updateTemplate (hplain : PlainTable dialect m) {setCols whereExtra : List String}
    (hset : ∀ c ∈ setCols, c ∈ m.names) (hextra : ∀ c ∈ whereExtra, c ∈ m.names) (rows : List (List W)) :
    (updateTemplate dialect m.table m.pk setCols whereExtra rows).Legible dialect.marking false := by
  have hcolumns := plain_derivedColumns hplain hset hextra
  have hsets := inert_setClause hplain hset hextra
  obtain ⟨hkey, holds⟩ := inert_conditions hplain hset hextra
  have hand : dialect.marking.Inert " AND " := by cases dialect <;> decide
  have hconds := Marking.Inert.intercalate hand (List.forall_mem_cons.2 ⟨hkey, holds⟩)
  have hupdate : dialect.marking.Inert "UPDATE " := by cases dialect <;> decide
  have htable := hupdate.append hplain.table
  have htuples := legible_tuples dialect rows
  cases dialect with
  | mysql =>
    have hjoin : Dialect.mysql.marking.Inert " JOIN (" := by decide
    have hset : Dialect.mysql.marking.Inert " SET " := by decide
    have hon : Dialect.mysql.marking.Inert ") AS v ON " := by decide
    have hselects : Legible Dialect.mysql.marking false ([.inl " UNION ALL "].intercalate
        (selectTemplates (updateManyAliases .mysql m.pk setCols whereExtra) rows)) := by
      apply legible_selects
      intro text htext
      obtain ⟨c, hc, rfl⟩ := List.mem_map.1 htext
      exact Text.inert_quote (hcolumns c hc)
    have hwhere : Dialect.mysql.marking.Inert (if whereExtra.isEmpty then "" else
        " WHERE " ++ " AND ".intercalate (oldConditions .mysql m.table m.pk setCols whereExtra)) := by
      split
      · exact Marking.inert_empty
      · exact Marking.Inert.append (by decide) (Marking.Inert.intercalate hand holds)
    refine ⟨htable.append hjoin, by simp, hselects.append (legible_separator (c := ')') ?_ rfl ?_ trivial)⟩
    · exact head?_append (head?_append (head?_append (head?_append rfl _) _) _) _
    · exact (((hon.append hkey).append hset).append hsets).append hwhere
  | sqlite =>
    have hset : Dialect.sqlite.marking.Inert " SET " := by decide
    have hfrom : Dialect.sqlite.marking.Inert " FROM (VALUES " := by decide
    have hwhere : Dialect.sqlite.marking.Inert ") AS v WHERE " := by decide
    refine ⟨((htable.append hset).append hsets).append hfrom, by simp,
      htuples.append (legible_separator (c := ')') ?_ rfl (hwhere.append hconds) trivial)⟩
    exact head?_append rfl _
  | standard | postgres | mssql =>
    have hset := Marking.Inert.append htable (by decide : Marking.Inert _ " SET ")
    have hfrom := (hset.append hsets).append (by decide : Marking.Inert _ " FROM (VALUES ")
    have hnames := Marking.Inert.append (by decide : Marking.Inert _ ") AS v(") (inert_quoted _ hcolumns)
    have hwhere := hnames.append (by decide : Marking.Inert _ ") WHERE ")
    refine ⟨hfrom, by simp, htuples.append (legible_separator (c := ')') ?_ rfl (hwhere.append hconds) trivial)⟩
    exact head?_append (head?_append (head?_append rfl _) _) _

theorem length_flatten_of_width {rows : List (List W)} {width : Nat} (h : ∀ row ∈ rows, row.length = width) :
    rows.flatten.length = rows.length * width := by
  rw [List.length_flatten, List.sum_eq_card_nsmul (rows.map List.length) width, List.length_map, smul_eq_mul]
  intro n hn
  obtain ⟨row, hrow, rfl⟩ := List.mem_map.1 hn
  exact h row hrow

theorem insertChunk_lines_up {cols : List String} (hcols : ∀ c ∈ cols, c ∈ m.names)
    {slice : List (List (String × Option V))} (h : ∀ row ∈ slice, row.map Prod.fst = cols) :
    ∃ built, insertChunk dialect m cols slice = .ok built ∧
      Text.LinesUp dialect built (insertTemplate dialect m cols (slice.map fun row => row.map Prod.snd))
        (PlainTable dialect m) ∧ built.params.length = slice.length * cols.length := by
  have hlength : ∀ row ∈ slice, row.length = cols.length := by
    intro row hrow
    rw [← h row hrow, List.length_map]
  refine ⟨_, insertChunk_eq dialect m cols hlength, ?_, ?_⟩
  · apply Text.lines_up rfl
    · rw [insertTemplate, operands_text, operands_tuples]
    · intro hplain
      exact legible_insertTemplate dialect m hplain hcols _
  · rw [@length_flatten_of_width _ (slice.map fun row => row.map Prod.snd) cols.length, List.length_map]
    intro row hrow
    obtain ⟨cells, hcells, rfl⟩ := List.mem_map.1 hrow
    rw [List.length_map, hlength cells hcells]

theorem updateChunk_lines_up {setCols extra : List String} (hset : ∀ c ∈ setCols, c ∈ m.names)
    (hextra : ∀ c ∈ extra, c ∈ m.names) {slice : List (UpdateRow V)} (h : ∀ row ∈ slice, row.set.map Prod.fst = setCols) :
    ∃ built, updateChunk dialect m setCols extra slice = .ok built ∧
      Text.LinesUp dialect built
        (updateTemplate dialect m.table m.pk setCols extra (slice.map (updateValues m extra))) (PlainTable dialect m) ∧
      built.params.length = slice.length * (1 + setCols.length + extra.length) := by
  have hlength : ∀ row ∈ slice, row.set.length = setCols.length := by
    intro row hrow
    rw [← h row hrow, List.length_map]
  have hwidth : ∀ values ∈ slice.map (updateValues m extra), values.length = 1 + setCols.length + extra.length := by
    intro values hvalues
    obtain ⟨row, hrow, rfl⟩ := List.mem_map.1 hvalues
    simp [updateValues, hlength row hrow]
    omega
  have hcheck : ¬ (slice.any fun row => row.set.length ≠ setCols.length) = true := by
    simpa using hlength
  refine ⟨_, by rw [updateChunk, if_neg hcheck], ?_, ?_⟩
  · apply Text.lines_up
    · rw [← updateManyStmt_eq m.table m.pk setCols extra dialect hwidth, List.length_map]
    · rw [operands_updateTemplate m.table m.pk setCols extra dialect hwidth, List.flatMap_def]
    · intro hplain
      exact legible_updateTemplate dialect m hplain hset hextra _
  · rw [List.flatMap_def, length_flatten_of_width hwidth, List.length_map]

end Statements

end Batch

end Ecat.Orm
