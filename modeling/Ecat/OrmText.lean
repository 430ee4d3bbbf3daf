import Ecat.OrmClause
import Ecat.OrmQuery
import Ecat.OrmWhere
import Ecat.Templates

/-! The texts of SELECTs and deletes with their placeholders. Each is the statement it stands for with
the values taken out, and read with its parameters it is that statement again. -/

namespace Ecat.Orm

variable {V : Type}

/-! ### Dialects -/

/-- Strings and quoted names. Comments and escapes inside a string are not looked for. -/
def Dialect.closing (c : Char) : Dialect → Option Char
  | .standard | .postgres => if c = '"' ∨ c.toNat = 39 then some c else none
  | .mysql => if c = '"' ∨ c.toNat = 39 ∨ c.toNat = 96 then some c else none
  | .mssql => if c = '[' then some ']' else if c = '"' ∨ c.toNat = 39 then some c else none
  | .sqlite => if c = '[' then some ']' else if c = '"' ∨ c.toNat = 39 ∨ c.toNat = 96 then some c else none

def Dialect.marking (dialect : Dialect) : Marking where
  closing c := dialect.closing c
  first := match dialect with
    | .standard | .sqlite | .mysql => '?'
    | .postgres => '$'
    | .mssql => '@'
  rest := match dialect with
    | .mssql => ['P']
    | _ => []
  numbered := match dialect with
    | .standard | .sqlite | .mysql => false
    | .postgres | .mssql => true
  outside := by cases dialect <;> rfl
  no_digit := by cases dialect <;> rfl

/-- What ends a quoted name. -/
def Dialect.closingQuote : Dialect → Char
  | .standard | .sqlite | .postgres => '"'
  | .mysql => Char.ofNat 96
  | .mssql => ']'

def JoinType.asSql : JoinType → String
  | .inner => "INNER JOIN"
  | .left => "LEFT JOIN"

def Order.asSql : Order → String
  | .asc => "ASC"
  | .desc => "DESC"

structure Limit where
  head : String
  suffix : String
  deriving DecidableEq, Repr

def Limit.none : Limit := ⟨"", ""⟩

def Limit.window (limit : Option Nat) (offset : Nat) : Limit where
  head := ""
  suffix := match limit, offset with
    | .none, 0 => ""
    | .none, o => " OFFSET " ++ toString o
    | some l, 0 => " LIMIT " ++ toString l
    | some l, o => " LIMIT " ++ toString l ++ " OFFSET " ++ toString o

/-- SQL Server has its limit in front, or a window, which takes an ORDER BY. -/
def Limit.topOrFetch (limit : Option Nat) (offset : Nat) (hasOrder : Bool) : Limit :=
  if offset = 0 then
    { head := match limit with
        | some l => "TOP (" ++ toString l ++ ") "
        | .none => ""
      suffix := "" }
  else
    { head := ""
      suffix := (if hasOrder then "" else " ORDER BY (SELECT NULL)") ++ (" OFFSET " ++ toString offset) ++ " ROWS" ++
        match limit with
        | some l => " FETCH NEXT " ++ toString l ++ " ROWS ONLY"
        | .none => "" }

def Dialect.limitClause (limit : Option Nat) (offset : Nat) (hasOrder : Bool) : Dialect → Limit
  | .standard | .sqlite | .postgres | .mysql => .window limit offset
  | .mssql => .topOrFetch limit offset hasOrder

/-! ### Filtering -/

/-- The operators of `filter`. Only a comparison has an infix form. -/
inductive FilterOp
  | compare (op : Op)
  | in
  | notIn
  | isNull
  | notNull
  deriving DecidableEq, Repr

/-- `asArray` and `print` are what the ORM sees and shows of a value. -/
def filterExpr (asArray : V → Option (List V)) (print : V → String) (column : String) (value : V) :
    FilterOp → Except OrmError (Expr V)
  | .compare op => .ok (.cmp column op value)
  | .in =>
    match asArray value with
    | some values => .ok (.in column values false)
    | none => .error (.rdbms ("`In` requires an array value, got: " ++ print value))
  | .notIn =>
    match asArray value with
    | some values => .ok (.in column values true)
    | none => .error (.rdbms ("`NotIn` requires an array value, got: " ++ print value))
  | .isNull => .ok (.null column false)
  | .notNull => .ok (.null column true)

theorem column_filterExpr {asArray : V → Option (List V)} {print : V → String} {column : String} {value : V}
    {op : FilterOp} {f : Expr V} (h : filterExpr asArray print column value op = .ok f) : f.column? = some column := by
  unfold filterExpr at h
  split at h <;> first
    | (cases h; rfl)
    | (split at h <;> cases h; rfl)

def Query.filter {E : Entity} (q : Query V E) (asArray : V → Option (List V)) (print : V → String) (column : String)
    (op : FilterOp) (value : V) : Except OrmError (Query V E) :=
  if hcolumn : column ∈ E.names then
    match hf : filterExpr asArray print column value op with
    | .error error => .error error
    | .ok f => .ok { q with
        filters := q.filters ++ [f]
        filters_checked := by
          intro g hg c hc
          rcases List.mem_append.1 hg with hg | hg
          · exact q.filters_checked g hg c hc
          · rw [List.mem_singleton.1 hg, column_filterExpr hf] at hc
            cases hc
            exact hcolumn }
  else .error (.unknownColumn column)

structure Built (V : Type) where
  sql : String
  params : List V
  deriving DecidableEq, Repr

namespace Text

open Clause

/-! ### Rendering -/

def renderFilter (dialect : Dialect) (bound : Bound V) : Expr V → String × Bound V
  | .cmp column op value =>
    let (p, bound) := bound.take dialect value
    (dialect.quote column ++ " " ++ op.asSql ++ " " ++ p, bound)
  | .in column values negated =>
    if values.isEmpty then (if negated then "1 = 1" else "1 = 0", bound)
    else
      let (ps, bound) := bound.takeAll dialect values
      let not := if negated then "NOT " else ""
      (dialect.quote column ++ " " ++ not ++ "IN (" ++ ", ".intercalate ps ++ ")", bound)
  | .null column negated => (dialect.quote column ++ if negated then " IS NOT NULL" else " IS NULL", bound)
  | .raw operand alternatives => (" OR ".intercalate (operand :: alternatives), bound)

def renderFilters (dialect : Dialect) : Bound V → List (Expr V) → List String × Bound V
  | bound, [] => ([], bound)
  | bound, f :: filters =>
    let (cond, bound) := renderFilter dialect bound f
    let (conds, bound) := renderFilters dialect bound filters
    (cond :: conds, bound)

def renderWhere (dialect : Dialect) (entity : EntityMeta) (filters : List (Expr V)) (withTrashed : Bool)
    (bound : Bound V) : Option String × Bound V :=
  let gate := (entity.softDelete.filter fun _ => !withTrashed).toList.map fun sd => dialect.quote sd ++ " IS NULL"
  let (conds, bound) := renderFilters dialect bound filters
  let conds := gate ++ conds
  (if conds.isEmpty then none else some (" AND ".intercalate conds), bound)

def columnList (dialect : Dialect) (m : TableMeta) (forCount : Bool) : String :=
  if forCount then "COUNT(*) AS " ++ dialect.quote "ecat_count"
  else ", ".intercalate (m.columns.map fun c => dialect.quote c.name)

section Select

variable {E : Entity} (dialect : Dialect) (q : Query V E) (forCount : Bool)

def limit : Limit :=
  if forCount then .none else dialect.limitClause q.limit (q.offset.getD 0) (!q.orders.isEmpty)

def joinClause (j : JoinType × String × String) : String :=
  " " ++ j.1.asSql ++ " " ++ dialect.quote j.2.1 ++ " ON " ++ j.2.2

/-- The statement up to its WHERE. -/
def selectHead : String :=
  q.joins.foldl (fun sql j => sql ++ joinClause dialect j)
    ("SELECT " ++ (limit dialect q forCount).head ++ columnList dialect E.toTableMeta forCount ++
      " FROM " ++ dialect.quote E.table)

def orderClause : String :=
  if !forCount && !q.orders.isEmpty then
    " ORDER BY " ++ ", ".intercalate (q.orders.map fun o => dialect.quote o.column ++ " " ++ o.dir.asSql)
  else ""

def buildSelect : Built V :=
  let (clause, bound) := renderWhere dialect E.toEntityMeta q.filters q.withTrashed ⟨0, []⟩
  let sql := match clause with
    | none => selectHead dialect q forCount
    | some w => selectHead dialect q forCount ++ " WHERE " ++ w
  ⟨sql ++ orderClause dialect q forCount ++ (limit dialect q forCount).suffix, bound.params⟩

end Select

/-- The statements one after the other up to the first that fails, and the sum of what they affect. -/
def sendAll (execute : Nat → Built V → Except OrmError Nat) :
    Nat → Nat → List (Except OrmError (Built V)) → List (Built V) × Except OrmError Nat
  | _, total, [] => ([], .ok total)
  | _, _, .error error :: _ => ([], .error error)
  | k, total, .ok built :: rest =>
    match execute k built with
    | .error error => ([built], .error error)
    | .ok affected =>
      let (sent, result) := sendAll execute (k + 1) (total + affected) rest
      (built :: sent, result)

def deleteStatement (dialect : Dialect) (m : TableMeta) (soft : Option String) (withTrashed : Bool) (now : V)
    (chunk : List (Expr V)) : Except OrmError (Built V) :=
  let (sql, bound) := match soft with
    | some sd =>
      let (p, bound) := Bound.take dialect ⟨0, []⟩ now
      ("UPDATE " ++ dialect.quote m.table ++ " SET " ++ dialect.quote sd ++ " = " ++ p, bound)
    | none => ("DELETE FROM " ++ dialect.quote m.table, ⟨0, []⟩)
  match renderWhere dialect m.toEntityMeta chunk withTrashed bound with
  | (none, _) => .error (.rdbms "delete_where requires at least one filter")
  | (some w, bound) => .ok ⟨sql ++ " WHERE " ++ w, bound.params⟩

def softColumn (m : TableMeta) (hard : Bool) : Option String := m.softDelete.filter fun _ => !hard

def deleteChunks (dialect : Dialect) (m : TableMeta) (filters : List (Expr V)) (hard : Bool) : List (List (Expr V)) :=
  splitInFilters filters (dialect.maxParamsPerStmt - (softColumn m hard).isSome.toNat)

/-- The statements sent and the answer; `now k` is the time the `k`-th one takes. -/
def deleteWhere (dialect : Dialect) (m : TableMeta) (filters : List (Expr V)) (hard : Bool) (now : Nat → V)
    (execute : Nat → Built V → Except OrmError Nat) : List (Built V) × Except OrmError Nat :=
  sendAll execute 0 0 ((deleteChunks dialect m filters hard).mapIdx fun k chunk =>
    deleteStatement dialect m (softColumn m hard) hard (now k) chunk)

end Text

/-! ### The statements they stand for -/

def Cond.template (dialect : Dialect) : Cond V → Template V
  | .null column negated => [.inl (dialect.quote column ++ if negated then " IS NOT NULL" else " IS NULL")]
  | .cmp column op value => [.inl (dialect.quote column ++ " " ++ op.asSql ++ " "), .inr value]
  | .in column values negated =>
    .inl (dialect.quote column ++ " " ++ (if negated then "NOT " else "") ++ "IN (") ::
      ([.inl ", "].intercalate (values.map fun v => [.inr v]) ++ [.inl ")"])
  | .constant value => [.inl (if value then "1 = 1" else "1 = 0")]
  | .raw operand alternatives => [.inl (" OR ".intercalate (operand :: alternatives))]

def clauseTemplate (dialect : Dialect) (conds : List (Cond V)) : Template V :=
  .inl " WHERE " :: [.inl " AND "].intercalate (conds.map (Cond.template dialect))

def whereTemplate (dialect : Dialect) (entity : EntityMeta) (filters : List (Expr V)) (withTrashed : Bool) :
    Template V :=
  (renderWhere entity filters withTrashed).elim [] (clauseTemplate dialect)

def Statement.template (dialect : Dialect) (m : TableMeta) : Statement V → Template V
  | .update column value conds =>
    .inl ("UPDATE " ++ dialect.quote m.table ++ " SET " ++ dialect.quote column ++ " = ") :: .inr value ::
      clauseTemplate dialect conds
  | .delete conds => .inl ("DELETE FROM " ++ dialect.quote m.table) :: clauseTemplate dialect conds

def chunkStatement (soft : Option String) (now : V) (conds : List (Cond V)) : Statement V :=
  match soft with
  | some sd => .update sd now conds
  | none => .delete conds

namespace Text

variable (dialect : Dialect) {E : Entity} (q : Query V E) (forCount : Bool)

def selectTemplate : Template V :=
  .inl (selectHead dialect q forCount) ::
    (whereTemplate dialect E.toEntityMeta q.filters q.withTrashed ++
      [.inl (orderClause dialect q forCount), .inl (limit dialect q forCount).suffix])

def fragment? : Expr V → Option String
  | .raw operand alternatives => some (" OR ".intercalate (operand :: alternatives))
  | .cmp .. | .in .. | .null .. => none

/-- No name can end its quotation, and the fragments hold no placeholder and close what they open. -/
structure Plain : Prop where
  names : ∀ name ∈ E.table :: (E.names ++ q.joins.map fun j => j.2.1), dialect.closingQuote ∉ name.toList
  fragments : ∀ f ∈ q.filters, ∀ text ∈ fragment? f, dialect.marking.Inert text
  conditions : ∀ j ∈ q.joins, dialect.marking.Inert j.2.2

/-- The text is the template's with a placeholder for each value, and the values are the parameters.
Where the other texts are plain, the placeholders count up from one, and reading them puts every
parameter where its value stood. -/
structure LinesUp (built : Built V) (t : Template V) (plain : Prop) : Prop where
  sql : built.sql = t.write (fun k => dialect.placeholder k) 0
  params : built.params = t.operands
  numbers : plain → dialect.marking.placeholders built.sql =
    (List.range' 1 built.params.length).map dialect.marking.number
  bound : plain → dialect.marking.bound built.sql built.params = some t.symbols

end Text

/-! ### Numbering -/

theorem marking_placeholder (dialect : Dialect) : dialect.marking.placeholder = fun k => dialect.placeholder k := by
  funext k
  apply String.toList_inj.1
  rw [Marking.toList_placeholder]
  cases dialect <;> simp [Marking.sigil, Dialect.marking, Dialect.placeholder, String.toList_append]

namespace Text

open Clause Template

theorem lines_up {dialect : Dialect} {built : Built V} {t : Template V} {plain : Prop}
    (hsql : built.sql = t.write (fun k => dialect.placeholder k) 0) (hparams : built.params = t.operands)
    (h : plain → t.Legible dialect.marking false) : LinesUp dialect built t plain := by
  rw [← marking_placeholder] at hsql
  refine ⟨marking_placeholder dialect ▸ hsql, hparams, ?_, ?_⟩
  · intro hplain
    rw [hsql, hparams, placeholders_write (h hplain)]
  · intro hplain
    rw [hsql, hparams, bound_write (h hplain)]

section Numbering

variable (dialect : Dialect) (bound : Bound V)

def after (values : List V) : Bound V := ⟨bound.next + values.length, bound.params ++ values⟩

theorem after_after (vs ws : List V) : after (after bound vs) ws = after bound (vs ++ ws) := by
  simp [after, Nat.add_assoc]

theorem takeAll_eq (values : List V) : bound.takeAll dialect values =
    (writeEach (fun k => dialect.placeholder k) bound.next (values.map fun v => [.inr v]), after bound values) := by
  induction values generalizing bound with
  | nil => simp [Bound.takeAll, writeEach, after]
  | cons v values ih =>
    have hfirst : after bound [v] = ⟨bound.next + 1, bound.params ++ [v]⟩ := rfl
    have hrest := ih (after bound [v])
    rw [after_after] at hrest
    rw [Bound.takeAll, Bound.take, ← hfirst]
    dsimp only
    rw [hrest]
    simp [writeEach, write, after]

theorem operands_list (values : List V) :
    Template.operands ([.inl ", "].intercalate (values.map fun v => [.inr v])) = values := by
  rw [operands_intercalate, List.flatMap_map]
  exact List.flatMap_pure_eq_map id values ▸ List.map_id values

theorem operands_clauseTemplate (conds : List (Cond V)) :
    (clauseTemplate dialect conds).operands = conds.flatMap fun c => (c.template dialect).operands := by
  rw [clauseTemplate, operands_text, operands_intercalate, List.flatMap_map]

theorem renderFilter_eq (f : Expr V) : renderFilter dialect bound f =
    (((Orm.renderFilter f).template dialect).write (fun k => dialect.placeholder k) bound.next,
      after bound ((Orm.renderFilter f).template dialect).operands) := by
  cases f with
  | cmp column op value => simp [renderFilter, Orm.renderFilter, Cond.template, Bound.take, write, after]
  | «in» column values negated =>
    by_cases hempty : values.isEmpty = true
    · simp [renderFilter, Orm.renderFilter, hempty, Cond.template, write, after]
    · simp [renderFilter, Orm.renderFilter, hempty, Cond.template, write, takeAll_eq, write_append,
        write_intercalate, operands_list, String.append_assoc]
  | null column negated => simp [renderFilter, Orm.renderFilter, Cond.template, write, after]
  | raw operand alternatives => simp [renderFilter, Orm.renderFilter, Cond.template, write, after]

theorem renderFilters_eq (filters : List (Expr V)) : renderFilters dialect bound filters =
    (writeEach (fun k => dialect.placeholder k) bound.next ((filters.map Orm.renderFilter).map (Cond.template dialect)),
      after bound ((filters.map Orm.renderFilter).flatMap fun c => (c.template dialect).operands)) := by
  induction filters generalizing bound with
  | nil => simp [renderFilters, writeEach, after]
  | cons f filters ih =>
    have hrest := ih (after bound ((Orm.renderFilter f).template dialect).operands)
    rw [after_after] at hrest
    rw [renderFilters, renderFilter_eq]
    dsimp only
    rw [hrest]
    simp [writeEach, after]

theorem renderWhere_eq (entity : EntityMeta) (filters : List (Expr V)) (withTrashed : Bool) :
    renderWhere dialect entity filters withTrashed bound =
      ((Orm.renderWhere entity filters withTrashed).map fun conds => " AND ".intercalate
        (writeEach (fun k => dialect.placeholder k) bound.next (conds.map (Cond.template dialect))),
      after bound (whereTemplate dialect entity filters withTrashed).operands) := by
  rw [renderWhere, renderFilters_eq, whereTemplate, Orm.renderWhere]
  generalize filters.map Orm.renderFilter = conds
  cases entity.softDelete.filter fun _ => !withTrashed with
  | none =>
    cases conds with
    | nil => simp [writeEach]
    | cons c conds => simp [writeEach, operands_clauseTemplate]
  | some sd => simp [writeEach, operands_clauseTemplate, Cond.template, write]

theorem buildSelect_eq {E : Entity} (q : Query V E) (forCount : Bool) : buildSelect dialect q forCount =
    ⟨(selectTemplate dialect q forCount).write (fun k => dialect.placeholder k) 0,
      (selectTemplate dialect q forCount).operands⟩ := by
  rw [buildSelect, renderWhere_eq, selectTemplate, whereTemplate]
  cases Orm.renderWhere E.toEntityMeta q.filters q.withTrashed with
  | none => simp [write, after, String.append_assoc]
  | some conds => simp [write, write_append, write_intercalate, clauseTemplate, after, String.append_assoc]

theorem deleteStatement_eq (m : TableMeta) (soft : Option String) (withTrashed : Bool) (now : V)
    (chunk : List (Expr V)) : deleteStatement dialect m soft withTrashed now chunk =
      match Orm.renderWhere m.toEntityMeta chunk withTrashed with
      | none => .error (.rdbms "delete_where requires at least one filter")
      | some conds => .ok ⟨((chunkStatement soft now conds).template dialect m).write (fun k => dialect.placeholder k) 0,
          ((chunkStatement soft now conds).template dialect m).operands⟩ := by
  cases soft with
  | none =>
    simp only [deleteStatement, renderWhere_eq, whereTemplate]
    cases Orm.renderWhere m.toEntityMeta chunk withTrashed with
    | none => rfl
    | some conds =>
      simp [chunkStatement, Statement.template, write, write_intercalate, clauseTemplate, after, String.append_assoc]
  | some sd =>
    simp only [deleteStatement, renderWhere_eq, whereTemplate, Bound.take]
    cases Orm.renderWhere m.toEntityMeta chunk withTrashed with
    | none => rfl
    | some conds =>
      simp [chunkStatement, Statement.template, write, write_intercalate, clauseTemplate, after, String.append_assoc]

end Numbering

end Text

end Ecat.Orm
