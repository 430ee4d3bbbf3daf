import Ecat.OrmDeleteModel

/-! Entities as the derive macro describes them, the columns that inserts and updates write, and
how a cell of a result row is read back. -/

namespace Ecat.Orm

inductive Dialect
  | standard | sqlite | postgres | mysql | mssql
  deriving DecidableEq, Repr

def Dialect.maxParamsPerStmt : Dialect → Nat
  | .standard | .postgres | .mysql => 65535
  | .sqlite => 999
  | .mssql => 2100

def chunkSize (maxParams paramsPerRow : Nat) : Nat := max (maxParams / max paramsPerRow 1) 1

inductive ColType
  | i64 | i32 | f64 | bool | text | bytes | timestamp | date | json
  deriving DecidableEq, Repr

structure ColumnMeta where
  name : String
  ty : ColType
  nullable : Bool
  pk : Bool
  autoIncrement : Bool
  deriving DecidableEq, Repr

/-- The columns of one table and the names of the columns that carry a flag. A table has no two
columns of one name, and the macro takes exactly one field for the key. -/
structure TableMeta extends EntityMeta where
  table : String
  pk : String
  columns : List ColumnMeta
  createdAt : Option String
  updatedAt : Option String
  version : Option String
  nodup : (columns.map ColumnMeta.name).Nodup
  key : ∀ c ∈ columns, c.pk = true ↔ c.name = pk
  key_mem : pk ∈ columns.map ColumnMeta.name
  softDelete_mem : ∀ sd ∈ softDelete, sd ∈ columns.map ColumnMeta.name

inductive OrmError
  | rdbms (message : String)
  | unknownColumn (name : String)
  | optimisticLockConflict
  | notFound
  | unexpectedNull (column : String)
  | typeMismatch (column expected : String)
  deriving DecidableEq, Repr

/-- What the ORM sees of a value that is not NULL: the integer in it, and the error that reading it
as a column of another type ends in. -/
structure Values (V : Type) where
  asI64 : V → Option Int
  ofI64 : Int → V
  refuses : ColType → String → V → Option OrmError

variable {V : Type}

def wrapI64 (n : Int) : Int := (n + 2 ^ 63) % 2 ^ 64 - 2 ^ 63

/-! ### Columns to write -/

def autoTimestamp (flag : Option String) (column : String) (current : Option V) (alwaysOverwrite : Bool)
    (now : V) : Option V :=
  if flag = some column ∧ (alwaysOverwrite ∨ current.isNone) then some now else none

/-- An entity holds its fields by the names of their columns; `now column` is the time the clock
shows when the column is filled. -/
def insertParts (m : TableMeta) (now : String → V) (e : Row V) : List (String × Option V) :=
  (m.columns.filter fun c => !(c.pk && c.autoIncrement)).map fun c =>
    let v := (autoTimestamp m.createdAt c.name (e c.name) false (now c.name)).or (e c.name)
    (c.name, (autoTimestamp m.updatedAt c.name v true (now c.name)).or v)

def updateParts (m : TableMeta) (now : String → V) (e : Row V) : List (String × Option V) :=
  (m.columns.filter fun c => !c.pk).map fun c =>
    (c.name, (autoTimestamp m.updatedAt c.name (e c.name) true (now c.name)).or (e c.name))

structure UpdateRow (V : Type) where
  pk : Option V
  set : List (String × Option V)
  oldVersion : Option (Option V)
  deriving DecidableEq, Repr

/-- A version that is no integer counts as 0, and the last one wraps. -/
def nextVersion (vals : Values V) (old : Option V) : V :=
  vals.ofI64 (wrapI64 ((old.bind vals.asI64).getD 0 + 1))

def updateRow (vals : Values V) (m : TableMeta) (now : String → V) (e : Row V) : UpdateRow V :=
  let parts := updateParts m now e
  { pk := e m.pk
    set := parts.map fun (c, v) => (c, if m.version = some c then some (nextVersion vals v) else v)
    oldVersion := m.version.bind fun vc => parts.lookup vc }

section Lookup

variable (m : TableMeta) (p : ColumnMeta → Bool) (f : ColumnMeta → Option V) {c : ColumnMeta}

theorem TableMeta.eq_of_name_eq {d : ColumnMeta} (hc : c ∈ m.columns) (hd : d ∈ m.columns)
    (hname : c.name = d.name) : c = d :=
  List.inj_on_of_nodup_map m.nodup hc hd hname

theorem TableMeta.lookup_written (hc : c ∈ m.columns) (hp : p c = true) :
    ((m.columns.filter p).map fun d => (d.name, f d)).lookup c.name = some (f c) := by
  have hmem : ∀ d ∈ m.columns.filter p, d.name = c.name → d = c := by
    intro d hd hname
    exact m.eq_of_name_eq (List.mem_of_mem_filter hd) hc hname
  have hin : c ∈ m.columns.filter p := List.mem_filter.2 ⟨hc, hp⟩
  generalize m.columns.filter p = cols at hmem hin
  induction cols with
  | nil => simp at hin
  | cons d cols ih =>
    rw [List.map_cons, List.lookup_cons]
    by_cases hname : c.name = d.name
    · rw [hmem d (by simp) hname.symm]
      simp
    · have hin : c ∈ cols := by
        rcases List.mem_cons.1 hin with rfl | hin
        · exact absurd rfl hname
        · exact hin
      rw [show (c.name == d.name) = false by simpa using hname]
      exact ih (fun d hd => hmem d (List.mem_cons_of_mem _ hd)) hin

theorem TableMeta.lookup_skipped (hc : c ∈ m.columns) (hp : p c = false) :
    ((m.columns.filter p).map fun d => (d.name, f d)).lookup c.name = none := by
  rw [List.lookup_eq_none_iff]
  rintro ⟨name, v⟩ hmem
  obtain ⟨d, hd, heq⟩ := List.mem_map.1 hmem
  obtain ⟨hd, hpd⟩ := List.mem_filter.1 hd
  cases heq
  simp only [bne_iff_ne, ne_eq]
  intro hname
  rw [m.eq_of_name_eq hc hd hname, hpd] at hp
  cases hp

theorem TableMeta.exists_key : ∃ c ∈ m.columns, c.name = m.pk ∧ c.pk = true := by
  obtain ⟨c, hc, hname⟩ := List.mem_map.1 m.key_mem
  exact ⟨c, hc, hname, (m.key c hc).2 hname⟩

end Lookup

/-! ### Cells to read -/

def readInt (vals : Values V) (column expected : String) (fits : Int → Bool) (v : V) : Option OrmError :=
  if (vals.asI64 v).any fits then none else some (.typeMismatch column expected)

def fromJson (vals : Values V) (column : String) : ColType → V → Option OrmError
  | .i64, v => readInt vals column "i64" (fun _ => true) v
  | .i32, v => readInt vals column "i32" (fun n => decide (-2 ^ 31 ≤ n ∧ n < 2 ^ 31)) v
  | .json, _ => none
  | ty, v => vals.refuses ty column v

def fromRowCol (vals : Values V) (ty : ColType) (nullable : Bool) (row : List (String × Option V))
    (column : String) : Except OrmError (Option V) :=
  match row.lookup column with
  | none => .error (.unknownColumn column)
  | some none => if nullable then .ok none else .error (.unexpectedNull column)
  | some (some v) =>
    match fromJson vals column ty v with
    | some error => .error error
    | none => .ok (some v)

end Ecat.Orm
