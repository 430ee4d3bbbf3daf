import Ecat.BoolGrammar
import Ecat.OrmEntity

/-! The text of a WHERE clause with its placeholders and parameters, and when it means the
conjunction of the filters and the soft delete gate. -/

namespace Ecat.Orm

variable {V : Type}

def Dialect.quote (ident : String) : Dialect → String
  | .standard | .sqlite | .postgres => "\"" ++ ident ++ "\""
  | .mysql => "`" ++ ident ++ "`"
  | .mssql => "[" ++ ident ++ "]"

def Dialect.placeholder (index : Nat) : Dialect → String
  | .standard | .sqlite | .mysql => "?"
  | .postgres => "$" ++ toString index
  | .mssql => "@P" ++ toString index

def Op.asSql : Op → String
  | .eq => "="
  | .ne => "<>"
  | .lt => "<"
  | .le => "<="
  | .gt => ">"
  | .ge => ">="
  | .like => "LIKE"

namespace Clause

/-- A predicate of the clause with the parameters its placeholders stand for, so that two of one text
may differ in truth. -/
structure Predicate (V : Type) where
  text : String
  params : List V
  deriving DecidableEq, Repr

/-- A filter as the query keeps it; a raw fragment is any boolean expression. -/
inductive Filter (V : Type)
  | cmp (column : String) (op : Op) (value : V)
  | in (column : String) (values : List V) (negated : Bool)
  | null (column : String) (negated : Bool)
  | raw (fragment : BoolText (Predicate V))

/-- `Placeholders` and the parameters, which grow together. -/
structure Bound (V : Type) where
  next : Nat
  params : List V

def Bound.take (dialect : Dialect) (bound : Bound V) (value : V) : String × Bound V :=
  (dialect.placeholder (bound.next + 1), ⟨bound.next + 1, bound.params ++ [value]⟩)

def Bound.takeAll (dialect : Dialect) : Bound V → List V → List String × Bound V
  | bound, [] => ([], bound)
  | bound, value :: values =>
    let (p, bound) := bound.take dialect value
    let (ps, bound) := bound.takeAll dialect values
    (p :: ps, bound)

def renderFilter (dialect : Dialect) (bound : Bound V) : Filter V → BoolText (Predicate V) × Bound V
  | .cmp column op value =>
    let (p, bound) := bound.take dialect value
    (.atom ⟨dialect.quote column ++ " " ++ op.asSql ++ " " ++ p, [value]⟩, bound)
  | .in column values negated =>
    if values.isEmpty then (.atom ⟨if negated then "1 = 1" else "1 = 0", []⟩, bound)
    else
      let (ps, bound) := bound.takeAll dialect values
      let not := if negated then "NOT " else ""
      (.atom ⟨dialect.quote column ++ " " ++ not ++ "IN (" ++ String.intercalate ", " ps ++ ")", values⟩, bound)
  | .null column negated =>
    (.atom ⟨dialect.quote column ++ if negated then " IS NOT NULL" else " IS NULL", []⟩, bound)
  | .raw fragment => (fragment, bound)

def renderFilters (dialect : Dialect) : Bound V → List (Filter V) → List (BoolText (Predicate V)) × Bound V
  | bound, [] => ([], bound)
  | bound, f :: filters =>
    let (cond, bound) := renderFilter dialect bound f
    let (conds, bound) := renderFilters dialect bound filters
    (cond :: conds, bound)

/-- The gate and the filters, as `render_where` collects them. -/
def conditions (dialect : Dialect) (entity : EntityMeta) (filters : List (Filter V)) (withTrashed : Bool)
    (bound : Bound V) : List (BoolText (Predicate V)) × Bound V :=
  let gate := (entity.softDelete.filter fun _ => !withTrashed).toList.map fun sd =>
    BoolText.atom ⟨dialect.quote sd ++ " IS NULL", []⟩
  let (conds, bound) := renderFilters dialect bound filters
  (gate ++ conds, bound)

def renderWhere (dialect : Dialect) (entity : EntityMeta) (filters : List (Filter V)) (withTrashed : Bool)
    (bound : Bound V) : Option (List (BoolToken (Predicate V))) × Bound V :=
  let (conds, bound) := conditions dialect entity filters withTrashed bound
  (if conds.isEmpty then none else some (BoolText.joinAnd conds), bound)

/-- A statement touches the rows for which its clause is true; without a clause it touches all. -/
def touches (clause : Option (List (BoolToken (Predicate V)))) (truth : Predicate V → Option Bool) : Bool :=
  clause.all fun ts => (parseBool ts).any fun e => e.eval truth == some true

/-- The clause is read as the conjunction of the gate and the filters, and no row is touched that
fails one of them, whatever the predicates say of it. -/
structure MeansAll (clause : Option (List (BoolToken (Predicate V)))) (conds : List (BoolText (Predicate V))) : Prop where
  parses : ∀ ts, clause = some ts → ∃ e, parseBool ts = some e ∧
    e.conjuncts = conds.flatMap fun c => c.tree.conjuncts
  touches : ∀ truth, touches clause truth = true → ∀ c ∈ conds, c.tree.eval truth = some true

/-- No raw fragment with an OR outside parentheses. -/
def Filter.closed : Filter V → Bool
  | .raw fragment => !hasOr 0 fragment.tokens
  | _ => true

def gated (entity : EntityMeta) (withTrashed : Bool) : Bool := entity.softDelete.isSome && !withTrashed

/-- One condition in all, or every filter closed. -/
def Bracketed (entity : EntityMeta) (filters : List (Filter V)) (withTrashed : Bool) : Prop :=
  filters.length + (gated entity withTrashed).toNat ≤ 1 ∨ ∀ f ∈ filters, f.closed = true

variable (dialect : Dialect) (entity : EntityMeta) (filters : List (Filter V)) (withTrashed : Bool) (bound : Bound V)

theorem hasOr_renderFilter (f : Filter V) :
    hasOr 0 (renderFilter dialect bound f).1.tokens = !f.closed := by
  cases f with
  | cmp column op value => rfl
  | «in» column values negated =>
    cases values with
    | nil => rfl
    | cons v values => rfl
  | null column negated => rfl
  | raw fragment => simp [renderFilter, Filter.closed]

theorem hasOr_renderFilters :
    (∀ c ∈ (renderFilters dialect bound filters).1, hasOr 0 c.tokens = false) ↔ ∀ f ∈ filters, f.closed = true := by
  induction filters generalizing bound with
  | nil => simp [renderFilters]
  | cons f filters ih =>
    rw [renderFilters, List.forall_mem_cons, List.forall_mem_cons, hasOr_renderFilter, ih]
    simp

theorem length_renderFilters :
    (renderFilters dialect bound filters).1.length = filters.length := by
  induction filters generalizing bound with
  | nil => rfl
  | cons f filters ih =>
    rw [renderFilters, List.length_cons, List.length_cons, ih]

theorem hasOr_conditions : (∀ c ∈ (conditions dialect entity filters withTrashed bound).1, hasOr 0 c.tokens = false) ↔
    ∀ f ∈ filters, f.closed = true := by
  rw [conditions, List.forall_mem_append, hasOr_renderFilters]
  apply and_iff_right
  intro c hc
  obtain ⟨sd, _, rfl⟩ := List.mem_map.1 hc
  rfl

theorem length_conditions : (conditions dialect entity filters withTrashed bound).1.length =
    filters.length + (gated entity withTrashed).toNat := by
  rw [conditions, List.length_append, length_renderFilters, List.length_map, Nat.add_comm, gated]
  cases entity.softDelete with
  | none => rfl
  | some sd => cases withTrashed <;> rfl

theorem renderWhere_eq : (renderWhere dialect entity filters withTrashed bound).1 =
    let conds := (conditions dialect entity filters withTrashed bound).1
    if conds.isEmpty then none else some (BoolText.joinAnd conds) := rfl

theorem means_iff {conds : List (BoolText (Predicate V))} :
    MeansAll (some (BoolText.joinAnd conds)) conds ↔ BoolText.Conjoins conds := by
  constructor
  · intro h
    exact h.parses _ rfl
  · intro h
    refine ⟨?_, ?_⟩
    · rintro ts ⟨⟩
      exact h
    · intro truth htouches
      obtain ⟨e, hparse, htrue⟩ := (Option.any_eq_true _ _).1 htouches
      exact h.eval hparse (eq_of_beq htrue)

/-- The clause means the conjunction exactly where each raw fragment keeps its ORs in parentheses,
or stands alone. -/
theorem renderWhere_means_iff : MeansAll (renderWhere dialect entity filters withTrashed bound).1
    (conditions dialect entity filters withTrashed bound).1 ↔ Bracketed entity filters withTrashed := by
  rw [Bracketed, ← length_conditions dialect entity filters withTrashed bound,
    ← hasOr_conditions dialect entity filters withTrashed bound, renderWhere_eq]
  generalize (conditions dialect entity filters withTrashed bound).1 = conds
  by_cases hempty : conds = []
  · subst hempty
    refine iff_of_true ⟨?_, ?_⟩ (.inl (Nat.zero_le 1))
    · rintro ts ⟨⟩
    · intro _ _ c hc
      cases hc
  · have hlength : conds.length ≤ 1 ↔ conds.length = 1 := by
      have hpos := List.length_pos_of_ne_nil hempty
      omega
    rw [if_neg (by simpa using hempty), means_iff, BoolText.conjoins_iff hempty, hlength]

def eitherOwner : BoolText (Predicate Nat) where
  tokens := [.atom ⟨"owner = 1", []⟩, .or, .atom ⟨"owner = 2", []⟩]
  tree := .or (.atom ⟨"owner = 1", []⟩) (.atom ⟨"owner = 2", []⟩)
  reads := (BoolText.atom _).reads.or (.negation (.primary (.atom _)))

/-- The row of owner 2 is deleted, and `"deleted_at" IS NULL AND owner = 1 OR owner = 2` still finds it. -/
theorem trashed_row_touched :
    let clause := (renderWhere .postgres ⟨some "deleted_at"⟩ [.raw eitherOwner] false ⟨0, []⟩).1
    let conds := (conditions .postgres ⟨some "deleted_at"⟩ [.raw eitherOwner] false ⟨0, []⟩).1
    touches clause (fun predicate => some (predicate.text == "owner = 2")) = true ∧ ¬ MeansAll clause conds := by
  have htouched : touches (renderWhere .postgres ⟨some "deleted_at"⟩ [.raw eitherOwner] false ⟨0, []⟩).1
      (fun predicate => some (predicate.text == "owner = 2")) = true := by decide
  refine ⟨htouched, ?_⟩
  intro h
  have hgate := h.touches _ htouched (BoolText.atom ⟨"\"deleted_at\" IS NULL", []⟩) List.mem_cons_self
  revert hgate
  decide

end Clause

end Ecat.Orm
