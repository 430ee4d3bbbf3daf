import Ecat.OrmWhere

/-! When a split delete removes exactly the rows that satisfy its filters. The answer
depends only on the shape of the filter list: cutting an `IN` list keeps the union of
the statements, cutting a `NOT IN` list does not. -/

namespace Ecat.Orm

variable {V : Type}

/-- What of a filter does not depend on its columns and values: the operator, the length
of its list, the number of ORs in a raw fragment. -/
inductive Shape
  | cmp (op : Op)
  | isIn (length : Nat)
  | notIn (length : Nat)
  | null (negated : Bool)
  | raw (ors : Nat)
  deriving DecidableEq, Repr

def Expr.shape : Expr V → Shape
  | .cmp _ op _ => .cmp op
  | .in _ values false => .isIn values.length
  | .in _ values true => .notIn values.length
  | .null _ negated => .null negated
  | .raw _ alternatives => .raw alternatives.length

namespace Shape

def cost : Shape → Nat
  | .cmp _ => 1
  | _ => 0

def isList : Shape → Bool
  | .isIn _ | .notIn _ => true
  | _ => false

def length : Shape → Nat
  | .isIn n | .notIn n => n
  | _ => 0

/-- The truth of the operands of a condition when all is true that can be. -/
def possible : Shape → List Bool
  | .isIn 0 => [false]
  | .raw ors => List.replicate (ors + 1) true
  | _ => [true]

def share (shapes : List Shape) (budget : Nat) : Nat :=
  max ((budget - (shapes.map cost).sum) / (shapes.filter isList).length) 1

end Shape

/-- Every part of the clause that ORs separate holds an empty `IN` list. -/
def NothingSelected (shapes : List Shape) : Prop := Sql.readAnd (shapes.map Shape.possible) = false

/-- One raw fragment, and besides it only filters that are true of every row. -/
def SoleRaw (gated : Bool) (shapes : List Shape) : Prop :=
  gated = false ∧ ∃ pre ors post, shapes = pre ++ .raw ors :: post ∧ ∀ s ∈ pre ++ post, s = .notIn 0

/-- No raw fragment holds an OR, no `NOT IN` list is cut, and beside a raw fragment no list is. -/
def KeepsUnion (share : Nat) (shapes : List Shape) : Prop :=
  (∀ ors, .raw ors ∈ shapes → ors = 0) ∧
    ((∀ s ∈ shapes, s.length ≤ share) ∨
      (∀ ors, .raw ors ∉ shapes) ∧ ∀ n, .notIn n ∈ shapes → n ≤ share)

def SplitSound (limit : Nat) (gated : Bool) (shapes : List Shape) : Prop :=
  NothingSelected shapes ∨ SoleRaw gated shapes ∨
    KeepsUnion (Shape.share shapes (limit - gated.toNat)) shapes

theorem inShare_eq (filters : List (Expr V)) (budget : Nat) :
    inShare filters budget = Shape.share (filters.map Expr.shape) budget := by
  have hcost (f : Expr V) : f.shape.cost = fixedParamCost f := by
    cases f with
    | «in» _ _ negated => cases negated <;> rfl
    | _ => rfl
  have hlist (f : Expr V) : f.shape.isList = f.isIn := by
    cases f with
    | «in» _ _ negated => cases negated <;> rfl
    | _ => rfl
  simp only [inShare, Shape.share, List.map_map, List.filter_map, List.length_map, Function.comp_def,
    hcost, hlist]

theorem Shape.share_pos (shapes : List Shape) (budget : Nat) : 0 < Shape.share shapes budget :=
  Nat.le_max_right _ _

theorem inShare_pos (filters : List (Expr V)) (budget : Nat) : 0 < inShare filters budget :=
  inShare_eq filters budget ▸ Shape.share_pos _ _

theorem shape_length (f : Expr V) : f.shape.length = f.values.length := by
  cases f with
  | «in» _ _ negated => cases negated <;> rfl
  | _ => rfl

/-! ### Slices -/

theorem slices_of_length_le {share : Nat} {values : List V} (hpos : 0 < share)
    (hle : values.length ≤ share) : slices share values = [values] := by
  cases values with
  | nil => rfl
  | cons v vs => exact chunks_of_length_le hpos (by simp) hle

theorem exists_mem_slices {share : Nat} {values : List V} (hpos : 0 < share) (p : V → Prop) :
    (∃ c ∈ slices share values, ∃ v ∈ c, p v) ↔ ∃ v ∈ values, p v := by
  cases values with
  | nil => simp [slices]
  | cons v vs =>
    constructor
    · rintro ⟨c, hc, w, hw, hp⟩
      exact ⟨w, mem_of_mem_chunks hpos hc hw, hp⟩
    · rintro ⟨w, hw, hp⟩
      obtain ⟨c, hc, hwc⟩ := exists_mem_chunks hpos hw
      exact ⟨c, hc, w, hwc, hp⟩

theorem withValues_values (f : Expr V) : f.withValues f.values = f := by
  cases f <;> rfl

theorem slice_self {share : Nat} {f g : Expr V} (hpos : 0 < share) (hle : f.values.length ≤ share) :
    Slice share f g ↔ f = g := by
  simp [Slice, slices_of_length_le hpos hle, withValues_values]

theorem splitInFilters_of_le {filters : List (Expr V)} {budget : Nat}
    (hle : ∀ f ∈ filters, f.values.length ≤ inShare filters budget) :
    splitInFilters filters budget = [filters] := by
  rw [splitInFilters_eq]
  have hpos := inShare_pos filters budget
  generalize inPositions filters = is
  induction is with
  | nil => rfl
  | cons idx is ih =>
    suffices hstep : splitStep filters (inShare filters budget) [filters] idx = [filters] by
      rw [List.foldl_cons, hstep, ih]
    cases hf : filters[idx]? with
    | none =>
      have hlen : filters.length ≤ idx := List.getElem?_eq_none_iff.1 hf
      simp [splitStep, hf, slices, List.modify_eq_self hlen]
    | some f =>
      have hmem : f ∈ filters := List.mem_of_getElem? hf
      have hmodify : (filters.modify idx fun g => g.withValues f.values) = filters := by
        refine List.ext_getElem? fun i => ?_
        rw [List.getElem?_modify]
        by_cases hi : idx = i
        · subst hi
          simp [hf, withValues_values]
        · simp [hi]
      simp [splitStep, hf, slices_of_length_le hpos (hle f hmem), hmodify]

theorem exists_slice_holds {share : Nat} (hpos : 0 < share) (sql : Sql V) (table : Table V)
    (row : Row V) {f : Expr V} (hf : ∀ n, f.shape = .notIn n → n ≤ share) :
    (∃ g, Slice share f g ∧ g.holds sql table row = true) ↔ f.holds sql table row = true := by
  have hwhole (hle : f.values.length ≤ share) :
      (∃ g, Slice share f g ∧ g.holds sql table row = true) ↔ f.holds sql table row = true := by
    simp [slice_self hpos hle]
  cases f with
  | «in» column values negated =>
    cases negated with
    | true => exact hwhole (hf _ rfl)
    | false =>
      have hholds (vs : List V) : (Expr.in column vs false).holds sql table row = true ↔
          ∃ v ∈ vs, sql.compare row column .eq v = some true := by
        simp [Expr.holds, Sql.inList]
      rw [hholds, ← exists_mem_slices hpos]
      constructor
      · rintro ⟨_, ⟨c, hc, rfl⟩, hg⟩
        exact ⟨c, hc, (hholds c).1 hg⟩
      · rintro ⟨c, hc, hg⟩
        exact ⟨_, ⟨c, hc, rfl⟩, (hholds c).2 hg⟩
  | _ => exact hwhole (by simp [Expr.values])

/-! ### The condition is enough -/

section Sufficient

variable {sql : Sql V} {soft : Option String} {filters : List (Expr V)} {budget : Nat}

theorem runChunks_whole {now : Nat → V} {table : Table V}
    (hle : ∀ f ∈ filters, f.values.length ≤ inShare filters budget)
    (hsel : ∀ row, sql.selects (whereConds soft filters) table row =
      satisfies sql soft filters table row) :
    RemovesExactly soft now (satisfies sql soft filters table) table
      (runChunks sql soft now 0 (splitInFilters filters budget) table) := by
  rw [splitInFilters_of_le hle]
  exact ⟨fun _ => 0, by simp [runChunks, hsel]⟩

theorem holds_congr_table {f : Expr V} (hf : ∀ ors, f.shape ≠ .raw ors) (table table' : Table V)
    (row : Row V) : f.holds sql table row = f.holds sql table' row := by
  cases f with
  | raw _ alternatives => exact absurd rfl (hf alternatives.length)
  | _ => rfl

theorem satisfies_congr_table (hf : ∀ f ∈ filters, ∀ ors, f.shape ≠ .raw ors) (table table' : Table V)
    (row : Row V) : satisfies sql soft filters table row = satisfies sql soft filters table' row := by
  rw [Bool.eq_iff_iff]
  simp only [satisfies, Bool.and_eq_true, List.all_eq_true]
  refine and_congr_right fun _ => forall₂_congr fun f hmem => ?_
  rw [holds_congr_table (hf f hmem) table table']

theorem single_of_shape {f : Expr V} (hf : ∀ ors, f.shape = .raw ors → ors = 0) : f.Single := by
  cases f with
  | raw _ alternatives => exact List.length_eq_zero_iff.1 (hf _ rfl)
  | _ => trivial

theorem Slice.shape_raw {share ors : Nat} {f g : Expr V} (h : Slice share f g) :
    g.shape = .raw ors ↔ f.shape = .raw ors := by
  obtain ⟨c, _, rfl⟩ := h
  cases f with
  | «in» _ _ negated => cases negated <;> simp [Expr.withValues, Expr.shape]
  | _ => rfl

theorem runChunks_union {now : Nat → V} {table : Table V}
    (hraw : ∀ f ∈ filters, ∀ ors, f.shape ≠ .raw ors)
    (hnot : ∀ f ∈ filters, ∀ n, f.shape = .notIn n → n ≤ inShare filters budget) :
    RemovesExactly soft now (satisfies sql soft filters table) table
      (runChunks sql soft now 0 (splitInFilters filters budget) table) := by
  have hchunk {chunk : List (Expr V)} (hc : chunk ∈ splitInFilters filters budget) :
      ∀ g ∈ chunk, ∀ ors, g.shape ≠ .raw ors := by
    intro g hg ors
    obtain ⟨f, hf, hslice⟩ := exists_right_of_forall₂ ((mem_splitInFilters budget chunk).1 hc).flip hg
    exact fun h => hraw f hf ors (Slice.shape_raw hslice |>.1 h)
  refine (runChunks_removes sql soft now (fun chunk row => satisfies sql soft chunk table row)
    (fun chunk hc table' row => ?_) 0 table).congr fun row => ?_
  · rw [selects_whereConds, satisfies_congr_table (hchunk hc)]
    exact fun g hg => single_of_shape fun ors h => absurd h (hchunk hc g hg ors)
  · have hpos := inShare_pos filters budget
    have hiff := exists_forall₂_iff (R := Slice (inShare filters budget)) (l := filters)
      (P := fun g => g.holds sql table row = true)
    rw [Bool.eq_iff_iff, List.any_eq_true]
    simp only [satisfies, Bool.and_eq_true, List.all_eq_true, mem_splitInFilters]
    constructor
    · rintro ⟨chunk, hc, hgate, hholds⟩
      refine ⟨hgate, fun f hf => (exists_slice_holds hpos sql table row (hnot f hf)).1 ?_⟩
      exact hiff.1 ⟨chunk, hc, hholds⟩ f hf
    · rintro ⟨hgate, hholds⟩
      obtain ⟨chunk, hc, hg⟩ := hiff.2 fun f hf =>
        (exists_slice_holds hpos sql table row (hnot f hf)).2 (hholds f hf)
      exact ⟨chunk, hc, hgate, hg⟩

theorem operands_le_possible (sql : Sql V) {share : Nat} {f g : Expr V} (h : Slice share f g)
    (table : Table V) (row : Row V) :
    List.Forall₂ (· ≤ ·) (sql.operands table row (renderFilter g)) f.shape.possible := by
  obtain ⟨c, hc, rfl⟩ := h
  cases f with
  | cmp => simp [Expr.withValues, renderFilter, Sql.operands, Expr.shape, Shape.possible]
  | null => simp [Expr.withValues, renderFilter, Sql.operands, Expr.shape, Shape.possible]
  | raw operand alternatives =>
    rw [List.forall₂_iff_get]
    refine ⟨by simp [Expr.withValues, renderFilter, Sql.operands, Expr.shape, Shape.possible],
      fun i h₁ h₂ => ?_⟩
    simp [Expr.shape, Shape.possible]
  | «in» column values negated =>
    cases negated with
    | true =>
      rw [Expr.withValues, renderFilter, Expr.shape]
      split <;> simp [Sql.operands, Shape.possible]
    | false =>
      cases values with
      | nil =>
        obtain rfl : c = [] := by simpa [slices, Expr.values] using hc
        simp [Expr.withValues, renderFilter, Sql.operands, Expr.shape, Shape.possible]
      | cons v vs =>
        rw [Expr.withValues, renderFilter]
        split <;> simp [Sql.operands, Expr.shape, Shape.possible]

theorem whereConds_possible {chunk : List (Expr V)} (hchunk : chunk ∈ splitInFilters filters budget)
    {table : Table V} {row : Row V} (hsel : sql.selects (whereConds soft chunk) table row = true) :
    Sql.readAnd ((filters.map Expr.shape).map Shape.possible) = true := by
  have hfilters : List.Forall₂ (List.Forall₂ (· ≤ ·))
      ((chunk.map renderFilter).map (sql.operands table row))
      ((filters.map Expr.shape).map Shape.possible) := by
    simp only [List.map_map, List.forall₂_map_left_iff, List.forall₂_map_right_iff]
    exact (((mem_splitInFilters budget chunk).1 hchunk).imp fun f g h =>
      operands_le_possible sql h table row).flip
  cases soft with
  | none => exact Sql.readAnd_mono hfilters (by simpa [Sql.selects, whereConds] using hsel)
  | some sd =>
    rw [← Sql.readAnd_true_cons]
    refine Sql.readAnd_mono (.cons ?_ hfilters) (by simpa [Sql.selects, whereConds] using hsel)
    simp [Sql.operands]

theorem possible_true {s : Shape} (hs : s ≠ .isIn 0) : ∀ b ∈ s.possible, b = true := by
  intro b hb
  match s with
  | .isIn 0 => exact absurd rfl hs
  | .isIn (n + 1) | .cmp _ | .notIn _ | .null _ => simpa [Shape.possible] using hb
  | .raw ors => exact (List.mem_replicate.1 hb).2

theorem mem_possible_of_not_mem {shapes : List Shape} (h : .isIn 0 ∉ shapes) :
    ∀ c ∈ shapes.map Shape.possible, ∀ b ∈ c, b = true := by
  simp only [List.mem_map]
  rintro _ ⟨s, hs, rfl⟩
  exact possible_true (ne_of_mem_of_not_mem hs h)

theorem isIn_zero_mem_of_nothingSelected {shapes : List Shape} (h : NothingSelected shapes) :
    .isIn 0 ∈ shapes := by
  by_contra hnone
  exact Bool.eq_false_iff.1 h (Sql.readAnd_of_all (mem_possible_of_not_mem hnone))

theorem satisfies_of_isIn_zero (h : .isIn 0 ∈ filters.map Expr.shape) (table : Table V) (row : Row V) :
    satisfies sql soft filters table row = false := by
  obtain ⟨f, hf, hshape⟩ := List.mem_map.1 h
  have hholds : f.holds sql table row = false := by
    cases f with
    | «in» column values negated =>
      cases negated <;> simp_all [Expr.shape, Expr.holds, Sql.inList]
    | _ => simp [Expr.shape] at hshape
  simp only [satisfies, Bool.and_eq_false_iff, List.all_eq_false]
  exact .inr ⟨f, hf, by simp [hholds]⟩

theorem runChunks_nothing {now : Nat → V} {table : Table V}
    (h : NothingSelected (filters.map Expr.shape)) :
    RemovesExactly soft now (satisfies sql soft filters table) table
      (runChunks sql soft now 0 (splitInFilters filters budget) table) := by
  refine (runChunks_removes sql soft now (fun _ _ => false) (fun chunk hc table' row => ?_) 0 table).congr
    fun row => ?_
  · rw [Bool.eq_false_iff]
    exact fun hsel => Bool.eq_false_iff.1 h (whereConds_possible hc hsel)
  · rw [satisfies_of_isIn_zero (isIn_zero_mem_of_nothingSelected h)]
    simp

theorem eq_in_of_shape_notIn_zero {f : Expr V} (h : f.shape = .notIn 0) :
    ∃ column, f = .in column [] true := by
  cases f with
  | «in» column values negated => cases negated <;> simp_all [Expr.shape]
  | _ => simp [Expr.shape] at h

theorem selects_soleRaw {table : Table V} {row : Row V}
    (h : SoleRaw soft.isSome (filters.map Expr.shape)) :
    sql.selects (whereConds soft filters) table row = satisfies sql soft filters table row := by
  obtain ⟨hsoft, pre, ors, post, hshapes, htrue⟩ := h
  obtain rfl : soft = none := by simpa using hsoft
  obtain ⟨before, rest, rfl, rfl, hrest⟩ := List.map_eq_append_iff.1 hshapes
  obtain ⟨f, after, rfl, hf, rfl⟩ := List.map_eq_cons_iff.1 hrest
  have hother {g : Expr V} (hg : g ∈ before ++ after) :
      sql.operands table row (renderFilter g) = [true] ∧ g.holds sql table row = true := by
    obtain ⟨column, rfl⟩ := eq_in_of_shape_notIn_zero (htrue g.shape
      (by rw [← List.map_append]; exact List.mem_map_of_mem hg))
    simp [renderFilter, Sql.operands, Expr.holds, Sql.inList]
  have hones (l : List (Expr V)) (hl : ∀ g ∈ l, g ∈ before ++ after) :
      ∀ c ∈ (l.map renderFilter).map (sql.operands table row), c = [true] := by
    simp only [List.map_map, List.mem_map]
    rintro _ ⟨g, hg, rfl⟩
    exact (hother (hl g hg)).1
  cases f with
  | raw operand alternatives =>
    have hne : sql.operands table row (.raw operand alternatives) ≠ [] := by simp [Sql.operands]
    have hread := Sql.readAnd_sole hne (hones before fun g hg => by simp [hg])
      (hones after fun g hg => by simp [hg])
    have hholds : ∀ g ∈ before ++ after, g.holds sql table row = true := fun g hg => (hother hg).2
    simp only [List.forall_mem_append] at hholds
    have hbefore := List.all_eq_true.2 hholds.1
    have hafter := List.all_eq_true.2 hholds.2
    simp only [Sql.selects, whereConds, Option.toList_none, List.map_nil, List.nil_append,
      List.map_append, List.map_cons, renderFilter, hread, satisfies, gateOpen, Option.all_none,
      Bool.true_and, List.all_append, List.all_cons, hbefore, hafter, Bool.and_true]
    simp [Sql.operands, Expr.holds]
  | «in» _ _ negated => cases negated <;> simp [Expr.shape] at hf
  | _ => simp [Expr.shape] at hf

theorem soleRaw_values {share : Nat} {f : Expr V} (h : SoleRaw soft.isSome (filters.map Expr.shape))
    (hf : f ∈ filters) : f.values.length ≤ share := by
  obtain ⟨_, pre, ors, post, hshapes, htrue⟩ := h
  have hmem : f.shape ∈ pre ++ .raw ors :: post := hshapes ▸ List.mem_map_of_mem hf
  rw [← shape_length]
  obtain hmem | hmem : f.shape ∈ pre ++ post ∨ f.shape = .raw ors := by
    simp only [List.mem_append, List.mem_cons] at hmem ⊢
    tauto
  · simp [htrue _ hmem, Shape.length]
  · simp [hmem, Shape.length]

theorem runChunks_of_splitSound {now : Nat → V} {table : Table V} {limit : Nat}
    (h : SplitSound limit soft.isSome (filters.map Expr.shape)) :
    RemovesExactly soft now (satisfies sql soft filters table) table
      (runChunks sql soft now 0 (splitInFilters filters (limit - soft.isSome.toNat)) table) := by
  obtain h | h | ⟨hsingle, h⟩ := h
  · exact runChunks_nothing h
  · exact runChunks_whole (fun f hf => soleRaw_values h hf) fun row => selects_soleRaw h
  · simp only [List.mem_map, forall_exists_index, and_imp] at hsingle h
    rw [← inShare_eq] at h
    obtain h | ⟨hraw, hnot⟩ := h
    · refine runChunks_whole (fun f hf => shape_length f ▸ h _ f hf rfl) fun row =>
        selects_whereConds sql soft table row fun f hf => single_of_shape fun ors hors => ?_
      exact hsingle ors f hf hors
    · exact runChunks_union (fun f hf ors hors => hraw ors ⟨f, hf, hors⟩)
        fun f hf n hn => hnot n f hf hn

end Sufficient

end Ecat.Orm
