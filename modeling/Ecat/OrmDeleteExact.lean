import Ecat.OrmDelete

/-! The condition of `OrmDelete` is also needed: a filter list of any other shape can be
given columns, values and a table on which the split delete removes a row it should keep
or keeps one it should remove. -/

namespace Ecat.Orm

/-- For every filter list of these shapes, on every database and table, the delete succeeds and
removes exactly the rows that satisfy the conjunction. -/
def DeletesExactly (limit : Nat) (soft hard : Bool) (shapes : List Shape) : Prop :=
  ∀ (V : Type) (sql : Sql V) (entity : EntityMeta) (q : FilteredQuery V),
    entity.softDelete.isSome = soft → q.filters.map Expr.shape = shapes →
      ∀ (now : Nat → V) (table : Table V), ∃ n table',
        q.delete hard sql limit entity now table = .ok (n, table') ∧
          RemovesExactly (entity.softDelete.filter fun _ => !hard) now
            (satisfies sql (entity.softDelete.filter fun _ => !hard) q.filters table) table table'

theorem deletesExactly_of_splitSound {limit : Nat} {soft hard : Bool} {shapes : List Shape}
    (h : SplitSound limit (soft && !hard) shapes) : DeletesExactly limit soft hard shapes := by
  rintro V sql entity q rfl rfl now table
  obtain ⟨n, hdelete⟩ := q.delete_eq hard sql limit entity now table
  have hgated : (entity.softDelete.isSome && !hard) =
      (entity.softDelete.filter fun _ => !hard).isSome := by
    cases entity.softDelete <;> cases hard <;> rfl
  exact ⟨n, _, hdelete, runChunks_of_splitSound (hgated ▸ h)⟩

/-! ### A database of integers -/

/-- The pattern of a `LIKE` is taken to have no wildcard. -/
def integers (raw : String → Table Int → Row Int → Bool) : Sql Int where
  cmp op x v := some <| match op with
    | .eq | .like => x == v
    | .ne => x != v
    | .lt => decide (x < v)
    | .le => decide (x ≤ v)
    | .gt => decide (v < x)
    | .ge => decide (v ≤ x)
  raw := raw

def constants (text : String) (_ : Table Int) (_ : Row Int) : Bool := text == "1 = 1"

def moreThanOne : String := "(SELECT COUNT(*) FROM t WHERE deleted_at IS NULL) > 1"

def counting (text : String) (table : Table Int) (_ : Row Int) : Bool :=
  text == moreThanOne && decide (1 < table.countP fun row => (row "deleted_at").isNone)

def cells (b : Int) : Row Int := fun column =>
  if column = "a" then some 0 else if column = "b" then some b else none

def Op.operand : Op → Bool → Int
  | .eq, truth | .like, truth | .ge, truth => if truth then 0 else 1
  | .ne, truth | .lt, truth => if truth then 1 else 0
  | .le, truth => if truth then 0 else -1
  | .gt, truth => if truth then -1 else 0

def filler (text : String) (truth : Bool) : Shape → Expr Int
  | .cmp op => .cmp "a" op (op.operand truth)
  | .isIn n => .in "a" (List.replicate n (if truth then 0 else 1)) false
  | .notIn n => .in "a" (List.replicate n (if truth then 1 else 0)) true
  | .null negated => .null (if truth == negated then "a" else "c") negated
  | .raw ors => .raw text (List.replicate ors text)

theorem filler_shape (text : String) (truth : Bool) (s : Shape) : (filler text truth s).shape = s := by
  cases s <;> simp [filler, Expr.shape]

theorem mem_slices_replicate {share n : Nat} {v : Int} {c : List Int} (hpos : 0 < share)
    (hc : c ∈ slices share (List.replicate n v)) : (∀ w ∈ c, w = v) ∧ (c = [] ↔ n = 0) := by
  cases n with
  | zero => simp_all [slices]
  | succ n =>
    have hc : c ∈ chunks share (List.replicate (n + 1) v) := by simpa [slices] using hc
    refine ⟨fun w hw => List.eq_of_mem_replicate (mem_of_mem_chunks hpos hc hw), ?_⟩
    simp [ne_nil_of_mem_chunks hpos hc]

variable {raw : String → Table Int → Row Int → Bool} {text : String} {share : Nat} {row : Row Int}
  {table : Table Int}

theorem compare_operand (hrow : row "a" = some 0) (op : Op) (truth : Bool) :
    (integers raw).compare row "a" op (op.operand truth) = some truth := by
  rw [Sql.compare, hrow]
  cases op <;> cases truth <;> rfl

theorem filler_operands (hpos : 0 < share) (hrow : row "a" = some 0 ∧ row "c" = none)
    (htext : raw text table row = true) {s : Shape} {g : Expr Int}
    (h : Slice share (filler text true s) g) :
    (integers raw).operands table row (renderFilter g) = s.possible := by
  obtain ⟨c, hc, rfl⟩ := h
  cases s with
  | cmp op =>
    simp [filler, Expr.withValues, renderFilter, Sql.operands, compare_operand hrow.1, Shape.possible]
  | null negated =>
    cases negated <;> simp [filler, Expr.withValues, renderFilter, Sql.operands, hrow, Shape.possible]
  | raw ors =>
    simp [filler, Expr.withValues, renderFilter, Sql.operands, integers, htext, Shape.possible,
      List.replicate_succ]
  | notIn n =>
    obtain ⟨hall, hnil⟩ := mem_slices_replicate hpos hc
    cases c with
    | nil => simp [filler, Expr.withValues, renderFilter, Sql.operands, Shape.possible]
    | cons w ws =>
      have hne : ∀ w' ∈ w :: ws, (0 : Int) ≠ w' := fun w' hw' => by simp [hall w' hw']
      simpa [filler, Expr.withValues, renderFilter, Sql.operands, Sql.inList, Sql.compare, integers,
        hrow, Shape.possible] using hne
  | isIn n =>
    obtain ⟨hall, hnil⟩ := mem_slices_replicate hpos hc
    cases n with
    | zero =>
      obtain rfl := hnil.2 rfl
      simp [filler, Expr.withValues, renderFilter, Sql.operands, Shape.possible]
    | succ n =>
      cases c with
      | nil => simp at hnil
      | cons w ws =>
        have hw : w = 0 := by simpa using hall w (by simp)
        simp [filler, Expr.withValues, renderFilter, Sql.operands, Sql.inList, Sql.compare, integers,
          hrow, Shape.possible, hw]

theorem filler_not_holds (hrow : row "a" = some 0 ∧ row "c" = none) (htext : raw text table row = false)
    {s : Shape} (hs : s ≠ .notIn 0) : (filler text false s).holds (integers raw) table row = false := by
  cases s with
  | cmp op => simp [filler, Expr.holds, compare_operand hrow.1]
  | null negated => cases negated <;> simp [filler, Expr.holds, hrow]
  | raw ors => simp [filler, Expr.holds, integers, htext]
  | notIn n =>
    cases n with
    | zero => exact absurd rfl hs
    | succ n => simp [filler, Expr.holds, Sql.inList, Sql.compare, integers, hrow]
  | isIn n => simp [filler, Expr.holds, Sql.inList, Sql.compare, integers, hrow]

theorem filler_holds (hrow : row "a" = some 0 ∧ row "c" = none) (htext : raw text table row = true)
    {s : Shape} (hs : s ≠ .isIn 0) : (filler text true s).holds (integers raw) table row = true := by
  cases s with
  | cmp op => simp [filler, Expr.holds, compare_operand hrow.1]
  | null negated => cases negated <;> simp [filler, Expr.holds, hrow]
  | raw ors => simp [filler, Expr.holds, integers, htext]
  | notIn n => simp [filler, Expr.holds, Sql.inList, Sql.compare, integers, hrow]
  | isIn n =>
    cases n with
    | zero => exact absurd rfl hs
    | succ n => simp [filler, Expr.holds, Sql.inList, Sql.compare, integers, hrow]

theorem operands_fillers (hpos : 0 < share) (hrow : row "a" = some 0 ∧ row "c" = none)
    (htext : raw text table row = true) {shapes : List Shape} {chunk : List (Expr Int)}
    (h : List.Forall₂ (Slice share) (shapes.map (filler text true)) chunk) :
    (chunk.map renderFilter).map ((integers raw).operands table row) = shapes.map Shape.possible := by
  rw [List.forall₂_map_left_iff] at h
  induction h with
  | nil => rfl
  | cons hs _ ih => simp only [List.map_cons, filler_operands hpos hrow htext hs, ih]

theorem exists_slices (filters : List (Expr Int)) (hpos : 0 < share) :
    ∃ chunk, List.Forall₂ (Slice share) filters chunk := by
  have h := (exists_forall₂_iff (R := Slice share) (P := fun _ => True) (l := filters)).2 fun f _ => ?_
  · obtain ⟨chunk, hchunk, _⟩ := h
    exact ⟨chunk, hchunk⟩
  · cases hv : f.values with
    | nil => exact ⟨_, ⟨[], by simp [slices, hv], rfl⟩, trivial⟩
    | cons v vs =>
      exact ⟨_, ⟨_, by simpa [slices, hv] using take_mem_chunks hpos (List.cons_ne_nil v vs), rfl⟩, trivial⟩

/-! ### One row too many -/

def deletedAt (gated : Bool) : Option String := if gated then some "deleted_at" else none

theorem DeletesExactly.run {limit : Nat} {soft hard : Bool} {shapes : List Shape}
    (h : DeletesExactly limit soft hard shapes) (raw : String → Table Int → Row Int → Bool)
    {filters : List (Expr Int)} (hshapes : filters.map Expr.shape = shapes) (hne : filters ≠ [])
    (table : Table Int) :
    RemovesExactly (deletedAt (soft && !hard)) (fun _ => 1)
      (satisfies (integers raw) (deletedAt (soft && !hard)) filters table) table
      (runChunks (integers raw) (deletedAt (soft && !hard)) (fun _ => 1) 0
        (splitInFilters filters (limit - (soft && !hard).toNat)) table) := by
  have hsoft : (deletedAt soft).filter (fun _ => !hard) = deletedAt (soft && !hard) := by
    cases soft <;> cases hard <;> rfl
  have hgated : (deletedAt (soft && !hard)).isSome = (soft && !hard) := by
    cases soft <;> cases hard <;> rfl
  obtain ⟨n, table', hdelete, hremoves⟩ := h Int (integers raw) ⟨deletedAt soft⟩ ⟨filters, hne⟩
    (by cases soft <;> rfl) hshapes (fun _ => 1) table
  obtain ⟨m, hrun⟩ := FilteredQuery.delete_eq ⟨filters, hne⟩ hard (integers raw) limit
    ⟨deletedAt soft⟩ (fun _ => 1) table
  rw [hrun] at hdelete
  simp only [hsoft, hgated, Except.ok.injEq, Prod.mk.injEq] at hdelete hremoves
  rw [hdelete.2]
  exact hremoves

theorem selects_constants (conds : List (Cond Int)) (table table' : Table Int) (row : Row Int) :
    (integers constants).selects conds table row = (integers constants).selects conds table' row := by
  have h : (integers constants).operands table row = (integers constants).operands table' row := by
    funext cond
    cases cond <;> rfl
  rw [Sql.selects, Sql.selects, h]

theorem not_selected_of_run (row : Row Int) {gated : Bool} {filters chunk : List (Expr Int)}
    {chunks : List (List (Expr Int))}
    (h : RemovesExactly (deletedAt gated) (fun _ => 1)
      (satisfies (integers constants) (deletedAt gated) filters [row]) [row]
      (runChunks (integers constants) (deletedAt gated) (fun _ => 1) 0 chunks [row]))
    (hspec : satisfies (integers constants) (deletedAt gated) filters [row] row = false)
    (hrow : row "deleted_at" ≠ some 1) (hc : chunk ∈ chunks) :
    (integers constants).selects (whereConds (deletedAt gated) chunk) [row] row = false := by
  rw [Bool.eq_false_iff]
  intro hsel
  obtain ⟨time, hrun⟩ := runChunks_removes (integers constants) (deletedAt gated) (fun _ => 1)
    (fun chunk row' => (integers constants).selects (whereConds (deletedAt gated) chunk) [row] row')
    (fun chunk (_ : chunk ∈ chunks) table row' => selects_constants _ _ _ _) 0 [row]
  obtain ⟨time', hexact⟩ := h
  have hany : chunks.any (fun chunk =>
      (integers constants).selects (whereConds (deletedAt gated) chunk) [row] row) = true :=
    List.any_eq_true.2 ⟨chunk, hc, hsel⟩
  rw [hrun] at hexact
  simp only [List.filterMap_cons, List.filterMap_nil, hany, hspec, if_true, Bool.false_eq_true,
    if_false] at hexact
  cases gated with
  | false => simp [deletedAt, trash] at hexact
  | true =>
    have hcell : Sql.setCell row "deleted_at" 1 = row := by simpa [deletedAt, trash] using hexact
    exact hrow (by rw [← hcell, Sql.setCell, if_pos rfl])

theorem selects_gated {gated : Bool} {chunk : List (Expr Int)} (hrow : row "deleted_at" = none) :
    (integers raw).selects (whereConds (deletedAt gated) chunk) table row =
      Sql.readAnd ((chunk.map renderFilter).map ((integers raw).operands table row)) := by
  cases gated with
  | false => rfl
  | true =>
    rw [← Sql.readAnd_true_cons]
    simp [Sql.selects, whereConds, deletedAt, Sql.operands, hrow]

theorem filler_map_shape (text : String) (truth : Bool) (shapes : List Shape) :
    (shapes.map (filler text truth)).map Expr.shape = shapes := by
  simp [Function.comp_def, filler_shape]

section Needed

variable {limit : Nat} {soft hard : Bool} {pre post shapes : List Shape}

theorem DeletesExactly.not_selected (h : DeletesExactly limit soft hard shapes) (row : Row Int)
    {filters chunk : List (Expr Int)} (hshapes : filters.map Expr.shape = shapes) (hne : filters ≠ [])
    (hchunk : List.Forall₂ (Slice (Shape.share shapes (limit - (soft && !hard).toNat))) filters chunk)
    (hdeleted : row "deleted_at" ≠ some 1)
    (hspec : satisfies (integers constants) (deletedAt (soft && !hard)) filters [row] row = false) :
    (integers constants).selects (whereConds (deletedAt (soft && !hard)) chunk) [row] row = false := by
  refine not_selected_of_run row (h.run constants hshapes hne [row]) hspec hdeleted ?_
  rw [mem_splitInFilters, inShare_eq, hshapes]
  exact hchunk

theorem DeletesExactly.nothingSelected (h : DeletesExactly limit soft hard shapes)
    (hzero : .isIn 0 ∈ shapes) : NothingSelected shapes := by
  have hpos := Shape.share_pos shapes (limit - (soft && !hard).toNat)
  obtain ⟨chunk, hchunk⟩ := exists_slices (shapes.map (filler "1 = 1" true)) hpos
  have hne : shapes.map (filler "1 = 1" true) ≠ [] := by simpa using List.ne_nil_of_mem hzero
  have hsel := h.not_selected (cells 0) (filler_map_shape _ _ _) hne hchunk (by decide)
    (satisfies_of_isIn_zero (by rwa [filler_map_shape]) _ _)
  rwa [selects_gated (by decide), operands_fillers hpos (by decide) rfl hchunk] at hsel

theorem DeletesExactly.holds_before_or (row : Row Int) {ors : Nat} {front : List (Expr Int)}
    (h : DeletesExactly limit soft hard (front.map Expr.shape ++ .raw (ors + 1) :: post))
    (hzero : .isIn 0 ∉ post) (hrow : row "a" = some 0 ∧ row "c" = none)
    (hdeleted : row "deleted_at" ≠ some 1) :
    satisfies (integers constants) (deletedAt (soft && !hard)) front [row] row = true := by
  by_contra hfalse
  have hpos := Shape.share_pos (front.map Expr.shape ++ .raw (ors + 1) :: post)
    (limit - (soft && !hard).toNat)
  obtain ⟨before, hbefore⟩ := exists_slices front hpos
  obtain ⟨after, hafter⟩ := exists_slices ((.raw (ors + 1) :: post).map (filler "1 = 1" true)) hpos
  have hspec : satisfies (integers constants) (deletedAt (soft && !hard))
      (front ++ (.raw (ors + 1) :: post).map (filler "1 = 1" true)) [row] row = false := by
    rw [Bool.eq_false_iff]
    intro hsat
    rw [satisfies, List.all_append, ← Bool.and_assoc, Bool.and_eq_true] at hsat
    exact hfalse hsat.1
  have hsel := h.not_selected row (by rw [List.map_append, filler_map_shape]) (by simp)
    (List.rel_append hbefore hafter) hdeleted hspec
  rw [Sql.selects, whereConds, List.map_append, List.map_append, List.map_append,
    operands_fillers hpos hrow rfl hafter, ← List.append_assoc, List.map_cons] at hsel
  exact Bool.eq_false_iff.1 hsel
    (Sql.readAnd_of_back _ (by simp) (mem_possible_of_not_mem hzero))

theorem DeletesExactly.holds_behind_or {ors : Nat} {back : List (Expr Int)}
    (h : DeletesExactly limit soft hard (pre ++ .raw (ors + 1) :: back.map Expr.shape))
    (hzero : .isIn 0 ∉ pre) (hrow : row "a" = some 0 ∧ row "c" = none)
    (hdeleted : row "deleted_at" = none) :
    ∀ f ∈ back, f.holds (integers constants) [row] row = true := by
  by_contra hfalse
  have hpos := Shape.share_pos (pre ++ .raw (ors + 1) :: back.map Expr.shape)
    (limit - (soft && !hard).toNat)
  obtain ⟨before, hbefore⟩ := exists_slices ((pre ++ [Shape.raw (ors + 1)]).map (filler "1 = 1" true)) hpos
  obtain ⟨after, hafter⟩ := exists_slices back hpos
  have hspec : satisfies (integers constants) (deletedAt (soft && !hard))
      ((pre ++ [Shape.raw (ors + 1)]).map (filler "1 = 1" true) ++ back) [row] row = false := by
    rw [Bool.eq_false_iff]
    intro hsat
    rw [satisfies, List.all_append, ← Bool.and_assoc, Bool.and_eq_true, List.all_eq_true] at hsat
    exact hfalse hsat.2
  have hsel := h.not_selected row (by simp [filler_shape, Function.comp_def]) (by simp)
    (List.rel_append hbefore hafter) (by simp [hdeleted]) hspec
  rw [selects_gated hdeleted, List.map_append, List.map_append, operands_fillers hpos hrow rfl hbefore,
    List.map_append, List.append_assoc] at hsel
  exact Bool.eq_false_iff.1 hsel (Sql.readAnd_of_front _ (mem_possible_of_not_mem hzero))

theorem filler_true_row (b : Int) : cells b "a" = some 0 ∧ cells b "c" = none := by
  simp [cells]

theorem DeletesExactly.soleRaw {ors : Nat}
    (h : DeletesExactly limit soft hard (pre ++ .raw (ors + 1) :: post)) (hpre : .isIn 0 ∉ pre)
    (hpost : .isIn 0 ∉ post) : SoleRaw (soft && !hard) (pre ++ .raw (ors + 1) :: post) := by
  refine ⟨?_, pre, ors + 1, post, rfl, List.forall_mem_append.2 ⟨fun s hs => ?_, fun s hs => ?_⟩⟩
  · rw [← filler_map_shape "1 = 1" true pre] at h
    have hsat := holds_before_or (Sql.setCell (cells 0) "deleted_at" 0) h hpost (by decide) (by decide)
    rw [satisfies, Bool.and_eq_true] at hsat
    cases hgated : (soft && !hard) with
    | false => rfl
    | true => simp [hgated, gateOpen, deletedAt, Sql.setCell] at hsat
  · rw [← filler_map_shape "1 = 0" false pre] at h
    have hsat := holds_before_or (cells 0) h hpost (filler_true_row 0) (by decide)
    rw [satisfies, Bool.and_eq_true, List.all_eq_true] at hsat
    by_contra hne
    exact Bool.eq_false_iff.1 (filler_not_holds (filler_true_row 0) rfl hne)
      (hsat.2 _ (List.mem_map_of_mem hs))
  · rw [← filler_map_shape "1 = 0" false post] at h
    have hholds := h.holds_behind_or hpre (filler_true_row 0) (by decide)
    by_contra hne
    exact Bool.eq_false_iff.1 (filler_not_holds (filler_true_row 0) rfl hne)
      (hholds _ (List.mem_map_of_mem hs))

theorem filler_map_between {text : String} {f : Expr Int} {s : Shape} (hf : f.shape = s) :
    (pre.map (filler text true) ++ f :: post.map (filler text true)).map Expr.shape = pre ++ s :: post := by
  rw [List.map_append, List.map_cons, filler_map_shape, filler_map_shape, hf]

def interval (n : Nat) : List Int := (List.range n).map Int.ofNat

theorem DeletesExactly.notIn_le {n : Nat} (h : DeletesExactly limit soft hard (pre ++ .notIn n :: post))
    (hpre : .isIn 0 ∉ pre) (hpost : .isIn 0 ∉ post) :
    n ≤ Shape.share (pre ++ .notIn n :: post) (limit - (soft && !hard).toNat) := by
  have hpos := Shape.share_pos (pre ++ .notIn n :: post) (limit - (soft && !hard).toNat)
  generalize hshare : Shape.share (pre ++ .notIn n :: post) (limit - (soft && !hard).toNat) = share at hpos ⊢
  by_contra hlong
  obtain ⟨before, hbefore⟩ := exists_slices (pre.map (filler "1 = 1" true)) hpos
  obtain ⟨after, hafter⟩ := exists_slices (post.map (filler "1 = 1" true)) hpos
  have hslice : Slice share (.in "b" (interval n) true) (.in "b" ((interval n).take share) true) := by
    have hne : interval n ≠ [] := by
      simp only [interval, ne_eq, List.map_eq_nil_iff, List.range_eq_nil]
      omega
    exact ⟨_, by simpa [slices, Expr.values, hne] using take_mem_chunks hpos hne, rfl⟩
  have hchunk := List.rel_append hbefore (List.Forall₂.cons hslice hafter)
  have hlast : Int.ofNat (n - 1) ∈ interval n := List.mem_map_of_mem (List.mem_range.2 (by omega))
  have hspec : satisfies (integers constants) (deletedAt (soft && !hard))
      (pre.map (filler "1 = 1" true) ++ .in "b" (interval n) true :: post.map (filler "1 = 1" true))
      [cells (Int.ofNat (n - 1))] (cells (Int.ofNat (n - 1))) = false := by
    rw [Bool.eq_false_iff]
    intro hsat
    rw [satisfies, Bool.and_eq_true, List.all_eq_true] at hsat
    have hall := hsat.2 (.in "b" (interval n) true) (by simp)
    simp only [Expr.holds, Sql.inList, if_true, List.all_eq_true] at hall
    have hcmp := hall _ hlast
    simp [Sql.compare, integers, cells] at hcmp
  have hsel := h.not_selected (cells (Int.ofNat (n - 1)))
    (filler_map_between (by simp [Expr.shape, interval])) (by simp) (by rw [hshare]; exact hchunk)
    (by simp [cells]) hspec
  refine Bool.eq_false_iff.1 hsel ?_
  rw [selects_gated (by simp [cells]), List.map_append, List.map_cons, List.map_append, List.map_cons,
    operands_fillers hpos (filler_true_row _) rfl hbefore,
    operands_fillers hpos (filler_true_row _) rfl hafter]
  refine Sql.readAnd_of_all (List.forall_mem_append.2 ⟨mem_possible_of_not_mem hpre,
    List.forall_mem_cons.2 ⟨?_, mem_possible_of_not_mem hpost⟩⟩)
  have hsingle : (Expr.in (V := Int) "b" ((interval n).take share) true).Single := trivial
  rw [operands_renderFilter _ _ _ hsingle]
  simp only [List.mem_singleton, forall_eq, Expr.holds, Sql.inList, if_true, List.all_eq_true]
  intro v hv
  obtain ⟨k, hk, rfl⟩ : ∃ k, k < min share n ∧ Int.ofNat k = v := by
    simpa [interval, ← List.map_take, List.take_range] using hv
  have hne : ¬ Int.ofNat (n - 1) = Int.ofNat k := by
    rw [Int.ofNat.injEq]
    omega
  simpa [Sql.compare, integers, cells] using hne

/-! ### One row too few -/

def live (row : Row Int) : Bool := (row "deleted_at").isNone

theorem live_removal (gated : Bool) (p : Row Int → Bool) (table : Table Int) :
    (table.filterMap fun row => if p row then trash (deletedAt gated) 1 row else some row).filter live =
      (table.filter live).filter fun row => !p row := by
  induction table with
  | nil => rfl
  | cons row table ih =>
    cases hp : p row with
    | false => cases hl : live row <;> simp [hp, hl, ih]
    | true =>
      cases gated <;> cases hl : live row <;>
        simp_all [deletedAt, trash, live, Sql.setCell]

theorem filter_keeps_one {p : Row Int → Bool} {a b : Row Int} {rows : Table Int}
    (hrows : rows = [a, b] ∨ rows = [a] ∨ rows = [b])
    (ha : p a = true → 1 < rows.length ∧ p b = false) (hb : p b = true → 1 < rows.length) :
    rows.filter (fun row => !p row) = [a, b] ∨ rows.filter (fun row => !p row) = [a] ∨
      rows.filter (fun row => !p row) = [b] := by
  cases hpa : p a <;> cases hpb : p b <;> rcases hrows with rfl | rfl | rfl <;> simp_all

/-- Two rows that no statement takes together, and a raw fragment that wants two of them:
one is always left. -/
theorem live_runChunks (gated : Bool) (chunks : List (List (Expr Int))) {a b : Row Int}
    (hchunks : ∀ chunk ∈ chunks, ∀ table,
      ((integers counting).selects (whereConds (deletedAt gated) chunk) table a = true →
        1 < (table.filter live).length ∧
          (integers counting).selects (whereConds (deletedAt gated) chunk) table b = false) ∧
      ((integers counting).selects (whereConds (deletedAt gated) chunk) table b = true →
        1 < (table.filter live).length))
    (k : Nat) (table : Table Int)
    (htable : table.filter live = [a, b] ∨ table.filter live = [a] ∨ table.filter live = [b]) :
    (runChunks (integers counting) (deletedAt gated) (fun _ => 1) k chunks table).filter live ≠ [] := by
  induction chunks generalizing k table with
  | nil => rcases htable with h | h | h <;> simp [runChunks, h]
  | cons chunk rest ih =>
    obtain ⟨hchunk, hrest⟩ := List.forall_mem_cons.1 hchunks
    obtain ⟨ha, hb⟩ := hchunk table
    refine ih hrest (k + 1) _ ?_
    rw [live_removal]
    exact filter_keeps_one htable ha hb

theorem mem_interval_slice {share n : Nat} {c : List Int} {x y : Nat} (hpos : 0 < share)
    (hc : c ∈ slices share (interval n)) (hx : Int.ofNat x ∈ c) (hy : Int.ofNat y ∈ c) : y < x + share := by
  have hne : interval n ≠ [] := by
    rintro hnil
    rw [hnil] at hc
    simp_all [slices]
  have hc : c ∈ chunks share (interval n) := by simpa [slices, hne] using hc
  obtain ⟨k, hk, rfl⟩ := (mem_chunks hpos).1 hc
  have hrange : ((List.range n).drop (k * share)).take share ∈ chunks share (List.range n) :=
    (mem_chunks hpos).2 ⟨k, by simpa [interval] using hk, rfl⟩
  rw [interval, ← List.map_drop, ← List.map_take, List.mem_map] at hx hy
  obtain ⟨x', hx, hxx⟩ := hx
  obtain ⟨y', hy, hyy⟩ := hy
  rw [← Int.ofNat.inj hxx, ← Int.ofNat.inj hyy]
  exact lt_add_of_mem_chunks_range hpos hrange hx hy

theorem cells_holds_in {x : Nat} {values : List Int} {table : Table Int}
    {raw : String → Table Int → Row Int → Bool} :
    (Expr.in "b" values false).holds (integers raw) table (cells (Int.ofNat x)) = true ↔
      Int.ofNat x ∈ values := by
  simp [Expr.holds, Sql.inList, Sql.compare, integers, cells]

theorem counting_selects {gated : Bool} {chunk : List (Expr Int)} (hsingle : ∀ g ∈ chunk, g.Single)
    (hraw : Expr.raw moreThanOne [] ∈ chunk) {c : List Int} (hc : Expr.in "b" c false ∈ chunk) {x : Nat}
    {table : Table Int}
    (hsel : (integers counting).selects (whereConds (deletedAt gated) chunk) table
      (cells (Int.ofNat x)) = true) : 1 < (table.filter live).length ∧ Int.ofNat x ∈ c := by
  rw [selects_whereConds _ _ _ _ hsingle, satisfies, Bool.and_eq_true, List.all_eq_true] at hsel
  have hcount := hsel.2 _ hraw
  simp only [Expr.holds, List.any_cons, List.any_nil, Bool.or_false, integers, counting,
    Bool.and_eq_true, decide_eq_true_eq] at hcount
  refine ⟨?_, cells_holds_in.1 (hsel.2 _ hc)⟩
  rw [← List.countP_eq_length_filter]
  exact hcount.2

theorem satisfies_counting {gated : Bool} {n x y z : Nat} (hzero : .isIn 0 ∉ pre ++ post) (hx : x < n) :
    satisfies (integers counting) (deletedAt gated)
      (pre.map (filler moreThanOne true) ++
        .in "b" (interval n) false :: post.map (filler moreThanOne true))
      [cells (Int.ofNat y), cells (Int.ofNat z)] (cells (Int.ofNat x)) = true := by
  have hgate : gateOpen (deletedAt gated) (cells (Int.ofNat x)) = true := by
    cases gated <;> simp [gateOpen, deletedAt, cells]
  have htext : counting moreThanOne [cells (Int.ofNat y), cells (Int.ofNat z)]
      (cells (Int.ofNat x)) = true := by
    simp [counting, cells]
  have hfiller : ∀ s ∈ pre ++ post, (filler moreThanOne true s).holds (integers counting)
      [cells (Int.ofNat y), cells (Int.ofNat z)] (cells (Int.ofNat x)) = true := fun s hs =>
    filler_holds (filler_true_row _) htext (ne_of_mem_of_not_mem hs hzero)
  rw [List.forall_mem_append] at hfiller
  rw [satisfies, hgate, Bool.true_and, List.all_eq_true, List.forall_mem_append, List.forall_mem_cons]
  refine ⟨List.forall_mem_map.2 hfiller.1, cells_holds_in.2 ?_, List.forall_mem_map.2 hfiller.2⟩
  exact List.mem_map_of_mem (List.mem_range.2 hx)

theorem DeletesExactly.isIn_le (ors : Nat) {n : Nat}
    (h : DeletesExactly limit soft hard (pre ++ .isIn n :: post))
    (hzero : .isIn 0 ∉ pre ++ post) (hraw : .raw ors ∈ pre ++ post)
    (hsingle : ∀ ors, .raw ors ∈ pre ++ post → ors = 0) :
    n ≤ Shape.share (pre ++ .isIn n :: post) (limit - (soft && !hard).toNat) := by
  have hpos := Shape.share_pos (pre ++ .isIn n :: post) (limit - (soft && !hard).toNat)
  generalize hshare : Shape.share (pre ++ .isIn n :: post) (limit - (soft && !hard).toNat) = share at hpos ⊢
  by_contra hlong
  obtain ⟨filters, hfilters⟩ : ∃ filters, pre.map (filler moreThanOne true) ++
    .in "b" (interval n) false :: post.map (filler moreThanOne true) = filters := ⟨_, rfl⟩
  have hshapes : filters.map Expr.shape = pre ++ .isIn n :: post :=
    hfilters ▸ filler_map_between (by simp [Expr.shape, interval])
  have hrawmem : Expr.raw moreThanOne [] ∈ filters := by
    have hfiller : filler moreThanOne true (.raw ors) ∈ filters := by
      rw [← hfilters]
      rcases List.mem_append.1 hraw with hraw | hraw <;> simp [List.mem_map_of_mem hraw]
    rwa [hsingle ors hraw] at hfiller
  have hlist : Expr.in "b" (interval n) false ∈ filters := by simp [← hfilters]
  obtain ⟨time, hrun⟩ := h.run counting hshapes (by simp [← hfilters])
    [cells (Int.ofNat 0), cells (Int.ofNat share)]
  have hleft := live_runChunks (soft && !hard) (splitInFilters filters (limit - (soft && !hard).toNat))
    (fun chunk hchunk table => ?_) 0 [cells (Int.ofNat 0), cells (Int.ofNat share)] (.inl rfl)
  · rw [hrun, live_removal, ← hfilters] at hleft
    refine hleft (List.filter_eq_nil_iff.2 fun row hrow => ?_)
    obtain ⟨x, hx, rfl⟩ : ∃ x < n, cells (Int.ofNat x) = row := by
      have hrow := List.mem_of_mem_filter hrow
      simp only [List.mem_cons, List.not_mem_nil, or_false] at hrow
      rcases hrow with rfl | rfl
      · exact ⟨0, by omega, rfl⟩
      · exact ⟨share, by omega, rfl⟩
    rw [satisfies_counting hzero hx]
    decide
  · rw [mem_splitInFilters, inShare_eq, hshapes, hshare] at hchunk
    have hsingles : ∀ g ∈ chunk, g.Single := by
      refine fun g hg => single_of_shape fun ors' hors => ?_
      obtain ⟨f, hf, hfg⟩ := exists_right_of_forall₂ hchunk.flip hg
      have hshape : f.shape ∈ pre ++ .isIn n :: post := hshapes ▸ List.mem_map_of_mem hf
      rw [(Slice.shape_raw hfg).1 hors] at hshape
      exact hsingle ors' (by simpa using hshape)
    have hrawchunk : Expr.raw moreThanOne [] ∈ chunk := by
      obtain ⟨g, hg, hfg⟩ := exists_right_of_forall₂ hchunk hrawmem
      rwa [← (slice_of_not_isIn rfl).1 hfg] at hg
    obtain ⟨_, hcmem, c, hc, rfl⟩ := exists_right_of_forall₂ hchunk hlist
    refine ⟨fun ha => ?_, fun hb => (counting_selects hsingles hrawchunk hcmem hb).1⟩
    obtain ⟨hcount, hfirst⟩ := counting_selects hsingles hrawchunk hcmem ha
    refine ⟨hcount, Bool.eq_false_iff.2 fun hb => ?_⟩
    have hfar := mem_interval_slice hpos hc hfirst (counting_selects hsingles hrawchunk hcmem hb).2
    omega

theorem splitSound_of_deletesExactly (h : DeletesExactly limit soft hard shapes) :
    SplitSound limit (soft && !hard) shapes := by
  by_cases hzero : .isIn 0 ∈ shapes
  · exact .inl (h.nothingSelected hzero)
  have hapart {pre post : List Shape} {s : Shape} (heq : shapes = pre ++ s :: post) :
      .isIn 0 ∉ pre ++ post := by
    rw [heq] at hzero
    simp only [List.mem_append, List.mem_cons] at hzero ⊢
    tauto
  by_cases hmulti : ∀ ors, .raw ors ∈ shapes → ors = 0
  · refine .inr (.inr ⟨hmulti, ?_⟩)
    have hnot : ∀ n, .notIn n ∈ shapes → n ≤ Shape.share shapes (limit - (soft && !hard).toNat) := by
      intro n hn
      obtain ⟨pre, post, heq⟩ := List.append_of_mem hn
      have hz := hapart heq
      rw [List.mem_append, not_or] at hz
      rw [heq] at h ⊢
      exact h.notIn_le hz.1 hz.2
    by_cases hraw : ∃ ors, .raw ors ∈ shapes
    · refine .inl fun s hs => ?_
      obtain ⟨ors, hors⟩ := hraw
      match s with
      | .notIn n => exact hnot n hs
      | .isIn n =>
        obtain ⟨pre, post, heq⟩ := List.append_of_mem hs
        have hz := hapart heq
        rw [heq] at h hors hmulti ⊢
        refine DeletesExactly.isIn_le ors h hz ?_ fun ors' h' => hmulti ors' ?_
        · simpa using hors
        · simp only [List.mem_append, List.mem_cons] at h' ⊢
          tauto
      | .cmp _ | .null _ | .raw _ => exact Nat.zero_le _
    · exact .inr ⟨fun ors hors => hraw ⟨ors, hors⟩, hnot⟩
  · simp only [not_forall] at hmulti
    obtain ⟨ors, hors, hpos⟩ := hmulti
    obtain ⟨k, rfl⟩ := Nat.exists_eq_succ_of_ne_zero hpos
    obtain ⟨pre, post, heq⟩ := List.append_of_mem hors
    have hz := hapart heq
    rw [List.mem_append, not_or] at hz
    rw [heq] at h ⊢
    exact .inr (.inl (h.soleRaw hz.1 hz.2))

end Needed

/-- A split delete removes exactly the rows it should, whatever the columns, values and tables, if
and only if the shape of the filter list is sound. -/
theorem deletes_exactly_iff (limit : Nat) (soft hard : Bool) (shapes : List Shape) :
    DeletesExactly limit soft hard shapes ↔ SplitSound limit (soft && !hard) shapes :=
  ⟨splitSound_of_deletesExactly, deletesExactly_of_splitSound⟩

/-! ### A listed row deleted -/

/-- A thousand values at SQLite's limit of 999: the second statement only excludes the last one. -/
def notListed : FilteredQuery Int := ⟨[.in "b" (interval 1000) true], by simp⟩

theorem notListed_deletes :
    ((notListed.deleteWhere (integers constants) 999 ⟨none⟩ (fun _ => 1) [cells 999]).toOption.map
      fun result => (result.1, result.2.length)) = some (1, 0) := by
  decide +kernel

theorem notListed_not_satisfied :
    satisfies (integers constants) none notListed.filters [cells 999] (cells 999) = false := by
  decide +kernel

theorem listed_row_deleted :
    ¬ ∃ n table', notListed.deleteWhere (integers constants) 999 ⟨none⟩ (fun _ => 1) [cells 999] =
        .ok (n, table') ∧
      RemovesExactly none (fun _ => 1) (satisfies (integers constants) none notListed.filters [cells 999])
        [cells 999] table' := by
  rintro ⟨n, table', hdelete, time, hkept⟩
  have hgone := notListed_deletes
  rw [hdelete] at hgone
  have hnil : table' = [] := by
    simpa [Except.toOption] using congrArg (Option.map Prod.snd) hgone
  rw [hnil] at hkept
  simp [notListed_not_satisfied] at hkept

end Ecat.Orm
