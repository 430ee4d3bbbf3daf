import Ecat.OrmSplit

/-! What a delete is for, stated on rows, and what its statements do. A WHERE clause
whose raw fragments hold no OR is the conjunction of its filters; with an OR it is not,
and the lemmas about `readAnd` say how far the two are apart. -/

namespace Ecat.Orm

variable {V : Type}

/-! ### The purpose -/

def Expr.holds (sql : Sql V) (table : Table V) (row : Row V) : Expr V → Bool
  | .cmp column op value => sql.compare row column op value == some true
  | .in column values negated => sql.inList row column values negated
  | .null column negated => (row column).isSome == negated
  | .raw operand alternatives => (operand :: alternatives).any fun text => sql.raw text table row

def gateOpen (soft : Option String) (row : Row V) : Bool := soft.all fun sd => (row sd).isNone

/-- The conjunction of the filters and the soft delete gate. -/
def satisfies (sql : Sql V) (soft : Option String) (filters : List (Expr V)) (table : Table V)
    (row : Row V) : Bool := gateOpen soft row && filters.all fun f => f.holds sql table row

def trash (soft : Option String) (value : V) (row : Row V) : Option (Row V) :=
  soft.map fun sd => Sql.setCell row sd value

/-- The chosen rows are removed, at one of the times `now` gives, and no other row is touched. -/
def RemovesExactly (soft : Option String) (now : Nat → V) (chosen : Row V → Bool)
    (table table' : Table V) : Prop :=
  ∃ time : Row V → Nat, table' = table.filterMap fun row =>
    if chosen row then trash soft (now (time row)) row else some row

theorem RemovesExactly.congr {soft : Option String} {now : Nat → V} {p q : Row V → Bool}
    {table table' : Table V} (h : RemovesExactly soft now p table table') (hpq : ∀ row, p row = q row) :
    RemovesExactly soft now q table table' := by
  rwa [← funext hpq]

/-! ### Reading a clause -/

namespace Sql

theorem setCell_setCell (row : Row V) (column : String) (v w : V) :
    setCell (setCell row column v) column w = setCell row column w := by
  funext c
  by_cases h : c = column <;> simp [setCell, h]

@[simp] theorem joinAnd_true : ∀ xs : List Bool, joinAnd xs [true] = if xs = [] then [true] else xs
  | [] => rfl
  | [x] => by simp [joinAnd]
  | x :: y :: xs => by simp [joinAnd, joinAnd_true (y :: xs)]

theorem joinAnd_ne_nil {ds : List Bool} (hds : ds ≠ []) : ∀ xs, joinAnd xs ds ≠ []
  | [] => hds
  | [x] => by cases ds <;> simp [joinAnd]
  | x :: y :: xs => by simp [joinAnd]

theorem foldr_joinAnd_ne_nil (conds : List (List Bool)) : conds.foldr joinAnd [true] ≠ [] := by
  induction conds with
  | nil => simp
  | cons ops conds ih => exact joinAnd_ne_nil ih ops

theorem true_joinAnd {ds : List Bool} (hds : ds ≠ []) : joinAnd [true] ds = ds := by
  cases ds with
  | nil => exact absurd rfl hds
  | cons d ds => simp [joinAnd]

theorem foldr_joinAnd_trues (conds : List (List Bool)) (h : ∀ ops ∈ conds, ops = [true])
    {ds : List Bool} (hds : ds ≠ []) : conds.foldr joinAnd ds = ds := by
  induction conds with
  | nil => rfl
  | cons ops conds ih =>
    obtain ⟨rfl, htail⟩ := List.forall_mem_cons.1 h
    rw [List.foldr_cons, ih htail, true_joinAnd hds]

theorem readAnd_singletons (bs : List Bool) : readAnd (bs.map fun b => [b]) = bs.all id := by
  have h : (bs.map fun b => [b]).foldr joinAnd [true] = [bs.all id] := by
    induction bs with
    | nil => rfl
    | cons b bs ih => simp [joinAnd, ih]
  simp [readAnd, h]

theorem readAnd_sole {pre post : List (List Bool)} {ops : List Bool} (hops : ops ≠ [])
    (hpre : ∀ c ∈ pre, c = [true]) (hpost : ∀ c ∈ post, c = [true]) :
    readAnd (pre ++ ops :: post) = ops.any id := by
  rw [readAnd, List.foldr_append, List.foldr_cons, foldr_joinAnd_trues post hpost (by simp),
    joinAnd_true, if_neg hops, foldr_joinAnd_trues pre hpre hops]

theorem and_le_and : ∀ {x x' d d' : Bool}, x ≤ x' → d ≤ d' → (x && d) ≤ (x' && d') := by decide

theorem joinAnd_mono : ∀ {xs xs' ds ds' : List Bool}, List.Forall₂ (· ≤ ·) xs xs' →
    List.Forall₂ (· ≤ ·) ds ds' → List.Forall₂ (· ≤ ·) (joinAnd xs ds) (joinAnd xs' ds')
  | _, _, _, _, .nil, hds => hds
  | _, _, _, _, .cons hx .nil, .nil => .cons hx .nil
  | _, _, _, _, .cons hx .nil, .cons hd hds => .cons (and_le_and hx hd) hds
  | _, _, _, _, .cons hx (.cons hy hxs), hds => .cons hx (joinAnd_mono (.cons hy hxs) hds)

theorem readAnd_mono {conds conds' : List (List Bool)}
    (h : List.Forall₂ (List.Forall₂ (· ≤ ·)) conds conds') :
    readAnd conds = true → readAnd conds' = true := by
  have hfold : List.Forall₂ (· ≤ ·) (conds.foldr joinAnd [true]) (conds'.foldr joinAnd [true]) := by
    induction h with
    | nil => simp
    | cons hx _ ih => exact joinAnd_mono hx ih
  rw [readAnd, readAnd, List.any_eq_true, List.any_eq_true]
  rintro ⟨d, hd, hdt⟩
  obtain ⟨d', hd', hle⟩ := exists_right_of_forall₂ hfold hd
  exact ⟨d', hd', hle hdt⟩

theorem joinAnd_all : ∀ {xs ds : List Bool}, (∀ b ∈ xs, b = true) → (∀ d ∈ ds, d = true) →
    ∀ e ∈ joinAnd xs ds, e = true
  | [], _, _, hds => hds
  | [_], [], hxs, _ => hxs
  | [x], d :: ds, hxs, hds => by simpa [joinAnd, hxs x (by simp)] using hds
  | x :: y :: xs, ds, hxs, hds => by
    refine List.forall_mem_cons.2 ⟨hxs x (by simp), joinAnd_all (fun b hb => hxs b ?_) hds⟩
    exact List.mem_cons_of_mem x hb

theorem readAnd_of_all {conds : List (List Bool)} (h : ∀ ops ∈ conds, ∀ b ∈ ops, b = true) :
    readAnd conds = true := by
  have hall : ∀ d ∈ conds.foldr joinAnd [true], d = true := by
    induction conds with
    | nil => simp
    | cons ops conds ih =>
      obtain ⟨hops, hconds⟩ := List.forall_mem_cons.1 h
      exact joinAnd_all hops (ih hconds)
  obtain ⟨d, hd⟩ := List.exists_mem_of_ne_nil _ (foldr_joinAnd_ne_nil conds)
  exact List.any_eq_true.2 ⟨d, hd, hall d hd⟩

theorem true_mem_tail_joinAnd : ∀ (xs : List Bool) {ds : List Bool}, true ∈ ds.tail →
    true ∈ (joinAnd xs ds).tail
  | [], _, h => h
  | [_], [], h => by simp at h
  | [_], _ :: _, h => h
  | x :: y :: xs, ds, h => List.mem_of_mem_tail (true_mem_tail_joinAnd (y :: xs) h)

theorem readAnd_of_back (pre : List (List Bool)) {post : List (List Bool)} {x y : Bool} {ops : List Bool}
    (hops : ∀ b ∈ y :: ops, b = true) (hpost : ∀ c ∈ post, ∀ b ∈ c, b = true) :
    readAnd (pre ++ (x :: y :: ops) :: post) = true := by
  have htail : true ∈ ((pre ++ (x :: y :: ops) :: post).foldr joinAnd [true]).tail := by
    induction pre with
    | nil =>
      have hrest := readAnd_of_all (List.forall_mem_cons.2 ⟨hops, hpost⟩)
      simpa [readAnd, joinAnd] using hrest
    | cons c pre ih => exact true_mem_tail_joinAnd c ih
  exact List.any_eq_true.2 ⟨true, List.mem_of_mem_tail htail, rfl⟩

theorem head_joinAnd : ∀ {xs ds : List Bool}, (∀ b ∈ xs, b = true) → ds.head? = some true →
    (joinAnd xs ds).head? = some true
  | [], _, _, h => h
  | [_], [], _, h => by simp at h
  | [x], d :: ds, hxs, h => by simpa [joinAnd, hxs x (by simp)] using h
  | x :: y :: xs, ds, hxs, _ => by simp [joinAnd, hxs x (by simp)]

theorem readAnd_of_front {pre : List (List Bool)} (post : List (List Bool)) {y : Bool} {ops : List Bool}
    (hpre : ∀ c ∈ pre, ∀ b ∈ c, b = true) : readAnd (pre ++ (true :: y :: ops) :: post) = true := by
  have hhead : ((pre ++ (true :: y :: ops) :: post).foldr joinAnd [true]).head? = some true := by
    induction pre with
    | nil => simp [joinAnd]
    | cons c pre ih =>
      obtain ⟨hc, hpre⟩ := List.forall_mem_cons.1 hpre
      exact head_joinAnd hc (ih hpre)
  exact List.any_eq_true.2 ⟨true, List.mem_of_mem_head? hhead, rfl⟩

theorem readAnd_true_cons (conds : List (List Bool)) : readAnd ([true] :: conds) = readAnd conds := by
  rw [readAnd, List.foldr_cons, true_joinAnd (foldr_joinAnd_ne_nil conds), readAnd]

end Sql

/-! ### The statements -/

def whereConds (soft : Option String) (filters : List (Expr V)) : List (Cond V) :=
  soft.toList.map (fun sd => Cond.null sd false) ++ filters.map renderFilter

def Expr.Single : Expr V → Prop
  | .raw _ alternatives => alternatives = []
  | _ => True

theorem operands_renderFilter (sql : Sql V) (table : Table V) (row : Row V) {f : Expr V}
    (hf : f.Single) : sql.operands table row (renderFilter f) = [f.holds sql table row] := by
  cases f with
  | cmp => rfl
  | null => rfl
  | raw operand alternatives =>
    cases (show alternatives = [] from hf)
    simp [renderFilter, Sql.operands, Expr.holds]
  | «in» column values negated =>
    cases values <;> cases negated <;> simp [renderFilter, Sql.operands, Expr.holds, Sql.inList]

theorem selects_whereConds (sql : Sql V) (soft : Option String) {filters : List (Expr V)}
    (table : Table V) (row : Row V) (hf : ∀ f ∈ filters, f.Single) :
    sql.selects (whereConds soft filters) table row = satisfies sql soft filters table row := by
  have hfilters : (filters.map renderFilter).map (sql.operands table row) =
      (filters.map fun f => f.holds sql table row).map fun b => [b] := by
    simp only [List.map_map]
    exact List.map_congr_left fun f hmem => operands_renderFilter sql table row (hf f hmem)
  have hgate : (soft.toList.map fun sd => Cond.null (V := V) sd false).map (sql.operands table row) =
      (soft.toList.map fun sd => (row sd).isNone).map fun b => [b] := by
    cases soft <;> simp [Sql.operands]
  rw [Sql.selects, whereConds, List.map_append, hfilters, hgate, ← List.map_append,
    Sql.readAnd_singletons]
  cases soft <;> simp [satisfies, gateOpen]

def runChunks (sql : Sql V) (soft : Option String) (now : Nat → V) :
    Nat → List (List (Expr V)) → Table V → Table V
  | _, [], table => table
  | k, chunk :: rest, table =>
    runChunks sql soft now (k + 1) rest <| table.filterMap fun row =>
      if sql.selects (whereConds soft chunk) table row then trash soft (now k) row else some row

theorem exec_eq (sql : Sql V) (soft : Option String) (conds : List (Cond V)) (value : V)
    (table : Table V) :
    (sql.exec table (match soft with
      | some sd => .update sd value conds
      | none => .delete conds)).2 =
      table.filterMap fun row =>
        if sql.selects conds table row then trash soft value row else some row := by
  cases soft with
  | none =>
    change (table.filter fun row => !sql.selects conds table row) = _
    rw [← List.filterMap_eq_filter]
    refine List.filterMap_congr fun row _ => ?_
    cases h : sql.selects conds table row <;> simp [trash, h]
  | some sd =>
    change (table.map fun row =>
      if sql.selects conds table row then Sql.setCell row sd value else row) = _
    rw [← List.filterMap_eq_map]
    refine List.filterMap_congr fun row _ => ?_
    cases h : sql.selects conds table row <;> simp [trash, h]

theorem deleteChunks_eq (sql : Sql V) (entity : EntityMeta) (hard : Bool) (now : Nat → V)
    {chunks : List (List (Expr V))} (hne : ∀ chunk ∈ chunks, chunk ≠ []) (k total : Nat)
    (table : Table V) :
    ∃ n, deleteChunks sql entity (entity.softDelete.filter fun _ => !hard) hard now k chunks total table =
      .ok (n, runChunks sql (entity.softDelete.filter fun _ => !hard) now k chunks table) := by
  induction chunks generalizing k total table with
  | nil => exact ⟨total, rfl⟩
  | cons chunk rest ih =>
    obtain ⟨hchunk, hrest⟩ := List.forall_mem_cons.1 hne
    have hrender : renderWhere entity chunk hard =
        some (whereConds (entity.softDelete.filter fun _ => !hard) chunk) := by
      simp [renderWhere, whereConds, hchunk]
    rw [deleteChunks, hrender, runChunks, ← exec_eq]
    exact ih hrest _ _ _

theorem splitInFilters_ne_nil {filters : List (Expr V)} (hne : filters ≠ []) (budget : Nat) :
    ∀ chunk ∈ splitInFilters filters budget, chunk ≠ [] := by
  rintro chunk hchunk rfl
  exact hne (by simpa using (mem_splitInFilters budget []).1 hchunk)

theorem FilteredQuery.delete_eq (q : FilteredQuery V) (hard : Bool) (sql : Sql V) (limit : Nat)
    (entity : EntityMeta) (now : Nat → V) (table : Table V) :
    ∃ n, q.delete hard sql limit entity now table =
      .ok (n, runChunks sql (entity.softDelete.filter fun _ => !hard) now 0
        (splitInFilters q.filters
          (limit - (entity.softDelete.filter fun _ => !hard).isSome.toNat)) table) := by
  have hdelete : q.delete hard sql limit entity now table =
      Orm.deleteWhere sql limit entity q.filters hard now table := by
    cases hard <;> rfl
  rw [hdelete]
  exact deleteChunks_eq sql entity hard now (splitInFilters_ne_nil q.filtered _) 0 0 table

theorem runChunks_removes (sql : Sql V) (soft : Option String) (now : Nat → V)
    {chunks : List (List (Expr V))} (chosen : List (Expr V) → Row V → Bool)
    (hsel : ∀ chunk ∈ chunks, ∀ table row,
      sql.selects (whereConds soft chunk) table row = chosen chunk row) (k : Nat) (table : Table V) :
    RemovesExactly soft now (fun row => chunks.any (chosen · row)) table
      (runChunks sql soft now k chunks table) := by
  induction chunks generalizing k table with
  | nil => exact ⟨fun _ => 0, by simp [runChunks]⟩
  | cons chunk rest ih =>
    obtain ⟨hchunk, hrest⟩ := List.forall_mem_cons.1 hsel
    obtain ⟨time, htime⟩ := ih hrest (k + 1) (table.filterMap fun row =>
      if sql.selects (whereConds soft chunk) table row then trash soft (now k) row else some row)
    rw [runChunks, htime, List.filterMap_filterMap]
    refine ⟨fun row => if chosen chunk row then
      soft.elim k fun sd =>
        if rest.any (chosen · (Sql.setCell row sd (now k))) then time (Sql.setCell row sd (now k)) else k
      else time row, List.filterMap_congr fun row _ => ?_⟩
    rw [hchunk]
    cases hc : chosen chunk row with
    | false => simp [hc]
    | true =>
      cases soft with
      | none => simp [hc, trash]
      | some sd =>
        simp only [hc, trash, Option.map_some, Option.bind_some, List.any_cons, Bool.true_or, if_true,
          Option.elim_some]
        split <;> simp [Sql.setCell_setCell]

end Ecat.Orm
