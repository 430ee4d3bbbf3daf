import Ecat.OrmQuery

/-! Which reads keep soft deleted rows out. The gate stands in front of the filters and reaches as
far as the first OR of a raw one, and the rows of relations are selected without it. -/

namespace Ecat.Orm

/-- Neither the row nor one that a relation attached to it is deleted. -/
def Item.Live {V : Type} (E : Entity) (item : Item V) : Prop :=
  gateOpen E.softDelete item.values = true ∧
    ∀ r ∈ E.relations, ∀ row ∈ item.attached r.name, gateOpen r.target.softDelete row = true

def Read.targets {V : Type} {E : Entity} (read : Read V E) : List Bool :=
  read.query.relations.map fun name => (E.relation name).any fun r => r.target.softDelete.isSome

/-- Reads without `with_trashed` whose filters have these shapes and that load relations to these
targets return no deleted row, on any database. -/
def HidesTrashed (shapes : List Shape) (targets : List Bool) : Prop :=
  ∀ (V : Type) [DecidableEq V] (db : Database V) (E : Entity) (read : Read V E),
    E.softDelete.isSome → read.query.withTrashed = false →
      read.query.filters.map Expr.shape = shapes → read.targets = targets →
        ∀ items, read.run db = .ok items → ∀ item ∈ items, item.Live E

/-- Every part of the clause that an OR separates from the gate holds an empty `IN` list. -/
def GateHolds (shapes : List Shape) : Prop := Sql.readAnd ([false] :: shapes.map Shape.possible) = false

variable {V : Type}

/-! ### Rows -/

theorem operands_le_shape (sql : Sql V) (f : Expr V) (table : Table V) (row : Row V) :
    List.Forall₂ (· ≤ ·) (sql.operands table row (renderFilter f)) f.shape.possible :=
  operands_le_possible sql ((slice_self (Nat.succ_pos f.values.length) (Nat.le_succ _)).2 rfl) table row

theorem readAnd_of_selects {sql : Sql V} {sd : String} {filters : List (Expr V)} {table : Table V}
    {row : Row V} (h : sql.selects (whereConds (some sd) filters) table row = true) :
    Sql.readAnd ([(row sd).isNone] :: (filters.map Expr.shape).map Shape.possible) = true := by
  refine Sql.readAnd_mono ?_ h
  simp only [whereConds, Option.toList_some, List.map_cons, List.map_nil, List.singleton_append,
    List.map_map]
  refine .cons (by simp [Sql.operands]) ?_
  rw [List.forall₂_map_left_iff, List.forall₂_map_right_iff, List.forall₂_same]
  exact fun f _ => operands_le_shape sql f table row

variable {E : Entity} {db : Database V} {q : Query V E} {sd : String}

theorem selects_of_mem_chosen {row : Row V} (hsd : E.softDelete = some sd) (htrashed : q.withTrashed = false)
    (hrow : row ∈ db.chosen q) :
    Sql.readAnd ([(row sd).isNone] :: (q.filters.map Expr.shape).map Shape.possible) = true := by
  have hrender : renderWhere E.toEntityMeta q.filters q.withTrashed =
      some (whereConds (some sd) q.filters) := by
    simp [renderWhere, whereConds, hsd, htrashed, Option.filter]
  simp only [Database.chosen, hrender] at hrow
  exact readAnd_of_selects (List.mem_filter.1 hrow).2

theorem mem_chosen_of_select {rows : Table V} (h : db.select q = .ok rows) {row : Row V}
    (hrow : row ∈ rows) : row ∈ db.chosen q := by
  have hmem : row ∈ (db.arrange q.orders (db.chosen q)).drop (q.offset.getD 0) := by
    simp only [Database.select] at h
    split at h
    · cases h
    · split at h
      · cases h
      · cases h
        split at hrow
        · exact hrow
        · exact List.mem_of_mem_take hrow
  exact (db.arrange_perm _ _).mem_iff.1 (List.mem_of_mem_drop hmem)

theorem lookup_resultRow {columns : List String} {column : String} (h : column ∈ columns) (row : Row V) :
    (resultRow columns row).lookup column = some (row column) := by
  induction columns with
  | nil => simp at h
  | cons name columns ih =>
    rw [resultRow, List.map_cons, List.lookup_cons]
    by_cases hname : column = name
    · simp [hname]
    · rw [show (column == name) = false by simpa using hname]
      exact ih (List.mem_of_ne_of_mem hname h)

theorem readItem_ok {row : Row V} {item : Item V} (h : readItem db.vals E row = .ok item) :
    item.attached = (fun _ => []) ∧ ∀ column ∈ E.names, item.values column = row column := by
  obtain ⟨values, hvalues, hitem⟩ := bind_eq_ok.1 h
  cases hitem
  refine ⟨rfl, fun column hcolumn => ?_⟩
  unfold fromRow at hvalues
  split at hvalues
  · cases hvalues
  · cases hvalues
    simp [lookup_resultRow hcolumn row]

/-! ### Relations -/

section Relations

variable {items items' : List (Item V)} {name : String}

def Clean (E : Entity) (items : List (Item V)) : Prop :=
  ∀ item ∈ items, gateOpen E.softDelete item.values = true ∧
    ∀ r ∈ E.relations, r.target.softDelete.isSome = true → item.attached r.name = []

theorem Clean.live (h : Clean E items) : ∀ item ∈ items, item.Live E := by
  intro item hitem
  refine ⟨(h item hitem).1, fun r hr row hrow => ?_⟩
  cases hsoft : r.target.softDelete with
  | none => rfl
  | some sd =>
    rw [(h item hitem).2 r hr (by simp [hsoft])] at hrow
    cases hrow

theorem clean_of_select {rows : Table V} (hsd : E.softDelete = some sd)
    (hlive : ∀ row ∈ rows, row sd = none) (h : rows.mapM (readItem db.vals E) = .ok items) : Clean E items := by
  intro item hitem
  obtain ⟨row, hrow, hread⟩ := exists_of_mapM_ok h item hitem
  obtain ⟨hattached, hvalues⟩ := readItem_ok hread
  refine ⟨?_, fun r _ _ => by rw [hattached]⟩
  have hmem : sd ∈ E.names := E.softDelete_mem sd hsd
  simp [hsd, gateOpen, hvalues sd hmem, hlive row hrow]

variable [DecidableEq V]

theorem relation_name {r : RelationMeta} (h : E.relation name = some r) : r.name = name := by
  simpa using List.find?_some h

theorem relation_of_mem {r : RelationMeta} (hr : r ∈ E.relations) : E.relation r.name = some r := by
  unfold Entity.relation
  cases hfind : E.relations.find? fun r' => r'.name = r.name with
  | none => simpa using List.find?_eq_none.1 hfind r hr
  | some r' =>
    have hname : r'.name = r.name := by simpa using List.find?_some hfind
    rw [List.inj_on_of_nodup_map E.relations_nodup (List.mem_of_find?_eq_some hfind) hr hname]

theorem loadRelation_ok (h : loadRelation db E items name = .ok items') :
    ∀ item' ∈ items', ∃ item ∈ items, item'.values = item.values ∧
      ∀ other ≠ name, item'.attached other = item.attached other := by
  unfold loadRelation at h
  split at h
  · cases h
  next r hr =>
    dsimp only at h
    split at h
    · cases h
    · intro item' hitem'
      obtain ⟨item, hitem, hset⟩ := exists_of_mapM_ok h item' hitem'
      obtain ⟨rows, _, hrows⟩ := bind_eq_ok.1 hset
      cases hrows
      refine ⟨item, hitem, rfl, fun other hother => ?_⟩
      have hne : other ≠ r.name := relation_name hr ▸ hother
      simp [Function.update_of_ne hne]

theorem loadRelation_nil (h : loadRelation db E [] name = .ok items') : items' = [] := by
  rw [List.eq_nil_iff_forall_not_mem]
  intro item' hitem'
  obtain ⟨item, hitem, _⟩ := loadRelation_ok h item' hitem'
  cases hitem

theorem Clean.load (hclean : Clean E items) (h : loadRelation db E items name = .ok items')
    (hname : (E.relation name).any (fun r => r.target.softDelete.isSome) = false) : Clean E items' := by
  intro item' hitem'
  obtain ⟨item, hitem, hvalues, hattached⟩ := loadRelation_ok h item' hitem'
  obtain ⟨hgate, hempty⟩ := hclean item hitem
  refine ⟨hvalues ▸ hgate, fun r hr hsoft => ?_⟩
  have hne : r.name ≠ name := by
    rintro rfl
    rw [relation_of_mem hr, Option.any_some, hsoft] at hname
    cases hname
  rw [hattached r.name hne, hempty r hr hsoft]

theorem fetch_live (hsd : E.softDelete = some sd) (htrashed : q.withTrashed = false)
    (hgate : GateHolds (q.filters.map Expr.shape))
    (htargets : true ∈ (q.relations.map fun name =>
        (E.relation name).any fun r => r.target.softDelete.isSome) →
      NothingSelected (q.filters.map Expr.shape))
    (h : q.fetch db = .ok items) : ∀ item ∈ items, item.Live E := by
  obtain ⟨rows, hrows, h⟩ := bind_eq_ok.1 h
  obtain ⟨read, hread, h⟩ := bind_eq_ok.1 h
  have hchosen : ∀ row ∈ rows, Sql.readAnd ([(row sd).isNone] ::
      (q.filters.map Expr.shape).map Shape.possible) = true :=
    fun row hrow => selects_of_mem_chosen hsd htrashed (mem_chosen_of_select hrows hrow)
  by_cases hsoft : true ∈ (q.relations.map fun name =>
      (E.relation name).any fun r => r.target.softDelete.isSome)
  · have hnil : rows = [] := by
      rw [List.eq_nil_iff_forall_not_mem]
      intro row hrow
      have hnothing := htargets hsoft
      have hle : ∀ ops : List Bool, List.Forall₂ (· ≤ ·) ops ops :=
        fun ops => List.forall₂_same.2 fun b _ => le_refl b
      have hall := Sql.readAnd_mono (.cons (.cons (Bool.le_true _) .nil)
        (List.forall₂_same.2 fun ops _ => hle ops)) (hchosen row hrow)
      rw [Sql.readAnd_true_cons, hnothing] at hall
      cases hall
    subst hnil
    cases hread
    have hempty : items = [] := foldlM_ok_invariant (P := fun items => items = [])
      (fun items name _ items' hitems hload => loadRelation_nil (hitems ▸ hload)) rfl h
    simp [hempty]
  · have hlive : ∀ row ∈ rows, row sd = none := by
      intro row hrow
      have hsel := hchosen row hrow
      cases hcell : row sd with
      | none => rfl
      | some v =>
        rw [hcell, Option.isNone_some, hgate] at hsel
        cases hsel
    refine Clean.live (foldlM_ok_invariant (P := Clean E) ?_ (clean_of_select hsd hlive hread) h)
    intro items name hname items' hclean hload
    refine hclean.load hload ?_
    rw [Bool.eq_false_iff]
    exact fun htrue => hsoft (List.mem_map.2 ⟨name, hname, htrue⟩)

theorem hidesTrashed_of_gateHolds {shapes : List Shape} {targets : List Bool} (hgate : GateHolds shapes)
    (htargets : true ∈ targets → NothingSelected shapes) : HidesTrashed shapes targets := by
  rintro V _ db E read hsoft htrashed rfl rfl items hrun
  obtain ⟨sd, hsd⟩ := Option.isSome_iff_exists.1 hsoft
  have hlive : ∀ items', read.query.fetch db = .ok items' → ∀ item ∈ items', item.Live E :=
    fun items' h => fetch_live hsd htrashed hgate htargets h
  cases read with
  | fetch q => exact hlive items hrun
  | findAll => exact hlive items hrun
  | findById key =>
    obtain ⟨items', hfetch, hitems⟩ := bind_eq_ok.1 hrun
    cases hitems
    exact fun item hitem => hlive items' hfetch item (List.mem_of_mem_take hitem)
  | paginate q page perPage =>
    obtain ⟨result, hpage, hitems⟩ := bind_eq_ok.1 hrun
    obtain ⟨total, _, hpage⟩ := bind_eq_ok.1 hpage
    obtain ⟨items', hfetch, hpage⟩ := bind_eq_ok.1 hpage
    cases hpage
    cases hitems
    exact hlive items' hfetch
  | paginateWithoutCount q page perPage =>
    obtain ⟨result, hpage, hitems⟩ := bind_eq_ok.1 hrun
    obtain ⟨items', hfetch, hpage⟩ := bind_eq_ok.1 hpage
    cases hpage
    cases hitems
    exact hlive items' hfetch

end Relations

end Ecat.Orm
