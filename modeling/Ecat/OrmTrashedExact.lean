import Ecat.OrmTrashed

/-! The condition of `OrmTrashed` is also needed: on a table of one row, a read of any other form
returns the row though it is deleted, or attaches a deleted row to it. -/

namespace Ecat.Orm

/-! ### A shelf of one author -/

def tag : TableMeta where
  softDelete := none
  table := "tags"
  pk := "id"
  columns := [⟨"id", .i64, false, true, true⟩, ⟨"owner", .i64, false, false, false⟩]
  createdAt := none
  updatedAt := none
  version := none
  nodup := by decide
  key := by decide
  key_mem := by decide
  softDelete_mem := by decide

def post : TableMeta where
  softDelete := some "deleted_at"
  table := "posts"
  pk := "id"
  columns := [⟨"id", .i64, false, true, true⟩, ⟨"owner", .i64, false, false, false⟩,
    ⟨"deleted_at", .i64, true, false, false⟩]
  createdAt := none
  updatedAt := none
  version := none
  nodup := by decide
  key := by decide
  key_mem := by decide
  softDelete_mem := by decide

def author : Entity where
  softDelete := some "deleted_at"
  table := "authors"
  pk := "id"
  columns := [⟨"id", .i64, false, true, true⟩, ⟨"a", .i64, true, false, false⟩,
    ⟨"c", .i64, true, false, false⟩, ⟨"deleted_at", .i64, true, false, false⟩]
  createdAt := none
  updatedAt := none
  version := none
  nodup := by decide
  key := by decide
  key_mem := by decide
  softDelete_mem := by decide
  relations := [⟨"tags", .hasMany, tag, "owner", "id"⟩, ⟨"posts", .hasMany, post, "owner", "id"⟩]
  relations_nodup := by decide

def authorRow (deletedAt : Option Int) : Row Int := fun column =>
  if column = "id" then some 1
  else if column = "a" then some 0
  else if column = "deleted_at" then deletedAt
  else none

def postRow : Row Int := fun column =>
  if column = "id" then some 7
  else if column = "owner" then some 1
  else if column = "deleted_at" then some 3
  else none

def shelf (deletedAt : Option Int) : Database Int where
  sql := integers constants
  vals := intValues
  dialect := .sqlite
  rows table := if table = "authors" then [authorRow deletedAt] else if table = "posts" then [postRow] else []
  columns table := if table = "posts" then ["id", "owner", "deleted_at"] else ["id", "owner"]
  arrange _ table := table
  arrange_perm _ table := .refl table

def readBack (columns : List String) (row : Row Int) : Row Int := fun column =>
  ((resultRow columns row).lookup column).getD none

theorem loadRelation_eq {V : Type} [DecidableEq V] {db : Database V} {E : Entity} {name : String}
    {r : RelationMeta} {k : V} {item : Item V} (hr : E.relation name = some r)
    (hcolumn : r.joinSides.2 ∈ db.columns r.target.table)
    (hkey : subjectValue E r.joinSides.1 item = some k) :
    loadRelation db E [item] name = (do
      let item ← setRelation db E r ((db.rows r.target.table).filter fun row =>
        db.sql.inList row r.joinSides.2 [k] false) item
      return [item]) := by
  have hkeys : distinctKeys [subjectValue E r.joinSides.1 item] = [k] := by
    simp [distinctKeys, hkey]
  have hchunks : chunks (chunkSize db.dialect.maxParamsPerStmt 1) [k] = [[k]] := by
    have hpos : 1 ≤ chunkSize db.dialect.maxParamsPerStmt 1 := Nat.le_max_right _ _
    exact chunks_of_length_le hpos (by simp) hpos
  have hrelated : db.related r [k] = (db.rows r.target.table).filter fun row =>
      db.sql.inList row r.joinSides.2 [k] false := by
    simp [Database.related, hchunks]
  simp [loadRelation, hr, hcolumn, hkeys, hrelated]

theorem load_tags (deletedAt : Option Int) (attached : String → List (Row Int)) :
    loadRelation (shelf deletedAt) author [⟨readBack author.names (authorRow deletedAt), attached⟩] "tags" =
      .ok [⟨readBack author.names (authorRow deletedAt), Function.update attached "tags" []⟩] := by
  rw [loadRelation_eq (r := ⟨"tags", .hasMany, tag, "owner", "id"⟩) (k := 1) rfl
    (show "owner" ∈ ["id", "owner"] by decide) rfl]
  rfl

theorem load_posts (deletedAt : Option Int) (attached : String → List (Row Int)) :
    loadRelation (shelf deletedAt) author [⟨readBack author.names (authorRow deletedAt), attached⟩] "posts" =
      .ok [⟨readBack author.names (authorRow deletedAt),
        Function.update attached "posts" [readBack ["id", "owner", "deleted_at"] postRow]⟩] := by
  rw [loadRelation_eq (r := ⟨"posts", .hasMany, post, "owner", "id"⟩) (k := 1) rfl
    (show "owner" ∈ ["id", "owner", "deleted_at"] by decide) rfl]
  rfl

theorem read_author (deletedAt : Option Int) :
    readItem intValues author (authorRow deletedAt) =
      .ok ⟨readBack author.names (authorRow deletedAt), fun _ => []⟩ := by
  cases deletedAt <;> rfl

/-! ### Reads of a given form -/

def authorQuery (shapes : List Shape) (targets : List Bool) : Query Int author where
  filters := shapes.map (filler "1 = 1" true)
  orders := []
  joins := []
  limit := none
  offset := none
  withTrashed := false
  relations := targets.map fun soft => if soft then "posts" else "tags"
  filters_checked f hf column hcolumn := by
    obtain ⟨s, _, rfl⟩ := List.mem_map.1 hf
    have ha : "a" ∈ author.names := by decide
    have hc : "c" ∈ author.names := by decide
    cases s with
    | cmp op =>
      cases hcolumn
      exact ha
    | isIn n =>
      cases hcolumn
      exact ha
    | notIn n =>
      cases hcolumn
      exact ha
    | null negated =>
      cases hcolumn
      cases negated
      · exact hc
      · exact ha
    | raw ors => cases hcolumn
  orders_checked := by simp

variable {shapes : List Shape} {targets : List Bool} {deletedAt : Option Int}

theorem authorQuery_targets (shapes : List Shape) (targets : List Bool) :
    (Read.fetch (authorQuery shapes targets)).targets = targets := by
  have hone : ∀ soft : Bool, ((author.relation (if soft then "posts" else "tags")).any
      fun r => r.target.softDelete.isSome) = soft := by decide
  simp only [Read.targets, Read.query, authorQuery, List.map_map]
  conv_rhs => rw [← List.map_id targets]
  exact List.map_congr_left fun soft _ => hone soft

theorem filler_possible (deletedAt : Option Int) (table : Table Int) (s : Shape) :
    (integers constants).operands table (authorRow deletedAt) (renderFilter (filler "1 = 1" true s)) =
      s.possible :=
  filler_operands (Nat.succ_pos _) ⟨rfl, rfl⟩ rfl ((slice_self (Nat.succ_pos _) (Nat.le_succ _)).2 rfl)

theorem selects_author (shapes : List Shape) (deletedAt : Option Int) (table : Table Int) :
    (integers constants).selects (whereConds (some "deleted_at") (shapes.map (filler "1 = 1" true)))
      table (authorRow deletedAt) = Sql.readAnd ([deletedAt.isNone] :: shapes.map Shape.possible) := by
  have hgate : (integers constants).operands table (authorRow deletedAt) (.null "deleted_at" false) =
      [deletedAt.isNone] := by
    cases deletedAt <;> rfl
  simp [Sql.selects, whereConds, hgate, Function.comp_def, filler_possible]

theorem select_author (h : Sql.readAnd ([deletedAt.isNone] :: shapes.map Shape.possible) = true) :
    (shelf deletedAt).select (authorQuery shapes targets) = .ok [authorRow deletedAt] := by
  have hrender : renderWhere author.toEntityMeta (shapes.map (filler "1 = 1" true)) false =
      some (whereConds (some "deleted_at") (shapes.map (filler "1 = 1" true))) := rfl
  have hchosen : (shelf deletedAt).chosen (authorQuery shapes targets) = [authorRow deletedAt] := by
    change (match renderWhere author.toEntityMeta (shapes.map (filler "1 = 1" true)) false with
      | none => [authorRow deletedAt]
      | some conds => [authorRow deletedAt].filter ((integers constants).selects conds [authorRow deletedAt])) = _
    rw [hrender]
    simp only [List.filter_cons, selects_author, h, if_true, List.filter_nil]
  change Except.ok ((shelf deletedAt).chosen (authorQuery shapes targets)) = _
  rw [hchosen]

def loadedPost : Row Int := readBack ["id", "owner", "deleted_at"] postRow

def attachedAfter : List Bool → (String → List (Row Int)) → String → List (Row Int)
  | [], attached => attached
  | true :: targets, attached => attachedAfter targets (Function.update attached "posts" [loadedPost])
  | false :: targets, attached => attachedAfter targets (Function.update attached "tags" [])

theorem attachedAfter_posts (targets : List Bool) (attached : String → List (Row Int))
    (h : true ∈ targets ∨ attached "posts" = [loadedPost]) :
    attachedAfter targets attached "posts" = [loadedPost] := by
  induction targets generalizing attached with
  | nil => simpa [attachedAfter] using h
  | cons soft targets ih =>
    cases soft with
    | true => exact ih _ (.inr (by simp))
    | false => exact ih _ (by simpa using h)

theorem load_author (targets : List Bool) (deletedAt : Option Int) (attached : String → List (Row Int)) :
    (targets.map fun soft => if soft then "posts" else "tags").foldlM
        (loadRelation (shelf deletedAt) author)
        [⟨readBack author.names (authorRow deletedAt), attached⟩] =
      .ok [⟨readBack author.names (authorRow deletedAt), attachedAfter targets attached⟩] := by
  induction targets generalizing attached with
  | nil => rfl
  | cons soft targets ih =>
    rw [List.map_cons, List.foldlM_cons]
    cases soft with
    | true =>
      rw [if_pos rfl, load_posts, ok_bind, ih]
      rfl
    | false =>
      rw [if_neg Bool.false_ne_true, load_tags, ok_bind, ih]
      rfl

theorem fetch_author (h : Sql.readAnd ([deletedAt.isNone] :: shapes.map Shape.possible) = true) :
    (authorQuery shapes targets).fetch (shelf deletedAt) =
      .ok [⟨readBack author.names (authorRow deletedAt), attachedAfter targets fun _ => []⟩] := by
  have hread : [authorRow deletedAt].mapM (readItem (shelf deletedAt).vals author) =
      .ok [⟨readBack author.names (authorRow deletedAt), fun _ => []⟩] := by
    rw [List.mapM_cons, show readItem (shelf deletedAt).vals author (authorRow deletedAt) = _ from
      read_author deletedAt]
    rfl
  rw [Query.fetch, select_author h, ok_bind, hread, ok_bind]
  exact load_author targets deletedAt fun _ => []

/-! ### The condition is needed -/

theorem HidesTrashed.live (h : HidesTrashed shapes targets)
    (hsel : Sql.readAnd ([deletedAt.isNone] :: shapes.map Shape.possible) = true) :
    Item.Live author ⟨readBack author.names (authorRow deletedAt), attachedAfter targets fun _ => []⟩ := by
  have hshapes : (authorQuery shapes targets).filters.map Expr.shape = shapes :=
    filler_map_shape "1 = 1" true shapes
  exact h Int (shelf deletedAt) author (.fetch (authorQuery shapes targets)) rfl rfl hshapes
    (authorQuery_targets shapes targets) _ (fetch_author hsel) _ List.mem_cons_self

theorem HidesTrashed.gateHolds (h : HidesTrashed shapes targets) : GateHolds shapes := by
  rw [GateHolds, Bool.eq_false_iff]
  intro hsel
  have hlive : Item.Live author ⟨readBack author.names (authorRow (some 3)), attachedAfter targets fun _ => []⟩ :=
    h.live hsel
  have hgate : gateOpen author.softDelete (readBack author.names (authorRow (some 3))) = false := by decide
  rw [hlive.1] at hgate
  cases hgate

theorem not_live_of_posts (values : Row Int) (hsoft : true ∈ targets) :
    ¬ Item.Live author ⟨values, attachedAfter targets fun _ => []⟩ := by
  intro hlive
  have hposts : attachedAfter targets (fun _ => []) "posts" = [loadedPost] :=
    attachedAfter_posts targets _ (.inl hsoft)
  have hmem : loadedPost ∈ attachedAfter targets (fun _ => []) "posts" := hposts ▸ List.mem_cons_self
  have hgate := hlive.2 ⟨"posts", .hasMany, post, "owner", "id"⟩ (by simp [author]) loadedPost hmem
  exact absurd hgate (by decide)

theorem HidesTrashed.nothingSelected (h : HidesTrashed shapes targets) (hsoft : true ∈ targets) :
    NothingSelected shapes := by
  rw [NothingSelected, Bool.eq_false_iff]
  intro hsel
  rw [← Sql.readAnd_true_cons] at hsel
  have hlive : Item.Live author ⟨readBack author.names (authorRow none), attachedAfter targets fun _ => []⟩ :=
    h.live hsel
  exact not_live_of_posts _ hsoft hlive

theorem hides_trashed_iff (shapes : List Shape) (targets : List Bool) :
    HidesTrashed shapes targets ↔ GateHolds shapes ∧ (true ∈ targets → NothingSelected shapes) :=
  ⟨fun h => ⟨h.gateHolds, h.nothingSelected⟩, fun h => hidesTrashed_of_gateHolds h.1 h.2⟩

/-- Loading the posts of a live author attaches the deleted one. -/
theorem deleted_post_attached :
    ∃ items, (Read.fetch (authorQuery [] [true])).run (shelf none) = .ok items ∧
      ¬ ∀ item ∈ items, item.Live author := by
  refine ⟨_, fetch_author (by decide), fun h => ?_⟩
  exact not_live_of_posts _ (by simp) (h _ List.mem_cons_self)

end Ecat.Orm
