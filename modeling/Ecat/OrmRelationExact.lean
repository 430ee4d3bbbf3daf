import Ecat.OrmRelation

/-! Loading a relation for many subjects at once hands each of them the rows of a query of its own if
the rows that such a query returns have the very key that was asked for, and only then. -/

namespace Ecat.Orm

variable {V : Type}

/-! ### One query for each subject -/

/-- What a query for this subject alone returns, of which a single-valued relation holds the first row. -/
def alone (db : Database V) (E : Entity) (r : RelationMeta) (item : Item V) : Table V :=
  r.cut (match subjectValue E r.joinSides.1 item with
    | none => []
    | some k => db.matched r [k])

/-- The rows that the queries return have the very keys that were asked for. -/
def SameKeys (db : Database V) (E : Entity) (r : RelationMeta) (items : List (Item V)) : Prop :=
  ∀ item ∈ items, ∀ row ∈ alone db E r item,
    r.joinSides.2 ∈ db.columns r.target.table ∧ row r.joinSides.2 = subjectValue E r.joinSides.1 item

def Database.answers (db : Database V) (k : V) (slice : List V) : Bool :=
  slice.any fun v => db.sql.cmp .eq k v == some true

variable {db : Database V} {E : Entity} {r : RelationMeta} {items : List (Item V)} {limit : Nat}

theorem mem_of_mem_cut {rows : Table V} {row : Row V} (h : row ∈ r.cut rows) : row ∈ rows := by
  rw [RelationMeta.cut] at h
  split at h
  · exact List.mem_of_mem_take h
  · exact h

theorem cut_eq_nil {rows : Table V} : r.cut rows = [] ↔ rows = [] := by
  rw [RelationMeta.cut]
  split
  · simp
  · rfl

theorem alone_none {item : Item V} (hkey : subjectValue E r.joinSides.1 item = none) :
    alone db E r item = [] := by
  rw [alone, hkey]
  exact cut_eq_nil.2 rfl

theorem alone_some {item : Item V} {k : V} (hkey : subjectValue E r.joinSides.1 item = some k) :
    alone db E r item = r.cut (db.matched r [k]) := by
  rw [alone, hkey]

theorem mem_matched {slice : List V} {row : Row V} :
    row ∈ db.matched r slice ↔ row ∈ db.rows r.target.table ∧
      ∃ k, row r.joinSides.2 = some k ∧ db.answers k slice = true := by
  rw [Database.matched, List.mem_filter, Sql.inList]
  cases hcell : row r.joinSides.2 with
  | none => simp [Sql.compare, hcell]
  | some k => simp [Sql.compare, hcell, Database.answers]

theorem answers_of_mem (hrefl : ∀ v, db.sql.cmp .eq v v = some true) {slice : List V} {k : V} (hk : k ∈ slice) : db.answers k slice = true :=
  List.any_eq_true.2 ⟨k, hk, by simp [hrefl k]⟩

/-! ### Lists -/

theorem countP_mem_of_nodup_flatten {α : Type} [DecidableEq α] {slices : List (List α)} {k : α}
    (hnodup : slices.flatten.Nodup) (hk : k ∈ slices.flatten) : slices.countP (fun slice => k ∈ slice) = 1 := by
  induction slices with
  | nil => cases hk
  | cons slice slices ih =>
    rw [List.flatten_cons, List.nodup_append'] at hnodup
    obtain ⟨_, hrest, hdisjoint⟩ := hnodup
    rw [List.countP_cons]
    by_cases hslice : k ∈ slice
    · have hnone : slices.countP (fun slice => k ∈ slice) = 0 := by
        rw [List.countP_eq_zero]
        intro later hlater hmem
        exact hdisjoint hslice (List.mem_flatten_of_mem hlater (of_decide_eq_true hmem))
      simp [hnone, hslice]
    · have hlater : k ∈ slices.flatten := by
        rw [List.flatten_cons, List.mem_append] at hk
        exact hk.resolve_left hslice
      simp [ih hrest hlater, hslice]

theorem take_flatten_replicate {α : Type} {n : Nat} (hn : 0 < n) (l : List α) :
    (List.replicate n l).flatten.take 1 = l.take 1 := by
  cases l with
  | nil => simp
  | cons a l =>
    obtain ⟨m, rfl⟩ := Nat.exists_eq_succ_of_ne_zero hn.ne'
    simp [List.replicate_succ]

theorem take_filter {α : Type} {p : α → Bool} {l : List α} (h : ∀ a ∈ l.take 1, p a = true) :
    (l.filter p).take 1 = l.take 1 := by
  cases l with
  | nil => rfl
  | cons a l => simp [h a (by simp)]

section Keys

variable [DecidableEq V]

/-! ### The rows of a key -/

def Database.keyRows (db : Database V) (r : RelationMeta) (k : V) : Table V :=
  (db.rows r.target.table).filter fun row => row r.joinSides.2 = some k

/-- A query returns all rows of a key or none of them. -/
theorem filter_matched (slice : List V) (k : V) :
    (db.matched r slice).filter (fun row => row r.joinSides.2 = some k) =
      if db.answers k slice then db.keyRows r k else [] := by
  rw [Database.matched, List.filter_filter, Database.keyRows]
  by_cases h : db.answers k slice = true
  · rw [if_pos h]
    apply List.filter_congr
    intro row _
    by_cases hcell : row r.joinSides.2 = some k
    · simpa [hcell, Sql.inList, Sql.compare, Database.answers] using h
    · simp [hcell]
  · rw [if_neg h, List.filter_eq_nil_iff]
    intro row _
    by_cases hcell : row r.joinSides.2 = some k
    · simpa [hcell, Sql.inList, Sql.compare, Database.answers] using h
    · simp [hcell]

theorem filter_found (slices : List (List V)) (k : V) :
    (db.found r slices).filter (fun row => row r.joinSides.2 = some k) =
      (List.replicate (slices.countP (db.answers k)) (db.keyRows r k)).flatten := by
  induction slices with
  | nil => rfl
  | cons slice slices ih =>
    rw [found_cons, List.filter_append, filter_matched, ih, List.countP_cons]
    by_cases h : db.answers k slice = true
    · rw [if_pos h, if_pos h, List.replicate_succ, List.flatten_cons]
    · rw [if_neg h, if_neg h, List.nil_append, Nat.add_zero]

theorem filter_found_none (slices : List (List V)) {key : Option V} (hkey : key = none) :
    (db.found r slices).filter (fun row => row r.joinSides.2 = key) = [] := by
  rw [List.filter_eq_nil_iff]
  intro row hrow
  obtain ⟨slice, _, hmatched⟩ := List.mem_flatMap.1 hrow
  obtain ⟨_, k, hcell, _⟩ := mem_matched.1 hmatched
  simp [hkey, hcell]

/-! ### The keys of the subjects -/

theorem key_mem_slices {item : Item V} {k : V} (hitem : item ∈ items)
    (hkey : subjectValue E r.joinSides.1 item = some k) : k ∈ (relationSlices E r limit items).flatten := by
  rw [flatten_relationSlices, mem_distinctKeys, ← hkey]
  exact List.mem_map_of_mem hitem

theorem exists_item_of_key {slice : List V} {k : V} (hslice : slice ∈ relationSlices E r limit items)
    (hk : k ∈ slice) : ∃ item ∈ items, subjectValue E r.joinSides.1 item = some k := by
  have hflat : k ∈ (relationSlices E r limit items).flatten := List.mem_flatten_of_mem hslice hk
  rw [flatten_relationSlices, mem_distinctKeys] at hflat
  exact List.mem_map.1 hflat

/-- Some subject's own query returns the row that a batch does. -/
theorem exists_item_of_found {row : Row V} (h : row ∈ db.found r (relationSlices E r limit items)) :
    ∃ item ∈ items, ∃ k, subjectValue E r.joinSides.1 item = some k ∧ row ∈ db.matched r [k] := by
  obtain ⟨slice, hslice, hmatched⟩ := List.mem_flatMap.1 h
  obtain ⟨hrow, cell, hcell, hanswers⟩ := mem_matched.1 hmatched
  obtain ⟨k, hk, hcmp⟩ := List.any_eq_true.1 hanswers
  obtain ⟨item, hitem, hkey⟩ := exists_item_of_key hslice hk
  refine ⟨item, hitem, k, hkey, mem_matched.2 ⟨hrow, cell, hcell, ?_⟩⟩
  simpa [Database.answers] using hcmp

theorem found_of_alone {item : Item V} {row : Row V} (hitem : item ∈ items) (h : row ∈ alone db E r item) :
    row ∈ db.found r (relationSlices E r limit items) := by
  cases hkey : subjectValue E r.joinSides.1 item with
  | none =>
    rw [alone_none hkey] at h
    cases h
  | some k =>
    rw [alone_some hkey] at h
    obtain ⟨hrow, cell, hcell, hanswers⟩ := mem_matched.1 (mem_of_mem_cut h)
    have hflat : k ∈ (relationSlices E r limit items).flatten := key_mem_slices hitem hkey
    obtain ⟨slice, hslice, hk⟩ := List.mem_flatten.1 hflat
    refine List.mem_flatMap.2 ⟨slice, hslice, mem_matched.2 ⟨hrow, cell, hcell, ?_⟩⟩
    exact List.any_eq_true.2 ⟨k, hk, by simpa [Database.answers] using hanswers⟩

/-! ### Loading -/

theorem filter_matched_self (hrefl : ∀ v, db.sql.cmp .eq v v = some true) (k : V) :
    (db.matched r [k]).filter (fun row => row r.joinSides.2 = some k) = db.keyRows r k := by
  rw [filter_matched, if_pos (answers_of_mem hrefl (List.mem_singleton_self k))]

/-- Under distinct slices only that of the key answers for its rows. -/
theorem countP_answers (hrefl : ∀ v, db.sql.cmp .eq v v = some true) (hsame : SameKeys db E r items)
    (hmulti : r.isSingleValued = false) {item : Item V} {k : V} (hitem : item ∈ items)
    (hkey : subjectValue E r.joinSides.1 item = some k) (hrows : db.keyRows r k ≠ []) :
    (relationSlices E r limit items).countP (db.answers k) = 1 := by
  obtain ⟨row, hrow⟩ := List.exists_mem_of_ne_nil _ hrows
  obtain ⟨hmem, hcell⟩ := List.mem_filter.1 hrow
  have hcell : row r.joinSides.2 = some k := of_decide_eq_true hcell
  have hanswers : ∀ slice ∈ relationSlices E r limit items, db.answers k slice = true ↔ decide (k ∈ slice) = true := by
    intro slice hslice
    rw [decide_eq_true_iff]
    refine ⟨fun h => ?_, answers_of_mem hrefl⟩
    obtain ⟨v, hv, hcmp⟩ := List.any_eq_true.1 h
    obtain ⟨other, hother, hotherKey⟩ := exists_item_of_key hslice hv
    have hmatched : row ∈ db.matched r [v] :=
      mem_matched.2 ⟨hmem, k, hcell, by simpa [Database.answers] using hcmp⟩
    have halone : row ∈ alone db E r other := by
      rw [alone_some hotherKey, RelationMeta.cut, hmulti]
      exact hmatched
    have heq : some k = some v := by
      rw [← hcell, (hsame other hother row halone).2, hotherKey]
    rwa [Option.some.inj heq]
  rw [List.countP_congr hanswers]
  refine countP_mem_of_nodup_flatten ?_ (key_mem_slices hitem hkey)
  rw [flatten_relationSlices]
  exact nodup_distinctKeys _

theorem cut_found_eq_alone (hrefl : ∀ v, db.sql.cmp .eq v v = some true) (hsame : SameKeys db E r items) {item : Item V}
    (hitem : item ∈ items) :
    r.cut ((db.found r (relationSlices E r limit items)).filter fun row =>
      row r.joinSides.2 = subjectValue E r.joinSides.1 item) = alone db E r item := by
  cases hkey : subjectValue E r.joinSides.1 item with
  | none => rw [filter_found_none _ rfl, alone_none hkey, cut_eq_nil]
  | some k =>
    have hcells : ∀ row ∈ r.cut (db.matched r [k]), decide (row r.joinSides.2 = some k) = true := by
      intro row hrow
      rw [decide_eq_true_iff, ← hkey]
      exact (hsame item hitem row (by rwa [alone_some hkey])).2
    rw [alone_some hkey, filter_found]
    cases hsingle : r.isSingleValued with
    | true =>
      simp only [RelationMeta.cut, hsingle, if_true] at hcells ⊢
      have hflat : k ∈ (relationSlices E r limit items).flatten := key_mem_slices hitem hkey
      obtain ⟨slice, hslice, hk⟩ := List.mem_flatten.1 hflat
      have hpos : 0 < (relationSlices E r limit items).countP (db.answers k) :=
        List.countP_pos_iff.2 ⟨slice, hslice, answers_of_mem hrefl hk⟩
      rw [take_flatten_replicate hpos, ← filter_matched_self hrefl, take_filter hcells]
    | false =>
      simp only [RelationMeta.cut, hsingle] at hcells ⊢
      have hrows : db.keyRows r k = db.matched r [k] := by
        rw [← filter_matched_self hrefl]
        exact List.filter_eq_self.2 hcells
      by_cases hnil : db.keyRows r k = []
      · simp [← hrows, hnil]
      · rw [countP_answers hrefl hsame hsingle hitem hkey hnil]
        simp [hrows]

theorem relationWrites_of_sameKeys (hrefl : ∀ v, db.sql.cmp .eq v v = some true) (hsame : SameKeys db E r items) :
    relationWrites db limit E r items = .ok (items.map (alone db E r)) := by
  have hcolumn : ¬ (db.found r (relationSlices E r limit items) ≠ [] ∧
      r.joinSides.2 ∉ db.columns r.target.table) := by
    rintro ⟨hfound, hmissing⟩
    obtain ⟨row, hrow⟩ := List.exists_mem_of_ne_nil _ hfound
    obtain ⟨item, hitem, k, hkey, hmatched⟩ := exists_item_of_found hrow
    have hne : alone db E r item ≠ [] := by
      rw [alone_some hkey, Ne, cut_eq_nil]
      exact List.ne_nil_of_mem hmatched
    obtain ⟨first, hfirst⟩ := List.exists_mem_of_ne_nil _ hne
    exact hmissing (hsame item hitem first hfirst).1
  rw [relationWrites_eq, if_neg hcolumn]
  congr 1
  apply List.map_congr_left
  intro item hitem
  exact cut_found_eq_alone hrefl hsame hitem

theorem sameKeys_of_relationWrites (h : relationWrites db limit E r items = .ok (items.map (alone db E r))) :
    SameKeys db E r items := by
  rw [relationWrites_eq] at h
  split at h
  · cases h
  · rename_i hcolumn
    have hrows := List.map_inj_left.1 (Except.ok.inj h)
    intro item hitem row hrow
    have hfound : row ∈ db.found r (relationSlices E r limit items) := found_of_alone hitem hrow
    refine ⟨?_, ?_⟩
    · by_contra hmissing
      exact hcolumn ⟨List.ne_nil_of_mem hfound, hmissing⟩
    · rw [← hrows item hitem] at hrow
      exact of_decide_eq_true (List.mem_filter.1 (mem_of_mem_cut hrow)).2

/-- A batch hands every subject the rows of a query of its own if and only if those rows have the very
key that was asked for, and then the subjects are loaded as if one by one. -/
theorem relation_loads_as_separate_queries_iff (db : Database V) (limit : Nat) (E : Entity) (r : RelationMeta)
    (items : List (Item V)) (hrefl : ∀ v, db.sql.cmp .eq v v = some true) :
    (relationWrites db limit E r items = .ok (items.map (alone db E r)) ↔ SameKeys db E r items) ∧
    (SameKeys db E r items → ∀ name, E.relation name = some r →
      loadRelationBy db limit E items name = items.mapM fun item => attach db r (alone db E r item) item) := by
  refine ⟨⟨sameKeys_of_relationWrites, relationWrites_of_sameKeys hrefl⟩, ?_⟩
  intro hsame name hname
  rw [loadRelationBy, hname]
  dsimp only
  rw [relationWrites_of_sameKeys hrefl hsame, ok_bind, mapM_zip_map]

end Keys

/-! ### Users and their comments -/

def comment : TableMeta where
  softDelete := none
  table := "rb_comments"
  pk := "id"
  columns := [⟨"id", .i64, false, true, false⟩, ⟨"post_id", .text, false, false, false⟩]
  createdAt := none
  updatedAt := none
  version := none
  nodup := by decide
  key := by decide
  key_mem := by decide
  softDelete_mem := by decide

def comments : RelationMeta := ⟨"comments", .hasMany, comment, "post_id", "name"⟩

def user : Entity where
  softDelete := none
  table := "rb_users"
  pk := "id"
  columns := [⟨"id", .i64, false, true, true⟩, ⟨"name", .text, true, false, false⟩]
  createdAt := none
  updatedAt := none
  version := none
  nodup := by decide
  key := by decide
  key_mem := by decide
  softDelete_mem := by decide
  relations := [comments]
  relations_nodup := by decide

def commentRow (id postId : String) : Row String := fun column =>
  if column = "id" then some id else if column = "post_id" then some postId else none

def named (id : String) (name : Option String) : Item String where
  values column := if column = "id" then some id else if column = "name" then name else none
  attached _ := []

/-- A collation compares what it folds texts to. -/
def collated (fold : String → String) : Sql String where
  cmp op x v := some <| match op with
    | .eq | .like => fold x == fold v
    | .ne => fold x != fold v
    | .lt => decide (fold x < fold v)
    | .le => decide (fold x ≤ fold v)
    | .gt => decide (fold v < fold x)
    | .ge => decide (fold v ≤ fold x)
  raw _ _ _ := false

def caseless (text : String) : String := String.ofList (text.toList.map Char.toLower)

def forum (fold : String → String) : Database String where
  sql := collated fold
  vals := ⟨fun _ => none, toString, fun _ _ _ => none⟩
  dialect := .mysql
  rows table := if table = "rb_comments" then [commentRow "10" "alice", commentRow "11" "bob", commentRow "12" "alice"] else []
  columns table := if table = "rb_comments" then ["id", "post_id"] else ["id", "name"]
  arrange _ table := table
  arrange_perm _ table := .refl table

/-- Two subjects of one name, one of another and one without, in queries of one key each. -/
theorem named_users_load_their_comments :
    relationWrites (forum id) 1 user comments [named "1" (some "alice"), named "2" none, named "3" (some "bob"),
        named "4" (some "alice")] =
      .ok ([named "1" (some "alice"), named "2" none, named "3" (some "bob"), named "4" (some "alice")].map
        (alone (forum id) user comments)) := by
  have hrefl : ∀ v, (forum id).sql.cmp .eq v v = some true := by simp [forum, collated]
  have hsame : SameKeys (forum id) user comments [named "1" (some "alice"), named "2" none, named "3" (some "bob"),
      named "4" (some "alice")] := by
    unfold SameKeys
    decide +kernel
  exact (relation_loads_as_separate_queries_iff (forum id) 1 user comments _ hrefl).1.2 hsame

/-- Under a collation that ignores case a query for this user returns two rows, and the user is handed none. -/
theorem other_case_is_dropped :
    ([named "1" (some "Alice")].map (alone (forum caseless) user comments)).map List.length = [2] ∧
    (relationWrites (forum caseless) 65535 user comments [named "1" (some "Alice")]).toOption.map
      (List.map List.length) = some [0] ∧
    relationWrites (forum caseless) 65535 user comments [named "1" (some "Alice")] ≠
      .ok ([named "1" (some "Alice")].map (alone (forum caseless) user comments)) := by
  have halone : ([named "1" (some "Alice")].map (alone (forum caseless) user comments)).map List.length = [2] := by
    decide +kernel
  have hwrites : (relationWrites (forum caseless) 65535 user comments [named "1" (some "Alice")]).toOption.map
      (List.map List.length) = some [0] := by
    decide +kernel
  refine ⟨halone, hwrites, fun h => ?_⟩
  rw [h] at hwrites
  have hlengths := Option.some.inj hwrites
  rw [halone] at hlengths
  cases hlengths

end Ecat.Orm
