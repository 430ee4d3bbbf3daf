import Ecat.Buckets
import Ecat.OrmBatchText
import Ecat.OrmTrashed

/-! Loading a relation for many subjects at once: the keys of the subjects, the queries they are cut
into, the buckets that the rows are sorted into, and what every subject is handed of them. -/

namespace Ecat.Orm

variable {V : Type}

/-! ### Loading -/

/-- `SELECT * FROM target WHERE column IN (…)`. -/
def Database.matched (db : Database V) (r : RelationMeta) (slice : List V) : Table V :=
  (db.rows r.target.table).filter fun row => db.sql.inList row r.joinSides.2 slice false

def Database.found (db : Database V) (r : RelationMeta) (slices : List (List V)) : Table V :=
  slices.flatMap (db.matched r)

theorem found_cons (db : Database V) (r : RelationMeta) (slice : List V) (slices : List (List V)) :
    db.found r (slice :: slices) = db.matched r slice ++ db.found r slices := by
  rw [Database.found, List.flatMap_cons, Database.found]

theorem related_eq (db : Database V) (r : RelationMeta) (keys : List V) :
    db.related r keys = db.found r (sliceBy (splitChunks keys.length (chunkSize db.dialect.maxParamsPerStmt 1)) keys) := by
  have hpos : 0 < chunkSize db.dialect.maxParamsPerStmt 1 := Nat.lt_of_lt_of_le one_pos (Nat.le_max_right _ _)
  rw [Database.related, chunks_eq_sliceBy hpos]
  rfl

def missingTarget (r : RelationMeta) : OrmError :=
  .unknownColumn ("relation `" ++ r.name ++ "`: target column `" ++ r.joinSides.2 ++
    "` missing from the result set; the relation's foreign_key / local_key may be swapped")

def keyedRow (db : Database V) (r : RelationMeta) (row : Row V) : Except OrmError (Option V × Row V) :=
  if r.joinSides.2 ∈ db.columns r.target.table then .ok (row r.joinSides.2, row) else .error (missingTarget r)

section Loading

variable [DecidableEq V]

/-- One query for each slice of the keys. -/
def fetchBuckets (db : Database V) (r : RelationMeta) (slices : List (List V)) :
    Except OrmError (Buckets (Option V) (Row V)) :=
  slices.foldlM (fun buckets slice => do
    let pairs ← (db.matched r slice).mapM (keyedRow db r)
    return buckets.append (.group pairs)) ∅

def RelationMeta.cut (r : RelationMeta) (rows : Table V) : Table V :=
  if r.isSingleValued then rows.take 1 else rows

def relationSlices (E : Entity) (r : RelationMeta) (limit : Nat) (items : List (Item V)) : List (List V) :=
  let keys := distinctKeys (items.map (subjectValue E r.joinSides.1))
  sliceBy (splitChunks keys.length (chunkSize limit 1)) keys

/-- The rows that `set_relation` is handed, for each subject. -/
def relationWrites (db : Database V) (limit : Nat) (E : Entity) (r : RelationMeta) (items : List (Item V)) :
    Except OrmError (List (Table V)) := do
  let buckets ← fetchBuckets db r (relationSlices E r limit items)
  return items.map fun item => r.cut (buckets.get (subjectValue E r.joinSides.1 item))

def attach (db : Database V) (r : RelationMeta) (rows : Table V) (item : Item V) : Except OrmError (Item V) := do
  let rows ← rows.mapM fun row => fromRow db.vals r.target (resultRow (db.columns r.target.table) row)
  return { item with attached := Function.update item.attached r.name rows }

/-- `limit` is the dialect's `max_params_per_stmt`. -/
def loadRelationBy (db : Database V) (limit : Nat) (E : Entity) (items : List (Item V)) (name : String) :
    Except OrmError (List (Item V)) :=
  match E.relation name with
  | none => .error (.unknownColumn ("unknown relation `" ++ name ++ "`"))
  | some r => do
    let writes ← relationWrites db limit E r items
    (items.zip writes).mapM fun (item, rows) => attach db r rows item

/-! ### Keys -/

def addKey (out : List V) : Option V → List V
  | none => out
  | some k => if out.contains k then out else out ++ [k]

theorem mem_addKey {out : List V} {key : Option V} {k : V} : k ∈ addKey out key ↔ k ∈ out ∨ some k = key := by
  cases key with
  | none => simp [addKey]
  | some j =>
    rw [addKey, Option.some.injEq]
    by_cases hj : j ∈ out
    · simp only [List.contains_iff_mem, hj, if_true]
      constructor
      · exact .inl
      · rintro (hk | rfl)
        · exact hk
        · exact hj
    · simp [hj]

theorem nodup_addKey {out : List V} (h : out.Nodup) (key : Option V) : (addKey out key).Nodup := by
  cases key with
  | none => exact h
  | some j =>
    rw [addKey]
    by_cases hj : j ∈ out
    · simpa [hj] using h
    · have hne : ∀ a ∈ out, a ≠ j := fun a ha heq => hj (heq ▸ ha)
      simpa [hj, List.nodup_append] using And.intro h hne

theorem distinctKeys_eq (keys : List (Option V)) : distinctKeys keys = keys.foldl addKey [] := rfl

theorem nodup_distinctKeys (keys : List (Option V)) : (distinctKeys keys).Nodup := by
  rw [distinctKeys_eq]
  exact List.foldlRecOn keys addKey List.nodup_nil fun out hout key _ => nodup_addKey hout key

theorem mem_distinctKeys {keys : List (Option V)} {k : V} : k ∈ distinctKeys keys ↔ some k ∈ keys := by
  have hstart : ∀ out, k ∈ keys.foldl addKey out ↔ k ∈ out ∨ some k ∈ keys := by
    induction keys with
    | nil => simp
    | cons key keys ih =>
      intro out
      rw [List.foldl_cons, ih, mem_addKey, List.mem_cons, or_assoc]
  rw [distinctKeys_eq, hstart]
  simp

/-! ### Buckets -/

variable {db : Database V} {E : Entity} {r : RelationMeta} {items : List (Item V)} {limit : Nat}

theorem get_group_keyed (rows : Table V) (k : Option V) :
    (Buckets.group (rows.map fun row => (row r.joinSides.2, row))).get k =
      rows.filter fun row => row r.joinSides.2 = k := by
  rw [Buckets.get_group, List.filter_map, List.map_map]
  simp [Function.comp_def]

theorem fetchBuckets_ok {slices : List (List V)}
    (h : ∀ row ∈ db.found r slices, r.joinSides.2 ∈ db.columns r.target.table) :
    ∃ buckets, fetchBuckets db r slices = .ok buckets ∧
      ∀ k, buckets.get k = (db.found r slices).filter fun row => row r.joinSides.2 = k := by
  have hstart : ∀ start : Buckets (Option V) (Row V), ∃ buckets,
      slices.foldlM (fun buckets slice => do
        let pairs ← (db.matched r slice).mapM (keyedRow db r)
        return buckets.append (.group pairs)) start = Except.ok buckets ∧
      ∀ k, buckets.get k = start.get k ++ (db.found r slices).filter fun row => row r.joinSides.2 = k := by
    induction slices with
    | nil => exact fun start => ⟨start, rfl, by simp [Database.found]⟩
    | cons slice slices ih =>
      intro start
      have hkeyed : (db.matched r slice).mapM (keyedRow db r) =
          .ok ((db.matched r slice).map fun row => (row r.joinSides.2, row)) := by
        apply mapM_eq_ok_map
        intro row hrow
        exact if_pos (h row (List.mem_append_left _ hrow))
      obtain ⟨buckets, hrun, hget⟩ := ih (fun row hrow => h row (List.mem_append_right _ hrow))
        (start.append (.group ((db.matched r slice).map fun row => (row r.joinSides.2, row))))
      refine ⟨buckets, ?_, fun k => ?_⟩
      · rw [List.foldlM_cons, hkeyed]
        exact hrun
      · rw [hget, Buckets.get_append, get_group_keyed, found_cons, List.filter_append, List.append_assoc]
  obtain ⟨buckets, hrun, hget⟩ := hstart ∅
  exact ⟨buckets, hrun, fun k => by rw [hget, Buckets.get_empty, List.nil_append]⟩

theorem fetchBuckets_error {slices : List (List V)} (hne : db.found r slices ≠ [])
    (hcolumn : r.joinSides.2 ∉ db.columns r.target.table) :
    fetchBuckets db r slices = .error (missingTarget r) := by
  have hstart : ∀ start : Buckets (Option V) (Row V), slices.foldlM (fun buckets slice => do
      let pairs ← (db.matched r slice).mapM (keyedRow db r)
      return buckets.append (.group pairs)) start = Except.error (missingTarget r) := by
    induction slices with
    | nil => exact absurd rfl hne
    | cons slice slices ih =>
      intro start
      rw [List.foldlM_cons]
      cases hmatched : db.matched r slice with
      | nil =>
        have hrest : db.found r slices ≠ [] := by
          rwa [found_cons, hmatched, List.nil_append] at hne
        exact ih hrest _
      | cons row rows =>
        rw [List.mapM_cons, keyedRow, if_neg hcolumn]
        rfl
  exact hstart ∅

theorem flatten_relationSlices :
    (relationSlices E r limit items).flatten = distinctKeys (items.map (subjectValue E r.joinSides.1)) :=
  flatten_sliceBy (sum_splitChunks _ _)

/-- The rows that `set_relation` is handed are those of the key among all that the queries returned. -/
theorem relationWrites_eq :
    relationWrites db limit E r items =
      if db.found r (relationSlices E r limit items) ≠ [] ∧ r.joinSides.2 ∉ db.columns r.target.table then
        .error (missingTarget r)
      else
        .ok (items.map fun item => r.cut ((db.found r (relationSlices E r limit items)).filter fun row =>
          row r.joinSides.2 = subjectValue E r.joinSides.1 item)) := by
  by_cases h : db.found r (relationSlices E r limit items) ≠ [] ∧ r.joinSides.2 ∉ db.columns r.target.table
  · rw [if_pos h, relationWrites, fetchBuckets_error h.1 h.2]
    rfl
  · have hcolumn : ∀ row ∈ db.found r (relationSlices E r limit items),
        r.joinSides.2 ∈ db.columns r.target.table := by
      intro row hrow
      by_contra hmissing
      exact h ⟨List.ne_nil_of_mem hrow, hmissing⟩
    obtain ⟨buckets, hrun, hget⟩ := fetchBuckets_ok hcolumn
    rw [if_neg h, relationWrites, hrun]
    simp only [ok_bind, pure_eq_ok, hget]

/-! ### The dialect's limit -/

/-- With the limit of its dialect this is how a query loads its relations. -/
theorem loadRelationBy_max (name : String) :
    loadRelationBy db db.dialect.maxParamsPerStmt E items name = loadRelation db E items name := by
  rw [loadRelationBy, loadRelation]
  cases hname : E.relation name with
  | none => rfl
  | some r =>
    have hrelated := related_eq db r (distinctKeys (items.map (subjectValue E r.joinSides.1)))
    dsimp only
    rw [hrelated, relationWrites_eq]
    by_cases h : db.found r (relationSlices E r db.dialect.maxParamsPerStmt items) ≠ [] ∧
        r.joinSides.2 ∉ db.columns r.target.table
    · have hmissing := h
      rw [relationSlices] at hmissing
      rw [if_pos h, error_bind, if_pos (by simpa using hmissing), missingTarget, relation_name hname]
    · have hpresent := h
      rw [relationSlices] at hpresent
      rw [if_neg h, ok_bind, mapM_zip_map, if_neg (by simpa using hpresent)]
      rfl

/-! ### The statements -/

theorem relationSlices_fit {slice : List V} (h : slice ∈ relationSlices E r limit items) :
    slice ≠ [] ∧ slice.length ≤ max limit 1 := by
  obtain ⟨hne, hle⟩ := mem_splitChunks (length_mem_of_mem_sliceBy (sum_splitChunks _ _) h)
  refine ⟨List.ne_nil_of_length_pos hne, ?_⟩
  simpa [chunkSize] using hle

end Loading

namespace Text

open Template

def relationHead (dialect : Dialect) (r : RelationMeta) : String :=
  "SELECT * FROM " ++ dialect.quote r.target.table ++ " WHERE " ++ dialect.quote r.joinSides.2 ++ " IN ("

/-- The statement that is sent for a slice of the keys. -/
def relationSelect (dialect : Dialect) (r : RelationMeta) (slice : List V) : Built V where
  sql := relationHead dialect r ++
    ", ".intercalate ((List.range slice.length).map fun i => dialect.placeholder (i + 1)) ++ ")"
  params := slice

def relationTemplate (dialect : Dialect) (r : RelationMeta) (slice : List V) : Template V :=
  .inl (relationHead dialect r) :: ([.inl ", "].intercalate (slice.map fun v => [.inr v]) ++ [.inl ")"])

theorem relationSelect_lines_up (dialect : Dialect) (r : RelationMeta) (slice : List V) :
    LinesUp dialect (relationSelect dialect r slice) (relationTemplate dialect r slice)
      (∀ name ∈ [r.target.table, r.joinSides.2], dialect.closingQuote ∉ name.toList) := by
  refine lines_up ?_ ?_ ?_
  · simp [relationSelect, relationTemplate, write, write_append, write_intercalate, Batch.writeEach_values,
      String.append_assoc]
  · rw [relationTemplate, operands_text, operands_append, operands_list, operands_text, operands_nil, List.append_nil]
    rfl
  · intro hnames
    have htable := inert_quote (hnames _ List.mem_cons_self)
    have hcolumn := inert_quote (hnames r.joinSides.2 (by simp))
    have hselect : dialect.marking.Inert "SELECT * FROM " := by cases dialect <;> decide
    have hwhere : dialect.marking.Inert " WHERE " := by cases dialect <;> decide
    have hin : dialect.marking.Inert " IN (" := by cases dialect <;> decide
    have hclose : dialect.marking.Inert ")" := by cases dialect <;> decide
    refine ⟨(((hselect.append htable).append hwhere).append hcolumn).append hin, by simp, ?_⟩
    exact (legible_values dialect slice).append (legible_separator rfl rfl hclose trivial)

end Text

end Ecat.Orm
