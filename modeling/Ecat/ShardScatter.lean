import Ecat.ShardCutover

/-! `scatter`: one query on every shard of a table, merged by the order column and the shard's
place, with one row kept for each primary key. -/

namespace Ecat.Shard

open Json

/-! ### Comparison -/

def compareNumbers (left right : Number) : Ordering :=
  match left.asI64, right.asI64 with
  | some l, some r => compare l r
  | _, _ => compare left.asF64 right.asF64

def valueRank : Value → Nat
  | .null => 0
  | .bool _ => 1
  | .number _ => 2
  | .string _ => 3
  | .array _ => 4
  | .object _ => 5

def compareValues (left right : Value) : Ordering :=
  match left, right with
  | .null, .null => .eq
  | .bool l, .bool r => compare l r
  | .number l, .number r => (compareNumbers l r).then (compare l.toText r.toText)
  | .string l, .string r => compare l r
  | l, r => (compare (valueRank l) (valueRank r)).then (compare l.toText r.toText)

/-! ### Merge -/

/-- A row with its value in the order column and its shard's place. -/
structure Entry where
  value : Value
  shard : Nat
  row : Row

def Entry.le (a b : Entry) : Bool := ((compareValues a.value b.value).then (compare a.shard b.shard)).isLE

def present (row : Row) (col : String) : Option Value := (row.get col).filter (!·.isNull)

def entry (orderBy : String) (index : Nat) (row : Row) : Except ShardError Entry :=
  match present row orderBy with
  | some v => .ok ⟨v, index, row⟩
  | none => .error (.config s!"scatter row is missing or null order_by column `{orderBy}`")

def collect (orderBy : String) (index : Nat) : List (Option (List Row)) → Except ShardError (List Entry)
  | [] => .ok []
  | none :: _ => .error (.config s!"scatter result missing for shard #{index}")
  | some rows :: results => do
    let entries ← rows.mapM (entry orderBy index)
    return entries ++ (← collect orderBy (index + 1) results)

def dedupe (pk : String) (seen : List String) : List Row → Except ShardError (List Row)
  | [] => .ok []
  | row :: rows =>
    match present row pk with
    | none => .error (.config s!"scatter row is missing or null pk column `{pk}`")
    | some v =>
      if v.toText ∈ seen then dedupe pk seen rows
      else do return row :: (← dedupe pk (v.toText :: seen) rows)

def merge (orderBy pk : String) (offset limit : Nat) (results : List (Option (List Row))) :
    Except ShardError (List Row) := do
  let ordered := (← collect orderBy 0 results).insertionSort (·.le ·)
  let merged ← dedupe pk [] (ordered.map (·.row))
  return (merged.drop offset).take limit

/-! ### Scatter -/

structure ScatterRequest where
  table : String
  orderBy : String
  limit : Nat
  offset : Nat
  maxConcurrency : Nat

/-- `answers` has what each shard's query returns, if it does so in time. -/
def ShardRouter.scatter (r : ShardRouter) (req : ScatterRequest) (answers : String → Option (List Row)) :
    Except ShardError (List Row) :=
  if req.maxConcurrency = 0 then .error (.config "scatter max_concurrency must be at least 1")
  else do
    let t ← r.catalog.table req.table
    match t.shardNames.find? (· ∉ r.clients) with
    | some shard => .error (.config s!"shard `{shard}` has no client")
    | none =>
      let failed := t.shardNames.filter fun shard => (answers shard).isNone
      if failed ≠ [] then .error (.partialFailure (failed.insertionSort (· ≤ ·)))
      else merge req.orderBy t.pk req.offset req.limit (t.shardNames.map answers)

/-! ### What a merge returns -/

variable {orderBy pk : String} {row : Row} {rows : List Row} {seen : List String}

def Present (col : String) (row : Row) : Prop := ∃ v, row.get col = some v ∧ v.isNull = false

theorem present_eq {col : String} (h : Present col row) : ∃ v, row.get col = some v ∧ present row col = some v := by
  obtain ⟨v, hv, hnull⟩ := h
  exact ⟨v, hv, by rw [present, hv]; simp [hnull]⟩

theorem mapM_entry (index : Nat) (h : ∀ row ∈ rows, Present orderBy row) :
    ∃ entries, rows.mapM (entry orderBy index) = .ok entries ∧ entries.map (·.row) = rows := by
  induction rows with
  | nil => exact ⟨[], rfl, rfl⟩
  | cons row rows ih =>
    obtain ⟨v, -, hv⟩ := present_eq (h row (by simp))
    obtain ⟨entries, hentries, hrows⟩ := ih fun row hrow => h row (by simp [hrow])
    refine ⟨⟨v, index, row⟩ :: entries, ?_, by simp [hrows]⟩
    rw [List.mapM_cons, entry, hv, hentries]
    rfl

theorem collect_ok {results : List (List Row)} (index : Nat)
    (h : ∀ rows ∈ results, ∀ row ∈ rows, Present orderBy row) :
    ∃ entries, collect orderBy index (results.map some) = .ok entries ∧ entries.map (·.row) = results.flatten := by
  induction results generalizing index with
  | nil => exact ⟨[], rfl, rfl⟩
  | cons rows results ih =>
    obtain ⟨entries, hentries, hrows⟩ := mapM_entry index (h rows (by simp))
    obtain ⟨rest, hrest, hflat⟩ := ih (index + 1) fun rows hin => h rows (by simp [hin])
    refine ⟨entries ++ rest, ?_, by simp [hrows, hflat]⟩
    rw [List.map_cons, collect, hentries, ok_bind, hrest]
    rfl

def pkText (pk : String) (row : Row) : String := ((row.get pk).getD .null).toText

theorem dedupe_ok (h : ∀ row ∈ rows, Present pk row) (seen : List String) :
    ∃ kept, dedupe pk seen rows = .ok kept ∧ kept.Sublist rows ∧ (kept.map (pkText pk)).Nodup ∧
      (∀ row ∈ kept, pkText pk row ∉ seen) ∧
      ∀ row ∈ rows, pkText pk row ∈ seen ∨ ∃ r ∈ kept, pkText pk r = pkText pk row := by
  induction rows generalizing seen with
  | nil => exact ⟨[], rfl, .slnil, List.nodup_nil, by simp, by simp⟩
  | cons row rows ih =>
    obtain ⟨v, hget, hv⟩ := present_eq (h row (by simp))
    have htext : pkText pk row = v.toText := by rw [pkText, hget, Option.getD_some]
    have hrows : ∀ row ∈ rows, Present pk row := fun row hrow => h row (by simp [hrow])
    by_cases hseen : v.toText ∈ seen
    · obtain ⟨kept, hkept, hsub, hnodup, hfresh, hall⟩ := ih hrows seen
      refine ⟨kept, ?_, hsub.cons _, hnodup, hfresh, List.forall_mem_cons.2 ⟨.inl (htext ▸ hseen), hall⟩⟩
      rw [dedupe, hv]
      simp only [hseen, if_true, hkept]
    · obtain ⟨kept, hkept, hsub, hnodup, hfresh, hall⟩ := ih hrows (v.toText :: seen)
      refine ⟨row :: kept, ?_, hsub.cons_cons _, ?_, ?_, ?_⟩
      · rw [dedupe, hv]
        simp only [hseen, if_false, hkept]
        rfl
      · rw [List.map_cons, List.nodup_cons]
        refine ⟨?_, hnodup⟩
        intro hin
        obtain ⟨r, hr, he⟩ := List.mem_map.1 hin
        exact hfresh r hr (by rw [he, htext]; simp)
      · refine List.forall_mem_cons.2 ⟨htext ▸ hseen, ?_⟩
        intro r hr hin
        exact hfresh r hr (by simp [hin])
      · refine List.forall_mem_cons.2 ⟨.inr ⟨row, by simp, rfl⟩, ?_⟩
        intro r hr
        rcases hall r hr with hin | ⟨r', hr', he⟩
        · rcases List.mem_cons.1 hin with he | hin
          · exact .inr ⟨row, by simp, htext.trans he.symm⟩
          · exact .inl hin
        · exact .inr ⟨r', by simp [hr'], he⟩

theorem merge_ok {results : List (List Row)} {limit : Nat}
    (horder : ∀ rows ∈ results, ∀ row ∈ rows, Present orderBy row)
    (hpk : ∀ rows ∈ results, ∀ row ∈ rows, Present pk row) (hlimit : results.flatten.length ≤ limit) :
    ∃ rows, merge orderBy pk 0 limit (results.map some) = .ok rows ∧ (rows.map (pkText pk)).Nodup ∧
      (∀ row ∈ rows, row ∈ results.flatten) ∧
      ∀ row ∈ results.flatten, ∃ r ∈ rows, pkText pk r = pkText pk row := by
  obtain ⟨entries, hentries, hrows⟩ := collect_ok 0 horder
  have hperm : ((entries.insertionSort (·.le ·)).map (·.row)).Perm results.flatten := by
    rw [← hrows]
    exact (List.perm_insertionSort _ entries).map _
  have hpresent : ∀ row ∈ (entries.insertionSort (·.le ·)).map (·.row), Present pk row := by
    intro row hrow
    obtain ⟨rows, hin, hrow⟩ := List.mem_flatten.1 (hperm.subset hrow)
    exact hpk rows hin row hrow
  obtain ⟨kept, hkept, hsub, hnodup, -, hall⟩ := dedupe_ok hpresent []
  have hlength : kept.length ≤ limit := (hsub.length_le.trans hperm.length_eq.le).trans hlimit
  refine ⟨kept, ?_, hnodup, fun row hrow => hperm.subset (hsub.subset hrow), ?_⟩
  · rw [merge, hentries, ok_bind]
    simp only [hkept, ok_bind, List.drop_zero, List.take_of_length_le hlength, pure_eq_ok]
  · intro row hrow
    exact (hall row (hperm.symm.subset hrow)).resolve_left (by simp)

end Ecat.Shard
