import Ecat.Chunks
import Ecat.JsonTexts
import Ecat.SinkDigest

/-! The digests depend on the rows alone, not on the order of the rows or of the columns of a row,
and the S3 sink reads the lines that it wrote. -/

namespace Ecat.Sink

open Json
open Archive (TieringError)

variable {α : Type} {row row' : Row} {rows rows' : List Row} {idCol col : String} {order : S3.MapOrder}

/-! ### Columns -/

/-- No two columns of the row have one name. -/
def Distinct (row : Row) : Prop := (row.iter.map Prod.fst).Nodup

theorem get_eq_find (row : Row) (col : String) : row.get col = (row.iter.find? (·.1 = col)).map (·.2) := by
  obtain ⟨columns, values⟩ := row
  rw [Row.get, Row.iter]
  induction columns generalizing values with
  | nil => rfl
  | cons c columns ih =>
    cases values with
    | nil => simp
    | cons v values =>
      by_cases h : c = col
      · simp [List.findIdx?_cons, h]
      · have hrest := ih values
        rw [List.findIdx?_cons, decide_eq_false h, List.zip_cons_cons, List.find?_cons_of_neg (by simpa using h), ← hrest]
        cases List.findIdx? (fun x => decide (x = col)) columns <;> rfl

theorem get_eq_some (h : Distinct row) {v : Value} : row.get col = some v ↔ (col, v) ∈ row.iter := by
  rw [get_eq_find, find?_key_eq_some h]

theorem Distinct.perm (h : Distinct row) (hperm : row.iter.Perm row'.iter) : Distinct row' :=
  (hperm.map Prod.fst).nodup_iff.1 h

theorem get_perm (h : Distinct row) (hperm : row.iter.Perm row'.iter) (col : String) : row.get col = row'.get col := by
  apply Option.ext
  intro v
  rw [get_eq_some h, get_eq_some (h.perm hperm), hperm.mem_iff]

theorem Distinct.pairwise (h : Distinct row) : row.iter.Pairwise fun a b => a.1 ≠ b.1 := List.pairwise_map.1 h

theorem canonicalLine_perm (h : Distinct row) (hperm : row.iter.Perm row'.iter) :
    Clickhouse.canonicalLine idCol row = Clickhouse.canonicalLine idCol row' := by
  rw [Clickhouse.canonicalLine, Clickhouse.canonicalLine]
  simp only [insertionSort_eq_of_perm hperm h.pairwise]

theorem rowJson_perm (h : Distinct row) (hperm : row.iter.Perm row'.iter) :
    S3.rowJson .sorted row = S3.rowJson .sorted row' := by
  have hmap : row.iter.foldl (fun map c => map.insert c.1 c.2) (SortedMap.empty : SortedMap String Value) =
      row'.iter.foldl (fun map c => map.insert c.1 c.2) SortedMap.empty := by
    apply SortedMap.ext_mem
    intro e
    rw [SortedMap.mem_foldl_insert h, SortedMap.mem_foldl_insert (h.perm hperm), hperm.mem_iff]
    simp [SortedMap.empty]
  rw [S3.rowJson, S3.rowJson, S3.rowMap, S3.rowMap, hmap]

theorem insertField_new {fields : List (String × Value)} {name : String} (h : name ∉ fields.map Prod.fst) (v : Value) :
    S3.insertField fields name v = fields ++ [(name, v)] := by
  rw [S3.insertField, if_neg]
  rw [List.any_eq_true]
  rintro ⟨field, hfield, heq⟩
  exact h (List.mem_map.2 ⟨field, hfield, of_decide_eq_true heq⟩)

/-- Distinct columns are inserted one behind the other. -/
theorem foldl_insertField {columns fields : List (String × Value)} (h : ((fields ++ columns).map Prod.fst).Nodup) :
    columns.foldl (fun fields c => S3.insertField fields c.1 c.2) fields = fields ++ columns := by
  induction columns generalizing fields with
  | nil => simp
  | cons c columns ih =>
    have hnew : c.1 ∉ fields.map Prod.fst := by
      rw [List.map_append, List.map_cons] at h
      exact fun hmem => (List.nodup_append.1 h).2.2 _ hmem _ List.mem_cons_self rfl
    have hsplit : fields ++ [(c.1, c.2)] ++ columns = fields ++ c :: columns := by simp
    rw [List.foldl_cons, insertField_new hnew, ih (by rwa [hsplit]), hsplit]

theorem rowMap_inserted (h : Distinct row) : S3.rowMap .inserted row = row.iter := by
  have hnodup : (([] ++ row.iter).map Prod.fst).Nodup := h
  rw [S3.rowMap, foldl_insertField hnodup, List.nil_append]

theorem field_told {fields : List (String × Value)} (h : (fields.map Prod.fst).Nodup) :
    ∀ field ∈ fields, ∀ other ∈ fields, Told Value.fieldText ',' '\x7d' field other := by
  intro field hfield other hother as bs _ _ heq
  have hname := heq
  rw [fieldText_append, fieldText_append] at hname
  obtain rfl := List.inj_on_of_nodup_map h hfield hother (stringText_inj hname).1
  exact ⟨rfl, List.append_cancel_left heq⟩

/-- The text of a row tells the order of its columns where the map keeps it. -/
theorem iter_eq_of_rowJson (h : Distinct row) (hperm : row.iter.Perm row'.iter)
    (hjson : S3.rowJson .inserted row = S3.rowJson .inserted row') : row.iter = row'.iter := by
  have htext := congrArg (· ++ []) hjson
  simp only [S3.rowJson, rowMap_inserted h, rowMap_inserted (h.perm hperm)] at htext
  rw [render_object, render_object] at htext
  refine (separated_inj (by decide) ?_ (fun field _ => fieldText_ne_brace field) (fun field _ => fieldText_ne_brace field)
    (List.cons.inj htext).2).1
  intro field hfield other hother
  exact field_told h field hfield other (hperm.mem_iff.2 hother)

/-! ### Ids -/

theorem rowId_perm (h : Distinct row) (hperm : row.iter.Perm row'.iter) : rowId idCol row = rowId idCol row' := by
  rw [rowId, rowId, get_perm h hperm]

theorem keyed_eq (idCol : String) (f : Row → α) (rows : List Row) : keyed idCol f rows =
    if ∀ row ∈ rows, (rowId idCol row).isSome = true then
      .ok (rows.filterMap fun row => (rowId idCol row).map fun id => (id, f row))
    else .error (.cold s!"cold sink row has no integer `{idCol}`") := by
  rw [keyed]
  induction rows with
  | nil => rfl
  | cons row rows ih =>
    rw [List.mapM_cons, ih]
    cases hid : rowId idCol row with
    | none => simp [hid]
    | some id =>
      by_cases hall : ∀ row ∈ rows, (rowId idCol row).isSome = true
      · simp [hid, if_pos hall]
      · simp [hid, if_neg hall]

theorem keyed_ok {f : Row → α} {entries : List (Int × α)} (h : keyed idCol f rows = .ok entries) :
    entries.map (fun e => (some e.1, e.2)) = rows.map fun row => (rowId idCol row, f row) := by
  induction rows generalizing entries with
  | nil =>
    cases h
    rfl
  | cons row rows ih =>
    rw [keyed, List.mapM_cons, bind_eq_ok] at h
    obtain ⟨e, he, h⟩ := h
    obtain ⟨rest, hrest, h⟩ := bind_eq_ok.1 h
    cases h
    rw [List.map_cons, List.map_cons, ih hrest]
    cases hid : rowId idCol row with
    | none =>
      rw [hid] at he
      cases he
    | some id =>
      rw [hid] at he
      cases he
      rfl

theorem mem_of_keyed {f : Row → α} {entries : List (Int × α)} (h : keyed idCol f rows = .ok entries) {e : Int × α}
    (he : e ∈ entries) : ∃ row ∈ rows, rowId idCol row = some e.1 ∧ f row = e.2 := by
  have hmem : (some e.1, e.2) ∈ entries.map fun e => (some e.1, e.2) := List.mem_map.2 ⟨e, he, rfl⟩
  rw [keyed_ok h] at hmem
  obtain ⟨row, hrow, heq⟩ := List.mem_map.1 hmem
  exact ⟨row, hrow, congrArg Prod.fst heq, congrArg Prod.snd heq⟩

theorem exists_of_keyed {f : Row → α} {entries : List (Int × α)} (h : keyed idCol f rows = .ok entries) (hrow : row ∈ rows) :
    ∃ id, rowId idCol row = some id ∧ (id, f row) ∈ entries := by
  have hmem : (rowId idCol row, f row) ∈ rows.map fun row => (rowId idCol row, f row) := List.mem_map.2 ⟨row, hrow, rfl⟩
  rw [← keyed_ok h] at hmem
  obtain ⟨⟨id, a⟩, he, heq⟩ := List.mem_map.1 hmem
  obtain ⟨hid, rfl⟩ := Prod.mk.inj heq
  exact ⟨id, hid.symm, he⟩

theorem length_keyed {f : Row → α} {entries : List (Int × α)} (h : keyed idCol f rows = .ok entries) :
    entries.length = rows.length := by
  have hlength := congrArg List.length (keyed_ok h)
  rwa [List.length_map, List.length_map] at hlength

theorem keyed_ids {f : Row → α} {entries : List (Int × α)} (h : keyed idCol f rows = .ok entries) :
    entries.map Prod.fst = rows.filterMap (rowId idCol) := by
  have hfst := congrArg (List.filterMap Prod.fst) (keyed_ok h)
  rw [List.filterMap_map, List.filterMap_map] at hfst
  rw [← List.filterMap_eq_map]
  exact hfst

/-- The ids of the rows that have one differ. -/
def DistinctIds (idCol : String) (rows : List Row) : Prop := (rows.filterMap (rowId idCol)).Nodup

theorem DistinctIds.pairwise {f : Row → α} {entries : List (Int × α)} (hids : DistinctIds idCol rows)
    (h : keyed idCol f rows = .ok entries) : entries.Pairwise fun a b => a.1 ≠ b.1 := by
  apply List.pairwise_map.1
  rw [keyed_ids h]
  exact hids

theorem sorted_perm (f : Row → α) (h : rows.Perm rows') (hids : DistinctIds idCol rows) :
    (keyed idCol f rows).map sortByKey = (keyed idCol f rows').map sortByKey := by
  rw [keyed_eq, keyed_eq]
  by_cases hall : ∀ row ∈ rows, (rowId idCol row).isSome = true
  · have hall' : ∀ row ∈ rows', (rowId idCol row).isSome = true := fun row hrow => hall row (h.mem_iff.2 hrow)
    have hkeyed := (keyed_eq idCol f rows).trans (if_pos hall)
    have hne := DistinctIds.pairwise hids hkeyed
    rw [if_pos hall, if_pos hall', Except.map, Except.map, sortByKey, insertionSort_eq_of_perm (h.filterMap _) hne,
      sortByKey]
  · have hall' : ¬ ∀ row ∈ rows', (rowId idCol row).isSome = true :=
      fun hall' => hall fun row hrow => hall' row (h.mem_iff.1 hrow)
    rw [if_neg hall, if_neg hall']

/-- The same rows in another order, each with its columns in another order. -/
def Reordered (rows rows' : List Row) : Prop :=
  ∃ mid, rows.Perm mid ∧ List.Forall₂ (fun row row' : Row => row.iter.Perm row'.iter) mid rows'

theorem keyed_columns {f : Row → α} (h : List.Forall₂ (fun row row' : Row => row.iter.Perm row'.iter) rows rows')
    (hf : ∀ row ∈ rows, ∀ row' ∈ rows', row.iter.Perm row'.iter → f row = f row') (hrows : ∀ row ∈ rows, Distinct row) :
    keyed idCol f rows = keyed idCol f rows' := by
  induction h with
  | nil => rfl
  | cons hperm hrest ih =>
    obtain ⟨hrow, hrows⟩ := List.forall_mem_cons.1 hrows
    have htail := ih (fun row hmem row' hmem' => hf row (List.mem_cons_of_mem _ hmem) row' (List.mem_cons_of_mem _ hmem'))
      hrows
    have hfirst := hf _ List.mem_cons_self _ List.mem_cons_self hperm
    rw [keyed, keyed] at htail
    rw [keyed, keyed, List.mapM_cons, List.mapM_cons, htail, rowId_perm hrow hperm, hfirst]

theorem sorted_reordered {f : Row → α} (h : Reordered rows rows')
    (hf : ∀ row ∈ rows, ∀ row' ∈ rows', row.iter.Perm row'.iter → f row = f row')
    (hrows : ∀ row ∈ rows, Distinct row) (hids : DistinctIds idCol rows) :
    (keyed idCol f rows).map sortByKey = (keyed idCol f rows').map sortByKey := by
  obtain ⟨mid, hperm, hcolumns⟩ := h
  rw [sorted_perm f hperm hids, keyed_columns hcolumns (fun row hrow => hf row (hperm.mem_iff.2 hrow))
    fun row hrow => hrows row (hperm.mem_iff.2 hrow)]

/-- Every row of the second list is one of the first with its columns in some order. -/
theorem Reordered.exists_row (h : Reordered rows rows') (hrow : row' ∈ rows') :
    ∃ row ∈ rows, row.iter.Perm row'.iter := by
  obtain ⟨mid, hperm, hcolumns⟩ := h
  obtain ⟨row, hmem, hiter⟩ := exists_left_of_forall₂ hcolumns hrow
  exact ⟨row, hperm.mem_iff.2 hmem, hiter⟩

theorem DistinctIds.eq_of_rowId (hids : DistinctIds idCol rows) {other : Row} (hrow : row ∈ rows) (hother : other ∈ rows)
    {id : Int} (hid : rowId idCol row = some id) (hid' : rowId idCol other = some id) : row = other := by
  have hnodup : ((rows.filterMap fun row => (rowId idCol row).map fun id => (id, row)).map Prod.fst).Nodup := by
    rw [DistinctIds] at hids
    simpa [List.map_filterMap, Function.comp_def] using hids
  have hmem {r : Row} (hr : r ∈ rows) (h : rowId idCol r = some id) :
      (id, r) ∈ rows.filterMap fun row => (rowId idCol row).map fun id => (id, row) :=
    List.mem_filterMap.2 ⟨r, hr, by rw [h, Option.map_some]⟩
  exact congrArg Prod.snd (List.inj_on_of_nodup_map hnodup (hmem hrow hid) (hmem hother hid') rfl)

/-! ### The ClickHouse digest -/

theorem pickEvery_map {β : Type} (f : α → β) (keyed : List (Int × α)) (step : Int) :
    pickEvery (keyed.map (Prod.map id f)) step = (pickEvery keyed step).map f := by
  have hfilter : ((keyed.map (Prod.map id f)).filter fun e => e.1 % step = 0).map (·.2) =
      ((keyed.filter fun e => e.1 % step = 0).map (·.2)).map f := by
    rw [List.filter_map, List.map_map, List.map_map]
    rfl
  simp only [pickEvery, hfilter, List.map_eq_nil_iff]
  split_ifs
  · rw [← List.map_take, List.map_map, List.map_map]
    rfl
  · rfl

theorem canonicalNdjson_eq (rows : List Row) (idCol : String) :
    String.ofList (Clickhouse.canonicalNdjson rows idCol) = S3.joinLines (rows.map (Clickhouse.canonicalLine idCol)) := by
  rw [Clickhouse.canonicalNdjson, S3.joinLines, List.flatMap_map]

/-- The digest over the lines of the rows. -/
def digestLines (sha256Hex : ByteArray → String) (verifySample : Option Rate) (keyed : List (Int × List Char)) :
    Except TieringError Clickhouse.ChunkDigest :=
  match keyed.head?, keyed.getLast? with
  | some (lowId, _), some (highId, _) =>
    let hash (lines : List (List Char)) := sha256Hex (S3.joinLines lines).toUTF8
    let picked := verifySample.map fun rate => pickEvery keyed (signedStep rate.step)
    .ok ⟨hash (keyed.map (·.2)), (picked.map hash).getD "", (picked.map List.length).getD 0, lowId, highId⟩
  | _, _ => .error (.cold "cannot write an empty chunk")

theorem keyed_map {β : Type} (g : α → β) (f : Row → α) (rows : List Row) :
    keyed idCol (fun row => g (f row)) rows = (keyed idCol f rows).map fun keyed => keyed.map (Prod.map id g) := by
  rw [keyed_eq, keyed_eq]
  split_ifs with hall
  · rw [Except.map, List.map_filterMap]
    congr 2
    funext row
    cases rowId idCol row <;> rfl
  · rfl

theorem sortByKey_map {β : Type} (f : α → β) (keyed : List (Int × α)) :
    sortByKey (keyed.map (Prod.map id f)) = (sortByKey keyed).map (Prod.map id f) :=
  (List.map_insertionSort _ _ (Prod.map id f) keyed fun _ _ _ _ => Iff.rfl).symm

theorem chunkDigest_eq (sha256Hex : ByteArray → String) (rows : List Row) (idCol : String) (verifySample : Option Rate) :
    Clickhouse.chunkDigest sha256Hex rows idCol verifySample =
      ((keyed idCol (Clickhouse.canonicalLine idCol) rows).map sortByKey).bind (digestLines sha256Hex verifySample) := by
  have hkeyed : keyed idCol (Clickhouse.canonicalLine idCol) rows = _ := keyed_map (Clickhouse.canonicalLine idCol) id rows
  rw [Clickhouse.chunkDigest, Clickhouse.sortedById, hkeyed]
  cases keyed idCol id rows with
  | error e => rfl
  | ok keyed =>
    simp only [Except.map, Except.bind, ok_bind, sortByKey_map, digestLines, List.head?_map, List.getLast?_map]
    generalize sortByKey keyed = sorted
    cases hfirst : sorted.head? with
    | none => rfl
    | some first =>
      cases hlast : sorted.getLast? with
      | none => rfl
      | some last =>
        simp only [Option.map_some, Prod.map_fst, Clickhouse.hashText, Clickhouse.pickSample, canonicalNdjson_eq, pickEvery_map,
          List.map_map]
        cases verifySample with
        | none => rfl
        | some rate =>
          simp only [Option.map_some, Option.getD_some, List.length_map]
          rfl

/-! ### The object of the S3 sink -/

/-- What the object says of the lines in their order. -/
structure S3.ChunkObject.Of (sha256Hex : ByteArray → String) (verifySample : Option Rate) (object : S3.ChunkObject)
    (sorted : List (Int × List Char)) : Prop where
  ndjson : object.ndjson = (S3.joinLines (sorted.map (·.2))).toUTF8
  checksum : object.checksum = sha256Hex object.ndjson
  rows : object.rows = sorted.length
  sample : ∀ rate ∈ verifySample, object.sampleStep = rate.step ∧
    object.sampleChecksum = sha256Hex (S3.joinLines (S3.pickSample sorted rate.step)).toUTF8 ∧
    object.sampleRows = (S3.pickSample sorted rate.step).length

theorem buildChunk_ok {sha256Hex : ByteArray → String} {verifySample : Option Rate} {object : S3.ChunkObject}
    (h : S3.buildChunk order sha256Hex rows idCol verifySample = .ok object) :
    ∃ entries, keyed idCol (S3.rowJson order) rows = .ok entries ∧ object.Of sha256Hex verifySample (sortByKey entries) := by
  rw [S3.buildChunk] at h
  split_ifs at h
  cases hkeyed : keyed idCol (S3.rowJson order) rows with
  | error e =>
    rw [hkeyed] at h
    cases h
  | ok entries =>
    rw [hkeyed] at h
    have hlength : rows.length = (sortByKey entries).length := by
      rw [sortByKey, List.length_insertionSort, length_keyed hkeyed]
    refine ⟨entries, rfl, ?_⟩
    cases verifySample with
    | none =>
      cases h
      exact ⟨rfl, rfl, hlength, by simp⟩
    | some rate =>
      cases h
      refine ⟨rfl, rfl, hlength, ?_⟩
      intro rate' hrate
      cases hrate
      exact ⟨rfl, rfl, rfl⟩

theorem fromUTF8?_toUTF8 (text : String) : String.fromUTF8? text.toUTF8 = some text := by
  have hvalid : text.toUTF8.IsValidUTF8 := text.isValidUTF8
  rw [String.fromUTF8?, dif_pos hvalid]
  rfl

/-- Lines that a reader takes for their own ids are parsed as they were written. -/
theorem parseKeyedLines_joinLines {readers : S3.Readers} {entries : List (Int × List Char)}
    (h : ∀ e ∈ entries, IsLine e.2 ∧ e.2 ≠ [] ∧ S3.readKeyed readers idCol e.2 = .ok e) :
    S3.parseKeyedLines readers (S3.joinLines (entries.map (·.2))).toUTF8 idCol = .ok (sortByKey entries) := by
  have hlines : lines (S3.joinLines (entries.map (·.2))).toList = entries.map (·.2) := by
    rw [S3.joinLines, String.toList_ofList]
    apply lines_flatMap
    intro line hline
    obtain ⟨e, he, rfl⟩ := List.mem_map.1 hline
    exact (h e he).1
  have hfilter : (entries.map (·.2)).filter (· ≠ []) = entries.map (·.2) := by
    rw [List.filter_eq_self]
    intro line hline
    obtain ⟨e, he, rfl⟩ := List.mem_map.1 hline
    simpa using (h e he).2.1
  have hread : (entries.map (·.2)).mapM (S3.readKeyed readers idCol) = .ok entries := by
    clear hlines hfilter
    induction entries with
    | nil => rfl
    | cons e entries ih =>
      obtain ⟨he, hrest⟩ := List.forall_mem_cons.1 h
      rw [List.map_cons, List.mapM_cons, he.2.2, ih hrest]
      rfl
  simp only [S3.parseKeyedLines, fromUTF8?_toUTF8, hlines, hfilter, hread]
  rfl

/-- The reader finds in the line of a row what the row has as its id. -/
def ReadsIds (order : S3.MapOrder) (readers : S3.Readers) (idCol : String) (rows : List Row) : Prop :=
  ∀ row ∈ rows, ∃ v, readers.fromStr (S3.rowJson order row) = .ok v ∧ v.get idCol = row.get idCol

def Prints (rows : List Row) : Prop := ∀ row ∈ rows, ∀ c ∈ row.iter, c.2.Prints

theorem mem_of_mem_insertField {columns fields : List (String × Value)} {e : String × Value}
    (h : e ∈ columns.foldl (fun fields c => S3.insertField fields c.1 c.2) fields) : e ∈ columns ∨ e ∈ fields := by
  induction columns generalizing fields with
  | nil => exact .inr h
  | cons c columns ih =>
    rcases ih h with h | h
    · exact .inl (List.mem_cons_of_mem _ h)
    change e ∈ S3.insertField fields c.1 c.2 at h
    unfold S3.insertField at h
    split_ifs at h
    · obtain ⟨field, hfield, heq⟩ := List.mem_map.1 h
      split_ifs at heq
      · exact .inl (heq ▸ List.mem_cons_self)
      · exact .inr (heq ▸ hfield)
    · rcases List.mem_append.1 h with h | h
      · exact .inr h
      · exact .inl (List.mem_singleton.1 h ▸ List.mem_cons_self)

theorem mem_of_mem_rowMap {e : String × Value} (h : e ∈ S3.rowMap order row) : e ∈ row.iter := by
  cases order with
  | sorted =>
    rcases SortedMap.mem_of_mem_foldl_insert h with h | h
    · exact h
    · cases h
  | inserted =>
    rcases mem_of_mem_insertField h with h | h
    · exact h
    · cases h

theorem rowJson_isLine (h : ∀ c ∈ row.iter, c.2.Prints) : IsLine (S3.rowJson order row) ∧ S3.rowJson order row ≠ [] := by
  constructor
  · exact isLine_object fun field hfield => h field (mem_of_mem_rowMap hfield)
  · simp [S3.rowJson, Value.render]

theorem readKeyed_rowJson {readers : S3.Readers} (hreads : ReadsIds order readers idCol rows) (hrow : row ∈ rows) {id : Int}
    (hid : rowId idCol row = some id) : S3.readKeyed readers idCol (S3.rowJson order row) = .ok (id, S3.rowJson order row) := by
  obtain ⟨v, hv, hget⟩ := hreads row hrow
  rw [rowId] at hid
  simp only [S3.readKeyed, hv, hget, hid]

/-- The object of the rows is parsed as the lines that it was made of. -/
theorem parseKeyedLines_buildChunk {sha256Hex : ByteArray → String} {readers : S3.Readers} {verifySample : Option Rate}
    {object : S3.ChunkObject} (h : S3.buildChunk order sha256Hex rows idCol verifySample = .ok object) (hprints : Prints rows)
    (hreads : ReadsIds order readers idCol rows) : ∃ entries, keyed idCol (S3.rowJson order) rows = .ok entries ∧
      S3.parseKeyedLines readers object.ndjson idCol = .ok (sortByKey entries) ∧
      object.Of sha256Hex verifySample (sortByKey entries) := by
  obtain ⟨entries, hkeyed, hobject⟩ := buildChunk_ok h
  have hall : ∀ e ∈ sortByKey entries, IsLine e.2 ∧ e.2 ≠ [] ∧ S3.readKeyed readers idCol e.2 = .ok e := by
    intro e he
    rw [sortByKey, List.mem_insertionSort] at he
    obtain ⟨row, hrow, hid, hline⟩ := mem_of_keyed hkeyed he
    obtain ⟨hisLine, hne⟩ := rowJson_isLine (hprints row hrow)
    have hread := readKeyed_rowJson hreads hrow hid
    rw [hline] at hisLine hne hread
    exact ⟨hisLine, hne, hread⟩
  have hsorted : sortByKey (sortByKey entries) = sortByKey entries :=
    (List.pairwise_insertionSort _ entries).insertionSort_eq
  refine ⟨entries, hkeyed, ?_, hobject⟩
  rw [hobject.ndjson, parseKeyedLines_joinLines hall, hsorted]

/-! ### The digests are canonical -/

/-- Rows with one id have their columns in the same order. -/
def SameColumns (idCol : String) (rows rows' : List Row) : Prop :=
  ∀ row ∈ rows, ∀ row' ∈ rows', rowId idCol row = rowId idCol row' → row.iter = row'.iter

theorem rowJson_agree (hrows : ∀ row ∈ rows, Distinct row) (h : order = .sorted ∨ SameColumns idCol rows rows') :
    ∀ row ∈ rows, ∀ row' ∈ rows', row.iter.Perm row'.iter → S3.rowJson order row = S3.rowJson order row' := by
  intro row hrow row' hrow' hperm
  rcases h with rfl | hsame
  · exact rowJson_perm (hrows row hrow) hperm
  · have hiter := hsame row hrow row' hrow' (rowId_perm (hrows row hrow) hperm)
    have hmap : S3.rowMap order row = S3.rowMap order row' := by
      unfold S3.rowMap
      rw [hiter]
    rw [S3.rowJson, S3.rowJson, hmap]

theorem buildChunk_reordered (sha256Hex : ByteArray → String) (verifySample : Option Rate) (h : Reordered rows rows')
    (hrows : ∀ row ∈ rows, Distinct row) (hids : DistinctIds idCol rows)
    (hagree : order = .sorted ∨ SameColumns idCol rows rows') :
    S3.buildChunk order sha256Hex rows idCol verifySample = S3.buildChunk order sha256Hex rows' idCol verifySample := by
  have hsorted := sorted_reordered h (rowJson_agree hrows hagree) hrows hids
  have hlength : rows.length = rows'.length := by
    obtain ⟨mid, hperm, hcolumns⟩ := h
    exact hperm.length_eq.trans hcolumns.length_eq
  have hnil : rows = [] ↔ rows' = [] := by rw [← List.length_eq_zero_iff, hlength, List.length_eq_zero_iff]
  rw [S3.buildChunk, S3.buildChunk, hsorted, hlength]
  simp only [hnil]

theorem chunkDigest_reordered (sha256Hex : ByteArray → String) (verifySample : Option Rate) (h : Reordered rows rows')
    (hrows : ∀ row ∈ rows, Distinct row) (hids : DistinctIds idCol rows) :
    Clickhouse.chunkDigest sha256Hex rows idCol verifySample = Clickhouse.chunkDigest sha256Hex rows' idCol verifySample := by
  rw [chunkDigest_eq, chunkDigest_eq,
    sorted_reordered h (fun row hrow _ _ => canonicalLine_perm (hrows row hrow)) hrows hids]

/-- The lines of an object can be told from its text. -/
theorem joinLines_inj {texts texts' : List (List Char)} (h : ∀ text ∈ texts, IsLine text)
    (h' : ∀ text ∈ texts', IsLine text) (heq : (S3.joinLines texts).toUTF8 = (S3.joinLines texts').toUTF8) :
    texts = texts' := by
  have hlist := congrArg String.toList (String.toByteArray_inj.1 heq)
  rw [S3.joinLines, S3.joinLines, String.toList_ofList, String.toList_ofList] at hlist
  rw [← lines_flatMap h, hlist, lines_flatMap h']

/-- Objects with the same text are made of the same lines. -/
theorem entries_eq_of_ndjson {entries entries' : List (Int × List Char)} (hids : entries.map Prod.fst = entries'.map Prod.fst)
    (hlines : ∀ e ∈ entries, IsLine e.2) (hlines' : ∀ e ∈ entries', IsLine e.2)
    (h : (S3.joinLines (entries.map (·.2))).toUTF8 = (S3.joinLines (entries'.map (·.2))).toUTF8) : entries = entries' := by
  have hsnd : entries.map (·.2) = entries'.map (·.2) :=
    joinLines_inj (List.forall_mem_map.2 hlines) (List.forall_mem_map.2 hlines') h
  exact (List.zip_of_prod hids hsnd).trans (List.zip_of_prod rfl rfl).symm

/-- The ids in their order are the same. -/
theorem sorted_ids {f g : Row → α} {entries entries' : List (Int × α)} (h : Reordered rows rows')
    (hrows : ∀ row ∈ rows, Distinct row) (hids : DistinctIds idCol rows) (hkeyed : keyed idCol f rows = .ok entries)
    (hkeyed' : keyed idCol g rows' = .ok entries') :
    (sortByKey entries).map Prod.fst = (sortByKey entries').map Prod.fst := by
  have hforget {f : Row → α} {rows : List Row} {entries : List (Int × α)} (hkeyed : keyed idCol f rows = .ok entries) :
      (keyed idCol (fun _ => ()) rows).map sortByKey = .ok ((sortByKey entries).map (Prod.map id fun _ => ())) := by
    rw [keyed_map (fun _ => ()) f rows, hkeyed]
    exact congrArg Except.ok (sortByKey_map (fun _ => ()) entries)
  have hsorted : (keyed idCol (fun _ => ()) rows).map sortByKey = (keyed idCol (fun _ => ()) rows').map sortByKey :=
    sorted_reordered h (fun _ _ _ _ _ => rfl) hrows hids
  rw [hforget hkeyed, hforget hkeyed'] at hsorted
  have hfst := congrArg (List.map Prod.fst) (Except.ok.inj hsorted)
  rwa [List.map_map, List.map_map] at hfst

theorem isLine_keyed {entries : List (Int × List Char)} (h : keyed idCol (S3.rowJson order) rows = .ok entries)
    (hprints : Prints rows) : ∀ e ∈ sortByKey entries, IsLine e.2 := by
  intro e he
  rw [sortByKey, List.mem_insertionSort] at he
  obtain ⟨row, hrow, -, hline⟩ := mem_of_keyed h he
  exact hline ▸ (rowJson_isLine (hprints row hrow)).1

theorem Prints.reordered (h : Reordered rows rows') (hprints : Prints rows) : Prints rows' := by
  intro row' hrow' c hc
  obtain ⟨row, hrow, hperm⟩ := h.exists_row hrow'
  exact hprints row hrow c (hperm.mem_iff.2 hc)

/-- Objects of one text come from rows with their columns in the same order, where a map keeps it. -/
theorem sameColumns_of_ndjson {sha256Hex : ByteArray → String} {verifySample : Option Rate} {object object' : S3.ChunkObject}
    (h : Reordered rows rows') (hrows : ∀ row ∈ rows, Distinct row) (hids : DistinctIds idCol rows) (hprints : Prints rows)
    (hbuild : S3.buildChunk .inserted sha256Hex rows idCol verifySample = .ok object)
    (hbuild' : S3.buildChunk .inserted sha256Hex rows' idCol verifySample = .ok object')
    (hndjson : object.ndjson = object'.ndjson) : SameColumns idCol rows rows' := by
  obtain ⟨entries, hkeyed, hobject⟩ := buildChunk_ok hbuild
  obtain ⟨entries', hkeyed', hobject'⟩ := buildChunk_ok hbuild'
  rw [hobject.ndjson, hobject'.ndjson] at hndjson
  have hentries := entries_eq_of_ndjson (sorted_ids h hrows hids hkeyed hkeyed') (isLine_keyed hkeyed hprints)
    (isLine_keyed hkeyed' (hprints.reordered h)) hndjson
  intro row hrow row' hrow' hid
  obtain ⟨id, hid', hmem⟩ := exists_of_keyed hkeyed' hrow'
  rw [← List.mem_insertionSort (·.1 ≤ ·.1), ← sortByKey, ← hentries, sortByKey, List.mem_insertionSort] at hmem
  obtain ⟨other, hother, hotherId, hjson⟩ := mem_of_keyed hkeyed hmem
  obtain ⟨same, hsame, hperm⟩ := h.exists_row hrow'
  have hsameId : rowId idCol same = some id := (rowId_perm (hrows same hsame) hperm).trans hid'
  obtain rfl := hids.eq_of_rowId hother hrow hotherId (hid.trans hid')
  obtain rfl := hids.eq_of_rowId hsame hother hsameId hotherId
  exact iter_eq_of_rowJson (hrows same hsame) hperm hjson

theorem buildChunk_eq_error (sha256Hex : ByteArray → String) (verifySample : Option Rate) {row : Row} (hrow : row ∈ rows)
    (hid : rowId idCol row = none) : S3.buildChunk order sha256Hex rows idCol verifySample =
      .error (.cold s!"cold sink row has no integer `{idCol}`") := by
  have hall : ¬ ∀ row ∈ rows, (rowId idCol row).isSome = true := by
    intro hall
    have hsome := hall row hrow
    rw [hid] at hsome
    cases hsome
  rw [S3.buildChunk, if_neg (List.ne_nil_of_mem hrow), keyed_eq, if_neg hall]
  rfl

theorem buildChunk_total (sha256Hex : ByteArray → String) (verifySample : Option Rate) (hne : rows ≠ [])
    (hall : ∀ row ∈ rows, rowId idCol row ≠ none) :
    ∃ object, S3.buildChunk order sha256Hex rows idCol verifySample = .ok object := by
  have hsome : ∀ row ∈ rows, (rowId idCol row).isSome = true :=
    fun row hrow => Option.isSome_iff_ne_none.2 (hall row hrow)
  rw [S3.buildChunk, if_neg hne, keyed_eq, if_pos hsome]
  cases verifySample with
  | none => exact ⟨_, rfl⟩
  | some rate => exact ⟨_, rfl⟩

/-- The S3 sink's digests of a chunk. -/
def S3.ChunkObject.digest (object : S3.ChunkObject) : String × String := (object.checksum, object.sampleChecksum)

/-- No other text among the two objects has the hash of one. -/
def NoCollision (sha256Hex : ByteArray → String) (built built' : Except TieringError S3.ChunkObject) : Prop :=
  ∀ object object', built = .ok object → built' = .ok object' →
    sha256Hex object.ndjson = sha256Hex object'.ndjson → object.ndjson = object'.ndjson

theorem s3_digest_iff (sha256Hex : ByteArray → String) (verifySample : Option Rate) (h : Reordered rows rows')
    (hrows : ∀ row ∈ rows, Distinct row) (hids : DistinctIds idCol rows) (hprints : Prints rows)
    (hsha : NoCollision sha256Hex (S3.buildChunk order sha256Hex rows idCol verifySample)
      (S3.buildChunk order sha256Hex rows' idCol verifySample)) :
    (S3.buildChunk order sha256Hex rows idCol verifySample).map (·.digest) =
        (S3.buildChunk order sha256Hex rows' idCol verifySample).map (·.digest) ↔
      (order = .sorted ∨ SameColumns idCol rows rows') ∨ ∃ row ∈ rows, rowId idCol row = none := by
  constructor
  · intro heq
    by_cases hnone : ∃ row ∈ rows, rowId idCol row = none
    · exact .inr hnone
    left
    by_cases hnil : rows = []
    · right
      intro row hrow
      rw [hnil] at hrow
      cases hrow
    cases order with
    | sorted => exact .inl rfl
    | inserted =>
      right
      obtain ⟨object, hbuild⟩ := buildChunk_total sha256Hex verifySample hnil fun row hrow hid => hnone ⟨row, hrow, hid⟩
      rw [hbuild] at heq
      cases hbuild' : S3.buildChunk .inserted sha256Hex rows' idCol verifySample with
      | error e =>
        rw [hbuild'] at heq
        cases heq
      | ok object' =>
        rw [hbuild'] at heq
        have hchecksum : object.checksum = object'.checksum := congrArg Prod.fst (Except.ok.inj heq)
        obtain ⟨entries, -, hobject⟩ := buildChunk_ok hbuild
        obtain ⟨entries', -, hobject'⟩ := buildChunk_ok hbuild'
        rw [hobject.checksum, hobject'.checksum] at hchecksum
        exact sameColumns_of_ndjson h hrows hids hprints hbuild hbuild' (hsha object object' hbuild hbuild' hchecksum)
  · rintro (hagree | ⟨row, hrow, hid⟩)
    · rw [buildChunk_reordered sha256Hex verifySample h hrows hids hagree]
    · obtain ⟨mid, hperm, hcolumns⟩ := h
      obtain ⟨row', hrow', hiter⟩ := exists_right_of_forall₂ hcolumns (hperm.mem_iff.1 hrow)
      rw [buildChunk_eq_error sha256Hex verifySample hrow hid,
        buildChunk_eq_error sha256Hex verifySample hrow' ((rowId_perm (hrows row hrow) hiter).symm.trans hid)]

/-- The ClickHouse digest is that of the canonical lines in the order of the ids. -/
theorem chunkDigest_ok {sha256Hex : ByteArray → String} {verifySample : Option Rate} {digest : Clickhouse.ChunkDigest}
    (hids : DistinctIds idCol rows) (h : Clickhouse.chunkDigest sha256Hex rows idCol verifySample = .ok digest) :
    ∃ sorted : List (Int × List Char),
      (sorted.map fun e => (some e.1, e.2)).Perm (rows.map fun row => (rowId idCol row, Clickhouse.canonicalLine idCol row)) ∧
        sorted.Pairwise (fun a b => a.1 < b.1) ∧ digestLines sha256Hex verifySample sorted = .ok digest := by
  rw [chunkDigest_eq] at h
  cases hkeyed : keyed idCol (Clickhouse.canonicalLine idCol) rows with
  | error e =>
    rw [hkeyed] at h
    cases h
  | ok entries =>
    rw [hkeyed] at h
    refine ⟨sortByKey entries, ?_, strict_insertionSort_of_ne (hids.pairwise hkeyed), h⟩
    rw [← keyed_ok hkeyed]
    exact (List.perm_insertionSort _ entries).map _

/-- The ClickHouse digest is that of the rows in any order, with their columns in any order. The digests of
the S3 sink are so just when maps are sorted, or rows with one id have their columns in one order, or a
row has no id. What the sink parses from an unchanged object is what it summed up. -/
theorem digest_canonical_iff (order : S3.MapOrder) (sha256Hex : ByteArray → String) (idCol : String)
    (verifySample : Option Rate) (rows : List Row) (hrows : ∀ row ∈ rows, Distinct row) (hids : DistinctIds idCol rows) :
    (∀ rows', Reordered rows rows' → Clickhouse.chunkDigest sha256Hex rows idCol verifySample =
      Clickhouse.chunkDigest sha256Hex rows' idCol verifySample) ∧
    (∀ digest, Clickhouse.chunkDigest sha256Hex rows idCol verifySample = .ok digest →
      ∃ sorted : List (Int × List Char),
        (sorted.map fun e => (some e.1, e.2)).Perm
            (rows.map fun row => (rowId idCol row, Clickhouse.canonicalLine idCol row)) ∧
          sorted.Pairwise (fun a b => a.1 < b.1) ∧ digestLines sha256Hex verifySample sorted = .ok digest) ∧
    (∀ rows', Reordered rows rows' → Prints rows →
      NoCollision sha256Hex (S3.buildChunk order sha256Hex rows idCol verifySample)
        (S3.buildChunk order sha256Hex rows' idCol verifySample) →
      ((S3.buildChunk order sha256Hex rows idCol verifySample).map (·.digest) =
          (S3.buildChunk order sha256Hex rows' idCol verifySample).map (·.digest) ↔
        (order = .sorted ∨ SameColumns idCol rows rows') ∨ ∃ row ∈ rows, rowId idCol row = none)) ∧
    ∀ (readers : S3.Readers) (object : S3.ChunkObject), Prints rows → ReadsIds order readers idCol rows →
      S3.buildChunk order sha256Hex rows idCol verifySample = .ok object →
      ∃ parsed, S3.parseKeyedLines readers object.ndjson idCol = .ok parsed ∧
        (parsed.map fun e => (some e.1, e.2)).Perm (rows.map fun row => (rowId idCol row, S3.rowJson order row)) ∧
        parsed.Pairwise (fun a b => a.1 < b.1) ∧ parsed.length = object.rows ∧
        ∀ rate ∈ verifySample, (S3.pickSample parsed object.sampleStep).length = object.sampleRows ∧
          sha256Hex (S3.joinLines (S3.pickSample parsed object.sampleStep)).toUTF8 = object.sampleChecksum := by
  refine ⟨?_, fun digest h => chunkDigest_ok hids h, ?_, ?_⟩
  · intro rows' h
    exact chunkDigest_reordered sha256Hex verifySample h hrows hids
  · intro rows' h hprints hsha
    exact s3_digest_iff sha256Hex verifySample h hrows hids hprints hsha
  · intro readers object hprints hreads h
    obtain ⟨entries, hkeyed, hparsed, hobject⟩ := parseKeyedLines_buildChunk h hprints hreads
    refine ⟨_, hparsed, ?_, ?_, hobject.rows.symm, ?_⟩
    · rw [← keyed_ok hkeyed]
      exact (List.perm_insertionSort _ entries).map _
    · exact strict_insertionSort_of_ne (hids.pairwise hkeyed)
    · intro rate hrate
      obtain ⟨hstep, hchecksum, hcount⟩ := hobject.sample rate hrate
      rw [hstep]
      exact ⟨hcount.symm, hchecksum.symm⟩

def secondNote : Row := ⟨["id", "note"], [.ofU64 2, .string "a\nb"]⟩

def twoNotes : List Row := [secondNote, ⟨["id", "note"], [.string "1", .string "x"]⟩]

/-- The digests of the two texts of `twoNotes`. -/
def hashOfNotes (bytes : ByteArray) : String :=
  if bytes = "\x7b\"id\":\"1\",\"note\":\"x\"\x7d\n\x7b\"id\":2,\"note\":\"a\\nb\"\x7d\n".toUTF8 then
    "72ea845de9cd48e8c6567428958fbd0b0438c787584c008907574137c2164aad"
  else "d640626aa4a17623c5677d0bfec97c9b7e843a2697cd47c8bde2b8eaa4ce9f2a"

/-- Reads the lines of `twoNotes`. -/
def readNotes : S3.Readers where
  fromStr line :=
    match twoNotes.find? fun row => S3.rowJson .inserted row = line with
    | some row => .ok (.object (S3.rowMap .inserted row))
    | none => .error "expected value at line 1 column 1"
  utf8Error _ := "incomplete utf-8 byte sequence from index 0"

theorem distinct_twoNotes : ∀ row ∈ twoNotes, Distinct row := by
  simp only [twoNotes, List.forall_mem_cons, Distinct]
  decide

theorem distinctIds_twoNotes : DistinctIds "id" twoNotes := by
  rw [DistinctIds]
  decide +kernel

theorem sameColumns_twoNotes : SameColumns "id" twoNotes twoNotes.reverse := by
  have hne : rowId "id" secondNote ≠ rowId "id" ⟨["id", "note"], [.string "1", .string "x"]⟩ := by decide +kernel
  intro row hrow other hother hid
  simp only [twoNotes, List.mem_reverse, List.mem_cons, List.not_mem_nil, or_false] at hrow hother
  rcases hrow with rfl | rfl
  · rcases hother with rfl | rfl
    · rfl
    · exact absurd hid hne
  · rcases hother with rfl | rfl
    · exact absurd hid.symm hne
    · rfl

/-- Both rows change places; in the first comparison one also has its columns the other way round. -/
theorem digest_canonical_iff_notes :
    Clickhouse.chunkDigest hashOfNotes twoNotes "id" none =
        Clickhouse.chunkDigest hashOfNotes [⟨["note", "id"], [.string "x", .string "1"]⟩, secondNote] "id" none ∧
      (S3.buildChunk .inserted hashOfNotes twoNotes "id" none).map (·.digest) =
        (S3.buildChunk .inserted hashOfNotes twoNotes.reverse "id" none).map (·.digest) ∧
      ∃ object parsed, S3.buildChunk .inserted hashOfNotes twoNotes "id" none = .ok object ∧
        S3.parseKeyedLines readNotes object.ndjson "id" = .ok parsed ∧ parsed.length = object.rows := by
  have hprints : Prints twoNotes := by
    simp only [Prints, twoNotes, secondNote, Row.iter, List.zip_cons_cons, List.zip_nil_left, List.forall_mem_cons]
    exact ⟨⟨prints_int _ _ _, prints_string _, by simp⟩, ⟨prints_string _, prints_string _, by simp⟩, by simp⟩
  have hreads : ReadsIds .inserted readNotes "id" twoNotes := by
    simp only [ReadsIds, twoNotes, List.forall_mem_cons]
    exact ⟨⟨_, rfl, rfl⟩, ⟨_, rfl, rfl⟩, by simp⟩
  have hbuild : (S3.buildChunk .inserted hashOfNotes twoNotes "id" none).toOption.any (fun _ => true) = true := by
    decide +kernel
  have hreverse : Reordered twoNotes twoNotes.reverse :=
    ⟨twoNotes.reverse, (List.reverse_perm _).symm, List.forall₂_same.2 fun _ _ => .refl _⟩
  have hsha : NoCollision hashOfNotes (S3.buildChunk .inserted hashOfNotes twoNotes "id" none)
      (S3.buildChunk .inserted hashOfNotes twoNotes.reverse "id" none) := by
    have hsame : S3.buildChunk .inserted hashOfNotes twoNotes "id" none = _ :=
      buildChunk_reordered hashOfNotes none hreverse distinct_twoNotes distinctIds_twoNotes (.inr sameColumns_twoNotes)
    intro object object' h h' _
    rw [← hsame, h] at h'
    rw [Except.ok.inj h']
  obtain ⟨hdigest, -, hobjects, hparse⟩ :=
    digest_canonical_iff .inserted hashOfNotes "id" none twoNotes distinct_twoNotes distinctIds_twoNotes
  obtain ⟨object, hobject, -⟩ := exists_ok_of_any hbuild
  obtain ⟨parsed, hparsed, -, -, hlength, -⟩ := hparse readNotes object hprints hreads hobject
  refine ⟨hdigest _ ⟨twoNotes.reverse, (List.reverse_perm _).symm, ?_⟩,
    (hobjects _ hreverse hprints hsha).2 (.inl (.inr sameColumns_twoNotes)), object, parsed, hobject, hparsed, hlength⟩
  exact .cons (.swap _ _ _) (.cons (.refl _) .nil)

def firstNote : Row := ⟨["id", "note"], [.ofU64 1, .string "x"]⟩

/-- The digests of the note in the one and the other order of its columns. -/
def hashOfOrders (bytes : ByteArray) : String :=
  if bytes = "\x7b\"id\":1,\"note\":\"x\"\x7d\n".toUTF8 then
    "5a1b5ec20fddf10afc5a8051d4b55d5d05733db9b06fb58c071dadbc9245fea4"
  else "586878b521641e891939d3288e27fe019881b8283f99776acf2d9c1ce14c4b62"

/-- Where maps keep the order of insertion, the order of the columns is in the digest. -/
theorem column_order_in_digest : ¬ ∀ rows', Reordered [firstNote] rows' →
    (S3.buildChunk .inserted hashOfOrders [firstNote] "id" none).map (·.digest) =
      (S3.buildChunk .inserted hashOfOrders rows' "id" none).map (·.digest) := by
  intro h
  have hswapped := h [⟨["note", "id"], [.string "x", .ofU64 1]⟩]
    ⟨[firstNote], .refl _, .cons (.swap _ _ _) .nil⟩
  have hdigest := congrArg (fun r => r.toOption.map Prod.fst) hswapped
  exact absurd hdigest (by decide +kernel)

end Ecat.Sink
