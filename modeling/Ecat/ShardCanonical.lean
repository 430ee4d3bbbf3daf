import Ecat.JsonTexts
import Ecat.ShardCatalog
import Ecat.SortedList

/-! The text a shard key is hashed by tells the key up to the order of the members of its objects. -/

namespace Ecat.Json

/-! ### Values up to the order of members -/

/-- Equal up to the order in which objects have their members. -/
inductive Same : Value → Value → Prop
  | null : Same .null .null
  | bool (flag : Bool) : Same (.bool flag) (.bool flag)
  | number (n : Number) : Same (.number n) (.number n)
  | string (text : String) : Same (.string text) (.string text)
  | array {items others : List Value} (length : items.length = others.length)
      (each : ∀ (i : Nat) item other, items[i]? = some item → others[i]? = some other → Same item other) :
      Same (.array items) (.array others)
  | object {fields others : List (String × Value)} (keys : (fields.map Prod.fst).Perm (others.map Prod.fst))
      (each : ∀ key item other, (key, item) ∈ fields → (key, other) ∈ others → Same item other) :
      Same (.object fields) (.object others)

/-- No object in the value has two members of one name. -/
def Value.Keyed : Value → Prop
  | .array items => ofItems items
  | .object fields => (fields.map Prod.fst).Nodup ∧ ofFields fields
  | _ => True
where
  ofItems : List Value → Prop
    | [] => True
    | item :: items => item.Keyed ∧ ofItems items
  ofFields : List (String × Value) → Prop
    | [] => True
    | (_, item) :: fields => item.Keyed ∧ ofFields fields

/-- The value with the members of every object in the order of their names. -/
def Value.sorted : Value → Value
  | .array items => .array (ofItems items)
  | .object fields => .object ((ofFields fields).insertionSort (·.1 ≤ ·.1))
  | v => v
where
  ofItems : List Value → List Value
    | [] => []
    | item :: items => item.sorted :: ofItems items
  ofFields : List (String × Value) → List (String × Value)
    | [] => []
    | (key, item) :: fields => (key, item.sorted) :: ofFields fields

def Value.sortedField (field : String × Value) : String × Value := (field.1, field.2.sorted)

theorem keyed_items {items : List Value} : Value.Keyed.ofItems items ↔ ∀ item ∈ items, item.Keyed := by
  induction items with
  | nil => simp [Value.Keyed.ofItems]
  | cons item items ih => simp [Value.Keyed.ofItems, ih]

theorem keyed_fields {fields : List (String × Value)} :
    Value.Keyed.ofFields fields ↔ ∀ field ∈ fields, field.2.Keyed := by
  induction fields with
  | nil => simp [Value.Keyed.ofFields]
  | cons field fields ih => simp [Value.Keyed.ofFields, ih]

theorem sorted_items (items : List Value) : Value.sorted.ofItems items = items.map Value.sorted := by
  induction items with
  | nil => rfl
  | cons item items ih => rw [Value.sorted.ofItems, ih, List.map_cons]

theorem sorted_fields (fields : List (String × Value)) :
    Value.sorted.ofFields fields = fields.map Value.sortedField := by
  induction fields with
  | nil => rfl
  | cons field fields ih => rw [Value.sorted.ofFields, ih, List.map_cons, Value.sortedField]

/-- The canonical text is the compact text of the sorted value. -/
theorem writeCanonical_eq (v : Value) : writeCanonical v = v.sorted.render id := by
  induction v using Value.induction with
  | array items ih =>
    have hitems : items.map writeCanonical = (items.map Value.sorted).map (·.render id) := by
      rw [List.map_map]
      exact List.map_congr_left ih
    rw [writeCanonical, Value.sorted, Value.render, Value.render, renderItems_eq_map, renderItems_eq_map, sorted_items,
      ← hitems]
    rfl
  | object fields ih =>
    let written (field : String × Value) := (field.1, writeCanonical field.2)
    let order (a b : String × Value) := a.1 ≤ b.1
    have hfields : fields.map written =
        (fields.map Value.sortedField).map fun field => (field.1, field.2.render id) := by
      rw [List.map_map]
      exact List.map_congr_left fun field hfield => congrArg (Prod.mk field.1) (ih field hfield)
    have hsort : ((fields.map Value.sortedField).insertionSort order).map
        (fun field => (field.1, field.2.render id)) = (fields.map written).insertionSort (·.1 ≤ ·.1) := by
      rw [hfields]
      exact List.map_insertionSort order _ _ _ fun _ _ _ _ => Iff.rfl
    rw [writeCanonical, Value.sorted, Value.render, Value.render, renderFields_eq_map, renderFields_eq_map,
      sorted_fields, id, hsort]
    rfl
  | _ => rfl

/-! ### Sorting forgets the order of members, and no more -/

theorem value_unique {fields : List (String × Value)} (h : (fields.map Prod.fst).Nodup) {key : String}
    {item other : Value} (hitem : (key, item) ∈ fields) (hother : (key, other) ∈ fields) : item = other :=
  (Prod.mk.inj (List.inj_on_of_nodup_map h hitem hother rfl)).2

theorem sortedField_names (fields : List (String × Value)) :
    (fields.map Value.sortedField).map Prod.fst = fields.map Prod.fst := by
  rw [List.map_map]
  rfl

/-- Each sorted member of the one object is one of the other. -/
theorem sorted_mem {fields others : List (String × Value)} (keys : (fields.map Prod.fst).Perm (others.map Prod.fst))
    (h : ∀ key item other, (key, item) ∈ fields → (key, other) ∈ others → item.sorted = other.sorted)
    {field : String × Value} (hfield : field ∈ fields.map Value.sortedField) :
    field ∈ others.map Value.sortedField := by
  obtain ⟨⟨key, item⟩, hitem, rfl⟩ := List.mem_map.1 hfield
  obtain ⟨⟨_, other⟩, hother, rfl⟩ := List.mem_map.1 (keys.mem_iff.1 (List.mem_map_of_mem hitem))
  exact List.mem_map.2 ⟨_, hother, by rw [Value.sortedField, Value.sortedField, h _ item other hitem hother]⟩

theorem sorted_eq_of_same {v w : Value} (h : Same v w) (hv : v.Keyed) (hw : w.Keyed) : v.sorted = w.sorted := by
  induction h with
  | @array items others length each ih =>
    have hitems : items.map Value.sorted = others.map Value.sorted := by
      apply List.ext_getElem
      · rw [List.length_map, List.length_map, length]
      · intro i hi hi'
        rw [List.length_map] at hi hi'
        rw [List.getElem_map, List.getElem_map]
        exact ih i _ _ (List.getElem?_eq_getElem hi) (List.getElem?_eq_getElem hi')
          (keyed_items.1 hv _ (List.getElem_mem hi)) (keyed_items.1 hw _ (List.getElem_mem hi'))
    rw [Value.sorted, Value.sorted, sorted_items, sorted_items, hitems]
  | @object fields others keys each ih =>
    have hitem : ∀ key item other, (key, item) ∈ fields → (key, other) ∈ others → item.sorted = other.sorted :=
      fun key item other hmem hmem' =>
        ih key item other hmem hmem' (keyed_fields.1 hv.2 _ hmem) (keyed_fields.1 hw.2 _ hmem')
    have hnodup : ((fields.map Value.sortedField).map Prod.fst).Nodup := by rw [sortedField_names]; exact hv.1
    have hnodup' : ((others.map Value.sortedField).map Prod.fst).Nodup := by rw [sortedField_names]; exact hw.1
    have hperm : (fields.map Value.sortedField).Perm
        (others.map Value.sortedField) := by
      refine (List.perm_ext_iff_of_nodup hnodup.of_map hnodup'.of_map).2 fun field => ⟨sorted_mem keys hitem, ?_⟩
      exact sorted_mem keys.symm fun key item other hmem hmem' => (hitem key other item hmem' hmem).symm
    rw [Value.sorted, Value.sorted, sorted_fields, sorted_fields,
      insertionSort_eq_of_perm (f := Prod.fst) hperm (List.pairwise_map.1 hnodup)]
  | _ => rfl

theorem same_of_sorted_eq {v w : Value} (h : v.sorted = w.sorted) (hw : w.Keyed) : Same v w := by
  induction v using Value.induction generalizing w with
  | null =>
    cases w with
    | null => exact .null
    | _ => simp [Value.sorted] at h
  | bool flag =>
    cases w with
    | bool other =>
      obtain rfl := Value.bool.inj h
      exact .bool flag
    | _ => simp [Value.sorted] at h
  | number n =>
    cases w with
    | number m =>
      obtain rfl := Value.number.inj h
      exact .number n
    | _ => simp [Value.sorted] at h
  | string text =>
    cases w with
    | string other =>
      obtain rfl := Value.string.inj h
      exact .string text
    | _ => simp [Value.sorted] at h
  | array items ih =>
    cases w with
    | array others =>
      rw [Value.sorted, Value.sorted, sorted_items, sorted_items] at h
      have hitems := Value.array.inj h
      refine .array (by simpa using congrArg List.length hitems) fun i item other hitem hother => ?_
      have hget := congrArg (·[i]?) hitems
      simp only [List.getElem?_map, hitem, hother, Option.map_some] at hget
      exact ih item (List.mem_of_getElem? hitem) (Option.some.inj hget) (keyed_items.1 hw other (List.mem_of_getElem? hother))
    | _ => simp [Value.sorted] at h
  | object fields ih =>
    cases w with
    | object others =>
      rw [Value.sorted, Value.sorted, sorted_fields, sorted_fields] at h
      have hperm := (List.perm_insertionSort _ _).symm.trans
        ((List.Perm.of_eq (Value.object.inj h)).trans (List.perm_insertionSort _ _))
      have hkeys : (fields.map Prod.fst).Perm (others.map Prod.fst) := by
        rw [← sortedField_names fields, ← sortedField_names others]
        exact hperm.map Prod.fst
      refine .object hkeys fun key item other hitem hother => ?_
      have hmem := hperm.mem_iff.1 (List.mem_map_of_mem hitem)
      obtain ⟨⟨_, found⟩, hfound, heq⟩ := List.mem_map.1 hmem
      obtain ⟨rfl, hsorted⟩ := Prod.mk.inj heq
      obtain rfl := value_unique hw.1 hfound hother
      exact ih _ hitem hsorted.symm (keyed_fields.1 hw.2 _ hother)
    | _ => simp [Value.sorted] at h

theorem mem_numbers_sorted {v : Value} {n : Number} (h : n ∈ v.sorted.numbers) : n ∈ v.numbers := by
  induction v using Value.induction with
  | array items ih =>
    rw [Value.sorted, Value.numbers, sorted_items, mem_numbers_items] at h
    obtain ⟨_, hmem, hn⟩ := h
    obtain ⟨item, hitem, rfl⟩ := List.mem_map.1 hmem
    exact mem_numbers_items.2 ⟨item, hitem, ih item hitem hn⟩
  | object fields ih =>
    rw [Value.sorted, Value.numbers, sorted_fields, mem_numbers_fields] at h
    obtain ⟨_, hmem, hn⟩ := h
    rw [List.mem_insertionSort] at hmem
    obtain ⟨field, hfield, rfl⟩ := List.mem_map.1 hmem
    exact mem_numbers_fields.2 ⟨field, hfield, ih field hfield hn⟩
  | _ => exact h

end Ecat.Json

namespace Ecat.Shard

open Json

/-! ### Keys -/

theorem stableHash64_same {v w : Value} (h : Same v w) (htext : writeCanonical v = writeCanonical w) :
    stableHash64 v = stableHash64 w := by
  cases h with
  | array length each => rw [stableHash64, stableHash64, htext] <;> simp
  | object keys each => rw [stableHash64, stableHash64, htext] <;> simp
  | _ => rfl

theorem shardFor_same {v w : Value} (h : Same v w) (hhash : stableHash64 v = stableHash64 w) (t : ShardTable) :
    t.shardFor v = t.shardFor w := by
  unfold ShardTable.shardFor
  rw [hhash]
  cases h <;> rfl

/-- The canonical texts of two keys are equal exactly where the keys are, up to the order of members; such keys have
one hash and go to one shard. -/
theorem canonical_text_iff_same {holds : Number → Prop} (hp : Printing holds) {v w : Value}
    (hv : ∀ n ∈ v.numbers, holds n) (hw : ∀ n ∈ w.numbers, holds n) (hkv : v.Keyed) (hkw : w.Keyed) :
    (writeCanonical v = writeCanonical w ↔ Same v w) ∧
      (Same v w → stableHash64 v = stableHash64 w ∧
        ∀ (c : ShardCatalog) table, c.shardFor table v = c.shardFor table w) := by
  have hiff : writeCanonical v = writeCanonical w ↔ Same v w := by
    rw [writeCanonical_eq, writeCanonical_eq]
    constructor
    · intro h
      have hsorted := render_inj_nil hp (fun n hn => hv n (mem_numbers_sorted hn)) (fun n hn => hw n (mem_numbers_sorted hn)) h
      exact same_of_sorted_eq hsorted hkw
    · intro h
      rw [sorted_eq_of_same h hkv hkw]
  refine ⟨hiff, fun h => ?_⟩
  have hhash := stableHash64_same h (hiff.2 h)
  refine ⟨hhash, fun c table => ?_⟩
  unfold ShardCatalog.shardFor
  cases c.table table with
  | error e => rfl
  | ok t => exact shardFor_same h hhash t

/-- `{"region": "eu", "tenant": [7, {"b": 1, "a": null}]}`, in this order and in the other. -/
def tenantKey : Value :=
  .object [("region", .string "eu"), ("tenant", .array [.ofU64 7, .object [("b", .ofU64 1), ("a", .null)]])]

def tenantKeyTurned : Value :=
  .object [("tenant", .array [.ofU64 7, .object [("a", .null), ("b", .ofU64 1)]]), ("region", .string "eu")]

theorem tenant_key_hashes_alike : Same tenantKey tenantKeyTurned ∧
    writeCanonical tenantKey = writeCanonical tenantKeyTurned ∧
    stableHash64 tenantKey = stableHash64 tenantKeyTurned ∧
    ∀ (c : ShardCatalog) table, c.shardFor table tenantKey = c.shardFor table tenantKeyTurned := by
  have hkeyed : tenantKey.Keyed := by
    simp [tenantKey, Value.Keyed, Value.Keyed.ofFields, Value.Keyed.ofItems, Value.ofU64]
  have hturned : tenantKeyTurned.Keyed := by
    simp [tenantKeyTurned, Value.Keyed, Value.Keyed.ofFields, Value.Keyed.ofItems, Value.ofU64]
  have hsame : Same tenantKey tenantKeyTurned := same_of_sorted_eq (by rfl) hturned
  obtain ⟨htext, hhash⟩ := canonical_text_iff_same printing_isInt (v := tenantKey) (w := tenantKeyTurned)
    (by simp [tenantKey, Value.numbers, Value.numbers.ofFields, Value.numbers.ofItems, Value.ofU64, Number.IsInt])
    (by simp [tenantKeyTurned, Value.numbers, Value.numbers.ofFields, Value.numbers.ofItems, Value.ofU64, Number.IsInt])
    hkeyed hturned
  exact ⟨hsame, htext.2 hsame, hhash hsame⟩

end Ecat.Shard
