import Ecat.CassandraKeys

/-! Maps of CQL as objects of JSON: which keys are told apart, and when no entry is lost. -/

namespace Ecat.Cassandra

open Json

/-! ### Values that are not told apart -/

/-- NULL, and what JSON has only null for. -/
def TakenForNull : Option CqlValue → Prop
  | none => True
  | some (.native v) => v.NotFinite
  | _ => False

/-- The same but for what is taken for null, for the form of its integers and decimals, and for the order of the
entries in its maps. -/
inductive Alike : Option CqlValue → Option CqlValue → Prop
  | null {v w : Option CqlValue} (hv : TakenForNull v) (hw : TakenForNull w) : Alike v w
  | native {v w : Native} (h : v.Alike w) : Alike (some (.native v)) (some (.native w))
  | empty : Alike (some .empty) (some .empty)
  | list {items others : List CqlValue} (length : items.length = others.length)
      (each : ∀ (i : Nat) item other, items[i]? = some item → others[i]? = some other → Alike (some item) (some other)) :
      Alike (some (.list items)) (some (.list others))
  | set {items others : List CqlValue} (length : items.length = others.length)
      (each : ∀ (i : Nat) item other, items[i]? = some item → others[i]? = some other → Alike (some item) (some other)) :
      Alike (some (.set items)) (some (.set others))
  | vector {items others : List CqlValue} (length : items.length = others.length)
      (each : ∀ (i : Nat) item other, items[i]? = some item → others[i]? = some other → Alike (some item) (some other)) :
      Alike (some (.vector items)) (some (.vector others))
  | map {entries others : List (CqlValue × CqlValue)} (length : entries.length = others.length)
      (partner : CqlValue × CqlValue → CqlValue × CqlValue) (mem : ∀ entry ∈ entries, partner entry ∈ others)
      (keys : ∀ entry ∈ entries, Alike (some entry.1) (some (partner entry).1))
      (values : ∀ entry ∈ entries, Alike (some entry.2) (some (partner entry).2)) :
      Alike (some (.map entries)) (some (.map others))
  | tuple {items others : List (Option CqlValue)} (length : items.length = others.length)
      (each : ∀ (i : Nat) item other, items[i]? = some item → others[i]? = some other → Alike item other) :
      Alike (some (.tuple items)) (some (.tuple others))
  | userDefinedType {fields others : List (String × Option CqlValue)} (names : fields.map Prod.fst = others.map Prod.fst)
      (each : ∀ (i : Nat) field other, fields[i]? = some field → others[i]? = some other → Alike field.2 other.2) :
      Alike (some (.userDefinedType fields)) (some (.userDefinedType others))

variable (T : UuidText)

/-- Every map in the value, also in keys, has one member for each entry, with the converted value of the entry. -/
def Lossless (v : CqlValue) : Prop :=
  ∀ entries, v.Within (.map entries) →
    ∃ members, valueToJson T (.map entries) = .object members ∧ members.Perm (entries.map (memberOf T))

/-- No map in the value has two keys that are alike. -/
def Separated (v : CqlValue) : Prop :=
  ∀ entries, v.Within (.map entries) → entries.Pairwise fun entry other => ¬ Alike (some entry.1) (some other.1)

/-- The keys of each map in the value are of one type. -/
def KeysTyped (v : CqlValue) : Prop :=
  ∀ entries, v.Within (.map entries) → ∃ t, ∀ entry ∈ entries, HasType entry.1 t

def Double.numbers : Double → List Number
  | .finite value text => [.float value text]
  | _ => []

def Native.doubles : Native → List Number
  | .float x => x.numbers
  | .double x => x.numbers
  | _ => []

/-- The finite floats and doubles in the value. -/
def Doubles (v : CqlValue) (n : Number) : Prop := ∃ x, v.Within (.native x) ∧ n ∈ x.doubles

/-! ### Lists and objects -/

/-- Lists are turned into equal ones where they are related position by position. -/
theorem map_eq_map_iff {α β γ : Type} {f : α → γ} {g : β → γ} {R : α → β → Prop} {xs : List α} {ys : List β}
    (h : ∀ (i : Nat) x y, xs[i]? = some x → ys[i]? = some y → (f x = g y ↔ R x y)) :
    xs.map f = ys.map g ↔
      xs.length = ys.length ∧ ∀ (i : Nat) x y, xs[i]? = some x → ys[i]? = some y → R x y := by
  constructor
  · intro heq
    refine ⟨by simpa using congrArg List.length heq, fun i x y hx hy => (h i x y hx hy).1 ?_⟩
    have hget := congrArg (·[i]?) heq
    simpa [hx, hy] using hget
  · rintro ⟨hlength, hR⟩
    apply List.ext_getElem
    · rw [List.length_map, List.length_map, hlength]
    · intro i hi hi'
      rw [List.length_map] at hi hi'
      rw [List.getElem_map, List.getElem_map]
      have hx := List.getElem?_eq_getElem hi
      have hy := List.getElem?_eq_getElem hi'
      exact (h i _ _ hx hy).2 (hR i _ _ hx hy)

theorem objectOf_perm {members : List (String × Value)} (h : (members.map Prod.fst).Nodup) :
    (objectOf members).entries.Perm members := by
  refine (List.perm_ext_iff_of_nodup (objectOf members).keys_nodup.of_map h.of_map).2 fun member => ?_
  rw [objectOf, SortedMap.mem_foldl_insert h]
  simp [SortedMap.empty]

theorem objectOf_perm_iff {members : List (String × Value)} :
    (objectOf members).entries.Perm members ↔ (members.map Prod.fst).Nodup :=
  ⟨fun h => (h.map Prod.fst).nodup_iff.1 (objectOf members).keys_nodup, objectOf_perm⟩

/-- Objects do not have an order of their members. -/
theorem object_eq_iff {members others : List (String × Value)} (h : (members.map Prod.fst).Nodup)
    (h' : (others.map Prod.fst).Nodup) :
    Value.object (objectOf members).entries = .object (objectOf others).entries ↔ members.Perm others := by
  rw [Value.object.injEq]
  constructor
  · intro heq
    exact (objectOf_perm h).symm.trans (heq ▸ objectOf_perm h')
  · intro hperm
    have hsame : objectOf members = objectOf others := SortedMap.ext_mem fun member => by
      rw [(objectOf_perm h).mem_iff, (objectOf_perm h').mem_iff, hperm.mem_iff]
    rw [hsame]

/-- Members in one order of their names are the same members. -/
theorem eq_of_perm_of_names {members others : List (String × Value)} (h : members.Perm others)
    (hnames : members.map Prod.fst = others.map Prod.fst) (hnodup : (members.map Prod.fst).Nodup) : members = others := by
  induction members generalizing others with
  | nil => exact (List.nil_perm.1 h).symm
  | cons member members ih =>
    cases others with
    | nil => cases hnames
    | cons other others =>
      have htail := (List.cons.inj hnames).2
      obtain ⟨hfresh, hrest⟩ := List.nodup_cons.1 hnodup
      have hmem : member ∈ other :: others := h.mem_iff.1 List.mem_cons_self
      rcases List.mem_cons.1 hmem with rfl | hmem
      · rw [ih h.cons_inv htail hrest]
      · exact absurd (htail ▸ List.mem_map_of_mem hmem) hfresh

/-! ### What holds throughout a value -/

namespace CqlValue

theorem Within.child {v u w : CqlValue} (hu : u ∈ v.children) (h : u.Within w) : v.Within w :=
  .head hu h

theorem key_mem_children {entries : List (CqlValue × CqlValue)} {entry : CqlValue × CqlValue} (h : entry ∈ entries) :
    entry.1 ∈ (CqlValue.map entries).children := List.mem_flatMap.2 ⟨entry, h, by simp⟩

theorem value_mem_children {entries : List (CqlValue × CqlValue)} {entry : CqlValue × CqlValue} (h : entry ∈ entries) :
    entry.2 ∈ (CqlValue.map entries).children := List.mem_flatMap.2 ⟨entry, h, by simp⟩

theorem within_iff {v u : CqlValue} : v.Within u ↔ v = u ∨ ∃ w ∈ v.children, w.Within u :=
  Relation.ReflTransGen.cases_head_iff

end CqlValue

theorem Lossless.child {v u : CqlValue} (h : Lossless T v) (hu : u ∈ v.children) : Lossless T u :=
  fun entries hwithin => h entries (.child hu hwithin)

theorem Separated.child {v u : CqlValue} (h : Separated v) (hu : u ∈ v.children) : Separated u :=
  fun entries hwithin => h entries (.child hu hwithin)

theorem KeysTyped.child {v u : CqlValue} (h : KeysTyped v) (hu : u ∈ v.children) : KeysTyped u :=
  fun entries hwithin => h entries (.child hu hwithin)

def keyText (v : CqlValue) : String := keyOf (valueToJson T v)

theorem map_lossless_iff (entries : List (CqlValue × CqlValue)) :
    (∃ members, valueToJson T (.map entries) = .object members ∧ members.Perm (entries.map (memberOf T))) ↔
      (entries.map fun entry => keyText T entry.1).Nodup := by
  have hnames : (entries.map (memberOf T)).map Prod.fst = entries.map fun entry => keyText T entry.1 := by
    rw [List.map_map]
    rfl
  rw [← hnames, ← objectOf_perm_iff, valueToJson, toJson_entries]
  constructor
  · rintro ⟨members, hobject, hperm⟩
    rw [Value.object.inj hobject]
    exact hperm
  · exact fun hperm => ⟨_, rfl, hperm⟩

theorem Lossless.nodup {entries : List (CqlValue × CqlValue)} (h : Lossless T (.map entries)) :
    (entries.map fun entry => keyText T entry.1).Nodup :=
  (map_lossless_iff T entries).1 (h entries .refl)

/-! ### Keys of one type -/

section Printed

variable {holds : Number → Prop} (hp : Printing holds) (hint : ∀ n : Number, n.IsInt → holds n)

/-- The finite doubles in the value are printed so. -/
def Held (holds : Number → Prop) (v : CqlValue) : Prop := ∀ n, Doubles v n → holds n

theorem Held.child {v u : CqlValue} (h : Held holds v) (hu : u ∈ v.children) : Held holds u :=
  fun n ⟨x, hx, hn⟩ => h n ⟨x, .child hu hx, hn⟩

include hint in
theorem ofI64_numbers {k : Int} (fits : InI64 k) : ∀ n ∈ (Value.ofI64 k fits).numbers, holds n := by
  intro n hn
  rw [List.mem_singleton.1 hn]
  exact hint _ trivial

theorem double_numbers (x : Double) : x.toJson.numbers = x.numbers := by
  cases x <;> rfl

include hint in
theorem native_numbers {v : Native} (h : ∀ n ∈ v.doubles, holds n) : ∀ n ∈ (v.toJson T).numbers, holds n := by
  cases v with
  | tinyInt n => exact ofI64_numbers hint (int8_fits n)
  | smallInt n => exact ofI64_numbers hint (int16_fits n)
  | int n => exact ofI64_numbers hint (int32_fits n)
  | bigInt n => exact ofI64_numbers hint (int64_fits n)
  | counter n => exact ofI64_numbers hint (int64_fits n)
  | float x => exact (double_numbers x).symm ▸ h
  | double x => exact (double_numbers x).symm ▸ h
  | blob bytes =>
    intro n hn
    obtain ⟨item, hitem, hn⟩ := mem_numbers_items.1 hn
    obtain ⟨byte, -, rfl⟩ := List.mem_map.1 hitem
    exact ofI64_numbers hint (byte_fits byte) n hn
  | _ => exact fun n hn => absurd hn List.not_mem_nil

theorem mem_objectOf {members : List (String × Value)} {member : String × Value}
    (h : member ∈ (objectOf members).entries) : member ∈ members :=
  (SortedMap.mem_of_mem_foldl_insert h).resolve_right List.not_mem_nil

theorem cqlToJson_numbers {w : Option CqlValue} (h : ∀ v ∈ w, ∀ n ∈ (valueToJson T v).numbers, holds n) :
    ∀ n ∈ (cqlToJson T w).numbers, holds n := by
  cases w with
  | none => exact fun n hn => absurd hn List.not_mem_nil
  | some v => exact h v rfl

include hint in
theorem toJson_numbers {v : CqlValue} (h : Held holds v) : ∀ n ∈ (valueToJson T v).numbers, holds n := by
  induction v using CqlValue.induction with
  | h v ih =>
    have hitems {items : List CqlValue} (hsub : ∀ item ∈ items, item ∈ v.children) :
        ∀ n ∈ (Value.array (valueToJson.ofItems T items)).numbers, holds n := by
      intro n hn
      rw [toJson_items] at hn
      obtain ⟨item, hitem, hn⟩ := mem_numbers_items.1 hn
      obtain ⟨u, hu, rfl⟩ := List.mem_map.1 hitem
      exact ih u (hsub u hu) (h.child (hsub u hu)) n hn
    cases v with
    | native v => exact native_numbers T hint fun n hn => h n ⟨v, .refl, hn⟩
    | empty => exact fun n hn => absurd hn List.not_mem_nil
    | list items => exact hitems fun _ hitem => hitem
    | set items => exact hitems fun _ hitem => hitem
    | vector items => exact hitems fun _ hitem => hitem
    | map entries =>
      intro n hn
      rw [valueToJson, toJson_entries] at hn
      obtain ⟨member, hmember, hn⟩ := mem_numbers_fields.1 hn
      obtain ⟨entry, hentry, rfl⟩ := List.mem_map.1 (mem_objectOf hmember)
      have hchild := CqlValue.value_mem_children hentry
      exact ih entry.2 hchild (h.child hchild) n hn
    | tuple items =>
      intro n hn
      rw [valueToJson, toJson_options] at hn
      obtain ⟨item, hitem, hn⟩ := mem_numbers_items.1 hn
      obtain ⟨option, hoption, rfl⟩ := List.mem_map.1 hitem
      refine cqlToJson_numbers T (fun u hu => ?_) n hn
      have hchild : u ∈ (CqlValue.tuple items).children := List.mem_filterMap.2 ⟨option, hoption, hu⟩
      exact ih u hchild (h.child hchild)
    | userDefinedType fields =>
      intro n hn
      rw [valueToJson, toJson_fields] at hn
      obtain ⟨member, hmember, hn⟩ := mem_numbers_fields.1 hn
      obtain ⟨field, hfield, rfl⟩ := List.mem_map.1 (mem_objectOf hmember)
      refine cqlToJson_numbers T (fun u hu => ?_) n hn
      have hchild : u ∈ (CqlValue.userDefinedType fields).children := List.mem_filterMap.2 ⟨field, hfield, hu⟩
      exact ih u hchild (h.child hchild)

include hp in
theorem toText_ne_empty {v : Value} (hv : ∀ n ∈ v.numbers, holds n) (h : ¬ IsString v) : v.toText ≠ "Empty" := by
  intro heq
  have htext : v.render id = ['E', 'm', 'p', 't', 'y'] := by
    have hlist := congrArg String.toList heq
    rwa [Value.toText, String.toList_ofList] at hlist
  cases v with
  | null => exact absurd htext (by decide)
  | bool flag => cases flag <;> exact absurd htext (by decide)
  | number n =>
    have hnumber : n.toText.toList = ['E', 'm', 'p', 't', 'y'] := htext
    have hm := hp.chars n (hv n (by simp [Value.numbers])) 'm' (by rw [hnumber]; simp)
    exact absurd hm (by decide)
  | string text => exact h ⟨text, rfl⟩
  | array items => exact absurd (List.cons.inj htext).1 (by decide)
  | object fields => exact absurd (List.cons.inj htext).1 (by decide)

include hp in
theorem keyOf_eq_empty_iff {v : Value} (hv : ∀ n ∈ v.numbers, holds n) : keyOf v = "Empty" ↔ v = .string "Empty" := by
  by_cases h : IsString v
  · obtain ⟨text, rfl⟩ := h
    simp [keyOf]
  · refine iff_of_false ?_ fun heq => h ⟨_, heq⟩
    rw [keyOf_of_not_string h]
    exact toText_ne_empty hp hv h

include hp in
theorem keyOf_inj {v w : Value} (hv : ∀ n ∈ v.numbers, holds n) (hw : ∀ n ∈ w.numbers, holds n)
    (h : IsString v ↔ IsString w) : keyOf v = keyOf w ↔ v = w := by
  refine ⟨fun heq => ?_, fun heq => heq ▸ rfl⟩
  by_cases hstring : IsString v
  · obtain ⟨text, rfl⟩ := hstring
    obtain ⟨other, rfl⟩ := h.1 ⟨text, rfl⟩
    exact congrArg Value.string heq
  · rw [keyOf_of_not_string hstring, keyOf_of_not_string fun hw => hstring (h.2 hw)] at heq
    exact render_inj_nil hp hv hw (String.ofList_inj.1 heq)

/-! ### Values of one type -/

theorem native_inv {w : CqlValue} {t : NativeType} (h : HasType w (.native t)) :
    w = .empty ∧ t ∉ [NativeType.ascii, .text, .blob] ∨ ∃ v, w = .native v ∧ v.type = t := by
  generalize ht : CqlType.native t = type at h
  cases h with
  | native v => exact .inr ⟨v, rfl, (CqlType.native.inj ht).symm⟩
  | empty h =>
    subst ht
    exact .inl ⟨rfl, h⟩
  | _ => cases ht

theorem hasEmpty_of_type {t : CqlType} (h : HasType .empty t) : t.HasEmpty := by
  cases h with
  | empty h => exact h

theorem typed_ne_empty {w : CqlValue} {t : CqlType} (h : HasType w t) (ht : t.HasEmpty) (hne : w ≠ .empty) :
    valueToJson T w ≠ .string "Empty" := by
  cases h with
  | native v => exact native_ne_empty T ht
  | empty h => exact absurd rfl hne
  | _ => simp [valueToJson]

def CqlType.isText : CqlType → Bool
  | .native t => t.isText
  | _ => false

theorem typed_isString {w : CqlValue} {t : CqlType} (h : HasType w t) (hne : w ≠ .empty) :
    IsString (valueToJson T w) ↔ t.isText = true := by
  cases h with
  | native v => exact native_isString T v
  | empty h => exact absurd rfl hne
  | _ => simp [IsString, valueToJson, CqlType.isText]

/-- A value of the type that is printed so, and whose maps are whole. -/
structure Fit (holds : Number → Prop) (t : CqlType) (v : CqlValue) : Prop where
  type : HasType v t
  held : Held holds v
  lossless : Lossless T v

include hp hint in
/-- Keys of one type have one text where they have one value in JSON. -/
theorem keyText_inj {v w : CqlValue} {t : CqlType} (hv : HasType v t) (hw : HasType w t) (hheld : Held holds v)
    (hheld' : Held holds w) : keyText T v = keyText T w ↔ valueToJson T v = valueToJson T w := by
  have hnumbers := toJson_numbers T hint hheld
  have hnumbers' := toJson_numbers T hint hheld'
  by_cases hempty : v = .empty
  · subst hempty
    have hkey := keyOf_eq_empty_iff hp hnumbers'
    exact ⟨fun h => (hkey.1 h.symm).symm, fun h => (hkey.2 h.symm).symm⟩
  · by_cases hempty' : w = .empty
    · subst hempty'
      exact keyOf_eq_empty_iff hp hnumbers
    · exact keyOf_inj hp hnumbers hnumbers' ((typed_isString T hv hempty).trans (typed_isString T hw hempty').symm)

/-! ### Alike is what JSON does not tell apart -/

theorem alike_native_iff {v w : Native} :
    Alike (some (.native v)) (some (.native w)) ↔ v.Alike w ∨ v.NotFinite ∧ w.NotFinite := by
  constructor
  · intro h
    cases h with
    | null hv hw => exact .inr ⟨hv, hw⟩
    | native h => exact .inl h
  · rintro (h | ⟨hv, hw⟩)
    · exact .native h
    · exact .null hv hw

theorem alike_list_iff {items others : List CqlValue} : Alike (some (.list items)) (some (.list others)) ↔
    items.length = others.length ∧
      ∀ (i : Nat) item other, items[i]? = some item → others[i]? = some other → Alike (some item) (some other) := by
  refine ⟨fun h => ?_, fun ⟨length, each⟩ => .list length each⟩
  cases h with
  | null hv hw => exact hv.elim
  | list length each => exact ⟨length, each⟩

theorem alike_set_iff {items others : List CqlValue} : Alike (some (.set items)) (some (.set others)) ↔
    items.length = others.length ∧
      ∀ (i : Nat) item other, items[i]? = some item → others[i]? = some other → Alike (some item) (some other) := by
  refine ⟨fun h => ?_, fun ⟨length, each⟩ => .set length each⟩
  cases h with
  | null hv hw => exact hv.elim
  | set length each => exact ⟨length, each⟩

theorem alike_vector_iff {items others : List CqlValue} : Alike (some (.vector items)) (some (.vector others)) ↔
    items.length = others.length ∧
      ∀ (i : Nat) item other, items[i]? = some item → others[i]? = some other → Alike (some item) (some other) := by
  refine ⟨fun h => ?_, fun ⟨length, each⟩ => .vector length each⟩
  cases h with
  | null hv hw => exact hv.elim
  | vector length each => exact ⟨length, each⟩

theorem alike_tuple_iff {items others : List (Option CqlValue)} : Alike (some (.tuple items)) (some (.tuple others)) ↔
    items.length = others.length ∧
      ∀ (i : Nat) item other, items[i]? = some item → others[i]? = some other → Alike item other := by
  refine ⟨fun h => ?_, fun ⟨length, each⟩ => .tuple length each⟩
  cases h with
  | null hv hw => exact hv.elim
  | tuple length each => exact ⟨length, each⟩

theorem native_eq_null_iff (v : Native) : v.toJson T = .null ↔ v.NotFinite := by
  cases v with
  | float x => cases x <;> simp [Native.toJson, Double.toJson, Native.NotFinite, Double.IsFinite]
  | double x => cases x <;> simp [Native.toJson, Double.toJson, Native.NotFinite, Double.IsFinite]
  | _ => simp [Native.toJson, Value.ofI64, Native.NotFinite]

theorem cqlToJson_eq_null_iff (w : Option CqlValue) : cqlToJson T w = .null ↔ TakenForNull w := by
  cases w with
  | none => simp [cqlToJson, TakenForNull]
  | some v =>
    cases v with
    | native v => exact native_eq_null_iff T v
    | _ => simp [cqlToJson, valueToJson, TakenForNull]

theorem alike_none_iff {w : Option CqlValue} : Alike none w ↔ TakenForNull w := by
  refine ⟨fun h => ?_, fun h => .null trivial h⟩
  cases h with
  | null hv hw => exact hw

theorem alike_none_iff' {v : Option CqlValue} : Alike v none ↔ TakenForNull v := by
  refine ⟨fun h => ?_, fun h => .null h trivial⟩
  cases h with
  | null hv hw => exact hv

/-- Only the empty value is like the empty value. -/
theorem eq_of_alike_empty {w : CqlValue} (h : Alike (some .empty) (some w)) : w = .empty := by
  cases h with
  | null hv hw => exact hv.elim
  | empty => rfl

theorem not_alike_empty {v : CqlValue} (hne : v ≠ .empty) : ¬ Alike (some v) (some .empty) := by
  intro h
  cases h with
  | null hv hw => exact hw.elim
  | empty => exact hne rfl

variable {T}

theorem Fit.child {t t' : CqlType} {v u : CqlValue} (h : Fit T holds t v) (hu : u ∈ v.children) (ht : HasType u t') :
    Fit T holds t' u :=
  ⟨ht, h.held.child hu, h.lossless.child T hu⟩

theorem Fit.list {t : CqlType} {items : List CqlValue} (h : Fit T holds (.list t) (.list items)) :
    ∀ item ∈ items, Fit T holds t item := by
  intro item hitem
  cases h.type with
  | list each => exact h.child hitem (each item hitem)

theorem Fit.set {t : CqlType} {items : List CqlValue} (h : Fit T holds (.set t) (.set items)) :
    ∀ item ∈ items, Fit T holds t item := by
  intro item hitem
  cases h.type with
  | set each => exact h.child hitem (each item hitem)

theorem Fit.vector {t : CqlType} {items : List CqlValue} (h : Fit T holds (.vector t) (.vector items)) :
    ∀ item ∈ items, Fit T holds t item := by
  intro item hitem
  cases h.type with
  | vector each => exact h.child hitem (each item hitem)

theorem Fit.map {key value : CqlType} {entries : List (CqlValue × CqlValue)}
    (h : Fit T holds (.map key value) (.map entries)) :
    ∀ entry ∈ entries, Fit T holds key entry.1 ∧ Fit T holds value entry.2 := by
  intro entry hentry
  cases h.type with
  | map keys values =>
    exact ⟨h.child (CqlValue.key_mem_children hentry) (keys entry hentry),
      h.child (CqlValue.value_mem_children hentry) (values entry hentry)⟩

variable (T)

include hp hint in
theorem entries_inj {key value : CqlType} {entries others : List (CqlValue × CqlValue)}
    (hv : Fit T holds (.map key value) (.map entries)) (hw : Fit T holds (.map key value) (.map others))
    (hkeys : ∀ entry ∈ entries, ∀ other ∈ others,
      (valueToJson T entry.1 = valueToJson T other.1 ↔ Alike (some entry.1) (some other.1)))
    (hvalues : ∀ entry ∈ entries, ∀ other ∈ others,
      (valueToJson T entry.2 = valueToJson T other.2 ↔ Alike (some entry.2) (some other.2))) :
    valueToJson T (.map entries) = valueToJson T (.map others) ↔ Alike (some (.map entries)) (some (.map others)) := by
  have hmember : ∀ entry ∈ entries, ∀ other ∈ others, (memberOf T entry = memberOf T other ↔
      Alike (some entry.1) (some other.1) ∧ Alike (some entry.2) (some other.2)) := by
    intro entry hentry other hother
    obtain ⟨hkey, -⟩ := hv.map entry hentry
    obtain ⟨hkey', -⟩ := hw.map other hother
    rw [memberOf, memberOf, Prod.mk.injEq, ← hkeys entry hentry other hother, ← hvalues entry hentry other hother,
      ← keyText_inj T hp hint hkey.type hkey'.type hkey.held hkey'.held]
    rfl
  have hnodup : ((entries.map (memberOf T)).map Prod.fst).Nodup := by
    rw [List.map_map]
    exact hv.lossless.nodup T
  have hnodup' : ((others.map (memberOf T)).map Prod.fst).Nodup := by
    rw [List.map_map]
    exact hw.lossless.nodup T
  rw [valueToJson, valueToJson, toJson_entries, toJson_entries, object_eq_iff hnodup hnodup']
  constructor
  · intro hperm
    have hpartner : ∀ entry, ∃ other, entry ∈ entries → other ∈ others ∧ memberOf T entry = memberOf T other := by
      intro entry
      by_cases hentry : entry ∈ entries
      · obtain ⟨other, hother, heq⟩ := List.mem_map.1 (hperm.mem_iff.1 (List.mem_map_of_mem hentry))
        exact ⟨other, fun _ => ⟨hother, heq.symm⟩⟩
      · exact ⟨entry, fun hmem => absurd hmem hentry⟩
    choose partner hmem using hpartner
    have halike := fun entry hentry =>
      (hmember entry hentry (partner entry) (hmem entry hentry).1).1 (hmem entry hentry).2
    refine .map (by simpa using hperm.length_eq) partner (fun entry hentry => (hmem entry hentry).1) ?_ ?_
    · exact fun entry hentry => (halike entry hentry).1
    · exact fun entry hentry => (halike entry hentry).2
  · intro halike
    cases halike with
    | null hv hw => exact hv.elim
    | map length partner mem keys values =>
      have hsub : entries.map (memberOf T) ⊆ others.map (memberOf T) := by
        intro member hmem
        obtain ⟨entry, hentry, rfl⟩ := List.mem_map.1 hmem
        rw [(hmember entry hentry _ (mem entry hentry)).2 ⟨keys entry hentry, values entry hentry⟩]
        exact List.mem_map_of_mem (mem entry hentry)
      refine (List.subperm_of_subset hnodup.of_map hsub).perm_of_length_le ?_
      rw [List.length_map, List.length_map, length]

/-- JSON tells the value from all of its type but those that are alike. -/
def ToldApart (holds : Number → Prop) (v : CqlValue) : Prop :=
  ∀ (w : Option CqlValue) t, Fit T holds t v → (∀ u ∈ w, Fit T holds t u) →
    (valueToJson T v = cqlToJson T w ↔ Alike (some v) w)

variable {T}

theorem ToldApart.option {item other : Option CqlValue} {t : CqlType} (h : ∀ u ∈ item, ToldApart T holds u)
    (hitem : ∀ u ∈ item, Fit T holds t u) (hother : ∀ u ∈ other, Fit T holds t u) :
    cqlToJson T item = cqlToJson T other ↔ Alike item other := by
  cases item with
  | none => exact eq_comm.trans ((cqlToJson_eq_null_iff T other).trans alike_none_iff.symm)
  | some u => exact h u rfl other t (hitem u rfl) hother

theorem ToldApart.value_iff {v w : CqlValue} {t : CqlType} (h : ToldApart T holds v) (hv : Fit T holds t v)
    (hw : Fit T holds t w) : valueToJson T v = valueToJson T w ↔ Alike (some v) (some w) := by
  refine h (some w) t hv fun u hu => ?_
  obtain rfl := Option.some.inj hu
  exact hw

theorem ToldApart.items {items others : List CqlValue} {t : CqlType} (h : ∀ item ∈ items, ToldApart T holds item)
    (hitems : ∀ item ∈ items, Fit T holds t item) (hothers : ∀ other ∈ others, Fit T holds t other) :
    items.map (valueToJson T) = others.map (valueToJson T) ↔ items.length = others.length ∧
      ∀ (i : Nat) item other, items[i]? = some item → others[i]? = some other → Alike (some item) (some other) := by
  refine map_eq_map_iff fun i item other hitem hother => ?_
  have hmem := List.mem_of_getElem? hitem
  exact (h item hmem).value_iff (hitems item hmem) (hothers other (List.mem_of_getElem? hother))

theorem Fit.tuple {ts : List CqlType} {items : List (Option CqlValue)} (h : Fit T holds (.tuple ts) (.tuple items)) :
    items.length = ts.length ∧
      ∀ (i : Nat) item t, items[i]? = some item → ts[i]? = some t → ∀ u ∈ item, Fit T holds t u := by
  cases h.type with
  | tuple length each =>
    refine ⟨length, fun i item t hitem ht u hu => ?_⟩
    have hmem : u ∈ (CqlValue.tuple items).children := List.mem_filterMap.2 ⟨item, List.mem_of_getElem? hitem, hu⟩
    obtain rfl : item = some u := hu
    exact h.child hmem (each i u t hitem ht)

theorem tuple_inj {items others : List (Option CqlValue)} {ts : List CqlType} (hv : Fit T holds (.tuple ts) (.tuple items))
    (hw : Fit T holds (.tuple ts) (.tuple others)) (h : ∀ u ∈ (CqlValue.tuple items).children, ToldApart T holds u) :
    valueToJson T (.tuple items) = valueToJson T (.tuple others) ↔ Alike (some (.tuple items)) (some (.tuple others)) := by
  obtain ⟨hlength, hfit⟩ := hv.tuple
  obtain ⟨hlength', hfit'⟩ := hw.tuple
  have hstep : ∀ (i : Nat) item other, items[i]? = some item → others[i]? = some other →
      (cqlToJson T item = cqlToJson T other ↔ Alike item other) := by
    intro i item other hitem hother
    have hi : i < ts.length := hlength ▸ (List.getElem?_eq_some_iff.1 hitem).1
    have ht := List.getElem?_eq_getElem hi
    refine ToldApart.option (fun u hu => ?_) (hfit i item _ hitem ht) (hfit' i other _ hother ht)
    exact h u (List.mem_filterMap.2 ⟨item, List.mem_of_getElem? hitem, hu⟩)
  rw [valueToJson, valueToJson, Value.array.injEq, toJson_options, toJson_options, map_eq_map_iff hstep, alike_tuple_iff]

theorem Fit.fields {types : List (String × CqlType)} {fields : List (String × Option CqlValue)}
    (h : Fit T holds (.userDefinedType types) (.userDefinedType fields)) :
    fields.map Prod.fst = types.map Prod.fst ∧ (fields.map Prod.fst).Nodup ∧
      ∀ (i : Nat) field type, fields[i]? = some field → types[i]? = some type → ∀ u ∈ field.2, Fit T holds type.2 u := by
  cases h.type with
  | userDefinedType names distinct each =>
    refine ⟨names, names ▸ distinct, fun i ⟨name, item⟩ ⟨name', t⟩ hfield ht u hu => ?_⟩
    have hmem : u ∈ (CqlValue.userDefinedType fields).children :=
      List.mem_filterMap.2 ⟨_, List.mem_of_getElem? hfield, hu⟩
    have hname : name = name' := by
      have hget := congrArg (·[i]?) names
      simpa [hfield, ht] using hget
    obtain rfl : item = some u := hu
    subst hname
    exact h.child hmem (each i name u t hfield ht)

theorem alike_fields_iff {fields others : List (String × Option CqlValue)} :
    Alike (some (.userDefinedType fields)) (some (.userDefinedType others)) ↔
      fields.map Prod.fst = others.map Prod.fst ∧
        ∀ (i : Nat) field other, fields[i]? = some field → others[i]? = some other → Alike field.2 other.2 := by
  refine ⟨fun h => ?_, fun ⟨names, each⟩ => .userDefinedType names each⟩
  cases h with
  | null hv hw => exact hv.elim
  | userDefinedType names each => exact ⟨names, each⟩

theorem fields_inj {fields others : List (String × Option CqlValue)} {types : List (String × CqlType)}
    (hv : Fit T holds (.userDefinedType types) (.userDefinedType fields))
    (hw : Fit T holds (.userDefinedType types) (.userDefinedType others))
    (h : ∀ u ∈ (CqlValue.userDefinedType fields).children, ToldApart T holds u) :
    valueToJson T (.userDefinedType fields) = valueToJson T (.userDefinedType others) ↔
      Alike (some (.userDefinedType fields)) (some (.userDefinedType others)) := by
  obtain ⟨hnames, hnodup, hfit⟩ := hv.fields
  obtain ⟨hnames', hnodup', hfit'⟩ := hw.fields
  have hsame : fields.map Prod.fst = others.map Prod.fst := hnames.trans hnames'.symm
  have hfst (fields : List (String × Option CqlValue)) : (fields.map (fieldOf T)).map Prod.fst = fields.map Prod.fst := by
    rw [List.map_map]
    rfl
  have hstep : ∀ (i : Nat) field other, fields[i]? = some field → others[i]? = some other →
      (fieldOf T field = fieldOf T other ↔ Alike field.2 other.2) := by
    intro i field other hfield hother
    have hname : field.1 = other.1 := by
      have hget := congrArg (·[i]?) hsame
      simpa [hfield, hother] using hget
    have hi : i < types.length := by
      have hlength := congrArg List.length hnames
      rw [List.length_map, List.length_map] at hlength
      exact hlength ▸ (List.getElem?_eq_some_iff.1 hfield).1
    have ht := List.getElem?_eq_getElem hi
    rw [fieldOf, fieldOf, Prod.mk.injEq, and_iff_right hname]
    refine ToldApart.option (fun u hu => ?_) (hfit i field _ hfield ht) (hfit' i other _ hother ht)
    exact h u (List.mem_filterMap.2 ⟨field, List.mem_of_getElem? hfield, hu⟩)
  have hperm : (fields.map (fieldOf T)).Perm (others.map (fieldOf T)) ↔ fields.map (fieldOf T) = others.map (fieldOf T) := by
    refine ⟨fun hperm => eq_of_perm_of_names hperm ?_ ?_, fun heq => heq ▸ .refl _⟩
    · rw [hfst, hfst, hsame]
    · rwa [hfst]
  rw [valueToJson, valueToJson, toJson_fields, toJson_fields, object_eq_iff (by rwa [hfst]) (by rwa [hfst]), hperm,
    map_eq_map_iff hstep, alike_fields_iff]
  refine and_congr_left fun _ => ⟨fun _ => hsame, fun hsame => ?_⟩
  simpa using congrArg List.length hsame

include hp hint in
theorem toldApart (v : CqlValue) : ToldApart T holds v := by
  induction v using CqlValue.induction with
  | h v ih =>
    intro w t hv hw
    cases w with
    | none => exact (cqlToJson_eq_null_iff T (some v)).trans alike_none_iff'.symm
    | some w =>
      have hw := hw w rfl
      change valueToJson T v = valueToJson T w ↔ _
      by_cases hempty : w = .empty
      · subst hempty
        by_cases hempty' : v = .empty
        · subst hempty'
          exact iff_of_true rfl .empty
        · exact iff_of_false (typed_ne_empty T hv.type (hasEmpty_of_type hw.type) hempty') (not_alike_empty hempty')
      cases v with
      | native v =>
        cases hv.type with
        | native =>
          obtain ⟨hw', -⟩ | ⟨w, rfl, htype⟩ := native_inv hw.type
          · exact absurd hw' hempty
          · rw [alike_native_iff]
            exact native_toJson_inj T htype.symm
      | empty =>
        have hne := typed_ne_empty T hw.type (hasEmpty_of_type hv.type) hempty
        exact iff_of_false (fun h => hne h.symm) fun h => hempty (eq_of_alike_empty h)
      | list items =>
        cases hv.type with
        | list each =>
          cases hw.type with
          | empty _ => exact absurd rfl hempty
          | list each' =>
            rw [valueToJson, valueToJson, Value.array.injEq, toJson_items, toJson_items, alike_list_iff]
            exact ToldApart.items ih hv.list hw.list
      | set items =>
        cases hv.type with
        | set each =>
          cases hw.type with
          | empty _ => exact absurd rfl hempty
          | set each' =>
            rw [valueToJson, valueToJson, Value.array.injEq, toJson_items, toJson_items, alike_set_iff]
            exact ToldApart.items ih hv.set hw.set
      | vector items =>
        cases hv.type with
        | vector each =>
          cases hw.type with
          | empty _ => exact absurd rfl hempty
          | vector each' =>
            rw [valueToJson, valueToJson, Value.array.injEq, toJson_items, toJson_items, alike_vector_iff]
            exact ToldApart.items ih hv.vector hw.vector
      | map entries =>
        cases hv.type with
        | map keys values =>
          cases hw.type with
          | empty _ => exact absurd rfl hempty
          | map keys' values' =>
            refine entries_inj T hp hint hv hw (fun entry hentry other hother => ?_) fun entry hentry other hother => ?_
            · refine (ih entry.1 ?_).value_iff (hv.map entry hentry).1 (hw.map other hother).1
              exact CqlValue.key_mem_children hentry
            · refine (ih entry.2 ?_).value_iff (hv.map entry hentry).2 (hw.map other hother).2
              exact CqlValue.value_mem_children hentry
      | tuple items =>
        cases hv.type with
        | tuple length each =>
          cases hw.type with
          | empty _ => exact absurd rfl hempty
          | tuple length' each' => exact tuple_inj hv hw ih
      | userDefinedType fields =>
        cases hv.type with
        | userDefinedType names distinct each =>
          cases hw.type with
          | empty _ => exact absurd rfl hempty
          | userDefinedType names' distinct' each' => exact fields_inj hv hw ih

include hp hint in
/-- The keys of a map have different texts where no two of them are alike. -/
theorem keys_nodup_iff {entries : List (CqlValue × CqlValue)} (hheld : Held holds (.map entries))
    (htyped : KeysTyped (.map entries)) (hl : ∀ u ∈ (CqlValue.map entries).children, Lossless T u) :
    (entries.map fun entry => keyText T entry.1).Nodup ↔
      entries.Pairwise fun entry other => ¬ Alike (some entry.1) (some other.1) := by
  obtain ⟨t, ht⟩ := htyped entries .refl
  have hfit : ∀ entry ∈ entries, Fit T holds t entry.1 := fun entry hentry =>
    have hchild := CqlValue.key_mem_children hentry
    ⟨ht entry hentry, hheld.child hchild, hl _ hchild⟩
  rw [List.Nodup, List.pairwise_map]
  refine List.Pairwise.iff_of_mem fun {entry other} hentry hother => not_congr ?_
  have hv := hfit entry hentry
  have hw := hfit other hother
  exact (keyText_inj T hp hint hv.type hw.type hv.held hw.held).trans ((toldApart hp hint entry.1).value_iff hv hw)

theorem lossless_iff {v : CqlValue} : Lossless T v ↔ (∀ u ∈ v.children, Lossless T u) ∧
    ∀ entries, v = .map entries → (entries.map fun entry => keyText T entry.1).Nodup := by
  constructor
  · intro h
    refine ⟨fun u hu => h.child T hu, ?_⟩
    rintro entries rfl
    exact h.nodup T
  · rintro ⟨hchildren, hself⟩ entries hwithin
    rcases CqlValue.within_iff.1 hwithin with rfl | ⟨u, hu, hwithin⟩
    · exact (map_lossless_iff T entries).2 (hself entries rfl)
    · exact hchildren u hu entries hwithin

theorem separated_iff {v : CqlValue} : Separated v ↔ (∀ u ∈ v.children, Separated u) ∧
    ∀ entries, v = .map entries → entries.Pairwise fun entry other => ¬ Alike (some entry.1) (some other.1) := by
  constructor
  · intro h
    refine ⟨fun u hu => h.child hu, ?_⟩
    rintro entries rfl
    exact h entries .refl
  · rintro ⟨hchildren, hself⟩ entries hwithin
    rcases CqlValue.within_iff.1 hwithin with rfl | ⟨u, hu, hwithin⟩
    · exact hself entries rfl
    · exact hchildren u hu entries hwithin

include hp hint in
theorem lossless_iff_of_held {v : CqlValue} (hheld : Held holds v) (htyped : KeysTyped v) :
    Lossless T v ↔ Separated v := by
  induction v using CqlValue.induction with
  | h v ih =>
    have hchildren : (∀ u ∈ v.children, Lossless T u) ↔ ∀ u ∈ v.children, Separated u :=
      forall₂_congr fun u hu => ih u hu (hheld.child hu) (htyped.child hu)
    rw [lossless_iff, separated_iff, ← hchildren]
    refine and_congr_right fun hl => forall₂_congr ?_
    rintro entries rfl
    exact keys_nodup_iff hp hint hheld htyped hl

end Printed

/-- Where the keys of each map are of one type, no entry is lost in any map of the value exactly where no map has two
keys that are alike. -/
theorem entries_kept_iff_keys_told_apart (v : CqlValue) (hp : Printing fun n => n.IsInt ∨ Doubles v n)
    (htyped : KeysTyped v) : Lossless T v ↔ Separated v :=
  lossless_iff_of_held hp (fun _ => .inl) (fun _ => .inr) htyped

/-! ### Keys that are doubles -/

def uuidParts (n : Nat) : List (List Char) :=
  [fixedHex 8 (n / 16 ^ 24), fixedHex 4 (n / 16 ^ 20 % 16 ^ 4), fixedHex 4 (n / 16 ^ 16 % 16 ^ 4),
    fixedHex 4 (n / 16 ^ 12 % 16 ^ 4), fixedHex 12 (n % 16 ^ 12)]

theorem uuidParts_chars {n : Nat} : ∀ part ∈ uuidParts n, ∀ c ∈ part, c ∈ hexDigits := by
  simp only [uuidParts, List.forall_mem_cons]
  exact ⟨fun _ => mem_fixedHex, fun _ => mem_fixedHex, fun _ => mem_fixedHex, fun _ => mem_fixedHex,
    fun _ => mem_fixedHex, by simp⟩

/-- Digits in groups with hyphens between them. -/
def hyphenated : UuidText where
  text id := .ofList (joined '-' (uuidParts id.toNat))
  inj id other h := by
    have hfree (n : Nat) : ∀ part ∈ uuidParts n, '-' ∉ part := fun part hpart hmem =>
      absurd (uuidParts_chars part hpart _ hmem) (by decide)
    have hparts := joined_inj (by simp [uuidParts]) (by simp [uuidParts]) (hfree _) (hfree _) (String.ofList_inj.1 h)
    simp only [uuidParts, List.cons.injEq, and_true] at hparts
    obtain ⟨h1, h2, h3, h4, h5⟩ := hparts
    have hlt := id.isLt
    have hlt' := other.isLt
    have hgroup1 := fixedHex_inj (by omega) (by omega) h1
    have hgroup2 := fixedHex_inj (by omega) (by omega) h2
    have hgroup3 := fixedHex_inj (by omega) (by omega) h3
    have hgroup4 := fixedHex_inj (by omega) (by omega) h4
    have hgroup5 := fixedHex_inj (by omega) (by omega) h5
    apply BitVec.eq_of_toNat_eq
    omega
  lower id h := by
    rw [String.toList_ofList] at h
    rcases mem_joined h with h | ⟨part, hpart, hmem⟩
    · exact absurd h (by decide)
    · exact absurd (uuidParts_chars part hpart _ hmem) (by decide)

/-- The map of two doubles to texts. -/
def twoDoubles (x y : Double) : List (CqlValue × CqlValue) :=
  [(.native (.double x), .native (.text "low")), (.native (.double y), .native (.text "high"))]

theorem within_native {v : Native} {u : CqlValue} (h : (CqlValue.native v).Within u) : u = .native v := by
  rcases CqlValue.within_iff.1 h with rfl | ⟨w, hw, -⟩
  · rfl
  · cases hw

theorem within_twoDoubles {x y : Double} {u : CqlValue} (h : (CqlValue.map (twoDoubles x y)).Within u) :
    u = .map (twoDoubles x y) ∨ ∃ v ∈ [Native.double x, .text "low", .double y, .text "high"], u = .native v := by
  rcases CqlValue.within_iff.1 h with rfl | ⟨w, hw, hwithin⟩
  · exact .inl rfl
  · have hchildren : (CqlValue.map (twoDoubles x y)).children =
        [Native.double x, .text "low", .double y, .text "high"].map .native := rfl
    rw [hchildren] at hw
    obtain ⟨v, hv, rfl⟩ := List.mem_map.1 hw
    exact .inr ⟨v, hv, within_native hwithin⟩

theorem twoDoubles_typed (x y : Double) : KeysTyped (.map (twoDoubles x y)) := by
  intro entries h
  rcases within_twoDoubles h with heq | ⟨v, -, heq⟩
  · obtain rfl := CqlValue.map.inj heq
    refine ⟨.native .double, ?_⟩
    simp only [twoDoubles, List.forall_mem_cons]
    exact ⟨.native (.double x), .native (.double y), by simp⟩
  · cases heq

theorem printing_two : Printing fun n => (n.IsInt ∨ n = .float (3 / 2) "1.5") ∨ n = .float (5 / 2) "2.5" := by
  have hint {text : String} (hpoint : '.' ∈ text.toList) : ∀ n : Number, n.IsInt → n.toText ≠ text := by
    intro n hn heq
    cases n with
    | int k ge lt =>
      have hmem : '.' ∈ (toString k).toList := by
        rw [← heq] at hpoint
        exact hpoint
      exact not_mem_numeral (by decide) (fun _ => int_text_chars) hmem
    | float value text => exact hn.elim
  refine (printing_isInt.add_float (by decide) (forall_mem_of_all rfl)
    (hint (by decide))).add_float (by decide) (forall_mem_of_all rfl) ?_
  rintro n (hn | rfl)
  · exact hint (by decide) n hn
  · decide

/-- 1.5 and 2.5 are told apart. -/
theorem finite_doubles_kept :
    Lossless hyphenated (.map (twoDoubles (.finite (3 / 2) "1.5") (.finite (5 / 2) "2.5"))) := by
  refine (entries_kept_iff_keys_told_apart hyphenated _ (printing_two.mono ?_) (twoDoubles_typed _ _)).2 ?_
  · rintro n (hn | ⟨x, hx, hn⟩)
    · exact .inl (.inl hn)
    · rcases within_twoDoubles hx with heq | ⟨v, hv, heq⟩
      · cases heq
      · obtain rfl := CqlValue.native.inj heq
        simp only [List.mem_cons, List.not_mem_nil, or_false] at hv
        rcases hv with rfl | rfl | rfl | rfl
        · exact .inl (.inr (List.mem_singleton.1 hn))
        · cases hn
        · exact .inr (List.mem_singleton.1 hn)
        · cases hn
  · intro entries h
    rcases within_twoDoubles h with heq | ⟨v, -, heq⟩
    · obtain rfl := CqlValue.map.inj heq
      have hdiffer : ¬ Alike (some (.native (.double (.finite (3 / 2) "1.5"))))
          (some (.native (.double (.finite (5 / 2) "2.5")))) := by
        rw [alike_native_iff]
        simp [Native.Alike, Native.NotFinite, Double.IsFinite]
      simpa [twoDoubles] using hdiffer
    · cases heq

/-- NaN and the infinity are different keys of one type, and one of the two entries is lost. -/
theorem nan_and_infinity_collide :
    KeysTyped (.map (twoDoubles .nan (.infinity false))) ∧
      (twoDoubles .nan (.infinity false)).Pairwise (fun entry other => entry.1 ≠ other.1) ∧
      valueToJson hyphenated (.map (twoDoubles .nan (.infinity false))) = .object [("null", .string "high")] ∧
      ¬ Lossless hyphenated (.map (twoDoubles .nan (.infinity false))) := by
  refine ⟨twoDoubles_typed _ _, ?_, ?_, ?_⟩
  · simp [twoDoubles]
  · rfl
  · intro h
    have hnodup := h.nodup hyphenated
    simp [twoDoubles, keyText, valueToJson, Native.toJson, Double.toJson] at hnodup

end Ecat.Cassandra
