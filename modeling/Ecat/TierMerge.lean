import Ecat.JsonNumbers
import Ecat.TierInterval

/-! Merging the rows of the two stores: pages of a union from pages of its parts, and on which keys
dropping repeats loses none. -/

namespace Ecat.Tier

open Json

/-! ### The order of primary keys -/

/-- Integers of `i64` and texts: the keys that `cmp_pk` compares exactly. -/
def Plain : Value → Prop
  | .number n => n.asI64.isSome = true
  | .string _ => True
  | _ => False

def rank : Value → Lex (ℤ ⊕ String)
  | .number n => toLex (.inl (n.asI64.getD 0))
  | .string text => toLex (.inr text)
  | _ => toLex (.inr "")

/-- Such keys are compared as their ranks are. -/
theorem cmpPk_eq_compare {a b : Value} (ha : Plain a) (hb : Plain b) : cmpPk a b = compare (rank a) (rank b) := by
  cases a with
  | number n =>
    obtain ⟨x, hx⟩ := Option.isSome_iff_exists.1 ha
    cases b with
    | number m =>
      obtain ⟨y, hy⟩ := Option.isSome_iff_exists.1 hb
      simp only [cmpPk, cmpNumber, hx, hy, rank, Option.getD_some]
      exact (compare_strictMono Sum.Lex.inl_strictMono x y).symm
    | string text => exact (compare_lt_iff_lt.2 (Sum.Lex.inl_lt_inr _ _)).symm
    | _ => exact hb.elim
  | string text =>
    cases b with
    | number m => exact (compare_gt_iff_gt.2 (Sum.Lex.inl_lt_inr _ _)).symm
    | string text' => exact (compare_strictMono Sum.Lex.inr_strictMono text text').symm
    | _ => exact hb.elim
  | _ => exact ha.elim

theorem cmpPk_isLE {a b : Value} (ha : Plain a) (hb : Plain b) :
    (cmpPk a b).isLE = true ↔ rank a ≤ rank b := by
  rw [cmpPk_eq_compare ha hb, compare_isLE_iff]

theorem cmpPk_eq {a b : Value} (ha : Plain a) (hb : Plain b) : cmpPk a b = .eq ↔ rank a = rank b := by
  rw [cmpPk_eq_compare ha hb, compare_eq_iff_eq]

/-! ### Rows -/

section

variable {t : TieredTable} {rows hot cold : List Row} {limit offset : Nat}

def keyOf (t : TieredTable) (row : Row) : Value := (row.get t.idCol).getD .null

theorem keyed_rows (h : ∀ row ∈ rows, ∃ key, row.get t.idCol = some key ∧ key.isNull = false) :
    keyed t rows = .ok (rows.map fun row => (keyOf t row, row)) := by
  induction rows with
  | nil => rfl
  | cons row rows ih =>
    obtain ⟨⟨key, hget, hnull⟩, hrest⟩ := List.forall_mem_cons.1 h
    have hkey : keyOf t row = key := by rw [keyOf, hget, Option.getD_some]
    simp only [keyed, hget, hnull, ih hrest, List.map_cons, hkey]
    rfl

def cmpRow (t : TieredTable) (a b : Row) : Ordering := cmpPk (keyOf t a) (keyOf t b)

theorem sortDedupePaginate_rows (h : ∀ row ∈ rows, ∃ key, row.get t.idCol = some key ∧ key.isNull = false)
    (limit offset : Nat) : sortDedupePaginate t rows limit offset =
      .ok (((dedupBy (fun a b => cmpRow t a b = .eq)
        (rows.insertionSort fun a b => (cmpRow t a b).isLE)).drop offset).take limit) := by
  have hsort : (rows.map fun row => (keyOf t row, row)).insertionSort (fun a b => (cmpPk a.1 b.1).isLE = true) =
      (rows.insertionSort fun a b => (cmpRow t a b).isLE).map fun row => (keyOf t row, row) := by
    refine (List.map_insertionSort _ _ (fun row => (keyOf t row, row)) rows ?_).symm
    intro a _ b _
    exact Iff.rfl
  rw [sortDedupePaginate, keyed_rows h]
  show Except.ok _ = _
  rw [hsort, dedupBy_map, ← List.map_drop, ← List.map_take, List.map_map]
  exact congrArg Except.ok (List.map_id _)

/-! ### A page of the union -/

def intKey (t : TieredTable) (row : Row) : Int := ((keyOf t row).asI64).getD 0

/-- One side of a crossing query: sorted by primary keys of `i64`, each of them once. -/
structure Ascending (t : TieredTable) (rows : List Row) : Prop where
  integer : ∀ row ∈ rows, ((row.get t.idCol).bind Value.asI64).isSome = true
  ascending : rows.Pairwise fun a b => intKey t a < intKey t b

theorem integer_key {row : Row} (h : ((row.get t.idCol).bind Value.asI64).isSome = true) :
    ∃ n, row.get t.idCol = some (.number n) ∧ n.asI64 = some (intKey t row) := by
  obtain ⟨k, hk⟩ := Option.isSome_iff_exists.1 h
  obtain ⟨key, hget, hk⟩ := Option.bind_eq_some_iff.1 hk
  have hint : intKey t row = k := by rw [intKey, keyOf, hget, Option.getD_some, hk, Option.getD_some]
  cases key with
  | number n => exact ⟨n, hget, by rw [hint]; exact hk⟩
  | _ => cases hk

theorem cmpRow_integer {a b : Row} (ha : ((a.get t.idCol).bind Value.asI64).isSome = true)
    (hb : ((b.get t.idCol).bind Value.asI64).isSome = true) :
    cmpRow t a b = compare (intKey t a) (intKey t b) := by
  obtain ⟨m, hm, hma⟩ := integer_key ha
  obtain ⟨n, hn, hnb⟩ := integer_key hb
  rw [cmpRow, keyOf, keyOf, hm, hn, Option.getD_some, Option.getD_some, cmpPk, cmpNumber, hma, hnb]

/-- Rows of both sides, sorted by primary key, with the hot copy where both sides have the key. -/
def unionByKey (t : TieredTable) (hot cold : List Row) : List Row :=
  (hot ++ cold.filter fun row => hot.all fun row' => intKey t row' ≠ intKey t row).insertionSort
    fun a b => intKey t a ≤ intKey t b

theorem unionByKey_eq (hhot : Ascending t hot) (hcold : Ascending t cold) :
    unionByKey t hot cold = mergeBy (intKey t) hot cold := by
  have hmem : ∀ row, row ∈ cold.filter (fun row => hot.all fun row' => intKey t row' ≠ intKey t row) ↔
      row ∈ cold ∧ ∀ row' ∈ hot, intKey t row' ≠ intKey t row := by
    intro row
    rw [List.mem_filter, List.all_eq_true]
    simp only [decide_eq_true_eq]
  have hne : (hot ++ cold.filter fun row => hot.all fun row' => intKey t row' ≠ intKey t row).Pairwise
      fun a b => intKey t a ≠ intKey t b := by
    refine List.pairwise_append.2 ⟨hhot.ascending.imp ne_of_lt, (hcold.ascending.filter _).imp ne_of_lt, ?_⟩
    intro a ha b hb
    exact ((hmem b).1 hb).2 a ha
  refine strict_ext (f := intKey t) (strict_insertionSort_of_ne hne) (mergeBy_strict hhot.ascending hcold.ascending) ?_
  intro row
  rw [unionByKey, List.mem_insertionSort, List.mem_append, hmem, mem_mergeBy hhot.ascending hcold.ascending]

theorem Ascending.take (h : Ascending t rows) (n : Nat) : Ascending t (rows.take n) :=
  ⟨fun row hrow => h.integer row (List.mem_of_mem_take hrow), h.ascending.sublist (List.take_sublist n rows)⟩

theorem merge_rows (hhot : Ascending t hot) (hcold : Ascending t cold) (limit offset : Nat) :
    sortDedupePaginate t (hot ++ cold) limit offset =
      .ok (((mergeBy (intKey t) hot cold).drop offset).take limit) := by
  have hinteger : ∀ row ∈ hot ++ cold, ((row.get t.idCol).bind Value.asI64).isSome = true :=
    List.forall_mem_append.2 ⟨hhot.integer, hcold.integer⟩
  have hkeys : ∀ row ∈ hot ++ cold, ∃ key, row.get t.idCol = some key ∧ key.isNull = false := by
    intro row hrow
    obtain ⟨n, hget, -⟩ := integer_key (hinteger row hrow)
    exact ⟨_, hget, rfl⟩
  have hsort : (hot ++ cold).insertionSort (fun a b => (cmpRow t a b).isLE = true) =
      (hot ++ cold).insertionSort fun a b => intKey t a ≤ intKey t b := by
    refine insertionSort_congr ?_
    intro a ha b hb
    rw [cmpRow_integer (hinteger a ha) (hinteger b hb)]
    exact compare_isLE_iff
  have hdedup : dedupBy (fun a b => cmpRow t a b = .eq) ((hot ++ cold).insertionSort fun a b => intKey t a ≤ intKey t b) =
      mergeBy (intKey t) hot cold := by
    rw [← dedupBy_insertionSort_append hhot.ascending hcold.ascending]
    refine dedupBy_congr ?_
    intro a ha b hb
    rw [List.mem_insertionSort] at ha hb
    rw [cmpRow_integer (hinteger a ha) (hinteger b hb)]
    exact decide_eq_decide.2 compare_eq_iff_eq
  rw [sortDedupePaginate_rows hkeys, hsort, hdedup]

/-- A prefix of each side is enough for the page. -/
theorem crossing_merge (hhot : Ascending t hot) (hcold : Ascending t cold) (limit offset : Nat) :
    sortDedupePaginate t (hot.take (limit + offset) ++ cold.take (limit + offset)) limit offset =
      .ok (((unionByKey t hot cold).drop offset).take limit) := by
  have htake : (mergeBy (intKey t) (hot.take (limit + offset)) (cold.take (limit + offset))).take (limit + offset) =
      (mergeBy (intKey t) hot cold).take (limit + offset) := take_mergeBy (le_refl _) (le_refl _)
  have hdrop := congrArg (List.drop offset) htake
  rw [List.drop_take, List.drop_take, Nat.add_sub_cancel] at hdrop
  rw [merge_rows (hhot.take _) (hcold.take _), hdrop, unionByKey_eq hhot hcold]

end

def storedRow (id : UInt64) (store : String) : Row := ⟨["id", "store"], [.ofU64 id, .string store]⟩

def hotRows : List Row := [storedRow 2 "hot", storedRow 3 "hot"]

def coldRows : List Row := [storedRow 1 "cold", storedRow 2 "cold"]

theorem crossing_merge_events :
    sortDedupePaginate events (hotRows.take (2 + 1) ++ coldRows.take (2 + 1)) 2 1 = .ok hotRows := by
  have hhot : Ascending events hotRows := ⟨by decide, List.pairwise_pair.2 (by decide)⟩
  have hcold : Ascending events coldRows := ⟨by decide, List.pairwise_pair.2 (by decide)⟩
  exact (crossing_merge hhot hcold 2 1).trans rfl

/-! ### Lost keys -/

/-- Integers of `i64` or `u64`, and texts. -/
def IsKey : Value → Prop
  | .number (.int _ _ _) => True
  | .string _ => True
  | _ => False

/-- Two different integers, not both of `i64`, that are one double. -/
def SharesDouble (a b : Value) : Prop :=
  ∃ m n, a = .number m ∧ b = .number n ∧ m ≠ n ∧ m.asF64 = n.asF64 ∧ (m.asI64 = none ∨ n.asI64 = none)

/-- The output has the primary keys of the input. -/
structure KeepsKeys (t : TieredTable) (rows out : List Row) : Prop where
  sub : ∀ row ∈ out, row ∈ rows
  kept : ∀ row ∈ rows, ∃ row' ∈ out, row'.get t.idCol = row.get t.idCol

def doubleRank : Value → Lex (ℚ ⊕ String)
  | .number n => toLex (.inl n.asF64)
  | .string text => toLex (.inr text)
  | _ => toLex (.inr "")

section

variable {t : TieredTable} {rows : List Row} {a b : Value}

theorem int_of_asI64 {m : Number} {x : Int} (h : m.asI64 = some x) : ∃ ge lt, m = .int x ge lt := by
  cases m with
  | float value text => cases h
  | int n ge lt =>
    simp only [Number.asI64] at h
    split_ifs at h
    obtain rfl := Option.some.inj h
    exact ⟨ge, lt, rfl⟩

theorem cmpNumber_of_none {m n : Number} (h : m.asI64 = none ∨ n.asI64 = none) :
    cmpNumber m n = compare m.asF64 n.asF64 := by
  rw [cmpNumber]
  rcases h with h | h
  · rw [h]
  · rw [h]
    cases m.asI64 <;> rfl

theorem cmpNumber_isLE {m n : Number} :
    ((cmpNumber m n).isLE = true → m.asF64 ≤ n.asF64) ∧ ((cmpNumber m n).isLE ≠ true → n.asF64 ≤ m.asF64) := by
  by_cases hnone : m.asI64 = none ∨ n.asI64 = none
  · simp only [cmpNumber_of_none hnone, compare_isLE_iff, ne_eq, not_le]
    exact ⟨id, le_of_lt⟩
  · rw [not_or, ← ne_eq, ← ne_eq, Option.ne_none_iff_exists', Option.ne_none_iff_exists'] at hnone
    obtain ⟨⟨x, hm⟩, y, hn⟩ := hnone
    obtain ⟨ge, lt, rfl⟩ := int_of_asI64 hm
    obtain ⟨ge', lt', rfl⟩ := int_of_asI64 hn
    simp only [cmpNumber, hm, hn, compare_isLE_iff, ne_eq, not_le]
    exact ⟨fun h => asF64_mono h, fun h => asF64_mono h.le⟩

theorem cmpPk_doubleRank (ha : IsKey a) (hb : IsKey b) :
    ((cmpPk a b).isLE = true → doubleRank a ≤ doubleRank b) ∧
      ((cmpPk a b).isLE ≠ true → doubleRank b ≤ doubleRank a) := by
  have hlt : compare 0 1 = Ordering.lt := by decide
  have hgt : compare 1 0 = Ordering.gt := by decide
  cases a with
  | number m =>
    cases b with
    | number n =>
      simp only [cmpPk, doubleRank, Sum.Lex.inl_le_inl_iff]
      exact cmpNumber_isLE
    | string text => simp [cmpPk, typeRank, doubleRank, hlt]
    | _ => exact hb.elim
  | string text =>
    cases b with
    | number m => simp [cmpPk, typeRank, doubleRank, hgt]
    | string text' =>
      simp only [cmpPk, doubleRank, Sum.Lex.inr_le_inr_iff, compare_isLE_iff, ne_eq, not_le]
      exact ⟨id, le_of_lt⟩
    | _ => exact hb.elim
  | _ => exact ha.elim

theorem cmpPk_self (a : Value) : cmpPk a a = .eq := by
  cases a with
  | number n =>
    rw [cmpPk, cmpNumber]
    cases n.asI64 <;> simp
  | _ => simp [cmpPk]

/-- Keys compare as equal without being it only where they share a double. -/
theorem eq_or_sharesDouble (ha : IsKey a) (hb : IsKey b) (h : cmpPk a b = .eq) : a = b ∨ SharesDouble a b := by
  cases a with
  | number m =>
    cases b with
    | number n =>
      by_cases hmn : m = n
      · exact .inl (congrArg Value.number hmn)
      rw [cmpPk] at h
      by_cases hnone : m.asI64 = none ∨ n.asI64 = none
      · rw [cmpNumber_of_none hnone, compare_eq_iff_eq] at h
        exact .inr ⟨m, n, rfl, rfl, hmn, h, hnone⟩
      · rw [not_or, ← ne_eq, ← ne_eq, Option.ne_none_iff_exists', Option.ne_none_iff_exists'] at hnone
        obtain ⟨⟨x, hm⟩, y, hn⟩ := hnone
        obtain ⟨ge, lt, rfl⟩ := int_of_asI64 hm
        obtain ⟨ge', lt', rfl⟩ := int_of_asI64 hn
        simp only [cmpNumber, hm, hn, compare_eq_iff_eq] at h
        subst h
        exact absurd rfl hmn
    | string text =>
      have hlt : compare 0 1 = Ordering.lt := by decide
      simp [cmpPk, typeRank, hlt] at h
    | _ => exact hb.elim
  | string text =>
    cases b with
    | number m =>
      have hgt : compare 1 0 = Ordering.gt := by decide
      simp [cmpPk, typeRank, hgt] at h
    | string text' =>
      rw [cmpPk, compare_eq_iff_eq] at h
      exact .inl (congrArg Value.string h)
    | _ => exact hb.elim
  | _ => exact ha.elim

theorem cmpPk_of_doubleRank {n : Number} (hnone : n.asI64 = none) (ha : IsKey a)
    (h : doubleRank a = doubleRank (.number n)) : cmpPk a (.number n) = .eq ∧ cmpPk (.number n) a = .eq := by
  cases a with
  | number m =>
    have hf : m.asF64 = n.asF64 := by simpa [doubleRank] using h
    rw [cmpPk, cmpPk, cmpNumber_of_none (.inr hnone), cmpNumber_of_none (.inl hnone), compare_eq_iff_eq,
      compare_eq_iff_eq]
    exact ⟨hf, hf.symm⟩
  | string text => simp [doubleRank] at h
  | _ => exact ha.elim

/-- An integer key beyond `i64` is dropped, or drops every other key that is the same double. -/
theorem key_eq_of_kept {r : Row → Row → Prop} [DecidableRel r] (hkeys : ∀ row ∈ rows, IsKey (keyOf t row))
    (hr : ∀ a b, r a b ↔ (cmpRow t a b).isLE = true) {u v : Row} {n : Number}
    (hu : u ∈ dedupBy (fun a b => cmpRow t a b = .eq) (rows.insertionSort r))
    (hv : v ∈ dedupBy (fun a b => cmpRow t a b = .eq) (rows.insertionSort r))
    (hn : keyOf t v = .number n) (hnone : n.asI64 = none)
    (heq : doubleRank (keyOf t u) = doubleRank (keyOf t v)) : u = v := by
  refine eq_of_mem_dedupBy (f := fun row => doubleRank (keyOf t row)) ?_ ?_ hu hv heq
  · refine monotone_insertionSort ?_ ?_
    · intro a ha b hb hab
      exact (cmpPk_doubleRank (hkeys a ha) (hkeys b hb)).1 ((hr a b).1 hab)
    · intro a ha b hb hab
      exact (cmpPk_doubleRank (hkeys a ha) (hkeys b hb)).2 (mt (hr a b).2 hab)
  · intro w hw hwv
    rw [hn] at hwv
    have hcmp := cmpPk_of_doubleRank hnone (hkeys w ((List.mem_insertionSort r).1 hw)) hwv
    rw [decide_eq_true_eq, decide_eq_true_eq, cmpRow, cmpRow, hn]
    exact hcmp.symm

/-- No key is lost exactly where no two different integer keys, not both of `i64`, are one double. -/
theorem keepsKeys_iff (hkeys : ∀ row ∈ rows, ∃ key, row.get t.idCol = some key ∧ IsKey key) {limit : Nat}
    (hlimit : rows.length ≤ limit) :
    (∃ out, sortDedupePaginate t rows limit 0 = .ok out ∧ KeepsKeys t rows out) ↔
      ∀ a ∈ rows, ∀ b ∈ rows, ¬ SharesDouble (keyOf t a) (keyOf t b) := by
  have hget : ∀ row ∈ rows, row.get t.idCol = some (keyOf t row) := by
    intro row hrow
    obtain ⟨key, hget, -⟩ := hkeys row hrow
    rw [keyOf, hget, Option.getD_some]
  have hkey : ∀ row ∈ rows, IsKey (keyOf t row) := by
    intro row hrow
    obtain ⟨key, hget, hkey⟩ := hkeys row hrow
    rwa [keyOf, hget, Option.getD_some]
  have hnull : ∀ row ∈ rows, ∃ key, row.get t.idCol = some key ∧ key.isNull = false := by
    intro row hrow
    obtain ⟨key, hget, hkey⟩ := hkeys row hrow
    refine ⟨key, hget, ?_⟩
    cases key <;> first | rfl | exact hkey.elim
  have hsub := dedupBy_sublist (fun a b => decide (cmpRow t a b = .eq))
    (rows.insertionSort fun a b => (cmpRow t a b).isLE = true)
  have hmem : ∀ row ∈ dedupBy (fun a b => decide (cmpRow t a b = .eq))
      (rows.insertionSort fun a b => (cmpRow t a b).isLE = true), row ∈ rows := fun row hrow =>
    (List.mem_insertionSort _).1 (hsub.subset hrow)
  have hlength := hsub.length_le
  rw [List.length_insertionSort] at hlength
  rw [sortDedupePaginate_rows hnull, List.drop_zero, List.take_of_length_le (hlength.trans hlimit)]
  constructor
  · rintro ⟨out, ⟨⟩, hkeeps⟩ a ha b hb ⟨m, n, hm, hn, hne, hf, hnone⟩
    obtain ⟨a', ha', hget_a⟩ := hkeeps.kept a ha
    obtain ⟨b', hb', hget_b⟩ := hkeeps.kept b hb
    have hka : keyOf t a' = .number m := by rw [keyOf, hget_a, hget a ha, Option.getD_some, hm]
    have hkb : keyOf t b' = .number n := by rw [keyOf, hget_b, hget b hb, Option.getD_some, hn]
    have hrank : doubleRank (keyOf t a') = doubleRank (keyOf t b') := by
      rw [hka, hkb, doubleRank, doubleRank, hf]
    have hsame : a' = b' := by
      rcases hnone with hnone | hnone
      · exact (key_eq_of_kept hkey (fun _ _ => Iff.rfl) hb' ha' hka hnone hrank.symm).symm
      · exact key_eq_of_kept hkey (fun _ _ => Iff.rfl) ha' hb' hkb hnone hrank
    rw [hsame, hkb] at hka
    exact hne (Value.number.inj hka).symm
  · intro hdouble
    refine ⟨_, rfl, hmem, ?_⟩
    intro a ha
    obtain ⟨b, hb, hab⟩ := exists_mem_dedupBy (fun a b => decide (cmpRow t a b = .eq))
      (fun a => decide_eq_true (cmpPk_self _)) ((List.mem_insertionSort fun a b => (cmpRow t a b).isLE = true).2 ha)
    refine ⟨b, hb, ?_⟩
    rw [hget a ha, hget b (hmem b hb)]
    rcases eq_or_sharesDouble (hkey a ha) (hkey b (hmem b hb)) (of_decide_eq_true hab) with heq | hshares
    · rw [heq]
    · exact absurd hshares (hdouble a ha b (hmem b hb))

end

def largeRows : List Row := [storedRow 9223372036854775808 "hot", storedRow 9223372036854775809 "hot"]

theorem keepsKeys_hotRows : ∃ out, sortDedupePaginate events hotRows 2 0 = .ok out ∧ KeepsKeys events hotRows out := by
  refine (@keepsKeys_iff events hotRows ?_ 2 (le_refl 2)).2 ?_
  · intro row hrow
    simp only [hotRows, List.mem_cons, List.not_mem_nil, or_false] at hrow
    rcases hrow with rfl | rfl <;> exact ⟨_, rfl, trivial⟩
  · intro a ha b hb hshares
    obtain ⟨m, n, hm, hn, -, -, hnone⟩ := hshares
    have hint : ∀ row ∈ hotRows, (keyOf events row).asI64.isSome = true := by decide
    rcases hnone with hnone | hnone
    · have ham := hint a ha
      rw [hm, Value.asI64, hnone] at ham
      cases ham
    · have hbn := hint b hb
      rw [hn, Value.asI64, hnone] at hbn
      cases hbn

/-- `2 ^ 63` and `2 ^ 63 + 1` are one double: the second row is dropped. -/
theorem large_key_lost :
    ¬ ∃ out, sortDedupePaginate events largeRows 2 0 = .ok out ∧ KeepsKeys events largeRows out := by
  rintro ⟨out, hout, hkeeps⟩
  have hlength : (sortDedupePaginate events largeRows 2 0).toOption.map List.length = some 1 := by decide +kernel
  rw [hout] at hlength
  obtain ⟨row, rfl⟩ := List.length_eq_one_iff.1 (Option.some.inj hlength)
  obtain ⟨a, ha, hfirst⟩ := hkeeps.kept (storedRow 9223372036854775808 "hot") (by simp [largeRows])
  obtain ⟨b, hb, hsecond⟩ := hkeeps.kept (storedRow 9223372036854775809 "hot") (by simp [largeRows])
  rw [List.mem_singleton.1 ha] at hfirst
  rw [List.mem_singleton.1 hb, hfirst] at hsecond
  have hnumber := Value.number.inj (Option.some.inj hsecond)
  exact absurd (Number.int.inj hnumber) (by decide)

end Ecat.Tier
