import Ecat.JsonNumbers
import Ecat.ShardOrder

/-! The comparison of a scatter's values: on which sets of values it is a total preorder that agrees
with the order of the integers. -/

namespace Ecat.Shard

open Json

/-! ### Numbers -/

theorem compare_text_lt {s t : String} : compare s t = .lt ↔ s < t := compareOfLessAndEq_eq_lt

theorem asI64_eq_some {n : Number} {i : Int} (h : n.asI64 = some i) : ∃ ge lt, n = .int i ge lt := by
  cases n with
  | int n ge lt =>
    rw [Number.asI64] at h
    split_ifs at h
    cases h
    exact ⟨ge, lt, rfl⟩
  | float value text => cases h

theorem asI64_inj {m n : Number} {i : Int} (hm : m.asI64 = some i) (hn : n.asI64 = some i) : m = n := by
  obtain ⟨_, _, rfl⟩ := asI64_eq_some hm
  obtain ⟨_, _, rfl⟩ := asI64_eq_some hn
  rfl

/-- Two numbers are compared as integers where both fit `i64`, else by their doubles and then their texts. -/
theorem compareValues_number (m n : Number) : compareValues (.number m) (.number n) =
    match m.asI64, n.asI64 with
    | some i, some j => compare i j
    | _, _ => (compare m.asF64 n.asF64).then (compare m.toText n.toText) := by
  rw [compareValues, compareNumbers]
  cases hm : m.asI64 with
  | none => rfl
  | some i =>
    cases hn : n.asI64 with
    | none => rfl
    | some j =>
      obtain ⟨_, _, rfl⟩ := asI64_eq_some hm
      obtain ⟨_, _, rfl⟩ := asI64_eq_some hn
      simp only
      by_cases hij : i = j
      · subst hij
        rw [compare_eq_iff_eq.2 rfl, Ordering.then]
        exact Std.ReflOrd.compare_self
      · cases hcmp : compare i j with
        | eq => exact absurd (compare_eq_iff_eq.1 hcmp) hij
        | _ => rfl

/-- Two integers of `i64` that are one double and whose texts stand the other way round, and another
number that is that double, with its text between theirs. -/
def Wedged (m n d : Number) : Prop :=
  ∃ i j, m.asI64 = some i ∧ n.asI64 = some j ∧ i < j ∧ d.asI64 = none ∧
    m.asF64 = d.asF64 ∧ d.asF64 = n.asF64 ∧ n.toText ≤ d.toText ∧ d.toText ≤ m.toText

variable {a b c : Number}

theorem asF64_le (h : (compareValues (.number a) (.number b)).isLE = true) : a.asF64 ≤ b.asF64 := by
  rw [compareValues_number] at h
  cases ha : a.asI64 with
  | none =>
    rw [ha] at h
    exact compare_isLE_iff.1 (Ordering.isLE_then_iff_and.1 h).1
  | some i =>
    cases hb : b.asI64 with
    | none =>
      rw [ha, hb] at h
      exact compare_isLE_iff.1 (Ordering.isLE_then_iff_and.1 h).1
    | some j =>
      rw [ha, hb] at h
      obtain ⟨_, _, rfl⟩ := asI64_eq_some ha
      obtain ⟨_, _, rfl⟩ := asI64_eq_some hb
      exact asF64_mono (Std.isLE_compare.1 h)

/-- Numbers that are different doubles stand as these do. -/
theorem isLE_of_asF64_lt (h : a.asF64 < b.asF64) : (compareValues (.number a) (.number b)).isLE = true := by
  rcases total_values (.number a) (.number b) with hle | hle
  · exact hle
  · have hge := asF64_le hle
    exact absurd h (not_lt.2 hge)

theorem isLE_integers {i j : Int} (ha : a.asI64 = some i) (hb : b.asI64 = some j) :
    (compareValues (.number a) (.number b)).isLE = true ↔ i ≤ j := by
  rw [compareValues_number, ha, hb]
  exact Std.isLE_compare

/-- Numbers that are one double, and not both integers of `i64`, stand as their texts do. -/
theorem isLE_texts (hf : a.asF64 = b.asF64) (hnone : a.asI64 = none ∨ b.asI64 = none) :
    (compareValues (.number a) (.number b)).isLE = true ↔ a.toText ≤ b.toText := by
  have heq : compareValues (.number a) (.number b) = compare a.toText b.toText := by
    rw [compareValues_number, hf, compare_eq_iff_eq.2 rfl]
    rcases hnone with h | h
    · rw [h]
      rfl
    · rw [h]
      cases a.asI64 <;> rfl
  rw [heq, compare_isLE_iff]

theorem numbers_trans (hwedged : ∀ x ∈ [a, b, c], ∀ y ∈ [a, b, c], ∀ z ∈ [a, b, c], ¬ Wedged x y z)
    (hab : (compareValues (.number a) (.number b)).isLE = true)
    (hbc : (compareValues (.number b) (.number c)).isLE = true) :
    (compareValues (.number a) (.number c)).isLE = true := by
  have hfab := asF64_le hab
  have hfbc := asF64_le hbc
  by_cases hlt : a.asF64 < c.asF64
  · exact isLE_of_asF64_lt hlt
  have hf : a.asF64 = b.asF64 := by linarith
  have hf' : b.asF64 = c.asF64 := by linarith
  have hf'' : a.asF64 = c.asF64 := hf.trans hf'
  by_contra hac
  cases ha : a.asI64 with
  | none =>
    rw [isLE_texts hf (.inl ha)] at hab
    rw [isLE_texts hf'' (.inl ha)] at hac
    cases hb : b.asI64 with
    | none =>
      rw [isLE_texts hf' (.inl hb)] at hbc
      exact hac (hab.trans hbc)
    | some j =>
      cases hc : c.asI64 with
      | none =>
        rw [isLE_texts hf' (.inr hc)] at hbc
        exact hac (hab.trans hbc)
      | some k =>
        -- `b < c` as integers, and the text of `a` is between theirs.
        rw [isLE_integers hb hc] at hbc
        have hne : j ≠ k := by
          rintro rfl
          rw [asI64_inj hb hc] at hab
          exact hac hab
        exact hwedged b (by simp) c (by simp) a (by simp)
          ⟨j, k, hb, hc, by omega, ha, hf.symm, hf'', (not_le.1 hac).le, hab⟩
  | some i =>
    cases hb : b.asI64 with
    | none =>
      rw [isLE_texts hf (.inr hb)] at hab
      rw [isLE_texts hf' (.inl hb)] at hbc
      cases hc : c.asI64 with
      | none =>
        rw [isLE_texts hf'' (.inr hc)] at hac
        exact hac (hab.trans hbc)
      | some k =>
        -- `c < a` as integers, and the text of `b` is between theirs.
        rw [isLE_integers ha hc] at hac
        exact hwedged c (by simp) a (by simp) b (by simp)
          ⟨k, i, hc, ha, by omega, hb, hf'.symm, hf.symm, hab, hbc⟩
    | some j =>
      rw [isLE_integers ha hb] at hab
      cases hc : c.asI64 with
      | none =>
        -- `a < b` as integers, and the text of `c` is between theirs.
        rw [isLE_texts hf' (.inr hc)] at hbc
        rw [isLE_texts hf'' (.inr hc)] at hac
        have hne : i ≠ j := by
          rintro rfl
          rw [← asI64_inj ha hb] at hbc
          exact hac hbc
        exact hwedged a (by simp) b (by simp) c (by simp)
          ⟨i, j, ha, hb, by omega, hc, hf'', hf'.symm, hbc, (not_le.1 hac).le⟩
      | some k =>
        rw [isLE_integers hb hc] at hbc
        rw [isLE_integers ha hc] at hac
        omega

/-! ### Integers -/

/-- Two integers on either side of `10 ^ 19` that are the same double, `1e19`. -/
def Straddles (m n : Int) : Prop := 10 ^ 19 - 1024 ≤ m ∧ m < 10 ^ 19 ∧ 10 ^ 19 ≤ n ∧ n ≤ 10 ^ 19 + 1024

theorem roundF64_top {n : Nat} (hle : 2 ^ 63 ≤ n) (hlt : n < 2 ^ 64) : roundF64 n = nearestMultiple 2048 n :=
  (roundF64_binade hle hlt).1

theorem nearest_of_straddles {n : Nat} (h : 10 ^ 19 - 1024 ≤ n) (h' : n ≤ 10 ^ 19 + 1024) :
    nearestMultiple 2048 n = 10 ^ 19 := by
  rw [nearestMultiple]
  split_ifs <;> omega

theorem straddles_of_nearest {n : Nat} (h : nearestMultiple 2048 n = 10 ^ 19) :
    10 ^ 19 - 1024 ≤ n ∧ n ≤ 10 ^ 19 + 1024 := by
  rw [nearestMultiple] at h
  split_ifs at h <;> omega

theorem text_of_nonneg {n : Int} {ge : i64Min ≤ n} {lt : n < 2 ^ 64} (h : 0 ≤ n) :
    (Number.int n ge lt).toText.toList = Nat.toDigits 10 n.toNat := by
  lift n to Nat using h
  exact Nat.toList_repr

theorem large_of_roundF64 {m n : Nat} (hn : 2 ^ 63 ≤ n) (hlt : n < 2 ^ 64) (hf : roundF64 m = roundF64 n) :
    2 ^ 62 ≤ m := by
  by_contra hm
  have hlow := (roundF64_binade hn hlt).2.1
  have hhigh := (@roundF64_binade 61 (2 ^ 62 - 1) (by omega) (by omega)).2.2
  have hmono := @roundF64_mono m (2 ^ 62 - 1) (by omega)
  omega

/-- Two integers that are one double, on either side of `10 ^ 19`, are next to it. -/
theorem straddles_of_roundF64 {m n : Nat} (hm : m < 10 ^ 19) (hn : 10 ^ 19 ≤ n) (hlt : n < 2 ^ 64)
    (hf : roundF64 m = roundF64 n) : Straddles m n := by
  have hfn := roundF64_top (by omega) hlt
  have hlow := (@nearestMultiple_bounds 2048 n (10 ^ 19) (2 ^ 64) (by omega) (by omega) (by omega) hn hlt.le).1
  have hlarge : 2 ^ 63 ≤ m := by
    by_contra hsmall
    have hm' := large_of_roundF64 (by omega) hlt hf
    have hhigh := (roundF64_binade hm' (by omega)).2.2
    omega
  have hfm := roundF64_top hlarge (by omega)
  have hhigh := (@nearestMultiple_bounds 2048 m (2 ^ 63) (10 ^ 19) (by omega) (by omega) (by omega) hlarge hm.le).2
  have hm' := straddles_of_nearest (n := m) (by omega)
  have hn' := straddles_of_nearest (n := n) (by omega)
  exact ⟨by omega, by omega, by omega, by omega⟩

/-- Two large integers that are one double stand as their texts do, unless one has a digit more. -/
theorem toDigits_lt_iff {m n : Nat} (h : m < n) (hn : 2 ^ 63 ≤ n) (hlt : n < 2 ^ 64) (hf : roundF64 m = roundF64 n) :
    Nat.toDigits 10 m < Nat.toDigits 10 n ↔ ¬ Straddles m n := by
  have hm := large_of_roundF64 hn hlt hf
  by_cases hn' : n < 10 ^ 19
  · have hnot : ¬ Straddles m n := fun hs => by
      have hge := hs.2.2.1
      omega
    exact iff_of_true (@toDigits_lt 18 m n (by omega) h hn') hnot
  · by_cases hm' : m < 10 ^ 19
    · have hdigits : Nat.toDigits 10 n < Nat.toDigits 10 m :=
        @toDigits_lt_of_div 18 m n hm' (not_lt.1 hn') (by omega)
      exact iff_of_false (fun hh => List.lt_asymm hdigits hh)
        (not_not.2 (straddles_of_roundF64 hm' (not_lt.1 hn') hlt hf))
    · have hnot : ¬ Straddles m n := fun hs => by
        have hlow := hs.2.1
        omega
      exact iff_of_true (@toDigits_lt 19 m n (by omega) h (by omega)) hnot

theorem roundF64_of_straddles {m n : Nat} (h : Straddles m n) : roundF64 m = roundF64 n := by
  obtain ⟨hle, hm, hn, hle'⟩ := h
  rw [roundF64_top (by omega) (by omega), roundF64_top (by omega) (by omega),
    nearest_of_straddles (by omega) (by omega), nearest_of_straddles (by omega) (by omega)]

theorem nonneg_of_asF64 {m n : Int} {ge : i64Min ≤ m} {lt : m < 2 ^ 64} {ge' : i64Min ≤ n} {lt' : n < 2 ^ 64}
    (hn : 2 ^ 63 ≤ n) (hf : (Number.int m ge lt).asF64 = (Number.int n ge' lt').asF64) : 0 ≤ m := by
  by_contra hm
  have hlow := (@roundF64_binade 63 n.toNat (by omega) (by omega)).2.1
  rw [asF64_of_nonpos (by omega), asF64_of_nonneg (by omega)] at hf
  have hzero : roundF64 (-m).toNat + roundF64 n.toNat = 0 := by
    have hsum : (roundF64 (-m).toNat : ℚ) + roundF64 n.toNat = 0 := by linarith
    exact_mod_cast hsum
  omega

/-- Two integers are compared as integers, except across `10 ^ 19` where both are the double `1e19`. -/
theorem compare_integers {m n : Int} {ge : i64Min ≤ m} {lt : m < 2 ^ 64} {ge' : i64Min ≤ n} {lt' : n < 2 ^ 64}
    (h : m < n) :
    compareValues (.number (.int m ge lt)) (.number (.int n ge' lt')) = .lt ↔ ¬ Straddles m n := by
  by_cases hbig : n ≤ i64Max
  · have hi : (Number.int m ge lt).asI64 = some m := if_pos (by omega)
    have hj : (Number.int n ge' lt').asI64 = some n := if_pos hbig
    have hnot : ¬ Straddles m n := fun hs => by
      have hn := hs.2.2.1
      rw [i64Max] at hbig
      omega
    rw [compareValues_number, hi, hj]
    exact iff_of_true (compare_lt_iff_lt.2 h) hnot
  · have hlarge : 2 ^ 63 ≤ n := by
      rw [i64Max] at hbig
      omega
    obtain ⟨k, rfl⟩ := Int.eq_ofNat_of_zero_le (show 0 ≤ n by omega)
    have hj : (Number.int k ge' lt').asI64 = none := if_neg hbig
    have heq : compareValues (.number (.int m ge lt)) (.number (.int k ge' lt')) =
        (compare (Number.int m ge lt).asF64 (Number.int k ge' lt').asF64).then
          (compare (Number.int m ge lt).toText (Number.int k ge' lt').toText) := by
      rw [compareValues_number, hj]
      cases (Number.int m ge lt).asI64 <;> rfl
    rw [heq]
    by_cases hf : (Number.int m ge lt).asF64 = (Number.int k ge' lt').asF64
    · have hpos : 0 ≤ m := nonneg_of_asF64 hlarge hf
      obtain ⟨j, rfl⟩ := Int.eq_ofNat_of_zero_le hpos
      rw [asF64_of_nonneg (by omega), asF64_of_nonneg (by omega)] at hf
      have hround : roundF64 j = roundF64 k := by exact_mod_cast hf
      rw [asF64_of_nonneg (by omega), asF64_of_nonneg (by omega), compare_eq_iff_eq.2 hf, Ordering.then,
        compare_text_lt, String.lt_iff, text_of_nonneg (by omega), text_of_nonneg (by omega)]
      exact toDigits_lt_iff (by omega) (by omega) (by omega) hround
    · have hflt := lt_of_le_of_ne (asF64_mono h.le) hf
      rw [compare_lt_iff_lt.2 hflt]
      refine iff_of_true rfl fun hs => hf ?_
      have hm := hs.1
      obtain ⟨j, rfl⟩ := Int.eq_ofNat_of_zero_le (show 0 ≤ m by omega)
      rw [asF64_of_nonneg (by omega), asF64_of_nonneg (by omega)]
      exact congrArg Nat.cast (roundF64_of_straddles hs)

/-! ### The order -/

/-- On these values the comparison is a total preorder that agrees with the order of the integers. -/
structure Ordered (S : Value → Prop) : Prop where
  refl : ∀ v, S v → compareValues v v = .eq
  antisymm : ∀ v w, S v → S w → compareValues w v = (compareValues v w).swap
  trans : TransOn S
  integers : ∀ m n ge lt ge' lt', S (.number (.int m ge lt)) → S (.number (.int n ge' lt')) →
    compareValues (.number (.int m ge lt)) (.number (.int n ge' lt')) = compare m n

variable {S : Value → Prop}

theorem compareValues_refl (v : Value) : compareValues v v = .eq := by
  have hswap := compareValues_swap v v
  cases hv : compareValues v v with
  | eq => rfl
  | _ =>
    rw [hv] at hswap
    cases hswap

theorem trans_of_numbers (h : ∀ m n d, S (.number m) → S (.number n) → S (.number d) → ¬ Wedged m n d) : TransOn S := by
  intro u v w hu hv hw huv hvw
  by_cases hranks : valueRank u = 2 ∧ valueRank w = 2
  · have hv2 : valueRank v = 2 := by
      have hle := rank_le huv
      have hle' := rank_le hvw
      omega
    obtain ⟨a, rfl⟩ := number_of_rank hranks.1
    obtain ⟨b, rfl⟩ := number_of_rank hv2
    obtain ⟨c, rfl⟩ := number_of_rank hranks.2
    have hin : ∀ x ∈ [a, b, c], S (.number x) := by simpa using ⟨hu, hv, hw⟩
    exact numbers_trans (fun x hx y hy z hz => h x y z (hin x hx) (hin y hy) (hin z hz)) huv hvw
  · exact trans_unless_number huv hvw (by omega)

/-- A wedged number is above the greater integer and below the lesser one. -/
theorem not_trans_of_wedged {m n d : Number} (hm : S (.number m)) (hn : S (.number n)) (hd : S (.number d))
    (h : Wedged m n d) : ¬ TransOn S := by
  obtain ⟨i, j, hi, hj, hlt, hnone, hfm, hfn, hnd, hdm⟩ := h
  intro htrans
  have hle := htrans _ _ _ hn hd hm ((isLE_texts hfn.symm (.inr hnone)).2 hnd)
    ((isLE_texts hfm.symm (.inl hnone)).2 hdm)
  rw [isLE_integers hj hi] at hle
  omega

/-- The comparison orders a set of values exactly where no number is wedged between two of its integers
and no two of its integers straddle `10 ^ 19`. -/
theorem ordered_iff (S : Value → Prop) : Ordered S ↔
    (∀ m n d, S (.number m) → S (.number n) → S (.number d) → ¬ Wedged m n d) ∧
    ∀ m n ge lt ge' lt', S (.number (.int m ge lt)) → S (.number (.int n ge' lt')) → ¬ Straddles m n := by
  constructor
  · intro h
    constructor
    · intro m n d hm hn hd hwedged
      exact not_trans_of_wedged hm hn hd hwedged h.trans
    · intro m n ge lt ge' lt' hm hn hs
      have hmn : m < n := by
        have hlow := hs.2.1
        have hhigh := hs.2.2.1
        omega
      have hcompare := h.integers m n ge lt ge' lt' hm hn
      rw [compare_lt_iff_lt.2 hmn, compare_integers hmn] at hcompare
      exact hcompare hs
  · intro ⟨hwedged, hstraddles⟩
    refine ⟨fun v _ => compareValues_refl v, fun v w _ _ => compareValues_swap v w, trans_of_numbers hwedged, ?_⟩
    intro m n ge lt ge' lt' hm hn
    rcases lt_trichotomy m n with h | h | h
    · rw [compare_lt_iff_lt.2 h, compare_integers h]
      exact hstraddles m n ge lt ge' lt' hm hn
    · subst h
      rw [compareValues_refl, compare_eq_iff_eq.2 rfl]
    · rw [compareValues_swap, (compare_integers h).2 (hstraddles n m ge' lt' ge lt hn hm), compare_gt_iff_gt.2 h]
      rfl

/-- The integers next to `10 ^ 19` that do not fit `i64`. -/
def belowTenTo19 : Number := .int (10 ^ 19 - 1) (by decide) (by decide)

def tenTo19 : Number := .int (10 ^ 19) (by decide) (by decide)

/-- The integer `-2 ^ 53` is below the double of that value, this below `-2 ^ 53 - 1`, and that below
`-2 ^ 53`; and `10 ^ 19 - 1` is above `10 ^ 19`. -/
theorem not_ordered : ¬ TransOn (fun v => v ∈ [lowest, lowestDouble, belowLowest].map Value.number) ∧
    compareValues (.number belowTenTo19) (.number tenTo19) = .gt ∧ ¬ Ordered fun _ => True := by
  have hlow : (compareValues (.number lowest) (.number lowestDouble)).isLE = true := by decide +kernel
  have hhigh : (compareValues (.number lowestDouble) (.number belowLowest)).isLE = true := by decide +kernel
  have hout : (compareValues (.number lowest) (.number belowLowest)).isLE = false := by decide +kernel
  refine ⟨fun h => ?_, by decide +kernel, fun h => ?_⟩
  · have hle := h _ _ _ (by simp) (by simp) (by simp) hlow hhigh
    exact absurd (hout.symm.trans hle) (by simp)
  · have hle := h.trans _ _ _ trivial trivial trivial hlow hhigh
    exact absurd (hout.symm.trans hle) (by simp)

end Ecat.Shard
