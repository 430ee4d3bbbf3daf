import Ecat.Json
import Ecat.Numerals

/-! The integers of JSON as doubles. -/

namespace Ecat.Json

theorem roundF64_eq (n : Nat) : roundF64 n = nearestMultiple (2 ^ (n.log2 + 1 - 53)) n := rfl

theorem roundF64_binade {e n : Nat} (hle : 2 ^ e ≤ n) (hlt : n < 2 ^ (e + 1)) :
    roundF64 n = nearestMultiple (2 ^ (e + 1 - 53)) n ∧ 2 ^ e ≤ roundF64 n ∧ roundF64 n ≤ 2 ^ (e + 1) := by
  have hpos := Nat.two_pow_pos e
  have hlog : n.log2 = e := (Nat.log2_eq_iff (by omega)).2 ⟨hle, hlt⟩
  have heq : roundF64 n = nearestMultiple (2 ^ (e + 1 - 53)) n := by rw [roundF64_eq, hlog]
  refine ⟨heq, ?_⟩
  rw [heq]
  apply nearestMultiple_bounds (Nat.two_pow_pos _)
  · exact Nat.pow_dvd_pow 2 (by omega)
  · exact Nat.pow_dvd_pow 2 (by omega)
  · exact hle
  · exact hlt.le

theorem roundF64_zero : roundF64 0 = 0 := rfl

theorem exists_binade {n : Nat} (h : n ≠ 0) : ∃ e, 2 ^ e ≤ n ∧ n < 2 ^ (e + 1) :=
  ⟨n.log2, (Nat.log2_eq_iff h).1 rfl⟩

theorem roundF64_mono {m n : Nat} (h : m ≤ n) : roundF64 m ≤ roundF64 n := by
  by_cases hm : m = 0
  · subst hm
    exact Nat.zero_le _
  · obtain ⟨d, hd, hd'⟩ := exists_binade hm
    obtain ⟨e, he, he'⟩ := exists_binade (n := n) (by omega)
    obtain ⟨heqm, _, hhigh⟩ := roundF64_binade hd hd'
    obtain ⟨heqn, hlow, _⟩ := roundF64_binade he he'
    have hde : d < e + 1 := (Nat.pow_lt_pow_iff_right (by omega)).1 (lt_of_le_of_lt (hd.trans h) he')
    by_cases hlt : d < e
    · have hpow : 2 ^ (d + 1) ≤ 2 ^ e := Nat.pow_le_pow_right (by omega) hlt
      omega
    · have heq : d = e := by omega
      subst heq
      rw [heqm, heqn]
      exact nearestMultiple_mono h

theorem asF64_of_nonneg {n : Int} {ge : i64Min ≤ n} {lt : n < 2 ^ 64} (h : 0 ≤ n) :
    (Number.int n ge lt).asF64 = roundF64 n.toNat := by
  lift n to Nat using h
  by_cases hn : n = 0
  · subst hn
    simp [Number.asF64, roundF64_zero]
  · have hsign : (n : Int).sign = 1 := Int.sign_eq_one_of_pos (by omega)
    simp [Number.asF64, hsign]

theorem asF64_of_nonpos {n : Int} {ge : i64Min ≤ n} {lt : n < 2 ^ 64} (h : n ≤ 0) :
    (Number.int n ge lt).asF64 = -roundF64 (-n).toNat := by
  by_cases hn : n = 0
  · subst hn
    simp [Number.asF64, roundF64_zero]
  · have hsign : n.sign = -1 := Int.sign_eq_neg_one_of_neg (by omega)
    have habs : n.natAbs = (-n).toNat := by omega
    simp [Number.asF64, hsign, habs]

theorem asF64_mono {m n : Int} {ge : i64Min ≤ m} {lt : m < 2 ^ 64} {ge' : i64Min ≤ n} {lt' : n < 2 ^ 64} (h : m ≤ n) :
    (Number.int m ge lt).asF64 ≤ (Number.int n ge' lt').asF64 := by
  by_cases hm : 0 ≤ m
  · rw [asF64_of_nonneg hm, asF64_of_nonneg (hm.trans h)]
    exact_mod_cast roundF64_mono (by omega)
  · by_cases hn : 0 ≤ n
    · rw [asF64_of_nonpos (by omega), asF64_of_nonneg hn]
      have hneg : (0 : ℚ) ≤ roundF64 (-m).toNat := Nat.cast_nonneg _
      have hpos : (0 : ℚ) ≤ roundF64 n.toNat := Nat.cast_nonneg _
      linarith
    · rw [asF64_of_nonpos (by omega), asF64_of_nonpos (by omega), neg_le_neg_iff]
      exact_mod_cast roundF64_mono (by omega)

end Ecat.Json
