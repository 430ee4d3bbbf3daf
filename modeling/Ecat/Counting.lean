import Mathlib.Algebra.BigOperators.Group.Finset.Basic
import Mathlib.Algebra.Order.BigOperators.Group.Multiset
import Mathlib.Data.Multiset.Count
import Mathlib.Data.Finset.Basic

/-! Counting arguments for families of multisets: disjoint parts of a whole that
together have its size leave nothing of it out. -/

namespace Ecat

variable {ι α : Type} {s : Finset ι} {part : ι → Multiset α} {whole : Multiset α}

theorem sum_le_of_disjoint (hpart : ∀ i ∈ s, part i ≤ whole)
    (hdisjoint : ∀ i ∈ s, ∀ j ∈ s, ∀ x, x ∈ part i → x ∈ part j → i = j) :
    ∑ i ∈ s, part i ≤ whole := by
  classical
  rw [Multiset.le_iff_count]
  intro x
  rw [Multiset.count_sum']
  by_cases hx : ∃ i ∈ s, x ∈ part i
  · obtain ⟨i, hi, hxi⟩ := hx
    have hone : ∑ j ∈ s, (part j).count x = (part i).count x := by
      refine Finset.sum_eq_single_of_mem i hi ?_
      intro j hj hne
      rw [Multiset.count_eq_zero]
      exact fun hxj => hne (hdisjoint j hj i hi x hxj hxi)
    rw [hone]
    exact Multiset.count_le_of_le x (hpart i hi)
  · have hzero : ∑ j ∈ s, (part j).count x = 0 := by
      refine Finset.sum_eq_zero ?_
      intro j hj
      rw [Multiset.count_eq_zero]
      exact fun hxj => hx ⟨j, hj, hxj⟩
    rw [hzero]
    exact Nat.zero_le _

/-- Disjoint parts of a whole that add up to its size cover it. -/
theorem mem_part_of_card_eq (hpart : ∀ i ∈ s, part i ≤ whole)
    (hdisjoint : ∀ i ∈ s, ∀ j ∈ s, ∀ x, x ∈ part i → x ∈ part j → i = j)
    (hcard : ∑ i ∈ s, (part i).card = whole.card) {x : α} (hx : x ∈ whole) :
    ∃ i ∈ s, x ∈ part i := by
  have hle := sum_le_of_disjoint hpart hdisjoint
  have he : ∑ i ∈ s, part i = whole := by
    refine Multiset.eq_of_le_of_card_le hle ?_
    rw [Multiset.card_sum, hcard]
  rw [← he] at hx
  exact Multiset.mem_sum.mp hx

end Ecat
