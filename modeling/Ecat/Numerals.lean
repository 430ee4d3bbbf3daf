import Ecat.Digits
import Ecat.LexOrder

/-! Rounding to a multiple of a unit with halves to the even one, and the order of decimal numerals
as texts. -/

namespace Ecat

/-! ### Rounding -/

/-- The multiple of `u` next to `n`, halves to the even one. -/
def nearestMultiple (u n : Nat) : Nat :=
  (if u < 2 * (n % u) ∨ u = 2 * (n % u) ∧ n / u % 2 = 1 then n / u + 1 else n / u) * u

theorem nearestMultiple_mono {u m n : Nat} (h : m ≤ n) : nearestMultiple u m ≤ nearestMultiple u n := by
  apply Nat.mul_le_mul_right
  have hdiv : m / u ≤ n / u := Nat.div_le_div_right h
  by_cases heq : m / u = n / u
  · have hmod : m % u ≤ n % u := by
      have hm := Nat.div_add_mod m u
      have hn := Nat.div_add_mod n u
      rw [heq] at hm
      omega
    rw [heq]
    split_ifs <;> omega
  · split_ifs <;> omega

theorem nearestMultiple_mul {u : Nat} (hu : 0 < u) (q : Nat) : nearestMultiple u (q * u) = q * u := by
  have hmod : q * u % u = 0 := Nat.mul_mod_left q u
  rw [nearestMultiple, hmod, if_neg (by omega), Nat.mul_div_cancel q hu]

theorem nearestMultiple_bounds {u n a b : Nat} (hu : 0 < u) (ha : u ∣ a) (hb : u ∣ b) (hle : a ≤ n) (hle' : n ≤ b) :
    a ≤ nearestMultiple u n ∧ nearestMultiple u n ≤ b := by
  obtain ⟨p, rfl⟩ := ha
  obtain ⟨q, rfl⟩ := hb
  have hp := @nearestMultiple_mono u _ _ hle
  have hq := @nearestMultiple_mono u _ _ hle'
  rw [Nat.mul_comm, nearestMultiple_mul hu] at hp hq
  rw [Nat.mul_comm u p, Nat.mul_comm u q]
  exact ⟨hp, hq⟩

/-! ### Decimal numerals -/

theorem length_toDigits {w n : Nat} (hle : 10 ^ w ≤ n) (hlt : n < 10 ^ (w + 1)) :
    (Nat.toDigits 10 n).length = w + 1 := by
  have hhigh := (Nat.length_toDigits_le_iff (by omega) (by omega)).2 hlt
  by_cases hw : w = 0
  · have hpos := @Nat.length_toDigits_pos 10 n
    omega
  · have hlow := mt (Nat.length_toDigits_le_iff (by omega) (by omega)).1 (not_lt.2 hle)
    omega

theorem digitChar_lt {m n : Nat} (h : m < n) (hn : n < 10) : Nat.digitChar m < Nat.digitChar n := by
  have hall : ∀ n < 10, ∀ m < n, Nat.digitChar m < Nat.digitChar n := by decide
  exact hall n hn m h

/-- Of two numerals of one length, the smaller number has the smaller text. -/
theorem toDigits_lt {w m n : Nat} (hle : 10 ^ w ≤ m) (h : m < n) (hlt : n < 10 ^ (w + 1)) :
    Nat.toDigits 10 m < Nat.toDigits 10 n := by
  induction w generalizing m n with
  | zero =>
    rw [Nat.toDigits_of_lt_base (by omega), Nat.toDigits_of_lt_base (by omega), List.cons_lt_cons_iff]
    exact .inl (digitChar_lt h (by omega))
  | succ w ih =>
    rw [Nat.pow_succ] at hle
    rw [Nat.pow_succ _ (w + 1)] at hlt
    have hten : 10 ≤ m := by
      have hpow := Nat.one_le_pow w 10 (by omega)
      omega
    rw [Nat.toDigits_of_base_le (by omega) hten, Nat.toDigits_of_base_le (by omega) (hten.trans h.le)]
    by_cases hdiv : m / 10 < n / 10
    · have hmlen : (Nat.toDigits 10 (m / 10)).length = w + 1 := length_toDigits (by omega) (by omega)
      have hnlen : (Nat.toDigits 10 (n / 10)).length = w + 1 := length_toDigits (by omega) (by omega)
      rw [append_lt_append_iff _ _ (hmlen.trans hnlen.symm)]
      exact .inl (ih (by omega) hdiv (by omega))
    · have heq : m / 10 = n / 10 := by omega
      rw [heq]
      apply List.append_left_lt
      rw [List.cons_lt_cons_iff]
      exact .inl (digitChar_lt (by omega) (by omega))

/-- A numeral with one digit more has the smaller text where its other digits make the smaller number. -/
theorem toDigits_lt_of_div {w m n : Nat} (hlt : m < 10 ^ (w + 1)) (hle : 10 ^ (w + 1) ≤ n) (h : n / 10 < m) :
    Nat.toDigits 10 n < Nat.toDigits 10 m := by
  rw [Nat.pow_succ] at hle
  have hpow := Nat.one_le_pow w 10 (by omega)
  have hlow : 10 ^ w ≤ n / 10 := by omega
  have hnlen : (Nat.toDigits 10 (n / 10)).length = w + 1 := length_toDigits hlow (h.trans hlt)
  have hmlen : (Nat.toDigits 10 m).length = w + 1 := length_toDigits (hlow.trans h.le) hlt
  rw [Nat.toDigits_of_base_le (by omega) (by omega), ← List.append_nil (Nat.toDigits 10 m)]
  rw [append_lt_append_iff _ _ (hnlen.trans hmlen.symm)]
  exact .inl (toDigits_lt hlow h hlt)

theorem int_text_chars {n : Int} {c : Char} (h : c ∈ (toString n).toList) : c = '-' ∨ c.isDigit = true := by
  rw [toList_intText] at h
  exact padInt_chars h

theorem int_text_ne_nil (n : Int) : (toString n).toList ≠ [] := by
  rw [toList_intText, padInt]
  split_ifs with h
  · exact List.cons_ne_nil _ _
  · exact List.append_ne_nil_of_right_ne_nil _ Nat.toDigits_ne_nil

theorem not_mem_int_text {n : Int} {c : Char} (hne : c ≠ '-') (hdigit : c.isDigit = false) :
    c ∉ (toString n).toList := by
  intro h
  rcases int_text_chars h with h | h
  · exact hne h
  · exact absurd (hdigit.symm.trans h) (by simp)

end Ecat
