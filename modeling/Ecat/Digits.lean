import Mathlib

/-! Decimal numerals, also padded with zeros up to a width, as texts from which the number is read back. -/

namespace Ecat

/-- The digits of a number behind as many zeros as the width asks for. -/
def padNat (width n : Nat) : List Char :=
  List.replicate (width - (Nat.toDigits 10 n).length) '0' ++ Nat.toDigits 10 n

/-- The width counts the minus sign, which stands before the zeros. -/
def padInt (width : Nat) (n : Int) : List Char :=
  if n < 0 then '-' :: padNat (width - 1) n.natAbs else padNat width n.natAbs

theorem ofDigitChars_padNat (width n : Nat) : Nat.ofDigitChars 10 (padNat width n) 0 = n := by
  rw [padNat, Nat.ofDigitChars_append, Nat.ofDigitChars_replicate_zero, mul_zero, Nat.ofDigitChars_ten_toDigits]

theorem padNat_inj {width m n : Nat} (h : padNat width m = padNat width n) : m = n := by
  rw [← ofDigitChars_padNat width m, h, ofDigitChars_padNat]

theorem length_padNat {width n : Nat} (hw : 0 < width) (h : n < 10 ^ width) : (padNat width n).length = width := by
  have hle := (Nat.length_toDigits_le_iff (by omega) hw).2 h
  rw [padNat, List.length_append, List.length_replicate]
  omega

theorem isDigit_of_mem_padNat {width n : Nat} {c : Char} (h : c ∈ padNat width n) : c.isDigit = true := by
  rcases List.mem_append.1 h with h | h
  · obtain rfl := List.eq_of_mem_replicate h
    rfl
  · exact Nat.isDigit_of_mem_toDigits (by omega) (by omega) h

theorem padInt_of_nonneg {width : Nat} {n : Int} (h : 0 ≤ n) : padInt width n = padNat width n.natAbs := by
  rw [padInt, if_neg (by omega)]

theorem padInt_chars {width : Nat} {n : Int} {c : Char} (h : c ∈ padInt width n) : c = '-' ∨ c.isDigit = true := by
  unfold padInt at h
  split_ifs at h with hn
  · rcases List.mem_cons.1 h with h | h
    · exact .inl h
    · exact .inr (isDigit_of_mem_padNat h)
  · exact .inr (isDigit_of_mem_padNat h)

theorem not_mem_padInt {width : Nat} {n : Int} {c : Char} (hne : c ≠ '-') (hdigit : c.isDigit = false) :
    c ∉ padInt width n := by
  intro h
  rcases padInt_chars h with h | h
  · exact hne h
  · exact absurd (hdigit.symm.trans h) (by simp)

theorem minus_ne_padNat {width n : Nat} {text : List Char} :
    '-' :: text ≠ padNat width n := by
  intro heq
  have hminus : '-' ∈ padNat width n := heq ▸ List.mem_cons_self
  exact absurd (isDigit_of_mem_padNat hminus) (by decide)

theorem padInt_inj {width : Nat} {m n : Int} (h : padInt width m = padInt width n) : m = n := by
  by_cases hm : m < 0
  · by_cases hn : n < 0
    · rw [padInt, if_pos hm, padInt, if_pos hn] at h
      have habs := padNat_inj (List.cons.inj h).2
      omega
    · rw [padInt, if_pos hm, padInt, if_neg hn] at h
      exact absurd h minus_ne_padNat
  · by_cases hn : n < 0
    · rw [padInt, if_neg hm, padInt, if_pos hn] at h
      exact absurd h.symm minus_ne_padNat
    · rw [padInt, if_neg hm, padInt, if_neg hn] at h
      have habs := padNat_inj h
      omega

theorem toList_natText (n : Nat) : (toString n).toList = Nat.toDigits 10 n := Nat.toList_repr

theorem padNat_zero (n : Nat) : padNat 0 n = Nat.toDigits 10 n := by
  simp [padNat]

theorem toList_intText (n : Int) : (toString n).toList = padInt 0 n := by
  cases n with
  | ofNat m =>
    have hnonneg : padInt 0 (Int.ofNat m) = padNat 0 m := padInt_of_nonneg (Int.natCast_nonneg m)
    rw [hnonneg, padNat_zero]
    exact toList_natText m
  | negSucc m =>
    have heq : toString (Int.negSucc m) = "-" ++ toString (m + 1) := rfl
    rw [heq, String.toList_append, toList_natText, padInt, if_pos (Int.negSucc_lt_zero m), padNat_zero]
    rfl

theorem intText_inj {m n : Int} (h : toString m = toString n) : m = n := by
  have hlist := congrArg String.toList h
  rw [toList_intText, toList_intText] at hlist
  exact padInt_inj hlist

theorem toDigits_inj {m n : Nat} (h : Nat.toDigits 10 m = Nat.toDigits 10 n) : m = n := by
  rw [← padNat_zero, ← padNat_zero] at h
  exact padNat_inj h

/-! ### Hexadecimal numerals -/

def hexDigits : List Char := "0123456789abcdef".toList

theorem mem_hexDigits_of_isDigit {c : Char} (h : c.isDigit = true) : c ∈ hexDigits := by
  simp only [Char.isDigit, Bool.and_eq_true, decide_eq_true_eq] at h
  have hrange : 48 ≤ c.toNat ∧ c.toNat ≤ 57 := h
  have hall : ∀ n < 58, 48 ≤ n → Char.ofNat n ∈ hexDigits := by decide
  exact Char.ofNat_toNat c ▸ hall c.toNat (by omega) hrange.1

theorem toDigits_hex (n : Nat) : Nat.toDigits 16 n =
    if n < 16 then [n.digitChar] else Nat.toDigits 16 (n / 16) ++ [(n % 16).digitChar] :=
  Nat.toDigits_eq_if (by omega)

theorem digitChar_mem {d : Nat} (h : d < 16) : d.digitChar ∈ hexDigits := by
  revert d
  decide

theorem digitChar_inj {d e : Nat} (hd : d < 16) (he : e < 16) (h : d.digitChar = e.digitChar) : d = e := by
  have hall : ∀ d < 16, ∀ e < 16, d.digitChar = e.digitChar → d = e := by decide
  exact hall d hd e he h

theorem mem_hexDigits {n : Nat} {c : Char} (h : c ∈ Nat.toDigits 16 n) : c ∈ hexDigits := by
  induction n using Nat.strongRecOn with
  | ind n ih =>
    rw [toDigits_hex] at h
    split_ifs at h with hn
    · rw [List.mem_singleton.1 h]
      exact digitChar_mem hn
    · rcases List.mem_append.1 h with h | h
      · exact ih (n / 16) (by omega) h
      · rw [List.mem_singleton.1 h]
        exact digitChar_mem (Nat.mod_lt n (by omega))

theorem toDigits_hex_inj {m n : Nat} (h : Nat.toDigits 16 m = Nat.toDigits 16 n) : m = n := by
  induction m using Nat.strongRecOn generalizing n with
  | ind m ih =>
    have hlong {k : Nat} (hk : ¬ k < 16) (d : Nat) : [d.digitChar] ≠ Nat.toDigits 16 (k / 16) ++ [(k % 16).digitChar] := by
      intro heq
      have hlength := congrArg List.length heq
      rw [List.length_append, List.length_singleton, List.length_singleton] at hlength
      exact @Nat.toDigits_ne_nil (k / 16) 16 (List.length_eq_zero_iff.1 (by omega))
    rw [toDigits_hex m, toDigits_hex n] at h
    by_cases hm : m < 16
    · by_cases hn : n < 16
      · rw [if_pos hm, if_pos hn] at h
        exact digitChar_inj hm hn (List.cons.inj h).1
      · rw [if_pos hm, if_neg hn] at h
        exact absurd h (hlong hn m)
    · by_cases hn : n < 16
      · rw [if_neg hm, if_pos hn] at h
        exact absurd h.symm (hlong hm n)
      · rw [if_neg hm, if_neg hn] at h
        obtain ⟨hfront, hlast⟩ := List.append_inj' h rfl
        have hdiv := ih (m / 16) (by omega) hfront
        have hmod := digitChar_inj (Nat.mod_lt m (by omega)) (Nat.mod_lt n (by omega)) (List.cons.inj hlast).1
        omega

/-- The last digits, as many as the width. -/
def fixedHex : Nat → Nat → List Char
  | 0, _ => []
  | width + 1, n => fixedHex width (n / 16) ++ [(n % 16).digitChar]

theorem mem_fixedHex {width n : Nat} {c : Char} (h : c ∈ fixedHex width n) : c ∈ hexDigits := by
  induction width generalizing n with
  | zero => cases h
  | succ width ih =>
    rcases List.mem_append.1 h with h | h
    · exact ih h
    · rw [List.mem_singleton.1 h]
      exact digitChar_mem (Nat.mod_lt n (by omega))

theorem fixedHex_inj {width m n : Nat} (hm : m < 16 ^ width) (hn : n < 16 ^ width)
    (h : fixedHex width m = fixedHex width n) : m = n := by
  induction width generalizing m n with
  | zero =>
    rw [pow_zero] at hm hn
    omega
  | succ width ih =>
    rw [pow_succ] at hm hn
    obtain ⟨hfront, hlast⟩ := List.append_inj' h rfl
    have hdiv := ih (by omega) (by omega) hfront
    have hmod := digitChar_inj (Nat.mod_lt m (by omega)) (Nat.mod_lt n (by omega)) (List.cons.inj hlast).1
    omega

/-! ### Reading -/

def readDigits (cs : List Char) : Option Nat :=
  if cs ≠ [] ∧ cs.all (·.isDigit) then some (Nat.ofDigitChars 10 cs 0) else none

theorem isDigit_toDigits (n : Nat) : ∀ c ∈ Nat.toDigits 10 n, c.isDigit = true :=
  fun _ => Nat.isDigit_of_mem_toDigits (by omega) (by omega)

theorem readDigits_of {cs : List Char} (hne : cs ≠ []) (h : ∀ c ∈ cs, c.isDigit = true) :
    readDigits cs = some (Nat.ofDigitChars 10 cs 0) := if_pos ⟨hne, List.all_eq_true.2 h⟩

theorem readDigits_toDigits (n : Nat) : readDigits (Nat.toDigits 10 n) = some n := by
  rw [readDigits_of Nat.toDigits_ne_nil (isDigit_toDigits n), Nat.ofDigitChars_ten_toDigits]

end Ecat
