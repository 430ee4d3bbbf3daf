import Ecat.GraphqlValue

/-! The bytes of a string are read as that string. -/

namespace Ecat.Graphql

theorem utf8Width_eq (c : UInt8) : utf8Width c =
    if c.toNat < 128 then 1 else if 194 ≤ c.toNat ∧ c.toNat ≤ 223 then 2
    else if 224 ≤ c.toNat ∧ c.toNat ≤ 239 then 3 else if 240 ≤ c.toNat ∧ c.toNat ≤ 244 then 4 else 0 := by
  simp only [utf8Width, UInt8.lt_iff_toNat_lt, UInt8.le_iff_toNat_le, UInt8.reduceToNat]

theorem isSecond_iff {c d : UInt8} : isSecond c d = true ↔
    ((c.toNat = 224 → 160 ≤ d.toNat) ∧ (c.toNat = 240 → 144 ≤ d.toNat) ∧ 128 ≤ d.toNat) ∧
      (c.toNat = 237 → d.toNat ≤ 159) ∧ (c.toNat = 244 → d.toNat ≤ 143) ∧ d.toNat ≤ 191 := by
  simp only [isSecond, Bool.and_eq_true, ← UInt8.toNat_inj, UInt8.reduceToNat]
  split_ifs <;> simp only [decide_eq_true_eq, UInt8.le_iff_toNat_le, UInt8.reduceToNat] <;> omega

theorem isContinuation_iff {d : UInt8} : isContinuation d = true ↔ 128 ≤ d.toNat ∧ d.toNat ≤ 191 := by
  simp [isContinuation, UInt8.le_iff_toNat_le]

theorem lossyChars_of_width {c : UInt8} {ds rest : Bytes} (hwidth : utf8Width c = ds.length + 1)
    (hfirst : ∀ d ∈ ds.head?, isSecond c d = true) (hrest : ∀ d ∈ ds.tail, isContinuation d = true) :
    lossyChars (c :: ds ++ rest) =
      Char.ofNat (ds.foldl (fun code d => code * 0x40 + d.toNat % 0x40) (leadBits c)) :: lossyChars rest := by
  have hcont : continuation c (ds ++ rest) = ds := by
    cases ds with
    | nil =>
      cases rest with
      | nil => rfl
      | cons d rest =>
        rw [List.nil_append, continuation, if_neg]
        rw [hwidth]
        simp
    | cons d ds =>
      have htake : (ds ++ rest).take (utf8Width c - 2) = ds := by
        rw [hwidth]
        simp
      rw [List.cons_append, continuation, if_pos ⟨by rw [hwidth]; simp, hfirst d rfl⟩, htake]
      congr 1
      exact List.takeWhile_eq_self_iff.2 hrest
  rw [List.cons_append, lossyChars, hcont, if_pos hwidth, List.drop_left]

theorem toNat_ofNat_lt {n : Nat} (h : n < 256) : (UInt8.ofNat n).toNat = n := by
  rw [UInt8.toNat_ofNat']
  omega

/-- A character is read from its bytes. -/
theorem lossyChars_char (c : Char) (rest : Bytes) :
    lossyChars (String.utf8EncodeChar c ++ rest) = c :: lossyChars rest := by
  have hvalid : c.toNat < 0xd800 ∨ 0xdfff < c.toNat ∧ c.toNat < 0x110000 := c.valid
  have hback : Char.ofNat c.toNat = c := Char.ofNat_toNat c
  have htoNat : c.val.toNat = c.toNat := rfl
  rw [String.utf8EncodeChar, htoNat]
  generalize c.toNat = v at *
  have hlow : (UInt8.ofNat (v % 64 + 128)).toNat = v % 64 + 128 := toNat_ofNat_lt (by omega)
  have hmiddle : (UInt8.ofNat (v / 64 % 64 + 128)).toNat = v / 64 % 64 + 128 := toNat_ofNat_lt (by omega)
  have hhigh : (UInt8.ofNat (v / 4096 % 64 + 128)).toNat = v / 4096 % 64 + 128 := toNat_ofNat_lt (by omega)
  have hlast : isContinuation (UInt8.ofNat (v % 64 + 128)) = true := by
    rw [isContinuation_iff, hlow]
    omega
  have hthird : isContinuation (UInt8.ofNat (v / 64 % 64 + 128)) = true := by
    rw [isContinuation_iff, hmiddle]
    omega
  split_ifs with h1 h2 h3
  · have hfirst : (UInt8.ofNat v).toNat = v := toNat_ofNat_lt (by omega)
    have hwidth : utf8Width (UInt8.ofNat v) = 1 := by
      rw [utf8Width_eq, hfirst, if_pos (by omega)]
    have hread := @lossyChars_of_width _ [] rest hwidth (by simp) (by simp)
    simp only [leadBits, hwidth, List.foldl_nil, hfirst, hback] at hread
    exact hread
  · have hfirst : (UInt8.ofNat (v / 64 % 32 + 192)).toNat = v / 64 + 192 := by
      rw [toNat_ofNat_lt (by omega)]
      omega
    have hwidth : utf8Width (UInt8.ofNat (v / 64 % 32 + 192)) = 2 := by
      rw [utf8Width_eq, hfirst, if_neg (by omega), if_pos (by omega)]
    have hsecond : isSecond (UInt8.ofNat (v / 64 % 32 + 192)) (UInt8.ofNat (v % 64 + 128)) = true := by
      rw [isSecond_iff, hfirst, hlow]
      omega
    have hread := @lossyChars_of_width _ [.ofNat (v % 64 + 128)] rest hwidth (by simpa using hsecond) (by simp)
    have hcode : (v / 64 + 192) % 32 * 64 + (v % 64 + 128) % 64 = v := by omega
    rw [leadBits, hwidth] at hread
    simp only [List.foldl_cons, List.foldl_nil, hfirst, hlow] at hread
    rwa [hcode, hback] at hread
  · have hfirst : (UInt8.ofNat (v / 4096 % 16 + 224)).toNat = v / 4096 + 224 := by
      rw [toNat_ofNat_lt (by omega)]
      omega
    have hwidth : utf8Width (UInt8.ofNat (v / 4096 % 16 + 224)) = 3 := by
      rw [utf8Width_eq, hfirst, if_neg (by omega), if_neg (by omega), if_pos (by omega)]
    have hsecond : isSecond (UInt8.ofNat (v / 4096 % 16 + 224)) (UInt8.ofNat (v / 64 % 64 + 128)) = true := by
      rw [isSecond_iff, hfirst, hmiddle]
      omega
    have hread := @lossyChars_of_width _ [.ofNat (v / 64 % 64 + 128), .ofNat (v % 64 + 128)] rest hwidth
      (by simpa using hsecond) (List.forall_mem_singleton.2 hlast)
    have hcode : ((v / 4096 + 224) % 16 * 64 + (v / 64 % 64 + 128) % 64) * 64 + (v % 64 + 128) % 64 = v := by omega
    rw [leadBits, hwidth] at hread
    simp only [List.foldl_cons, List.foldl_nil, hfirst, hmiddle, hlow] at hread
    rwa [hcode, hback] at hread
  · have hfirst : (UInt8.ofNat (v / 262144 % 8 + 240)).toNat = v / 262144 + 240 := by
      rw [toNat_ofNat_lt (by omega)]
      omega
    have hwidth : utf8Width (UInt8.ofNat (v / 262144 % 8 + 240)) = 4 := by
      rw [utf8Width_eq, hfirst, if_neg (by omega), if_neg (by omega), if_neg (by omega), if_pos (by omega)]
    have hsecond : isSecond (UInt8.ofNat (v / 262144 % 8 + 240)) (UInt8.ofNat (v / 4096 % 64 + 128)) = true := by
      rw [isSecond_iff, hfirst, hhigh]
      omega
    have hread := @lossyChars_of_width _ [.ofNat (v / 4096 % 64 + 128), .ofNat (v / 64 % 64 + 128), .ofNat (v % 64 + 128)]
      rest hwidth (by simpa using hsecond) (List.forall_mem_cons.2 ⟨hthird, List.forall_mem_singleton.2 hlast⟩)
    have hcode : (((v / 262144 + 240) % 8 * 64 + (v / 4096 % 64 + 128) % 64) * 64 + (v / 64 % 64 + 128) % 64) * 64 +
        (v % 64 + 128) % 64 = v := by omega
    rw [leadBits, hwidth] at hread
    simp only [List.foldl_cons, List.foldl_nil, hfirst, hhigh, hmiddle, hlow] at hread
    rwa [hcode, hback] at hread

theorem fromUtf8Lossy_toUTF8 (text : String) : fromUtf8Lossy text.toUTF8.data.toList = text := by
  have hbytes : text.toUTF8.data.toList = text.toList.flatMap String.utf8EncodeChar := by
    rw [String.toUTF8, ← String.utf8Encode_toList, List.utf8Encode, List.data_toByteArray]
  have hchars : ∀ chars : List Char, lossyChars (chars.flatMap String.utf8EncodeChar) = chars := by
    intro chars
    induction chars with
    | nil => rw [List.flatMap_nil, lossyChars]
    | cons c chars ih => rw [List.flatMap_cons, lossyChars_char, ih]
  rw [fromUtf8Lossy, hbytes, hchars, String.ofList_toList]

end Ecat.Graphql
