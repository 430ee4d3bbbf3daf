import Ecat.Utf8Lossy

/-! Percent decoding for the scan of a request: an escape is two hex digits behind a percent sign, and
what is no escape is kept. -/

namespace Ecat.Security

open Graphql (fromUtf8Lossy fromUtf8Lossy_toUTF8)

def percent : UInt8 := 37

def hexVal (b : UInt8) : Option UInt8 :=
  if 48 ≤ b ∧ b ≤ 57 then some (b - 48)
  else if 97 ≤ b ∧ b ≤ 102 then some (b - 97 + 10)
  else if 65 ≤ b ∧ b ≤ 70 then some (b - 65 + 10)
  else none

/-- The byte that is escaped at an index. The outer `none` is an index out of bounds or a number beyond a byte. -/
def escapeAt (bytes : Array UInt8) (i : Nat) : Option (Option UInt8) := do
  let b ← bytes[i]?
  if b = percent ∧ i + 2 < bytes.size then
    let h ← bytes[i + 1]?
    let l ← bytes[i + 2]?
    match hexVal h, hexVal l with
    | some h, some l => if h.toNat * 16 + l.toNat < 256 then some (some (h * 16 + l)) else none
    | _, _ => some none
  else some none

def decodeFrom (bytes : Array UInt8) (i : Nat) (out : List UInt8) : Option (List UInt8) :=
  if i < bytes.size then
    match escapeAt bytes i with
    | none => none
    | some (some b) => decodeFrom bytes (i + 3) (out ++ [b])
    | some none =>
      match bytes[i]? with
      | none => none
      | some b => decodeFrom bytes (i + 1) (out ++ [b])
  else some out
termination_by bytes.size - i

def percentDecode (s : String) : Option String := (decodeFrom s.toUTF8.data 0 []).map fromUtf8Lossy

/-! ### Encodings -/

def lowerHex (n : Nat) : UInt8 := if n < 10 then .ofNat (48 + n) else .ofNat (87 + n)

def upperHex (n : Nat) : UInt8 := if n < 10 then .ofNat (48 + n) else .ofNat (55 + n)

def HexDigit (n : Nat) (c : UInt8) : Prop := c = lowerHex n ∨ c = upperHex n

/-- Each byte stands for itself or is escaped; a percent sign is escaped. -/
inductive Encoding : List UInt8 → List UInt8 → Prop
  | nil : Encoding [] []
  | literal {b : UInt8} {s text : List UInt8} : b ≠ percent → Encoding s text → Encoding (b :: s) (b :: text)
  | escaped {b h l : UInt8} {s text : List UInt8} : HexDigit (b.toNat / 16) h → HexDigit (b.toNat % 16) l →
      Encoding s text → Encoding (b :: s) (percent :: h :: l :: text)

/-- Two hex digits come next. -/
def EscapeNext : List UInt8 → Prop
  | h :: l :: _ => (hexVal h).isSome ∧ (hexVal l).isSome
  | _ => False

/-- What a text decodes to: escapes become their bytes, and every other byte is kept. -/
inductive Decoded : List UInt8 → List UInt8 → Prop
  | nil : Decoded [] []
  | escape {h l d e : UInt8} {text s : List UInt8} : hexVal h = some d → hexVal l = some e →
      Decoded text s → Decoded (percent :: h :: l :: text) (.ofNat (d.toNat * 16 + e.toNat) :: s)
  | kept {b : UInt8} {text s : List UInt8} : ¬ (b = percent ∧ EscapeNext text) → Decoded text s → Decoded (b :: text) (b :: s)

/-! ### Digits -/

theorem hexVal_lt {b d : UInt8} (h : hexVal b = some d) : d.toNat < 16 := by
  rw [hexVal] at h
  split_ifs at h with h09 haf hAF
  · obtain rfl := Option.some.inj h
    have hle : b.toNat ≤ 57 := UInt8.le_iff_toNat_le.1 h09.2
    rw [UInt8.toNat_sub_of_le _ _ h09.1]
    exact Nat.lt_of_le_of_lt (Nat.sub_le_sub_right hle 48) (by decide)
  · obtain rfl := Option.some.inj h
    have hle : b.toNat ≤ 102 := UInt8.le_iff_toNat_le.1 haf.2
    have hsub : (b - 97).toNat = b.toNat - 97 := UInt8.toNat_sub_of_le _ _ haf.1
    rw [UInt8.toNat_add, hsub]
    have hten : (10 : UInt8).toNat = 10 := rfl
    omega
  · obtain rfl := Option.some.inj h
    have hle : b.toNat ≤ 70 := UInt8.le_iff_toNat_le.1 hAF.2
    have hsub : (b - 65).toNat = b.toNat - 65 := UInt8.toNat_sub_of_le _ _ hAF.1
    rw [UInt8.toNat_add, hsub]
    have hten : (10 : UInt8).toNat = 10 := rfl
    omega

theorem hexVal_hexDigit {n : Nat} {c : UInt8} (hn : n < 16) (h : HexDigit n c) : hexVal c = some (.ofNat n) := by
  rcases h with rfl | rfl
  · interval_cases n <;> rfl
  · interval_cases n <;> rfl

theorem joined_digits (d e : UInt8) : d * 16 + e = .ofNat (d.toNat * 16 + e.toNat) := by
  apply UInt8.toNat_inj.1
  have h16 : (16 : UInt8).toNat = 16 := rfl
  rw [UInt8.toNat_add, UInt8.toNat_mul, UInt8.toNat_ofNat', h16]
  omega

/-! ### One step -/

section Step

variable {bytes : Array UInt8} {i : Nat} {b : UInt8} {text : List UInt8}

theorem getElem?_of_drop (h : bytes.toList.drop i = b :: text) : bytes[i]? = some b := by
  rw [← Array.getElem?_toList, ← List.head?_drop, h, List.head?_cons]

theorem drop_succ (h : bytes.toList.drop i = b :: text) : bytes.toList.drop (i + 1) = text := by
  rw [← List.drop_drop, h, List.drop_one, List.tail_cons]

theorem size_of_drop (h : bytes.toList.drop i = b :: text) : bytes.size = i + 1 + text.length := by
  have hlength := congrArg List.length h
  rw [List.length_drop, List.length_cons, Array.length_toList] at hlength
  omega

theorem escapeAt_two {h l : UInt8} (hdrop : bytes.toList.drop i = percent :: h :: l :: text) :
    escapeAt bytes i = match hexVal h, hexVal l with
      | some h, some l => if h.toNat * 16 + l.toNat < 256 then some (some (h * 16 + l)) else none
      | _, _ => some none := by
  have hsize := size_of_drop hdrop
  have hfits : i + 2 < bytes.size := by
    rw [List.length_cons, List.length_cons] at hsize
    omega
  have h0 : bytes[i]? = some percent := getElem?_of_drop hdrop
  have h1 : bytes[i + 1]? = some h := getElem?_of_drop (drop_succ hdrop)
  have h2 : bytes[i + 2]? = some l := getElem?_of_drop (drop_succ (drop_succ hdrop))
  simp only [escapeAt, h0, h1, h2, hfits, and_self, if_true, Option.bind_eq_bind, Option.bind_some]

theorem escapeAt_escape {h l d e : UInt8} (hdrop : bytes.toList.drop i = percent :: h :: l :: text)
    (hd : hexVal h = some d) (he : hexVal l = some e) :
    escapeAt bytes i = some (some (.ofNat (d.toNat * 16 + e.toNat))) := by
  have hd16 := hexVal_lt hd
  have he16 := hexVal_lt he
  have hbyte : d.toNat * 16 + e.toNat < 256 := by omega
  rw [escapeAt_two hdrop, hd, he]
  dsimp only
  rw [if_pos hbyte, joined_digits]

theorem escapeAt_kept (hdrop : bytes.toList.drop i = b :: text) (hkept : ¬ (b = percent ∧ EscapeNext text)) :
    escapeAt bytes i = some none := by
  have hsize := size_of_drop hdrop
  by_cases hpercent : b = percent ∧ i + 2 < bytes.size
  · obtain ⟨rfl, hfits⟩ := hpercent
    match text, hdrop, hkept, hsize with
    | h :: l :: text, hdrop, hkept, _ =>
      have hnot : ¬ ((hexVal h).isSome ∧ (hexVal l).isSome) := fun hnext => hkept ⟨rfl, hnext⟩
      rw [escapeAt_two hdrop]
      cases hd : hexVal h with
      | none => rfl
      | some d =>
        cases he : hexVal l with
        | none => rfl
        | some e => simp [hd, he] at hnot
    | [h], _, _, hsize =>
      rw [List.length_singleton] at hsize
      omega
    | [], _, _, hsize =>
      rw [List.length_nil] at hsize
      omega
  · have h0 : bytes[i]? = some b := getElem?_of_drop hdrop
    simp only [escapeAt, h0, hpercent, if_false, Option.bind_eq_bind, Option.bind_some]

end Step

/-! ### Runs -/

theorem decodeFrom_of_decoded {text s : List UInt8} (h : Decoded text s) {bytes : Array UInt8} {i : Nat}
    (hdrop : bytes.toList.drop i = text) (out : List UInt8) : decodeFrom bytes i out = some (out ++ s) := by
  induction h generalizing i out with
  | nil =>
    have hend : ¬ i < bytes.size := by
      rw [List.drop_eq_nil_iff, Array.length_toList] at hdrop
      omega
    rw [decodeFrom, if_neg hend, List.append_nil]
  | @escape h l d e text s hd he _ ih =>
    have hin : i < bytes.size := by
      have hsize := size_of_drop hdrop
      omega
    have hrest : bytes.toList.drop (i + 3) = text := drop_succ (drop_succ (drop_succ hdrop))
    rw [decodeFrom, if_pos hin, escapeAt_escape hdrop hd he]
    dsimp only
    rw [ih hrest, List.append_assoc, List.singleton_append]
  | kept hkept _ ih =>
    have hin : i < bytes.size := by
      have hsize := size_of_drop hdrop
      omega
    rw [decodeFrom, if_pos hin, escapeAt_kept hdrop hkept, getElem?_of_drop hdrop]
    dsimp only
    rw [ih (drop_succ hdrop), List.append_assoc, List.singleton_append]

theorem exists_decoded (text : List UInt8) : ∃ s, Decoded text s := by
  induction hlength : text.length using Nat.strong_induction_on generalizing text with
  | _ n ih =>
    cases text with
    | nil => exact ⟨[], .nil⟩
    | cons b text =>
      rw [List.length_cons] at hlength
      by_cases hescape : b = percent ∧ EscapeNext text
      · obtain ⟨rfl, hnext⟩ := hescape
        match text, hnext, hlength with
        | h :: l :: text, hnext, hlength =>
          rw [List.length_cons, List.length_cons] at hlength
          obtain ⟨d, hd⟩ := Option.isSome_iff_exists.1 hnext.1
          obtain ⟨e, he⟩ := Option.isSome_iff_exists.1 hnext.2
          obtain ⟨s, hs⟩ := ih text.length (by omega) text rfl
          exact ⟨_, .escape hd he hs⟩
      · obtain ⟨s, hs⟩ := ih text.length (by omega) text rfl
        exact ⟨_, .kept hescape hs⟩

theorem decoded_of_encoding {s text : List UInt8} (h : Encoding s text) : Decoded text s := by
  induction h with
  | nil => exact .nil
  | literal hb _ ih => exact .kept (fun hescape => hb hescape.1) ih
  | @escaped b h l s text hh hl _ ih =>
    have hb := b.toNat_lt
    have hd := hexVal_hexDigit (by omega) hh
    have he := hexVal_hexDigit (by omega) hl
    have hbyte : UInt8.ofNat ((UInt8.ofNat (b.toNat / 16)).toNat * 16 + (UInt8.ofNat (b.toNat % 16)).toNat) = b := by
      apply UInt8.toNat_inj.1
      rw [UInt8.toNat_ofNat', UInt8.toNat_ofNat', UInt8.toNat_ofNat']
      omega
    have hdecoded := Decoded.escape hd he ih
    rwa [hbyte] at hdecoded

theorem percentDecode_of_decoded {text : String} {s : List UInt8} (h : Decoded text.toUTF8.data.toList s) :
    percentDecode text = some (fromUtf8Lossy s) := by
  rw [percentDecode, decodeFrom_of_decoded h rfl, List.nil_append, Option.map_some]

/-- However a text is escaped, the scan sees the text. -/
theorem percentDecode_of_text {s text : String} (h : Encoding s.toUTF8.data.toList text.toUTF8.data.toList) :
    percentDecode text = some s := by
  rw [percentDecode_of_decoded (decoded_of_encoding h), fromUtf8Lossy_toUTF8]

/-- Whatever of it is escaped and in whichever case, a text is decoded to its bytes; of every text the
escapes are decoded and the rest is kept, and no index is out of bounds. -/
theorem percent_decode_exact (text : String) :
    (∀ s, Encoding s text.toUTF8.data.toList → percentDecode text = some (fromUtf8Lossy s)) ∧
    ∃ s, Decoded text.toUTF8.data.toList s ∧ percentDecode text = some (fromUtf8Lossy s) := by
  refine ⟨fun s h => percentDecode_of_decoded (decoded_of_encoding h), ?_⟩
  obtain ⟨s, hs⟩ := exists_decoded text.toUTF8.data.toList
  exact ⟨s, hs, percentDecode_of_decoded hs⟩

/-- A space and a percent sign escaped in both cases, and the byte FF. -/
theorem escaped_query_decoded : percentDecode "a%20%2f%25%fF" = some (fromUtf8Lossy [97, 32, 47, 37, 255]) := by
  refine (percent_decode_exact "a%20%2f%25%fF").1 _ ?_
  have hbytes : "a%20%2f%25%fF".toUTF8.data.toList = [97, 37, 50, 48, 37, 50, 102, 37, 50, 53, 37, 102, 70] := by
    decide +kernel
  rw [hbytes]
  refine .literal (by decide) (.escaped (.inl rfl) (.inl rfl) (.escaped (.inl rfl) (.inl rfl) ?_))
  exact .escaped (.inl rfl) (.inl rfl) (.escaped (.inl rfl) (.inr rfl) .nil)

end Ecat.Security
