import Ecat.Delimited
import Ecat.RegistryModel

/-! The range of keys that is asked for has the instances below the path, and no others. -/

namespace Ecat.Registry

open Json

/-! ### Bytes of texts -/

theorem utf8_eq (s : String) : utf8 s = s.toList.utf8Encode.data.toList := by
  rw [utf8, String.toUTF8, String.utf8Encode_toList]

theorem utf8_append (s t : String) : utf8 (s ++ t) = utf8 s ++ utf8 t := by
  simp [utf8, String.toUTF8]

theorem utf8_inj {s t : String} (h : utf8 s = utf8 t) : s = t := by
  rw [utf8, utf8] at h
  exact String.toByteArray_inj.1 (ByteArray.ext (Array.toList_inj.1 h))

theorem utf8_isPrefix_iff (s t : String) : utf8 s <+: utf8 t ↔ s.toList <+: t.toList := by
  constructor
  · rintro ⟨rest, h⟩
    apply List.isPrefix_of_utf8Encode_append_eq_utf8Encode ⟨⟨rest⟩⟩
    apply ByteArray.ext
    apply Array.toList_inj.1
    rw [utf8_eq, utf8_eq] at h
    simpa using h
  · rintro ⟨rest, h⟩
    refine ⟨utf8 (String.ofList rest), ?_⟩
    rw [← utf8_append]
    congr 1
    rw [← String.toList_inj, String.toList_append, String.toList_ofList, h]

theorem decode_b64Bytes (bytes : Bytes) : Base64.decode (b64Bytes bytes).toList = some bytes := by
  rw [b64Bytes, String.toList_ofList, Base64.decode_encode]

theorem decode_b64 (s : String) : Base64.decode (b64 s).toList = some (utf8 s) := decode_b64Bytes _

theorem decodeB64Str_utf8 (s : String) : decodeB64Str (b64Bytes (utf8 s)) = some s := by
  rw [decodeB64Str, decode_b64Bytes, Option.bind_some]
  exact dif_pos s.isValidUTF8

/-! ### Integers -/

theorem readInt_of_digits {digits : List Char} {n : Nat} (h : readDigits digits = some n) :
    readInt digits = some (n : Int) := by
  have hdigit : ∀ c ∈ digits, c.isDigit = true := by
    unfold readDigits at h
    split_ifs at h with hall
    exact List.all_eq_true.1 hall.2
  unfold readInt
  split
  · exact absurd (hdigit '-' (by simp)) (by decide)
  · exact absurd (hdigit '+' (by simp)) (by decide)
  · rw [h]
    rfl

theorem parseI64_toString (n : I64) : parseI64 (toString n.val) = some n := by
  have hread : readInt (toString n.val).toList = some n.val := by
    rw [toList_intText]
    by_cases hn : n.val < 0
    · rw [padInt, if_pos hn, padNat_zero]
      rw [readInt, readDigits_toDigits, Option.map_some, Int.ofNat_eq_natCast]
      congr 1
      omega
    · rw [padInt_of_nonneg (by omega), padNat_zero, readInt_of_digits (readDigits_toDigits _)]
      congr 1
      omega
  rw [parseI64, hread, Option.bind_some, dif_pos n.property]

/-! ### Ranges -/

theorem prefixEnd_utf8 (s : String) : Hbase.prefixEnd (utf8 (s ++ "/")) = some (utf8 (s ++ "0")) := by
  have hslash : utf8 "/" = [47] := by decide +kernel
  have hzero : utf8 "0" = [48] := by decide +kernel
  rw [utf8_append, utf8_append, hslash, hzero, Hbase.prefixEnd_append, if_pos (by decide)]
  rfl

theorem prefixEnd_slash (s : String) : prefixEnd (s ++ "/") = s ++ "0" := by
  rw [prefixEnd, prefixEnd_utf8, Option.getD_some, utf8, Graphql.fromUtf8Lossy_toUTF8]

theorem inRange_slash (s k : String) :
    InRange (utf8 (s ++ "/")) (utf8 (prefixEnd (s ++ "/"))) (utf8 k) ↔ (s ++ "/").toList <+: k.toList := by
  have hend : utf8 (s ++ "0") ≠ [] ∧ utf8 (s ++ "0") ≠ [0] := by
    have hzero : utf8 "0" = [48] := by decide +kernel
    rw [utf8_append, hzero]
    constructor
    · simp
    · intro h
      have hlast := congrArg List.getLast? h
      simp at hlast
  rw [prefixEnd_slash, InRange, if_neg hend.1, if_neg hend.2, ← utf8_isPrefix_iff, Hbase.isPrefix_iff, prefixEnd_utf8]
  simp

variable {C : Codec}

/-- The instance is of the service with this id, or of one whose name goes on from there. -/
def Under (id : String) (i : Instance C) : Prop := (id ++ "/").toList <+: i.path.toList

instance (id : String) (i : Instance C) : Decidable (Under id i) := by
  unfold Under
  infer_instance

theorem inRange_below (id : String) (i : Instance C) :
    InRange (utf8 (below id)) (utf8 (prefixEnd (below id))) (utf8 i.key) ↔ Under id i := by
  rw [below, inRange_slash, Instance.key, String.append_assoc, String.toList_append]
  rw [String.toList_append (s := root) (t := i.path), List.prefix_append_right_inj, Under]

theorem key_inj {i j : Instance C} : utf8 i.key = utf8 j.key ↔ i.path = j.path := by
  constructor
  · intro h
    have hkey := utf8_inj h
    rw [Instance.key, Instance.key] at hkey
    rw [← String.toList_inj, String.toList_append, String.toList_append] at hkey
    exact String.toList_inj.1 (List.append_cancel_left hkey)
  · intro h
    rw [Instance.key, Instance.key, h]

/-- Below the services of one prefix with names and uuids in which no slash stands, an instance is found
by its own name only. -/
theorem under_iff_name {keyPrefix name : String} {i : Instance C} (hkey : i.keyPrefix = keyPrefix)
    (hname : '/' ∉ name.toList) (hown : '/' ∉ i.service.name.toList) :
    Under (keyPrefix ++ "/" ++ name) i ↔ i.service.name = name := by
  have hslash : "/".toList = ['/'] := rfl
  rw [Under, Instance.path, hkey]
  simp only [String.toList_append, hslash, List.append_assoc, List.cons_append, List.prefix_append_right_inj,
    List.cons_prefix_cons, true_and, List.nil_append]
  constructor
  · rintro ⟨rest, h⟩
    rw [List.append_assoc, List.singleton_append] at h
    exact String.toList_inj.1 (append_cons_inj hname hown h).1.symm
  · intro h
    rw [h]
    exact ⟨i.uuid.toList, by simp⟩

end Ecat.Registry
