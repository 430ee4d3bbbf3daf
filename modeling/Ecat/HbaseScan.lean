import Ecat.HbaseCells
import Ecat.LexOrder

/-! The range of keys that a scan asks for is that of the keys with its prefix. -/

namespace Ecat.Hbase

open Json

/-- The next key behind all with this prefix. A byte that cannot be raised is dropped. -/
def prefixEnd (bytes : List UInt8) : Option (List UInt8) :=
  match _h : bytes.getLast? with
  | none => none
  | some last => if last < 255 then some (bytes.dropLast ++ [last + 1]) else prefixEnd bytes.dropLast
termination_by bytes.length
decreasing_by
  have hne : bytes ≠ [] := by
    rintro rfl
    contradiction
  have hpos := List.length_pos_of_ne_nil hne
  rw [List.length_dropLast]
  omega

/-! ### The request -/

def toBytes (bytes : ByteArray) : List UInt8 := bytes.data.toList

def ofBytes (bytes : List UInt8) : ByteArray := ⟨⟨bytes⟩⟩

def i32Max : Nat := 2 ^ 31 - 1

def batch (limit : Nat) : Value :=
  .ofI64 (min limit i32Max) ⟨by rw [i64Min]; omega, by rw [i64Max, i32Max]; omega⟩

variable (B : Base64)

def scanner (keyPrefix : String) (limit : Nat) : Value :=
  let endRow := (prefixEnd (toBytes keyPrefix.toUTF8)).map fun e => ("endRow", Value.string (B.encode (ofBytes e)))
  .object (("startRow", .string (B.encode keyPrefix.toUTF8)) :: endRow.toList ++ [("batch", batch limit)])

/-- The scanner that is asked for; no limit is one of 1000. -/
def scan (table keyPrefix : String) (limit : Nat) : Except Error Value := do
  validateComponent "table" table
  return scanner B keyPrefix (if limit = 0 then 1000 else limit)

/-- The server selects the keys from the first row on, up to the last one if there is one. -/
def Selects (request : Value) (key : List UInt8) : Prop :=
  ∃ start, bytesOf B request "startRow" = some start ∧ toBytes start ≤ key ∧
    ∀ stop, bytesOf B request "endRow" = some stop → key < toBytes stop

/-! ### Prefixes -/

theorem prefixEnd_append (bytes : List UInt8) (last : UInt8) :
    prefixEnd (bytes ++ [last]) = if last < 255 then some (bytes ++ [last + 1]) else prefixEnd bytes := by
  rw [prefixEnd]
  split
  · rename_i h
    simp at h
  · rename_i b h
    obtain rfl : last = b := by simpa using h
    rw [List.dropLast_concat]

theorem lt_succ_iff {b c : UInt8} (h : b < 255) : c < b + 1 ↔ c ≤ b := by
  rw [UInt8.lt_iff_toNat_lt, UInt8.le_iff_toNat_le]
  rw [UInt8.lt_iff_toNat_lt] at h
  have hsucc : (b + 1).toNat = b.toNat + 1 := by
    rw [UInt8.toNat_add]
    have h255 : (255 : UInt8).toNat = 255 := rfl
    have h1 : (1 : UInt8).toNat = 1 := rfl
    omega
  omega

theorem isPrefix_of_lt_raised {p k : List UInt8} {b : UInt8} (hb : b < 255) (hlow : p ++ [b] ≤ k)
    (hhigh : k < p ++ [b + 1]) : p ++ [b] <+: k := by
  obtain ⟨r, rfl, hr, hr'⟩ := exists_append_of_between hlow hhigh
  cases r with
  | nil => exact absurd hr (by simp)
  | cons c r =>
    have hbc : b ≤ c := by
      rcases List.cons_le_cons_iff.1 hr with h | h
      · exact UInt8.le_of_lt h
      · exact h.1 ▸ UInt8.le_refl b
    have hcb : c ≤ b := by
      rcases List.cons_lt_cons_iff.1 hr' with h | h
      · exact (lt_succ_iff hb).1 h
      · exact absurd h.2 (List.not_lt_nil r)
    obtain rfl := UInt8.le_antisymm hbc hcb
    exact ⟨r, by simp⟩

theorem isPrefix_of_last {p k : List UInt8} {b : UInt8} (hb : ¬ b < 255) (hp : p <+: k) (hlow : p ++ [b] ≤ k) :
    p ++ [b] <+: k := by
  obtain ⟨r, rfl⟩ := hp
  have hr : [b] ≤ r := fun hlt => hlow (List.append_left_lt hlt)
  cases r with
  | nil => exact absurd hr (by simp)
  | cons c r =>
    have hbc : b = c := by
      rcases List.cons_le_cons_iff.1 hr with h | h
      · rw [UInt8.lt_iff_toNat_lt] at h hb
        have hc := c.toNat_lt
        have h255 : (255 : UInt8).toNat = 255 := rfl
        omega
      · exact h.1
    exact ⟨r, by simp [hbc]⟩

theorem isPrefix_iff (p k : List UInt8) : p <+: k ↔ p ≤ k ∧ ∀ e ∈ prefixEnd p, k < e := by
  induction p using List.reverseRecOn generalizing k with
  | nil =>
    rw [prefixEnd]
    simp
  | append_singleton p b ih =>
    rw [prefixEnd_append]
    by_cases hb : b < 255
    · rw [if_pos hb]
      constructor
      · rintro ⟨r, rfl⟩
        refine ⟨List.le_append_left, ?_⟩
        intro e he
        rw [← Option.some.inj he, List.append_assoc]
        apply List.append_left_lt
        rw [List.singleton_append, List.cons_lt_cons_iff]
        exact .inl ((lt_succ_iff hb).2 (UInt8.le_refl b))
      · rintro ⟨hlow, hhigh⟩
        exact isPrefix_of_lt_raised hb hlow (hhigh _ rfl)
    · rw [if_neg hb]
      constructor
      · intro h
        have hp : p <+: k := (List.prefix_append p [b]).trans h
        exact ⟨h.le, ((ih k).1 hp).2⟩
      · rintro ⟨hlow, hhigh⟩
        have hp : p <+: k := (ih k).2 ⟨List.le_trans List.le_append_left hlow, hhigh⟩
        exact isPrefix_of_last hb hp hlow

/-! ### Scans -/

theorem bytesOf_startRow (keyPrefix : String) (limit : Nat) :
    bytesOf B (scanner B keyPrefix limit) "startRow" = some keyPrefix.toUTF8 := by
  simp [bytesOf, scanner, Value.get, Value.asStr, B.decode_encode, Except.toOption]

theorem bytesOf_endRow (keyPrefix : String) (limit : Nat) :
    bytesOf B (scanner B keyPrefix limit) "endRow" = (prefixEnd (toBytes keyPrefix.toUTF8)).map ofBytes := by
  rw [scanner]
  cases prefixEnd (toBytes keyPrefix.toUTF8) with
  | none => simp [bytesOf, Value.get]
  | some e => simp [bytesOf, Value.get, Value.asStr, B.decode_encode, Except.toOption]

theorem toBytes_ofBytes (bytes : List UInt8) : toBytes (ofBytes bytes) = bytes := rfl

theorem selects_scanner (keyPrefix : String) (limit : Nat) (key : List UInt8) :
    Selects B (scanner B keyPrefix limit) key ↔ toBytes keyPrefix.toUTF8 <+: key := by
  rw [isPrefix_iff, Selects, bytesOf_startRow, bytesOf_endRow]
  cases prefixEnd (toBytes keyPrefix.toUTF8) with
  | none => simp
  | some e => simp [toBytes_ofBytes]

/-- A key has a prefix if and only if it lies in its range, and a scan that is sent selects the keys of
its prefix. -/
theorem prefix_range_exact :
    (∀ p k : List UInt8, p <+: k ↔ p ≤ k ∧ (prefixEnd p = none ∨ ∃ e, prefixEnd p = some e ∧ k < e)) ∧
    ∀ table keyPrefix limit,
      (∃ error, validateComponent "table" table = .error error ∧ scan B table keyPrefix limit = .error error) ∨
      ∃ request, scan B table keyPrefix limit = .ok request ∧
        ∀ key, Selects B request key ↔ toBytes keyPrefix.toUTF8 <+: key := by
  refine ⟨fun p k => ?_, fun table keyPrefix limit => ?_⟩
  · rw [isPrefix_iff]
    cases prefixEnd p with
    | none => simp
    | some e => simp
  · cases hvalid : validateComponent "table" table with
    | error error => exact .inl ⟨error, rfl, by rw [scan, hvalid, error_bind]⟩
    | ok u => exact .inr ⟨_, by rw [scan, hvalid, ok_bind, pure_eq_ok], selects_scanner B keyPrefix _⟩

example : prefixEnd [0x61, 255, 255] = some [0x62] ∧ prefixEnd [255] = none := by decide +kernel

end Ecat.Hbase
