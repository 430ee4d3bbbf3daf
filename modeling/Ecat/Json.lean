import Mathlib

/-! JSON values as `serde_json` holds them, their texts, the rows that databases answer with,
and the stable hash over them. -/

namespace Ecat.Json

def i64Min : Int := -2 ^ 63

def i64Max : Int := 2 ^ 63 - 1

def InI64 (n : Int) : Prop := i64Min ≤ n ∧ n ≤ i64Max

instance (n : Int) : Decidable (InI64 n) := inferInstanceAs (Decidable (_ ∧ _))

/-- An integer of `i64` or `u64`, or a double by its value and the text it prints as. -/
inductive Number
  | int (n : Int) (ge : i64Min ≤ n) (lt : n < 2 ^ 64)
  | float (value : ℚ) (text : String)
  deriving DecidableEq, Repr

/-- The fields of an object are in the order of the map. -/
inductive Value
  | null
  | bool (flag : Bool)
  | number (n : Number)
  | string (text : String)
  | array (items : List Value)
  | object (fields : List (String × Value))
  deriving Repr

def Number.asI64 : Number → Option Int
  | int n _ _ => if n ≤ i64Max then some n else none
  | float .. => none

def Number.isU64 : Number → Bool
  | int n _ _ => 0 ≤ n
  | float .. => false

/-- The double next to `n`, halves to the even one. -/
def roundF64 (n : Nat) : Nat :=
  let k := n.log2 + 1 - 53
  let q := n / 2 ^ k
  let r := n % 2 ^ k
  (if 2 ^ k < 2 * r ∨ 2 ^ k = 2 * r ∧ q % 2 = 1 then q + 1 else q) * 2 ^ k

def Number.asF64 : Number → ℚ
  | int n _ _ => n.sign * roundF64 n.natAbs
  | float value _ => value

def Number.toText : Number → String
  | int n _ _ => toString n
  | float _ text => text

def Value.isNull : Value → Bool
  | null => true
  | _ => false

def Value.asI64 : Value → Option Int
  | number n => n.asI64
  | _ => none

def Value.asStr : Value → Option String
  | string text => some text
  | _ => none

def Value.isU64 : Value → Bool
  | number n => n.isU64
  | _ => false

def Value.get (v : Value) (name : String) : Option Value :=
  match v with
  | .object fields => (fields.find? (·.1 = name)).map Prod.snd
  | _ => none

def Value.asArray : Value → Option (List Value)
  | .array items => some items
  | _ => none

def Value.ofI64 (n : Int) (h : InI64 n) : Value :=
  .number (.int n h.1 (lt_of_le_of_lt h.2 (by rw [i64Max]; norm_num)))

theorem u64_ge (n : UInt64) : i64Min ≤ (n.toNat : Int) := le_trans (by decide) (Int.natCast_nonneg _)

theorem u64_lt (n : UInt64) : (n.toNat : Int) < 2 ^ 64 := by
  have h := n.toNat_lt
  omega

def Value.ofU64 (n : UInt64) : Value := .number (.int n.toNat (u64_ge n) (u64_lt n))

/-! ### Texts -/

def hexDigit (n : Nat) : Char := "0123456789abcdef".toList.getD n '0'

def escapeChar (c : Char) : List Char :=
  match c.toNat with
  | 34 => ['\\', c]
  | 92 => ['\\', c]
  | 8 => ['\\', 'b']
  | 9 => ['\\', 't']
  | 10 => ['\\', 'n']
  | 12 => ['\\', 'f']
  | 13 => ['\\', 'r']
  | n => if n < 32 then ['\\', 'u', '0', '0', hexDigit (n / 16), hexDigit (n % 16)] else [c]

def stringText (text : String) : List Char :=
  Char.ofNat 34 :: text.toList.flatMap escapeChar ++ [Char.ofNat 34]

def fieldText (field : String × List Char) : List Char := stringText field.1 ++ ':' :: field.2

def commas (parts : List (List Char)) : List Char := (parts.intersperse [',']).flatten

def scalarText : Value → List Char
  | .null => "null".toList
  | .bool flag => (if flag then "true" else "false").toList
  | .number n => n.toText.toList
  | .string text => stringText text
  | .array _ => []
  | .object _ => []

/-- JSON text with the fields of every object in the order `arrange` puts them. -/
def Value.render (arrange : List (String × List Char) → List (String × List Char)) : Value → List Char
  | .array items => '[' :: commas (renderItems items) ++ [']']
  | .object fields => '\x7b' :: commas ((arrange (renderFields fields)).map fieldText) ++ ['\x7d']
  | v => scalarText v
where
  renderItems : List Value → List (List Char)
    | [] => []
    | item :: items => item.render arrange :: renderItems items
  renderFields : List (String × Value) → List (String × List Char)
    | [] => []
    | (key, item) :: fields => (key, item.render arrange) :: renderFields fields

/-- The compact text of a value. -/
def Value.toText (v : Value) : String := String.ofList (v.render id)

/-- The text with the fields of every object sorted by name. -/
def writeCanonical (v : Value) : List Char := v.render fun fields => fields.insertionSort (·.1 ≤ ·.1)

theorem asI64_fits {key : Value} {k : Int} (h : key.asI64 = some k) : InI64 k := by
  cases key with
  | number n =>
    cases n with
    | int n ge lt =>
      simp only [Value.asI64, Number.asI64] at h
      split_ifs at h with hle
      cases h
      exact ⟨ge, hle⟩
    | float value text => cases h
  | _ => cases h

/-! ### Rows -/

structure Row where
  columns : List String
  values : List Value
  deriving Repr

def Row.get (row : Row) (col : String) : Option Value :=
  (row.columns.findIdx? (· = col)).bind (row.values[·]?)

/-- A map keeps one value for each key, the last one given. -/
def insertField (fields : List (String × Value)) (key : String) (v : Value) : List (String × Value) :=
  if fields.any (·.1 = key) then fields.map fun f => if f.1 = key then (key, v) else f
  else fields ++ [(key, v)]

def Row.toObject (row : Row) : Value :=
  .object ((row.columns.zip row.values).foldl (fun fields f => insertField fields f.1 f.2) [])

/-! ### The stable hash -/

def utf8 (text : List Char) : List UInt8 := text.flatMap String.utf8EncodeChar

def fnv1a64 (bytes : List UInt8) : UInt64 :=
  bytes.foldl (fun hash byte => (hash ^^^ byte.toUInt64) * 0x00000100000001b3) 0xcbf29ce484222325

end Ecat.Json
