import Mathlib

/-! Base64 with the standard alphabet and padding: three bytes as four symbols. -/

namespace Ecat.Base64

def alphabet : List Char := "ABCDEFGHIJKLMNOPQRSTUVWXYZabcdefghijklmnopqrstuvwxyz0123456789+/".toList

def symbol (n : Nat) : Char := alphabet.getD n 'A'

def value (c : Char) : Option Nat := alphabet.findIdx? (· = c)

def encode : List UInt8 → List Char
  | a :: b :: c :: rest =>
    symbol (a.toNat / 4) :: symbol (a.toNat % 4 * 16 + b.toNat / 16) ::
      symbol (b.toNat % 16 * 4 + c.toNat / 64) :: symbol (c.toNat % 64) :: encode rest
  | [a, b] =>
    [symbol (a.toNat / 4), symbol (a.toNat % 4 * 16 + b.toNat / 16), symbol (b.toNat % 16 * 4), '=']
  | [a] => [symbol (a.toNat / 4), symbol (a.toNat % 4 * 16), '=', '=']
  | [] => []

/-- Only the text that `encode` gives is read: padded, and with no bits left over. -/
def decode : List Char → Option (List UInt8)
  | [] => some []
  | [w, x, '=', '='] => do
    let (w, x) := (← value w, ← value x)
    if x % 16 = 0 then some [.ofNat (w * 4 + x / 16)] else none
  | [w, x, y, '='] => do
    let (w, x, y) := (← value w, ← value x, ← value y)
    if y % 4 = 0 then some [.ofNat (w * 4 + x / 16), .ofNat (x % 16 * 16 + y / 4)] else none
  | w :: x :: y :: z :: rest => do
    let (w, x, y, z) := (← value w, ← value x, ← value y, ← value z)
    return .ofNat (w * 4 + x / 16) :: .ofNat (x % 16 * 16 + y / 4) :: .ofNat (y % 4 * 64 + z) :: (← decode rest)
  | _ => none

theorem value_symbol {n : Nat} (h : n < 64) : value (symbol n) = some n := by
  have hall : ∀ n < 64, value (symbol n) = some n := by decide +kernel
  exact hall n h

theorem symbol_ne_pad {n : Nat} (h : n < 64) : symbol n ≠ '=' := by
  have hall : ∀ n < 64, symbol n ≠ '=' := by decide +kernel
  exact hall n h

theorem decode_four {w x y z : Nat} (hw : w < 64) (hx : x < 64) (hy : y < 64) (hz : z < 64) (rest : List Char) :
    decode (symbol w :: symbol x :: symbol y :: symbol z :: rest) =
      (decode rest).map fun bytes =>
        .ofNat (w * 4 + x / 16) :: .ofNat (x % 16 * 16 + y / 4) :: .ofNat (y % 4 * 64 + z) :: bytes := by
  have hpad := symbol_ne_pad hz
  rw [decode]
  · simp only [value_symbol hw, value_symbol hx, value_symbol hy, value_symbol hz]
    cases decode rest <;> rfl
  · intro _ hz' _
    exact hpad hz'
  · intro hz' _
    exact hpad hz'

theorem ofNat_eq {n : Nat} {b : UInt8} (h : n = b.toNat) : UInt8.ofNat n = b := by
  rw [h, UInt8.ofNat_toNat]

theorem decode_encode (bytes : List UInt8) : decode (encode bytes) = some bytes := by
  induction bytes using encode.induct with
  | case1 a b c rest ih =>
    have ha := a.toNat_lt
    have hb := b.toNat_lt
    have hc := c.toNat_lt
    have hfirst : a.toNat / 4 * 4 + (a.toNat % 4 * 16 + b.toNat / 16) / 16 = a.toNat := by omega
    have hsecond : (a.toNat % 4 * 16 + b.toNat / 16) % 16 * 16 + (b.toNat % 16 * 4 + c.toNat / 64) / 4 = b.toNat := by
      omega
    have hthird : (b.toNat % 16 * 4 + c.toNat / 64) % 4 * 64 + c.toNat % 64 = c.toNat := by omega
    rw [encode, decode_four (by omega) (by omega) (by omega) (by omega), ih, Option.map_some]
    rw [ofNat_eq hfirst, ofNat_eq hsecond, ofNat_eq hthird]
  | case2 a b =>
    have ha := a.toNat_lt
    have hb := b.toNat_lt
    have hfirst : a.toNat / 4 * 4 + (a.toNat % 4 * 16 + b.toNat / 16) / 16 = a.toNat := by omega
    have hsecond : (a.toNat % 4 * 16 + b.toNat / 16) % 16 * 16 + b.toNat % 16 * 4 / 4 = b.toNat := by omega
    have hw := @value_symbol (a.toNat / 4) (by omega)
    have hx := @value_symbol (a.toNat % 4 * 16 + b.toNat / 16) (by omega)
    have hy := @value_symbol (b.toNat % 16 * 4) (by omega)
    have hleft : b.toNat % 16 * 4 % 4 = 0 := by omega
    rw [encode, decode]
    · simp only [hw, hx, hy, bind, Option.bind, if_pos hleft, ofNat_eq hfirst, ofNat_eq hsecond]
    · exact symbol_ne_pad (by omega)
  | case3 a =>
    have ha := a.toNat_lt
    have hfirst : a.toNat / 4 * 4 + a.toNat % 4 * 16 / 16 = a.toNat := by omega
    have hw := @value_symbol (a.toNat / 4) (by omega)
    have hx := @value_symbol (a.toNat % 4 * 16) (by omega)
    have hleft : a.toNat % 4 * 16 % 16 = 0 := by omega
    rw [encode, decode]
    simp only [hw, hx, bind, Option.bind, if_pos hleft, ofNat_eq hfirst]
  | case4 => rfl

end Ecat.Base64
