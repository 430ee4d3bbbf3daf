import Ecat.CalendarMonths
import Ecat.Json
import Ecat.LexOrder

/-! Instants in a TEXT column, and when their texts stand in the order of time. -/

namespace Ecat.Orm

open Calendar (Date dateOfDay dayOfDate digit two four)
open Json (Value)

/-- An instant, in nanoseconds since 1970 in UTC, and the offset from UTC that it was told with. -/
structure OffsetDateTime where
  nanos : Int
  offset : Int
  deriving DecidableEq, Repr

namespace OffsetDateTime

def second : Nat := 10 ^ 9

def seconds (t : OffsetDateTime) : Int := t.nanos / second

/-- What is left of the second, in nanoseconds. -/
def fraction (t : OffsetDateTime) : Nat := (t.nanos % second).toNat

def toUtc (t : OffsetDateTime) : OffsetDateTime := { t with offset := 0 }

/-- The years that RFC 3339 can write. -/
def InYears (t : OffsetDateTime) : Prop :=
  0 ≤ (dateOfDay (t.seconds / 86400)).year ∧ (dateOfDay (t.seconds / 86400)).year ≤ 9999

end OffsetDateTime

def secondText (s : Int) : List Char :=
  let d := dateOfDay (s / 86400)
  let r := s % 86400
  four d.year ++ ('-' :: (two d.month ++ ('-' :: (two d.day ++ ('T' :: (two (r / 3600) ++ (':' ::
    (two (r / 60 % 60) ++ (':' :: two (r % 60))))))))))

/-- The first digits of `f` parts out of `10 ^ w`, up to the last one that is not zero. -/
def trimmedDigits : Nat → Nat → List Char
  | 0, _ => []
  | w + 1, f => if f = 0 then [] else digit (f / 10 ^ w : Nat) :: trimmedDigits w (f % 10 ^ w)

def fractionText (f : Nat) : List Char := if f = 0 then [] else '.' :: trimmedDigits 9 f

/-- An instant in UTC, without a fraction that is zero and without zeros behind its last other digit. -/
def utcText (t : OffsetDateTime) : String := .ofList (secondText t.seconds ++ (fractionText t.fraction ++ ['Z']))

/-- The formatter of the time crate. It fails on years that RFC 3339 cannot write. -/
structure Rfc3339 where
  format : OffsetDateTime → Option String
  format_utc : ∀ t, t.offset = 0 → t.InYears → format t = some (utcText t)

variable (R : Rfc3339)

/-- `none` is a panic. -/
def toRfc3339Utc (t : OffsetDateTime) : Option String := R.format t.toUtc

/-- What is bound for a timestamp. -/
def OffsetDateTime.toJson (t : OffsetDateTime) : Option Value := (toRfc3339Utc R t).map .string

/-! ### The order of the texts -/

def textBytes (text : String) : List UInt8 := text.toUTF8.data.toList

/-- The texts in the column compare as their bytes do. -/
def StoredBefore (t t' : OffsetDateTime) : Prop :=
  ∃ text text', t.toJson R = some (.string text) ∧ t'.toJson R = some (.string text') ∧
    textBytes text < textBytes text'

/-- The place of the last digit that is written of `f` parts out of `10 ^ w`, or all of them if none is. -/
def unitOf : Nat → Nat → Nat
  | 0, _ => 1
  | w + 1, f => if f % 10 ^ (w + 1) = 0 then 10 ^ (w + 1) else unitOf w f

def OffsetDateTime.unit (t : OffsetDateTime) : Nat := unitOf 9 t.fraction

/-! ### Digits -/

theorem digit_lt_iff {m n : Nat} (hm : m < 10) (hn : n < 10) : digit m < digit n ↔ m < n := by
  interval_cases m <;> interval_cases n <;> decide

theorem digit_lt_Z {n : Nat} (h : n < 10) : digit n < 'Z' := by
  interval_cases n <;> decide

theorem unitOf_dvd (w f : Nat) : unitOf w f ∣ 10 ^ w ∧ unitOf w f ∣ f := by
  induction w with
  | zero => simp [unitOf]
  | succ w ih =>
    rw [unitOf]
    split_ifs with h
    · exact ⟨dvd_rfl, Nat.dvd_of_mod_eq_zero h⟩
    · exact ⟨ih.1.trans (pow_dvd_pow 10 (Nat.le_succ w)), ih.2⟩

/-- The next multiple of the unit does not go beyond what the parts make up. -/
theorem add_unitOf_le {w f : Nat} (h : f < 10 ^ w) : f + unitOf w f ≤ 10 ^ w := by
  obtain ⟨⟨p, hp⟩, ⟨q, hq⟩⟩ := unitOf_dvd w f
  have hlt : q < p := by
    by_contra hle
    have hmul := Nat.mul_le_mul_left (unitOf w f) (not_lt.1 hle)
    omega
  calc f + unitOf w f = unitOf w f * (q + 1) := by rw [Nat.mul_succ, ← hq]
    _ ≤ unitOf w f * p := Nat.mul_le_mul_left _ hlt
    _ = 10 ^ w := hp.symm

theorem unitOf_mod (w f : Nat) : unitOf w (f % 10 ^ w) = unitOf w f := by
  have hgen (v : Nat) (hv : v ≤ w) : unitOf v (f % 10 ^ w) = unitOf v f := by
    induction v with
    | zero => rfl
    | succ v ih => rw [unitOf, unitOf, Nat.mod_mod_of_dvd _ (pow_dvd_pow 10 hv), ih (by omega)]
  exact hgen w le_rfl

theorem unitOf_of_pos {w f : Nat} (h0 : f ≠ 0) (h : f < 10 ^ (w + 1)) : unitOf (w + 1) f = unitOf w (f % 10 ^ w) := by
  rw [unitOf, if_neg (by rwa [Nat.mod_eq_of_lt h]), unitOf_mod]

/-- Behind the shorter text stands a `Z`, which comes after every digit. -/
theorem trimmedDigits_lt_iff {w f g : Nat} (hfg : f < g) (hg : g < 10 ^ w) :
    trimmedDigits w f ++ ['Z'] < trimmedDigits w g ++ ['Z'] ↔ f + unitOf w f ≤ g := by
  induction w generalizing f g with
  | zero =>
    rw [pow_zero] at hg
    omega
  | succ w ih =>
    have hpow : 0 < 10 ^ w := by positivity
    have hf := hfg.trans hg
    rw [pow_succ] at hg
    have hg10 : g / 10 ^ w < 10 := Nat.div_lt_of_lt_mul hg
    have hg0 : g ≠ 0 := by omega
    by_cases hf0 : f = 0
    · have hZ := digit_lt_Z hg10
      have hnot : ¬ 0 + unitOf (w + 1) 0 ≤ g := by
        rw [unitOf, if_pos (Nat.zero_mod _), pow_succ]
        omega
      rw [hf0, trimmedDigits, if_pos rfl, trimmedDigits, if_neg hg0]
      simp only [hnot, iff_false]
      rw [List.nil_append, List.cons_append, List.cons_lt_cons_iff]
      rintro (h | ⟨h, -⟩)
      · exact absurd h (lt_asymm hZ)
      · exact absurd h.symm hZ.ne
    · have hf10 : f / 10 ^ w < 10 := Nat.div_lt_of_lt_mul (hfg.trans hg)
      have hunit := add_unitOf_le (Nat.mod_lt f hpow)
      have hfsplit := Nat.div_add_mod f (10 ^ w)
      have hgsplit := Nat.div_add_mod g (10 ^ w)
      have hquot : f / 10 ^ w ≤ g / 10 ^ w := Nat.div_le_div_right hfg.le
      rw [unitOf_of_pos hf0 hf, trimmedDigits, if_neg hf0, trimmedDigits, if_neg hg0,
        List.cons_append, List.cons_append, List.cons_lt_cons_iff, digit_lt_iff hf10 hg10]
      by_cases hlt : f / 10 ^ w < g / 10 ^ w
      · have hmul := Nat.mul_le_mul_left (10 ^ w) (show f / 10 ^ w + 1 ≤ g / 10 ^ w from hlt)
        rw [Nat.mul_succ] at hmul
        have hle : f + unitOf w (f % 10 ^ w) ≤ g := by omega
        simp only [hlt, hle, true_or]
      · have heq : f / 10 ^ w = g / 10 ^ w := by omega
        rw [heq] at hfsplit
        have hrest := @ih (f % 10 ^ w) (g % 10 ^ w) (by omega) (Nat.mod_lt g hpow)
        rw [heq, hrest]
        simp only [lt_irrefl, false_or, true_and]
        omega

theorem fractionText_lt_iff {f g : Nat} (hfg : f < g) (hg : g < 10 ^ 9) :
    fractionText f ++ ['Z'] < fractionText g ++ ['Z'] ↔ f + unitOf 9 f ≤ g := by
  have hpoint : fractionText g = '.' :: trimmedDigits 9 g := if_neg (by omega)
  rw [hpoint, fractionText]
  split_ifs with hf
  · have hnot : ¬ f + unitOf 9 f ≤ g := by
      rw [hf, unitOf, if_pos (Nat.zero_mod _)]
      omega
    simp only [hnot, iff_false]
    rw [List.nil_append, List.cons_append, List.cons_lt_cons_iff]
    simp
  · rw [List.cons_append, List.cons_append, List.cons_lt_cons_iff, trimmedDigits_lt_iff hfg hg]
    simp

/-! ### Seconds -/

theorem two_lt {a b : Int} (ha : 0 ≤ a) (hab : a < b) (hb : b < 100) : two a < two b := by
  lift a to Nat using ha
  lift b to Nat using by omega
  rw [two, two, List.cons_lt_cons_iff, List.cons_lt_cons_iff]
  by_cases h : a / 10 < b / 10
  · exact .inl ((@digit_lt_iff (a / 10) (b / 10) (by omega) (by omega)).2 h)
  · have heq : (a : Int) / 10 = b / 10 := by omega
    exact .inr ⟨by rw [heq], .inl ((@digit_lt_iff (a % 10) (b % 10) (by omega) (by omega)).2 (by omega))⟩

theorem four_lt {a b : Int} (ha : 0 ≤ a) (hab : a < b) (hb : b < 10000) : four a < four b := by
  have hlength : (two (a / 100)).length = (two (b / 100)).length := rfl
  rw [four, four, append_lt_append_iff _ _ hlength]
  by_cases h : a / 100 < b / 100
  · exact .inl (two_lt (by omega) h (by omega))
  · have heq : a / 100 = b / 100 := by omega
    exact .inr ⟨by rw [heq], two_lt (by omega) (by omega) (by omega)⟩

/-- Fields of one width are compared first, and then what stands behind them. -/
theorem field_lt {xs ys as bs : List Char} (c : Char) (hlength : xs.length = ys.length)
    (h : xs < ys ∨ xs = ys ∧ as < bs) : xs ++ (c :: as) < ys ++ (c :: bs) := by
  rw [append_lt_append_iff _ _ hlength, List.cons_lt_cons_iff]
  exact h.imp_right fun hh => ⟨hh.1, .inr ⟨rfl, hh.2⟩⟩

theorem two_field_lt {a b : Int} {as bs : List Char} (c : Char) (ha : 0 ≤ a) (hb : b < 100)
    (h : a < b ∨ a = b ∧ as < bs) : two a ++ (c :: as) < two b ++ (c :: bs) :=
  field_lt c rfl (h.imp (fun hab => two_lt ha hab hb) fun hh => ⟨by rw [hh.1], hh.2⟩)

theorem four_field_lt {a b : Int} {as bs : List Char} (c : Char) (ha : 0 ≤ a) (hb : b < 10000)
    (h : a < b ∨ a = b ∧ as < bs) : four a ++ (c :: as) < four b ++ (c :: bs) :=
  field_lt c rfl (h.imp (fun hab => four_lt ha hab hb) fun hh => ⟨by rw [hh.1], hh.2⟩)

theorem clock_lt {r r' : Int} (hr : 0 ≤ r) (h : r < r') (hr' : r' < 86400) :
    two (r / 3600) ++ (':' :: (two (r / 60 % 60) ++ (':' :: two (r % 60)))) <
      two (r' / 3600) ++ (':' :: (two (r' / 60 % 60) ++ (':' :: two (r' % 60)))) := by
  apply two_field_lt _ (by omega) (by omega)
  by_cases hhour : r / 3600 < r' / 3600
  · exact .inl hhour
  · refine .inr ⟨by omega, two_field_lt _ (by omega) (by omega) ?_⟩
    by_cases hminute : r / 60 % 60 < r' / 60 % 60
    · exact .inl hminute
    · exact .inr ⟨by omega, two_lt (by omega) (by omega) (by omega)⟩

theorem secondText_lt {s s' : Int} (h : s < s') (hlow : 0 ≤ (dateOfDay (s / 86400)).year)
    (hhigh : (dateOfDay (s' / 86400)).year ≤ 9999) : secondText s < secondText s' := by
  have hm := Calendar.dateOfDay_month (s / 86400)
  have hm' := Calendar.dateOfDay_month (s' / 86400)
  have hd := Calendar.dateOfDay_day (s / 86400)
  have hd' := Calendar.dateOfDay_day (s' / 86400)
  unfold secondText
  by_cases hday : s / 86400 < s' / 86400
  · have hdate := Calendar.dateOfDay_lt hday
    refine four_field_lt _ hlow (by omega) (hdate.imp_right fun hh => ⟨hh.1, ?_⟩)
    exact two_field_lt _ (by omega) (by omega) (hh.2.imp_right fun hhh =>
      ⟨hhh.1, two_field_lt _ (by omega) (by omega) (.inl hhh.2)⟩)
  · have heq : s / 86400 = s' / 86400 := by omega
    have hclock := @clock_lt (s % 86400) (s' % 86400) (by omega) (by omega) (by omega)
    rw [heq] at hlow hd hm ⊢
    refine four_field_lt _ hlow (by omega) (.inr ⟨rfl, ?_⟩)
    refine two_field_lt _ (by omega) (by omega) (.inr ⟨rfl, ?_⟩)
    exact two_field_lt _ (by omega) (by omega) (.inr ⟨rfl, hclock⟩)

/-! ### Bytes -/

theorem textBytes_ofList (cs : List Char) : textBytes (.ofList cs) = cs.flatMap String.utf8EncodeChar := by
  rw [textBytes, String.toUTF8, ← String.utf8Encode_toList, List.utf8Encode, List.data_toByteArray, String.toList_ofList]

/-- Each character is one byte. -/
def Ascii (cs : List Char) : Prop := ∀ c ∈ cs, c.toNat < 128

theorem ascii_append {cs ds : List Char} : Ascii (cs ++ ds) ↔ Ascii cs ∧ Ascii ds := List.forall_mem_append

theorem ascii_cons {c : Char} {cs : List Char} : Ascii (c :: cs) ↔ c.toNat < 128 ∧ Ascii cs := List.forall_mem_cons

theorem flatMap_ascii {cs : List Char} (h : Ascii cs) :
    cs.flatMap String.utf8EncodeChar = cs.map fun c => c.val.toUInt8 := by
  induction cs with
  | nil => rfl
  | cons c cs ih =>
    rw [ascii_cons] at h
    have hsize : c.utf8Size = 1 := Char.utf8Size_eq_one_iff.2 (UInt32.le_iff_toNat_le.2 (Nat.le_of_lt_succ h.1))
    rw [List.flatMap_cons, String.utf8EncodeChar_eq_singleton hsize, ih h.2, List.map_cons, List.singleton_append]

theorem byte_lt_iff {c d : Char} (hc : c.toNat < 128) (hd : d.toNat < 128) :
    c.val.toUInt8 < d.val.toUInt8 ↔ c < d := by
  rw [UInt8.lt_iff_toNat_lt, UInt32.toNat_toUInt8, UInt32.toNat_toUInt8, Char.lt_def, UInt32.lt_iff_toNat_lt]
  rw [Char.toNat] at hc hd
  omega

theorem byte_inj {c d : Char} (hc : c.toNat < 128) (hd : d.toNat < 128) :
    c.val.toUInt8 = d.val.toUInt8 ↔ c = d := by
  rw [← UInt8.toNat_inj, UInt32.toNat_toUInt8, UInt32.toNat_toUInt8, Char.ext_iff, ← UInt32.toNat_inj]
  rw [Char.toNat] at hc hd
  omega

/-- Such texts compare as lists of characters. -/
theorem textBytes_lt_iff {cs ds : List Char} (hc : Ascii cs) (hd : Ascii ds) :
    textBytes (.ofList cs) < textBytes (.ofList ds) ↔ cs < ds := by
  rw [textBytes_ofList, textBytes_ofList, flatMap_ascii hc, flatMap_ascii hd]
  induction cs generalizing ds with
  | nil => cases ds <;> simp
  | cons c cs ih =>
    cases ds with
    | nil => simp
    | cons d ds =>
      rw [ascii_cons] at hc hd
      rw [List.map_cons, List.map_cons, List.cons_lt_cons_iff, List.cons_lt_cons_iff, byte_lt_iff hc.1 hd.1,
        byte_inj hc.1 hd.1, ih hc.2 hd.2]

theorem ascii_digit {n : Int} (h0 : 0 ≤ n) (h : n < 10) : (digit n).toNat < 128 := by
  interval_cases n <;> decide

theorem ascii_two {n : Int} (h0 : 0 ≤ n) (h : n < 100) : Ascii (two n) := by
  simp [two, Ascii, ascii_digit (n := n / 10) (by omega) (by omega),
    ascii_digit (n := n % 10) (by omega) (by omega)]

theorem ascii_trimmedDigits {w f : Nat} (h : f < 10 ^ w) : Ascii (trimmedDigits w f) := by
  induction w generalizing f with
  | zero => simp [trimmedDigits, Ascii]
  | succ w ih =>
    rw [pow_succ] at h
    have hdigit := @ascii_digit (f / 10 ^ w : Nat) (Int.natCast_nonneg _) (by exact_mod_cast Nat.div_lt_of_lt_mul h)
    rw [trimmedDigits]
    split_ifs
    · simp [Ascii]
    · exact ascii_cons.2 ⟨hdigit, ih (Nat.mod_lt f (by positivity))⟩

theorem ascii_fractionText {f : Nat} (h : f < 10 ^ 9) : Ascii (fractionText f) := by
  rw [fractionText]
  split_ifs
  · simp [Ascii]
  · exact ascii_cons.2 ⟨by decide, ascii_trimmedDigits h⟩

theorem ascii_secondText {s : Int} (hlow : 0 ≤ (dateOfDay (s / 86400)).year)
    (hhigh : (dateOfDay (s / 86400)).year ≤ 9999) : Ascii (secondText s) := by
  have hm := Calendar.dateOfDay_month (s / 86400)
  have hd := Calendar.dateOfDay_day (s / 86400)
  have hfour : Ascii (four (dateOfDay (s / 86400)).year) :=
    ascii_append.2 ⟨ascii_two (by omega) (by omega), ascii_two (by omega) (by omega)⟩
  simp only [secondText, ascii_append, ascii_cons]
  refine ⟨hfour, by decide, ascii_two (by omega) (by omega), by decide, ascii_two (by omega) (by omega), by decide,
    ascii_two (by omega) (by omega), by decide, ascii_two (by omega) (by omega), by decide,
    ascii_two (by omega) (by omega)⟩

/-! ### Instants -/

namespace OffsetDateTime

theorem nanos_eq (t : OffsetDateTime) : t.nanos = t.seconds * second + t.fraction := by
  simp only [seconds, fraction, second]
  omega

theorem fraction_lt (t : OffsetDateTime) : t.fraction < 10 ^ 9 := by
  simp only [fraction, second]
  omega

theorem unit_le (t : OffsetDateTime) : t.fraction + t.unit ≤ second := add_unitOf_le t.fraction_lt

end OffsetDateTime

theorem toJson_eq {t : OffsetDateTime} (ht : t.InYears) : t.toJson R = some (.string (utcText t)) := by
  rw [OffsetDateTime.toJson, toRfc3339Utc, R.format_utc t.toUtc rfl ht]
  rfl

theorem storedBefore_iff_text {t t' : OffsetDateTime} (ht : t.InYears) (ht' : t'.InYears) :
    StoredBefore R t t' ↔ secondText t.seconds ++ (fractionText t.fraction ++ ['Z']) <
      secondText t'.seconds ++ (fractionText t'.fraction ++ ['Z']) := by
  have hascii {t : OffsetDateTime} (ht : t.InYears) :
      Ascii (secondText t.seconds ++ (fractionText t.fraction ++ ['Z'])) :=
    ascii_append.2 ⟨ascii_secondText ht.1 ht.2, ascii_append.2 ⟨ascii_fractionText t.fraction_lt, by simp [Ascii]⟩⟩
  rw [← textBytes_lt_iff (hascii ht) (hascii ht'), StoredBefore, toJson_eq R ht, toJson_eq R ht']
  constructor
  · rintro ⟨text, text', h, h', hlt⟩
    cases h
    cases h'
    exact hlt
  · exact fun h => ⟨_, _, rfl, rfl, h⟩

/-- The later of two instants is stored behind the earlier one just when it is later by at least one
unit of the last digit in the earlier one's text. -/
theorem stored_in_time_order_iff {t t' : OffsetDateTime} (ht : t.InYears) (ht' : t'.InYears) (h : t.nanos < t'.nanos) :
    StoredBefore R t t' ↔ t.nanos + t.unit ≤ t'.nanos := by
  have hnanos := t.nanos_eq
  have hnanos' := t'.nanos_eq
  have hunit := t.unit_le
  have hfraction := t.fraction_lt
  have hfraction' := t'.fraction_lt
  have hlength : (secondText t.seconds).length = (secondText t'.seconds).length := rfl
  rw [storedBefore_iff_text R ht ht', append_lt_append_iff _ _ hlength]
  rw [OffsetDateTime.second] at hnanos hnanos' hunit
  by_cases hlt : t.seconds < t'.seconds
  · have hle : t.nanos + t.unit ≤ t'.nanos := by omega
    simp only [secondText_lt hlt ht.1 ht'.2, hle, true_or]
  · have heq : t.seconds = t'.seconds := by omega
    rw [heq] at hnanos ⊢
    have hunitOf : unitOf 9 t.fraction = t.unit := rfl
    have hfractions := @fractionText_lt_iff t.fraction t'.fraction (by omega) hfraction'
    rw [hunitOf] at hfractions
    simp only [lt_irrefl, false_or, true_and, hfractions]
    omega

instance (t : OffsetDateTime) : Decidable t.InYears := inferInstanceAs (Decidable (_ ∧ _))

/-- UTC as the crate's documentation has it. -/
def Rfc3339.documented : Rfc3339 where
  format t := if t.InYears then some (utcText t) else none
  format_utc _ _ ht := if_pos ht

theorem whole_seconds_stored_in_order :
    OffsetDateTime.InYears ⟨0, 0⟩ ∧ OffsetDateTime.InYears ⟨1000000000, 3600⟩ ∧
    (StoredBefore .documented ⟨0, 0⟩ ⟨1000000000, 3600⟩ ↔ (0 : Int) + OffsetDateTime.unit ⟨0, 0⟩ ≤ 1000000000) :=
  ⟨by decide, by decide, stored_in_time_order_iff .documented (by decide) (by decide) (by decide)⟩

/-- Half a second past 2026-10-05T04:00:00Z is stored before it. -/
theorem half_second_stored_first :
    ¬ ∀ (R : Rfc3339) (t t' : OffsetDateTime), t.InYears → t'.InYears → t.nanos < t'.nanos → StoredBefore R t t' := by
  intro hall
  have hstored := hall .documented ⟨1791172800000000000, 0⟩ ⟨1791172800500000000, 0⟩ (by decide) (by decide) (by decide)
  rw [storedBefore_iff_text _ (by decide) (by decide)] at hstored
  exact absurd hstored (by decide)

end Ecat.Orm
