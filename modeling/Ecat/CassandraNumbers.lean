import Ecat.Digits

/-! Varints and decimals of CQL as decimal texts. The bytes are negated and divided as the code does it,
and the texts are read back as the numbers that the bytes denote. -/

namespace Ecat.Cassandra

/-- The number that bytes denote, the most significant one first. -/
def unsigned : List UInt8 → Nat
  | [] => 0
  | byte :: rest => byte.toNat * 256 ^ rest.length + unsigned rest

/-- Two's complement: the first bit is a sign. -/
def signed (bytes : List UInt8) : Int :=
  if ∀ byte ∈ bytes.head?, byte < 128 then unsigned bytes else unsigned bytes - 256 ^ bytes.length

/-! ### The conversions -/

/-- One more byte to the left is added the carry. -/
def carryStep (byte : UInt8) (state : UInt16 × List UInt8) : UInt16 × List UInt8 :=
  let sum := byte.toUInt16 + state.1
  (sum >>> 8, sum.toUInt8 :: state.2)

def negate (bytes : List UInt8) : List UInt8 := ((bytes.map (~~~ ·)).foldr carryStep (1, [])).2

/-- The bytes divided by ten, from the left, and the remainder. -/
def divTen (remainder : UInt32) : List UInt8 → List UInt8 × UInt32
  | [] => ([], remainder)
  | byte :: rest =>
    let current := (remainder <<< 8) ||| byte.toUInt32
    let (quotients, last) := divTen (current % 10) rest
    ((current / 10).toUInt8 :: quotients, last)

theorem unsigned_lt (bytes : List UInt8) : unsigned bytes < 256 ^ bytes.length := by
  induction bytes with
  | nil => simp [unsigned]
  | cons byte rest ih =>
    have hbyte : byte.toNat * 256 ^ rest.length ≤ 255 * 256 ^ rest.length :=
      Nat.mul_le_mul_right _ (by have := byte.toNat_lt; omega)
    rw [unsigned, List.length_cons, pow_succ]
    omega

theorem unsigned_eq_zero {bytes : List UInt8} : unsigned bytes = 0 ↔ ∀ byte ∈ bytes, byte = 0 := by
  induction bytes with
  | nil => simp [unsigned]
  | cons byte rest ih =>
    rw [unsigned, Nat.add_eq_zero_iff, ih, List.forall_mem_cons, Nat.mul_eq_zero]
    simp [← UInt8.toNat_inj]

/-- The next digit's dividend, which is below 2560. -/
theorem current_toNat {r : UInt32} (hr : r.toNat < 10) (byte : UInt8) :
    ((r <<< 8) ||| byte.toUInt32).toNat = r.toNat * 256 + byte.toNat := by
  have hbyte : byte.toNat < 2 ^ 8 := byte.toNat_lt
  have hshift : (r <<< 8).toNat = r.toNat <<< 8 := by
    simp only [UInt32.toNat_shiftLeft, Nat.shiftLeft_eq, UInt32.reduceToNat, Nat.reduceMod, Nat.reducePow]
    omega
  rw [UInt32.toNat_or, hshift, UInt8.toNat_toUInt32, ← Nat.shiftLeft_add_eq_or_of_lt hbyte, Nat.shiftLeft_eq]

theorem divTen_spec {r : UInt32} (hr : r.toNat < 10) (bytes : List UInt8) :
    (divTen r bytes).2.toNat < 10 ∧
      unsigned (divTen r bytes).1 * 10 + (divTen r bytes).2.toNat = r.toNat * 256 ^ bytes.length + unsigned bytes ∧
      (divTen r bytes).1.length = bytes.length := by
  induction bytes generalizing r with
  | nil => simp [divTen, unsigned, hr]
  | cons byte rest ih =>
    have hcurrent := current_toNat hr byte
    have hmod : (((r <<< 8) ||| byte.toUInt32) % 10).toNat = (r.toNat * 256 + byte.toNat) % 10 := by
      rw [UInt32.toNat_mod, hcurrent]
      rfl
    have hdiv : (((r <<< 8) ||| byte.toUInt32) / 10).toUInt8.toNat = (r.toNat * 256 + byte.toNat) / 10 := by
      have hbyte := byte.toNat_lt
      rw [UInt32.toNat_toUInt8, UInt32.toNat_div, hcurrent]
      exact Nat.mod_eq_of_lt (by change _ / 10 < _; omega)
    obtain ⟨hlast, hsum, hlength⟩ := @ih (((r <<< 8) ||| byte.toUInt32) % 10) (by omega)
    rw [hmod] at hsum
    refine ⟨hlast, ?_, by rw [divTen, List.length_cons, List.length_cons, hlength]⟩
    have hsplit : (r.toNat * 256 + byte.toNat) / 10 * 10 + (r.toNat * 256 + byte.toNat) % 10 =
        r.toNat * 256 + byte.toNat := Nat.div_add_mod' _ _
    rw [divTen, unsigned, unsigned, hdiv, hlength, List.length_cons]
    calc ((r.toNat * 256 + byte.toNat) / 10 * 256 ^ rest.length +
          unsigned (divTen (((r <<< 8) ||| byte.toUInt32) % 10) rest).1) * 10 +
          (divTen (((r <<< 8) ||| byte.toUInt32) % 10) rest).2.toNat
        = ((r.toNat * 256 + byte.toNat) / 10 * 10 + (r.toNat * 256 + byte.toNat) % 10) * 256 ^ rest.length +
          unsigned rest := by linear_combination hsum
      _ = r.toNat * 256 ^ (rest.length + 1) + (byte.toNat * 256 ^ rest.length + unsigned rest) := by
        rw [hsplit]
        ring

theorem divTen_zero (bytes : List UInt8) :
    unsigned (divTen 0 bytes).1 = unsigned bytes / 10 ∧ (divTen 0 bytes).2.toNat = unsigned bytes % 10 := by
  obtain ⟨hlast, hsum, -⟩ := divTen_spec (r := 0) (by decide) bytes
  rw [show (0 : UInt32).toNat = 0 from rfl, zero_mul, zero_add] at hsum
  omega

/-- The digits, the least significant one first. Each division makes the number smaller. -/
def digitsOf (magnitude : List UInt8) : List UInt8 :=
  if _h : magnitude.any (· ≠ 0) then (divTen 0 magnitude).2.toUInt8 :: digitsOf (divTen 0 magnitude).1 else []
termination_by unsigned magnitude
decreasing_by
  have hpos : unsigned magnitude ≠ 0 := by
    rw [Ne, unsigned_eq_zero]
    simpa using _h
  rw [(divTen_zero magnitude).1]
  omega

/-- Two's-complement bytes as a decimal text. -/
def signedBeToDecimal (bytes : List UInt8) : String :=
  match bytes with
  | [] => "0"
  | first :: _ =>
    let negative := first &&& 0x80 ≠ 0
    let magnitude := if negative then negate bytes else bytes
    let digits := digitsOf magnitude
    let digits := if digits = [] then [0] else digits
    .ofList ((if negative then ['-'] else []) ++ digits.reverse.map fun digit => Char.ofNat (48 + digit.toNat))

/-- The point of a decimal among the digits of its number. -/
def placePoint (body : List Char) (scale : Int) : List Char :=
  -- an absurd scale would be gigabytes of zeros
  if ¬ (-1000 ≤ scale ∧ scale ≤ 1000) then body ++ 'e' :: (toString (-scale)).toList
  else if scale = 0 then body
  else if scale < 0 then body ++ List.replicate scale.natAbs '0'
  else if scale.toNat < body.length then
    body.take (body.length - scale.toNat) ++ '.' :: body.drop (body.length - scale.toNat)
  else '0' :: '.' :: (List.replicate (scale.toNat - body.length) '0' ++ body)

def splitSign : List Char → List Char × List Char
  | '-' :: rest => (['-'], rest)
  | digits => ([], digits)

def formatDecimal (unscaled : List UInt8) (scale : Int32) : String :=
  let (sign, body) := splitSign (signedBeToDecimal unscaled).toList
  .ofList (sign ++ placePoint body scale.toInt)

/-! ### The digits -/

theorem carryStep_spec (bytes : List UInt8) :
    (bytes.foldr carryStep (1, [])).1.toNat ≤ 1 ∧
      (bytes.foldr carryStep (1, [])).1.toNat * 256 ^ bytes.length + unsigned (bytes.foldr carryStep (1, [])).2 =
        unsigned bytes + 1 ∧
      (bytes.foldr carryStep (1, [])).2.length = bytes.length := by
  induction bytes with
  | nil => simp [unsigned]
  | cons byte rest ih =>
    rw [List.foldr_cons]
    generalize rest.foldr carryStep (1, []) = state at ih ⊢
    obtain ⟨hcarry, hsum, hlength⟩ := ih
    have hbyte := byte.toNat_lt
    have hadd : (byte.toUInt16 + state.1).toNat = byte.toNat + state.1.toNat := by
      rw [UInt16.toNat_add, UInt8.toNat_toUInt16]
      omega
    have hcarry' : (carryStep byte state).1.toNat = (byte.toNat + state.1.toNat) / 256 := by
      simp only [carryStep, UInt16.toNat_shiftRight, hadd, Nat.shiftRight_eq_div_pow, UInt16.reduceToNat,
        Nat.reduceMod, Nat.reducePow]
    have hlow : (byte.toUInt16 + state.1).toUInt8.toNat = (byte.toNat + state.1.toNat) % 256 := by
      rw [UInt16.toNat_toUInt8, hadd]
    refine ⟨by omega, ?_, by simp [carryStep, hlength]⟩
    have hsplit := Nat.div_add_mod (byte.toNat + state.1.toNat) 256
    rw [hcarry', carryStep, unsigned, unsigned, hlow, hlength, List.length_cons, pow_succ]
    calc (byte.toNat + state.1.toNat) / 256 * (256 ^ rest.length * 256) +
          ((byte.toNat + state.1.toNat) % 256 * 256 ^ rest.length + unsigned state.2)
        = (256 * ((byte.toNat + state.1.toNat) / 256) + (byte.toNat + state.1.toNat) % 256) * 256 ^ rest.length +
          unsigned state.2 := by ring
      _ = byte.toNat * 256 ^ rest.length + unsigned rest + 1 := by
        rw [hsplit]
        linear_combination hsum

theorem unsigned_not (bytes : List UInt8) : unsigned (bytes.map (~~~ ·)) + unsigned bytes + 1 = 256 ^ bytes.length := by
  induction bytes with
  | nil => simp [unsigned]
  | cons byte rest ih =>
    have hbyte := byte.toNat_lt
    have hnot : (~~~ byte).toNat = 255 - byte.toNat := by
      rw [UInt8.toNat_not]
      rfl
    have hsum : 255 - byte.toNat + byte.toNat = 255 := by omega
    rw [List.map_cons, unsigned, unsigned, List.length_map, hnot, List.length_cons, pow_succ]
    linear_combination hsum * 256 ^ rest.length + ih

theorem unsigned_negate {bytes : List UInt8} (h : unsigned bytes ≠ 0) :
    unsigned (negate bytes) = 256 ^ bytes.length - unsigned bytes := by
  obtain ⟨hcarry, hsum, -⟩ := carryStep_spec (bytes.map (~~~ ·))
  have hnot := unsigned_not bytes
  rw [List.length_map] at hsum
  rw [negate]
  have hzero : ((bytes.map (~~~ ·)).foldr carryStep (1, [])).1.toNat = 0 := by
    by_contra hone
    have hpow : 256 ^ bytes.length ≤ ((bytes.map (~~~ ·)).foldr carryStep (1, [])).1.toNat * 256 ^ bytes.length :=
      Nat.le_mul_of_pos_left _ (by omega)
    omega
  rw [hzero, zero_mul] at hsum
  omega

def digitText (digits : List UInt8) : List Char := digits.reverse.map fun digit => Char.ofNat (48 + digit.toNat)

theorem any_ne_zero {bytes : List UInt8} : bytes.any (· ≠ 0) = true ↔ unsigned bytes ≠ 0 := by
  rw [Ne, unsigned_eq_zero]
  simp

theorem digitsOf_of_zero {bytes : List UInt8} (h : unsigned bytes = 0) : digitsOf bytes = [] := by
  rw [digitsOf, dif_neg (any_ne_zero.not.2 (not_not.2 h))]

theorem digitsOf_of_ne_zero {bytes : List UInt8} (h : unsigned bytes ≠ 0) :
    digitsOf bytes = (divTen 0 bytes).2.toUInt8 :: digitsOf (divTen 0 bytes).1 := by
  rw [digitsOf, dif_pos (any_ne_zero.2 h)]

theorem ofNat_digit {n : Nat} (h : n < 10) : Char.ofNat (48 + n) = Nat.digitChar n := by
  interval_cases n <;> rfl

theorem digitText_digitsOf {bytes : List UInt8} (h : unsigned bytes ≠ 0) :
    digitText (digitsOf bytes) = Nat.toDigits 10 (unsigned bytes) := by
  induction hn : unsigned bytes using Nat.strongRecOn generalizing bytes with
  | ind n ih =>
    obtain ⟨hquotient, hremainder⟩ := divTen_zero bytes
    have hdigit : (divTen 0 bytes).2.toUInt8.toNat = n % 10 := by
      rw [UInt32.toNat_toUInt8, hremainder, hn]
      omega
    have hlast : digitText (digitsOf bytes) = digitText (digitsOf (divTen 0 bytes).1) ++ [Nat.digitChar (n % 10)] := by
      rw [digitsOf_of_ne_zero h, digitText, List.reverse_cons, List.map_append, List.map_singleton, hdigit,
        ofNat_digit (Nat.mod_lt _ (by omega)), digitText]
    by_cases hten : n < 10
    · have hzero : unsigned (divTen 0 bytes).1 = 0 := by omega
      rw [hlast, digitsOf_of_zero hzero, Nat.mod_eq_of_lt hten, Nat.toDigits_of_lt_base hten]
      rfl
    · have hrest := ih (unsigned (divTen 0 bytes).1) (by omega) (by omega) rfl
      rw [hlast, hrest, hquotient, hn, ← Nat.toDigits_of_base_le (by omega) (by omega)]

theorem digitText_or_zero (bytes : List UInt8) :
    digitText (if digitsOf bytes = [] then [0] else digitsOf bytes) = Nat.toDigits 10 (unsigned bytes) := by
  by_cases h : unsigned bytes = 0
  · rw [digitsOf_of_zero h, if_pos rfl, h]
    rfl
  · have hne : digitsOf bytes ≠ [] := by
      rw [digitsOf_of_ne_zero h]
      exact List.cons_ne_nil _ _
    rw [if_neg hne, digitText_digitsOf h]

theorem sign_bit (byte : UInt8) : byte &&& 0x80 ≠ 0 ↔ ¬ byte < 128 := by
  have hbyte := byte.toNat_lt
  have hbit : byte.toNat.testBit 7 = true ↔ 2 ^ 7 ≤ byte.toNat := by
    rw [Nat.testBit_eq_decide_div_mod_eq, decide_eq_true_eq]
    omega
  rw [UInt8.lt_iff_toNat_lt, Ne, ← UInt8.toNat_inj, UInt8.toNat_and, show (0x80 : UInt8).toNat = 2 ^ 7 from rfl,
    Nat.and_two_pow, not_lt, ← hbit]
  cases byte.toNat.testBit 7 <;> simp

/-- The numeral of an integer: the sign, then the digits. -/
theorem toList_toString (n : Int) :
    (toString n).toList = (if n < 0 then ['-'] else []) ++ Nat.toDigits 10 n.natAbs := by
  rw [toList_intText, padInt]
  split_ifs with h <;> simp [padNat]

theorem signed_of_sign {first : UInt8} {rest : List UInt8} (h : first &&& 0x80 ≠ 0) :
    unsigned (first :: rest) ≠ 0 ∧ signed (first :: rest) = -(unsigned (negate (first :: rest)) : Int) ∧
      unsigned (negate (first :: rest)) ≠ 0 := by
  have hlt := unsigned_lt (first :: rest)
  have hne : unsigned (first :: rest) ≠ 0 := by
    rw [Ne, unsigned_eq_zero]
    intro hzero
    exact h (by rw [hzero first List.mem_cons_self]; rfl)
  have hsigned : signed (first :: rest) = unsigned (first :: rest) - (256 ^ (first :: rest).length : Nat) := by
    rw [signed, if_neg (by simpa using (sign_bit first).1 h), Nat.cast_pow]
    rfl
  rw [unsigned_negate hne]
  exact ⟨hne, by omega, by omega⟩

theorem signed_of_no_sign {first : UInt8} {rest : List UInt8} (h : ¬ first &&& 0x80 ≠ 0) :
    signed (first :: rest) = unsigned (first :: rest) := by
  rw [signed, if_pos]
  simpa using not_not.1 ((sign_bit first).not.1 h)

/-- The text is the numeral of the number that the bytes denote. -/
theorem signedBeToDecimal_eq (bytes : List UInt8) : signedBeToDecimal bytes = toString (signed bytes) := by
  cases bytes with
  | nil =>
    have hzero : signed [] = 0 := by simp [signed, unsigned]
    rw [hzero]
    rfl
  | cons first rest =>
    apply String.toList_inj.1
    simp only [signedBeToDecimal, toList_toString, String.toList_ofList]
    by_cases hneg : first &&& 0x80 ≠ 0
    · obtain ⟨-, hsigned, hne⟩ := @signed_of_sign first rest hneg
      rw [if_pos hneg, if_pos hneg, ← digitText, digitText_or_zero, hsigned, if_pos (by omega), Int.natAbs_neg,
        Int.natAbs_natCast]
    · rw [if_neg hneg, if_neg hneg, ← digitText, digitText_or_zero, signed_of_no_sign hneg, if_neg (by omega),
        Int.natAbs_natCast]

/-! ### Reading decimals -/

def readInt : List Char → Option Int
  | '-' :: cs => (readDigits cs).map fun (n : Nat) => -(n : Int)
  | cs => (readDigits cs).map fun (n : Nat) => (n : Int)

/-- Digits, and digits behind a point that count as their share of one. -/
def readMantissa (cs : List Char) : Option ℚ :=
  match cs.dropWhile (· ≠ '.') with
  | [] => (readDigits cs).map fun (n : Nat) => (n : ℚ)
  | _ :: fraction => do
    return ((← readDigits (cs.takeWhile (· ≠ '.'))) : ℚ) + (← readDigits fraction) / 10 ^ fraction.length

def readScientific (cs : List Char) : Option ℚ :=
  match cs.dropWhile (· ≠ 'e') with
  | [] => readMantissa cs
  | _ :: exponent => do
    return (← readMantissa (cs.takeWhile (· ≠ 'e'))) * 10 ^ (← readInt exponent)

/-- The number that a decimal text denotes. -/
def readDecimal : List Char → Option ℚ
  | '-' :: cs => (readScientific cs).map fun q => -q
  | cs => readScientific cs

/-- Digits without a zero before others, and no minus sign before a zero. -/
structure Canonical (sign body : List Char) : Prop where
  sign : sign = [] ∨ sign = ['-'] ∧ body ≠ ['0']
  ne_nil : body ≠ []
  digits : ∀ c ∈ body, c.isDigit = true
  leading : body.head? = some '0' → body = ['0']

theorem head_toDigits {n : Nat} (h : n ≠ 0) : (Nat.toDigits 10 n).head? ≠ some '0' := by
  induction n using Nat.strongRecOn with
  | ind n ih =>
    by_cases hten : n < 10
    · rw [Nat.toDigits_of_lt_base hten]
      simpa using h
    · rw [Nat.toDigits_of_base_le (by omega) (by omega), List.head?_append_of_ne_nil _ Nat.toDigits_ne_nil]
      exact ih (n / 10) (by omega) (by omega)

theorem canonical_toDigits (n : Int) : Canonical (if n < 0 then ['-'] else []) (Nat.toDigits 10 n.natAbs) := by
  refine ⟨?_, Nat.toDigits_ne_nil, isDigit_toDigits _, ?_⟩
  · split_ifs with hneg
    · refine .inr ⟨rfl, fun hzero => ?_⟩
      exact head_toDigits (n := n.natAbs) (by omega) (by rw [hzero]; rfl)
    · exact .inl rfl
  · intro hhead
    by_cases hzero : n.natAbs = 0
    · rw [hzero]
      rfl
    · exact absurd hhead (head_toDigits hzero)

theorem digits_ne {cs : List Char} (h : ∀ c ∈ cs, c.isDigit = true) {c : Char} (hc : c.isDigit = false) :
    ∀ d ∈ cs, decide (d ≠ c) = true := by
  intro d hd
  apply decide_eq_true
  rintro rfl
  exact absurd (hc.symm.trans (h d hd)) (by simp)

theorem readInt_of_digits {cs : List Char} (hne : cs ≠ []) (h : ∀ c ∈ cs, c.isDigit = true) :
    readInt cs = (readDigits cs).map fun (n : Nat) => (n : Int) := by
  unfold readInt
  split
  · exact absurd (h '-' List.mem_cons_self) (by decide)
  · rfl

theorem readInt_toString (n : Int) : readInt (toString n).toList = some n := by
  rw [toList_toString]
  split_ifs with hneg
  · rw [List.singleton_append, readInt, readDigits_toDigits, Option.map_some]
    congr 1
    omega
  · rw [List.nil_append, readInt_of_digits Nat.toDigits_ne_nil (isDigit_toDigits _),
      readDigits_toDigits, Option.map_some]
    congr 1
    omega

theorem readMantissa_digits {cs : List Char} (h : ∀ c ∈ cs, c.isDigit = true) :
    readMantissa cs = (readDigits cs).map fun (n : Nat) => (n : ℚ) := by
  rw [readMantissa, List.dropWhile_eq_nil_iff.2 (digits_ne h (by decide))]

theorem readMantissa_point {cs fraction : List Char} (h : ∀ c ∈ cs, c.isDigit = true) :
    readMantissa (cs ++ '.' :: fraction) = (do
      return ((← readDigits cs) : ℚ) + (← readDigits fraction) / 10 ^ fraction.length) := by
  have hne := digits_ne h (c := '.') (by decide)
  rw [readMantissa, List.dropWhile_append_of_pos hne, List.takeWhile_append_of_pos hne]
  simp

theorem readScientific_plain {cs : List Char} (h : 'e' ∉ cs) : readScientific cs = readMantissa cs := by
  rw [readScientific, List.dropWhile_eq_nil_iff.2]
  intro c hc
  apply decide_eq_true
  rintro rfl
  exact h hc

theorem readScientific_exponent {cs exponent : List Char} (h : ∀ c ∈ cs, c.isDigit = true) :
    readScientific (cs ++ 'e' :: exponent) = (do
      return (← readMantissa cs) * 10 ^ (← readInt exponent)) := by
  have hne := digits_ne h (c := 'e') (by decide)
  rw [readScientific, List.dropWhile_append_of_pos hne, List.takeWhile_append_of_pos hne]
  simp

theorem readScientific_digits {cs : List Char} (hne : cs ≠ []) (h : ∀ c ∈ cs, c.isDigit = true) :
    readScientific cs = some (Nat.ofDigitChars 10 cs 0 : ℚ) := by
  have he : 'e' ∉ cs := fun hmem => absurd (h 'e' hmem) (by decide)
  rw [readScientific_plain he, readMantissa_digits h, readDigits_of hne h, Option.map_some]

theorem readScientific_point {cs fraction : List Char} (hne : cs ≠ []) (h : ∀ c ∈ cs, c.isDigit = true)
    (hne' : fraction ≠ []) (hdigits : ∀ c ∈ fraction, c.isDigit = true) :
    readScientific (cs ++ '.' :: fraction) =
      some (Nat.ofDigitChars 10 (cs ++ fraction) 0 / 10 ^ fraction.length : ℚ) := by
  have he : 'e' ∉ cs ++ '.' :: fraction := by
    have hcs : 'e' ∉ cs := fun hmem => absurd (h 'e' hmem) (by decide)
    have hfraction : 'e' ∉ fraction := fun hmem => absurd (hdigits 'e' hmem) (by decide)
    simp [hcs, hfraction]
  have hpow : (10 : ℚ) ^ fraction.length ≠ 0 := by positivity
  rw [readScientific_plain he, readMantissa_point h, readDigits_of hne h, readDigits_of hne' hdigits, Nat.ofDigitChars_append,
    @Nat.ofDigitChars_eq_ofDigitChars_zero fraction (Nat.ofDigitChars 10 cs 0)]
  simp only [Option.bind_eq_bind, Option.bind_some, Option.pure_def, Option.some.injEq]
  push_cast
  field_simp

theorem isDigit_zeros (k : Nat) : ∀ c ∈ List.replicate k '0', c.isDigit = true := by
  intro c hc
  obtain rfl := List.eq_of_mem_replicate hc
  rfl

theorem readScientific_zeros (n k : Nat) :
    readScientific (Nat.toDigits 10 n ++ List.replicate k '0') = some (n * 10 ^ k : ℚ) := by
  have hdigits : ∀ c ∈ Nat.toDigits 10 n ++ List.replicate k '0', c.isDigit = true := fun c hc =>
    (List.mem_append.1 hc).elim (isDigit_toDigits n c) (isDigit_zeros k c)
  rw [readScientific_digits (by simp) hdigits, Nat.ofDigitChars_append, Nat.ofDigitChars_replicate_zero,
    Nat.ofDigitChars_ten_toDigits]
  push_cast
  rw [mul_comm]

theorem readScientific_within {n k : Nat} (hk : 0 < k) (h : k < (Nat.toDigits 10 n).length) :
    readScientific ((Nat.toDigits 10 n).take ((Nat.toDigits 10 n).length - k) ++
      '.' :: (Nat.toDigits 10 n).drop ((Nat.toDigits 10 n).length - k)) = some (n / 10 ^ k : ℚ) := by
  have hlength : ((Nat.toDigits 10 n).drop ((Nat.toDigits 10 n).length - k)).length = k := by
    rw [List.length_drop]
    omega
  have hwhole : (Nat.toDigits 10 n).take ((Nat.toDigits 10 n).length - k) ≠ [] :=
    List.ne_nil_of_length_pos (by rw [List.length_take]; omega)
  rw [readScientific_point hwhole _ (List.ne_nil_of_length_pos (by omega)), List.take_append_drop,
    Nat.ofDigitChars_ten_toDigits, hlength]
  · exact fun c hc => isDigit_toDigits n c (List.mem_of_mem_drop hc)
  · exact fun c hc => isDigit_toDigits n c (List.mem_of_mem_take hc)

theorem readScientific_below {n k : Nat} (h : (Nat.toDigits 10 n).length ≤ k) :
    readScientific ('0' :: '.' :: (List.replicate (k - (Nat.toDigits 10 n).length) '0' ++ Nat.toDigits 10 n)) =
      some (n / 10 ^ k : ℚ) := by
  have hlength : (List.replicate (k - (Nat.toDigits 10 n).length) '0' ++ Nat.toDigits 10 n).length = k := by
    rw [List.length_append, List.length_replicate]
    omega
  have hpoint := @readScientific_point ['0'] (List.replicate (k - (Nat.toDigits 10 n).length) '0' ++ Nat.toDigits 10 n)
    (by simp) (isDigit_zeros 1) (by simp) fun c hc => (List.mem_append.1 hc).elim (isDigit_zeros _ c) (isDigit_toDigits n c)
  have hvalue : Nat.ofDigitChars 10 (['0'] ++ (List.replicate (k - (Nat.toDigits 10 n).length) '0' ++
      Nat.toDigits 10 n)) 0 = n := by
    rw [← List.append_assoc, Nat.ofDigitChars_append, ← List.replicate_one, ← List.replicate_add,
      Nat.ofDigitChars_replicate_zero, mul_zero, Nat.ofDigitChars_ten_toDigits]
  rw [hvalue, hlength] at hpoint
  exact hpoint

/-- With the point placed, the digits denote the number's share of the scale. -/
theorem readScientific_placePoint (n : Nat) (scale : Int) :
    readScientific (placePoint (Nat.toDigits 10 n) scale) = some (n * 10 ^ (-scale) : ℚ) := by
  unfold placePoint
  split_ifs with hbounds hzero hneg hwithin
  · rw [readScientific_digits Nat.toDigits_ne_nil (isDigit_toDigits n), Nat.ofDigitChars_ten_toDigits, hzero]
    simp
  · obtain ⟨k, rfl⟩ : ∃ k : Nat, scale = -k := ⟨scale.natAbs, by omega⟩
    rw [Int.natAbs_neg, Int.natAbs_natCast, readScientific_zeros, neg_neg, zpow_natCast]
  · obtain ⟨k, rfl⟩ : ∃ k : Nat, scale = k := ⟨scale.toNat, by omega⟩
    rw [Int.toNat_natCast] at hwithin ⊢
    rw [readScientific_within (by omega) hwithin, zpow_neg, zpow_natCast, div_eq_mul_inv]
  · obtain ⟨k, rfl⟩ : ∃ k : Nat, scale = k := ⟨scale.toNat, by omega⟩
    rw [Int.toNat_natCast] at hwithin ⊢
    rw [readScientific_below (by omega), zpow_neg, zpow_natCast, div_eq_mul_inv]
  · rw [readScientific_exponent (isDigit_toDigits n), readMantissa_digits (isDigit_toDigits n), readDigits_toDigits,
      readInt_toString]
    rfl

/-! ### The texts -/

theorem splitSign_digits {cs : List Char} (h : cs.head? ≠ some '-') : splitSign cs = ([], cs) := by
  unfold splitSign
  split
  · simp at h
  · rfl

theorem readDecimal_unsigned {cs : List Char} (h : cs.head? ≠ some '-') : readDecimal cs = readScientific cs := by
  unfold readDecimal
  split
  · simp at h
  · rfl

theorem head_ne_minus {cs : List Char} (h : ∀ c ∈ cs, c.isDigit = true) : cs.head? ≠ some '-' := by
  intro hhead
  exact absurd (h '-' (List.mem_of_mem_head? hhead)) (by decide)

theorem head_placePoint {cs : List Char} (hne : cs ≠ []) (h : ∀ c ∈ cs, c.isDigit = true) (scale : Int) :
    (placePoint cs scale).head? ≠ some '-' := by
  have hcs := head_ne_minus h
  unfold placePoint
  split_ifs with hbounds hzero hneg hwithin
  · exact hcs
  · rwa [List.head?_append_of_ne_nil _ hne]
  · have hwhole : cs.take (cs.length - scale.toNat) ≠ [] :=
      List.ne_nil_of_length_pos (by rw [List.length_take]; omega)
    rw [List.head?_append_of_ne_nil _ hwhole]
    exact head_ne_minus fun c hc => h c (List.mem_of_mem_take hc)
  · simp
  · rwa [List.head?_append_of_ne_nil _ hne]

theorem splitSign_toString (n : Int) :
    splitSign (toString n).toList = (if n < 0 then ['-'] else [], Nat.toDigits 10 n.natAbs) := by
  rw [toList_toString]
  split_ifs
  · rfl
  · exact splitSign_digits (head_ne_minus (isDigit_toDigits _))

/-- A decimal's text denotes its number. -/
theorem readDecimal_formatDecimal (unscaled : List UInt8) (scale : Int32) :
    readDecimal (formatDecimal unscaled scale).toList = some (signed unscaled * 10 ^ (-scale.toInt) : ℚ) := by
  have hplaced := readScientific_placePoint (signed unscaled).natAbs scale.toInt
  rw [formatDecimal, signedBeToDecimal_eq, splitSign_toString, String.toList_ofList]
  by_cases hneg : signed unscaled < 0
  · have habs : ((signed unscaled).natAbs : ℚ) = -(signed unscaled : ℚ) := by
      rw [Nat.cast_natAbs, abs_of_neg hneg, Int.cast_neg]
    rw [if_pos hneg, List.singleton_append, readDecimal, hplaced, Option.map_some, habs]
    ring_nf
  · have habs : ((signed unscaled).natAbs : ℚ) = (signed unscaled : ℚ) := by
      rw [Nat.cast_natAbs, abs_of_nonneg (by omega)]
    rw [if_neg hneg, List.nil_append,
      readDecimal_unsigned (head_placePoint Nat.toDigits_ne_nil (isDigit_toDigits _) _), hplaced, habs]

/-- Bytes give the one numeral of their number, and a decimal's text denotes its number exactly. -/
theorem varint_and_decimal_exact :
    (∀ bytes, signedBeToDecimal bytes = toString (signed bytes) ∧
      ∃ sign body, (signedBeToDecimal bytes).toList = sign ++ body ∧ Canonical sign body) ∧
    ∀ unscaled scale, readDecimal (formatDecimal unscaled scale).toList =
      some (signed unscaled * 10 ^ (-scale.toInt) : ℚ) := by
  refine ⟨fun bytes => ⟨signedBeToDecimal_eq bytes, _, _, ?_, canonical_toDigits (signed bytes)⟩,
    readDecimal_formatDecimal⟩
  rw [signedBeToDecimal_eq, toList_toString]

end Ecat.Cassandra
