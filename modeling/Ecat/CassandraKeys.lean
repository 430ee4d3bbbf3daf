import Ecat.CassandraValues

/-! Which native values are turned into one JSON value. -/

namespace Ecat.Cassandra

open Json

/-! ### Decimals -/

/-- The scales of the decimals that are written without a point and without an exponent. -/
def Whole (scale : Int32) : Prop := -1000 ≤ scale.toInt ∧ scale.toInt ≤ 0

/-- Those with a point. -/
def Pointed (scale : Int32) : Prop := 0 < scale.toInt ∧ scale.toInt ≤ 1000

/-- Decimals with one text: of one number and scale, or of one whole number that is not zero. -/
def DecimalAlike (unscaled other : List UInt8) (scale scale' : Int32) : Prop :=
  signed unscaled = signed other ∧ scale = scale' ∨
    signed unscaled ≠ 0 ∧ Whole scale ∧ Whole scale' ∧
      signed unscaled * 10 ^ scale.toInt.natAbs = signed other * 10 ^ scale'.toInt.natAbs

def signText (n : Int) : List Char := if n < 0 then ['-'] else []

theorem formatDecimal_eq (unscaled : List UInt8) (scale : Int32) : (formatDecimal unscaled scale).toList =
    signText (signed unscaled) ++ placePoint (Nat.toDigits 10 (signed unscaled).natAbs) scale.toInt := by
  rw [formatDecimal, signedBeToDecimal_eq, splitSign_toString, String.toList_ofList, signText]

/-- A character of the numeral of an integer. -/
def NumeralChar (c : Char) : Prop := c = '-' ∨ c.isDigit = true

instance : DecidablePred NumeralChar := fun _ => inferInstanceAs (Decidable (_ ∨ _))

theorem numeral_eq (n : Int) : signText n ++ Nat.toDigits 10 n.natAbs = (toString n).toList := (toList_toString n).symm

theorem signText_chars {n : Int} {c : Char} (h : c ∈ signText n) : NumeralChar c := by
  unfold signText at h
  split_ifs at h
  · exact .inl (List.mem_singleton.1 h)
  · cases h

theorem digits_chars {n : Nat} {c : Char} (h : c ∈ Nat.toDigits 10 n) : NumeralChar c := .inr (isDigit_toDigits n c h)

theorem zeros_chars {k : Nat} {c : Char} (h : c ∈ List.replicate k '0') : NumeralChar c := .inr (isDigit_zeros k c h)

theorem formatDecimal_whole {unscaled : List UInt8} {scale : Int32} (h : Whole scale) :
    (formatDecimal unscaled scale).toList =
      (toString (signed unscaled)).toList ++ List.replicate scale.toInt.natAbs '0' := by
  have hplace : placePoint (Nat.toDigits 10 (signed unscaled).natAbs) scale.toInt =
      Nat.toDigits 10 (signed unscaled).natAbs ++ List.replicate scale.toInt.natAbs '0' := by
    obtain ⟨hlow, hhigh⟩ := h
    rw [placePoint, if_neg (by omega)]
    by_cases hzero : scale.toInt = 0
    · simp [hzero]
    · rw [if_neg hzero, if_pos (by omega)]
  rw [formatDecimal_eq, hplace, ← List.append_assoc, numeral_eq]

theorem formatDecimal_pointed {unscaled : List UInt8} {scale : Int32} (h : Pointed scale) :
    ∃ front back, (formatDecimal unscaled scale).toList = front ++ '.' :: back ∧ (∀ c ∈ front, NumeralChar c) ∧
      (∀ c ∈ back, NumeralChar c) ∧ (back.length : Int) = scale.toInt := by
  obtain ⟨hlow, hhigh⟩ := h
  rw [formatDecimal_eq, placePoint, if_neg (by omega), if_neg (by omega), if_neg (by omega)]
  split_ifs with hwithin
  · refine ⟨_, _, (List.append_assoc _ _ _).symm, ?_, ?_, ?_⟩
    · intro c hc
      rcases List.mem_append.1 hc with hc | hc
      · exact signText_chars hc
      · exact digits_chars (List.mem_of_mem_take hc)
    · exact fun c hc => digits_chars (List.mem_of_mem_drop hc)
    · rw [List.length_drop]
      omega
  · refine ⟨signText (signed unscaled) ++ ['0'], _, by rw [List.append_assoc]; rfl, ?_, ?_, ?_⟩
    · intro c hc
      rcases List.mem_append.1 hc with hc | hc
      · exact signText_chars hc
      · exact .inr (List.mem_singleton.1 hc ▸ rfl)
    · intro c hc
      rcases List.mem_append.1 hc with hc | hc
      · exact zeros_chars hc
      · exact digits_chars hc
    · rw [List.length_append, List.length_replicate]
      omega

theorem formatDecimal_exponent {unscaled : List UInt8} {scale : Int32} (h : ¬ Whole scale) (h' : ¬ Pointed scale) :
    (formatDecimal unscaled scale).toList =
      (toString (signed unscaled)).toList ++ 'e' :: (toString (-scale.toInt)).toList := by
  unfold Whole at h
  unfold Pointed at h'
  rw [formatDecimal_eq, placePoint, if_pos (by omega), ← List.append_assoc, numeral_eq]

/-- Zeros behind a numeral that is not zero are the numeral of as many times ten. -/
theorem numeral_zeros {n : Int} (h : n ≠ 0) (k : Nat) :
    (toString n).toList ++ List.replicate k '0' = (toString (n * 10 ^ k)).toList := by
  induction k with
  | zero => simp
  | succ k ih =>
    have hne : n * 10 ^ k ≠ 0 := mul_ne_zero h (by positivity)
    have htimes : n * 10 ^ (k + 1) = 10 * (n * 10 ^ k) := by ring
    rw [List.replicate_succ', ← List.append_assoc, ih, htimes]
    generalize n * 10 ^ k = m at hne
    have hsign : 10 * m < 0 ↔ m < 0 := by omega
    have habs : (10 * m).natAbs = 10 * m.natAbs + 0 := by omega
    have hdigits : Nat.toDigits 10 m.natAbs ++ Nat.toDigits 10 0 = Nat.toDigits 10 (10 * m.natAbs + 0) :=
      Nat.toDigits_append_toDigits (by omega) (Int.natAbs_pos.2 hne) (by omega)
    rw [toList_toString, toList_toString, habs, ← hdigits, ← List.append_assoc]
    simp only [hsign]
    rfl

theorem formatDecimal_of_alike {unscaled other : List UInt8} {scale scale' : Int32}
    (h : DecimalAlike unscaled other scale scale') : formatDecimal unscaled scale = formatDecimal other scale' := by
  apply String.toList_inj.1
  rcases h with ⟨hsame, rfl⟩ | ⟨hne, hwhole, hwhole', hsame⟩
  · rw [formatDecimal_eq, formatDecimal_eq, hsame]
  · have hne' : signed other ≠ 0 := by
      intro hzero
      rw [hzero, zero_mul] at hsame
      exact mul_ne_zero hne (by positivity) hsame
    rw [formatDecimal_whole hwhole, formatDecimal_whole hwhole', numeral_zeros hne, numeral_zeros hne', hsame]

/-- The number in a decimal's text. -/
theorem number_of_text {unscaled other : List UInt8} {scale scale' : Int32}
    (h : formatDecimal unscaled scale = formatDecimal other scale') :
    (signed unscaled * 10 ^ (-scale.toInt) : ℚ) = signed other * 10 ^ (-scale'.toInt) := by
  have hread := readDecimal_formatDecimal unscaled scale
  rw [h, readDecimal_formatDecimal] at hread
  exact (Option.some.inj hread).symm

theorem alike_of_whole {unscaled other : List UInt8} {scale scale' : Int32} (hwhole : Whole scale) (hwhole' : Whole scale')
    (h : formatDecimal unscaled scale = formatDecimal other scale') : DecimalAlike unscaled other scale scale' := by
  have htimes {n : List UInt8} {s : Int32} (hs : Whole s) :
      (signed n * 10 ^ (-s.toInt) : ℚ) = ((signed n * 10 ^ s.toInt.natAbs : Int) : ℚ) := by
    have hneg : -s.toInt = (s.toInt.natAbs : Int) := by have := hs.2; omega
    rw [hneg, zpow_natCast]
    push_cast
    rfl
  have hnumber := number_of_text h
  rw [htimes hwhole, htimes hwhole', Int.cast_inj] at hnumber
  by_cases hzero : signed unscaled = 0
  · -- zeros of different scales have texts of different lengths
    have hzero' : signed other = 0 := by
      rw [hzero, zero_mul] at hnumber
      by_contra hne
      exact mul_ne_zero hne (by positivity) hnumber.symm
    have hlength := congrArg List.length (congrArg String.toList h)
    rw [formatDecimal_whole hwhole, formatDecimal_whole hwhole', hzero, hzero', List.length_append, List.length_append,
      List.length_replicate, List.length_replicate] at hlength
    have hscale : scale.toInt = scale'.toInt := by
      have hnonpos := hwhole.2
      have hnonpos' := hwhole'.2
      omega
    exact .inl ⟨hzero.trans hzero'.symm, Int32.toInt_inj.1 hscale⟩
  · exact .inr ⟨hzero, hwhole, hwhole', hnumber⟩

theorem not_mem_numeral {cs : List Char} {c : Char} (hc : ¬ NumeralChar c) (h : ∀ d ∈ cs, NumeralChar d) : c ∉ cs :=
  fun hmem => hc (h c hmem)

theorem alike_of_pointed {unscaled other : List UInt8} {scale scale' : Int32} (hpoint : Pointed scale) (hpoint' : Pointed scale')
    (h : formatDecimal unscaled scale = formatDecimal other scale') : DecimalAlike unscaled other scale scale' := by
  obtain ⟨front, back, htext, hfront, -, hlength⟩ := @formatDecimal_pointed unscaled scale hpoint
  obtain ⟨front', back', htext', hfront', -, hlength'⟩ := @formatDecimal_pointed other scale' hpoint'
  have heq := congrArg String.toList h
  rw [htext, htext'] at heq
  obtain ⟨-, rfl⟩ := append_cons_inj (not_mem_numeral (by decide) hfront) (not_mem_numeral (by decide) hfront') heq
  have hscale := Int32.toInt_inj.1 (hlength.symm.trans hlength')
  subst hscale
  have hnumber := mul_right_cancel₀ (zpow_ne_zero _ (by norm_num)) (number_of_text h)
  exact .inl ⟨Int.cast_inj.1 hnumber, rfl⟩

theorem alike_of_exponent {unscaled other : List UInt8} {scale scale' : Int32} (hwhole : ¬ Whole scale)
    (hpoint : ¬ Pointed scale) (hwhole' : ¬ Whole scale') (hpoint' : ¬ Pointed scale')
    (h : formatDecimal unscaled scale = formatDecimal other scale') : DecimalAlike unscaled other scale scale' := by
  have heq := congrArg String.toList h
  have hfree (n : Int) : 'e' ∉ (toString n).toList := not_mem_numeral (by decide) fun _ => int_text_chars
  rw [formatDecimal_exponent hwhole hpoint, formatDecimal_exponent hwhole' hpoint'] at heq
  obtain ⟨hnumber, hscale⟩ := append_cons_inj (hfree _) (hfree _) heq
  have hneg := intText_inj (String.toList_inj.1 hscale)
  exact .inl ⟨intText_inj (String.toList_inj.1 hnumber), Int32.toInt_inj.1 (neg_inj.1 hneg)⟩

theorem whole_chars {unscaled : List UInt8} {scale : Int32} (h : Whole scale) :
    ∀ c ∈ (formatDecimal unscaled scale).toList, NumeralChar c := by
  intro c hc
  rw [formatDecimal_whole h] at hc
  exact (List.mem_append.1 hc).elim int_text_chars zeros_chars

/-- The characters of a text tell of what kind its scale is. -/
theorem point_mem_iff (unscaled : List UInt8) (scale : Int32) :
    '.' ∈ (formatDecimal unscaled scale).toList ↔ Pointed scale := by
  by_cases hpoint : Pointed scale
  · obtain ⟨front, back, htext, -⟩ := @formatDecimal_pointed unscaled scale hpoint
    simp [htext, hpoint]
  · refine iff_of_false ?_ hpoint
    by_cases hwhole : Whole scale
    · exact not_mem_numeral (by decide) (whole_chars hwhole)
    · have hfree (n : Int) : '.' ∉ (toString n).toList := not_mem_numeral (by decide) fun _ => int_text_chars
      rw [formatDecimal_exponent hwhole hpoint, List.mem_append, List.mem_cons]
      rintro (h | h | h)
      · exact hfree _ h
      · exact absurd h (by decide)
      · exact hfree _ h

theorem exponent_mem_iff (unscaled : List UInt8) (scale : Int32) :
    'e' ∈ (formatDecimal unscaled scale).toList ↔ ¬ Whole scale ∧ ¬ Pointed scale := by
  by_cases hpoint : Pointed scale
  · obtain ⟨front, back, htext, hfront, hback, -⟩ := @formatDecimal_pointed unscaled scale hpoint
    have hfront' := @not_mem_numeral front 'e' (by decide) hfront
    have hback' := @not_mem_numeral back 'e' (by decide) hback
    simp [htext, hpoint, hfront', hback']
  · by_cases hwhole : Whole scale
    · exact iff_of_false (not_mem_numeral (by decide) (whole_chars hwhole)) fun h => h.1 hwhole
    · rw [formatDecimal_exponent hwhole hpoint]
      simp [hwhole, hpoint]

theorem formatDecimal_eq_iff {unscaled other : List UInt8} {scale scale' : Int32} :
    formatDecimal unscaled scale = formatDecimal other scale' ↔ DecimalAlike unscaled other scale scale' := by
  constructor
  · intro h
    have hpoints : Pointed scale ↔ Pointed scale' := by
      rw [← point_mem_iff unscaled scale, h, point_mem_iff]
    have hexponents : (¬ Whole scale ∧ ¬ Pointed scale) ↔ (¬ Whole scale' ∧ ¬ Pointed scale') := by
      rw [← exponent_mem_iff unscaled scale, h, exponent_mem_iff]
    by_cases hpoint : Pointed scale
    · exact alike_of_pointed hpoint (hpoints.1 hpoint) h
    · have hpoint' : ¬ Pointed scale' := fun hp => hpoint (hpoints.2 hp)
      by_cases hwhole : Whole scale
      · refine alike_of_whole hwhole ?_ h
        by_contra hwhole'
        exact (hexponents.2 ⟨hwhole', hpoint'⟩).1 hwhole
      · exact alike_of_exponent hwhole hpoint (hexponents.1 ⟨hwhole, hpoint⟩).1 hpoint' h
  · exact formatDecimal_of_alike

/-! ### Native values -/

def Double.IsFinite : Double → Prop
  | .finite .. => True
  | _ => False

/-- What JSON has only null for. -/
def Native.NotFinite : Native → Prop
  | .float x => ¬ x.IsFinite
  | .double x => ¬ x.IsFinite
  | _ => False

/-- Decimals with one text are alike, and byte strings of one integer; other values have to be equal. -/
def Native.Alike : Native → Native → Prop
  | .decimal unscaled scale, .decimal other scale' => DecimalAlike unscaled other scale scale'
  | .varint bytes, .varint others => signed bytes = signed others
  | v, w => v = w

theorem ofI64_inj {m n : Int} (hm : InI64 m) (hn : InI64 n) : Value.ofI64 m hm = Value.ofI64 n hn ↔ m = n := by
  simp [Value.ofI64]

theorem double_toJson_inj {x y : Double} : x.toJson = y.toJson ↔ x = y ∨ ¬ x.IsFinite ∧ ¬ y.IsFinite := by
  cases x <;> cases y <;> simp [Double.toJson, Double.IsFinite]

theorem bytes_toJson_inj {bytes others : List UInt8} : (bytes.map fun byte => Value.ofI64 byte.toNat (byte_fits byte)) =
    (others.map fun byte => Value.ofI64 byte.toNat (byte_fits byte)) ↔ bytes = others := by
  refine ⟨fun h => List.map_injective_iff.2 (fun byte other hbyte => ?_) h, fun h => h ▸ rfl⟩
  rw [ofI64_inj] at hbyte
  exact UInt8.toNat_inj.1 (Int.ofNat_inj.1 hbyte)

theorem date_inj {days days' : UInt32} : (formatDate days).get (formatDate_isSome days) =
    (formatDate days').get (formatDate_isSome days') ↔ days = days' := by
  rw [Option.get_inj, formatDate_injective.eq_iff]

theorem timestamp_inj {millis millis' : Int64} : (formatTimestamp millis).get (formatTimestamp_isSome millis) =
    (formatTimestamp millis').get (formatTimestamp_isSome millis') ↔ millis = millis' := by
  rw [Option.get_inj, formatTimestamp_injective.eq_iff]

theorem varint_inj {bytes others : List UInt8} : signedBeToDecimal bytes = signedBeToDecimal others ↔ signed bytes = signed others := by
  rw [signedBeToDecimal_eq, signedBeToDecimal_eq]
  exact ⟨intText_inj, fun h => h ▸ rfl⟩

theorem address_inj {address other : IpAddr} : address.toText = other.toText ↔ address = other :=
  ⟨IpAddr.toText_inj, fun h => h ▸ rfl⟩

theorem durationText_eq (months days : Int32) (nanos : Int64) : (durationText months days nanos).toList =
    (toString months.toInt).toList ++ 'm' :: ('o' :: (toString days.toInt).toList ++
      'd' :: ((toString nanos.toInt).toList ++ ['n', 's'])) := by
  have hmo : "mo".toList = ['m', 'o'] := rfl
  have hd : "d".toList = ['d'] := rfl
  have hns : "ns".toList = ['n', 's'] := rfl
  simp only [durationText, String.toList_append, hmo, hd, hns, List.append_assoc, List.cons_append, List.nil_append]

theorem durationText_inj {months days months' days' : Int32} {nanos nanos' : Int64} :
    durationText months days nanos = durationText months' days' nanos' ↔ months = months' ∧ days = days' ∧ nanos = nanos' := by
  refine ⟨fun h => ?_, fun ⟨hm, hd, hn⟩ => by rw [hm, hd, hn]⟩
  have hfree {c : Char} (hc : ¬ NumeralChar c) (n : Int) : c ∉ (toString n).toList :=
    not_mem_numeral hc fun _ => int_text_chars
  have heq := congrArg String.toList h
  rw [durationText_eq, durationText_eq] at heq
  obtain ⟨hmonths, hrest⟩ := append_cons_inj (hfree (by decide) _) (hfree (by decide) _) heq
  obtain ⟨hdays, hrest⟩ := append_cons_inj (hfree (by decide) _) (hfree (by decide) _) (List.cons.inj hrest).2
  have hnanos := List.append_cancel_right hrest
  exact ⟨Int32.toInt_inj.1 (intText_inj (String.toList_inj.1 hmonths)),
    Int32.toInt_inj.1 (intText_inj (String.toList_inj.1 hdays)),
    Int64.toInt_inj.1 (intText_inj (String.toList_inj.1 hnanos))⟩

variable (T : UuidText)

theorem UuidText.text_inj {id other : BitVec 128} : T.text id = T.text other ↔ id = other :=
  ⟨T.inj id other, fun h => h ▸ rfl⟩

/-- Values of one native type are turned into one JSON value where they are alike, and where both are null in JSON. -/
theorem native_toJson_inj {v w : Native} (h : v.type = w.type) :
    v.toJson T = w.toJson T ↔ v.Alike w ∨ v.NotFinite ∧ w.NotFinite := by
  cases v with
  | ascii s =>
    cases w with
    | ascii s' => simp [Native.toJson, Native.Alike, Native.NotFinite]
    | _ => cases h
  | text s =>
    cases w with
    | text s' => simp [Native.toJson, Native.Alike, Native.NotFinite]
    | _ => cases h
  | boolean flag =>
    cases w with
    | boolean flag' => simp [Native.toJson, Native.Alike, Native.NotFinite]
    | _ => cases h
  | tinyInt n =>
    cases w with
    | tinyInt n' => simp [Native.toJson, Native.Alike, Native.NotFinite, ofI64_inj, Int8.toInt_inj]
    | _ => cases h
  | smallInt n =>
    cases w with
    | smallInt n' => simp [Native.toJson, Native.Alike, Native.NotFinite, ofI64_inj, Int16.toInt_inj]
    | _ => cases h
  | int n =>
    cases w with
    | int n' => simp [Native.toJson, Native.Alike, Native.NotFinite, ofI64_inj, Int32.toInt_inj]
    | _ => cases h
  | bigInt n =>
    cases w with
    | bigInt n' => simp [Native.toJson, Native.Alike, Native.NotFinite, ofI64_inj, Int64.toInt_inj]
    | _ => cases h
  | counter n =>
    cases w with
    | counter n' => simp [Native.toJson, Native.Alike, Native.NotFinite, ofI64_inj, Int64.toInt_inj]
    | _ => cases h
  | float x =>
    cases w with
    | float x' => simp [Native.toJson, Native.Alike, Native.NotFinite, double_toJson_inj]
    | _ => cases h
  | double x =>
    cases w with
    | double x' => simp [Native.toJson, Native.Alike, Native.NotFinite, double_toJson_inj]
    | _ => cases h
  | blob bytes =>
    cases w with
    | blob bytes' => simp [Native.toJson, Native.Alike, Native.NotFinite, bytes_toJson_inj]
    | _ => cases h
  | uuid id =>
    cases w with
    | uuid id' => simp [Native.toJson, Native.Alike, Native.NotFinite, T.text_inj]
    | _ => cases h
  | timeuuid id =>
    cases w with
    | timeuuid id' => simp [Native.toJson, Native.Alike, Native.NotFinite, T.text_inj]
    | _ => cases h
  | timestamp millis =>
    cases w with
    | timestamp millis' => simp [Native.toJson, Native.Alike, Native.NotFinite, timestamp_inj]
    | _ => cases h
  | date days =>
    cases w with
    | date days' => simp [Native.toJson, Native.Alike, Native.NotFinite, date_inj]
    | _ => cases h
  | time nanos =>
    cases w with
    | time nanos' => simp [Native.toJson, Native.Alike, Native.NotFinite, formatTime_injective.eq_iff]
    | _ => cases h
  | decimal unscaled scale =>
    cases w with
    | decimal unscaled' scale' => simp [Native.toJson, Native.Alike, Native.NotFinite, formatDecimal_eq_iff]
    | _ => cases h
  | inet address =>
    cases w with
    | inet address' => simp [Native.toJson, Native.Alike, Native.NotFinite, address_inj]
    | _ => cases h
  | varint bytes =>
    cases w with
    | varint bytes' => simp [Native.toJson, Native.Alike, Native.NotFinite, varint_inj]
    | _ => cases h
  | duration months days nanoseconds =>
    cases w with
    | duration months' days' nanoseconds' => simp [Native.toJson, Native.Alike, Native.NotFinite, durationText_inj]
    | _ => cases h

/-! ### Keys -/

/-- The types whose values are strings in JSON. -/
def NativeType.isText : NativeType → Bool
  | .boolean | .tinyInt | .smallInt | .int | .bigInt | .counter | .float | .double | .blob => false
  | _ => true

def IsString (v : Value) : Prop := ∃ text, v = .string text

theorem native_isString (v : Native) : IsString (v.toJson T) ↔ v.type.isText = true := by
  cases v with
  | float x => cases x <;> simp [IsString, Native.toJson, Double.toJson, Native.type, NativeType.isText]
  | double x => cases x <;> simp [IsString, Native.toJson, Double.toJson, Native.type, NativeType.isText]
  | _ => simp [IsString, Native.toJson, Value.ofI64, Native.type, NativeType.isText]

theorem keyOf_of_not_string {v : Value} (h : ¬ IsString v) : keyOf v = v.toText := by
  cases v with
  | string text => exact absurd ⟨text, rfl⟩ h
  | _ => rfl

theorem E_not_mem_dateText (y : Int) (m d : UInt32) : 'E' ∉ dateText y m d := not_mem_dateText (by decide) (by decide) y m d

theorem E_not_mem_clockText (s : Int) : 'E' ∉ clockText s := not_mem_clockText (by decide) (by decide) (by decide) s

theorem E_not_mem_fractionText (w : Nat) (n : Int) : 'E' ∉ fractionText w n := by
  unfold fractionText
  split_ifs
  · simp
  · rw [List.mem_cons]
    rintro (h | h)
    · exact absurd h (by decide)
    · exact not_mem_padInt (by decide) (by decide) h

theorem E_not_mem_intText (n : Int) : 'E' ∉ (toString n).toList := not_mem_numeral (by decide) fun _ => int_text_chars

theorem E_not_mem_decimal (unscaled : List UInt8) (scale : Int32) : 'E' ∉ (formatDecimal unscaled scale).toList := by
  by_cases hpoint : Pointed scale
  · obtain ⟨front, back, htext, hfront, hback, -⟩ := @formatDecimal_pointed unscaled scale hpoint
    rw [htext, List.mem_append, List.mem_cons]
    rintro (h | h | h)
    · exact not_mem_numeral (by decide) hfront h
    · exact absurd h (by decide)
    · exact not_mem_numeral (by decide) hback h
  · by_cases hwhole : Whole scale
    · exact not_mem_numeral (by decide) (whole_chars hwhole)
    · rw [formatDecimal_exponent hwhole hpoint, List.mem_append, List.mem_cons]
      rintro (h | h | h)
      · exact E_not_mem_intText _ h
      · exact absurd h (by decide)
      · exact E_not_mem_intText _ h

theorem E_not_mem_date (days : UInt32) : 'E' ∉ ((formatDate days).get (formatDate_isSome days)).toList := by
  obtain ⟨y, m, d, hcivil, -⟩ := exists_dateText (dateDays_range days)
  have htext : formatDate days = some (.ofList (dateText y m d)) := by simp [formatDate, hcivil]
  simp only [htext, Option.get_some, String.toList_ofList]
  exact E_not_mem_dateText y m d

theorem E_not_mem_timestamp (millis : Int64) :
    'E' ∉ ((formatTimestamp millis).get (formatTimestamp_isSome millis)).toList := by
  obtain ⟨y, m, d, hcivil, -⟩ := exists_dateText (timestampDays_range millis)
  have htext : formatTimestamp millis = some (.ofList (dateText y m d ++
      'T' :: (clockText ((millis.toInt % 86400000).tdiv 1000) ++ fractionText 3 ((millis.toInt % 86400000).tmod 1000)) ++
        ['Z'])) := by simp [formatTimestamp, hcivil]
  simp only [htext, Option.get_some, String.toList_ofList, List.mem_append, List.mem_cons]
  simp [E_not_mem_dateText, E_not_mem_clockText, E_not_mem_fractionText]

theorem E_not_mem_time (nanos : Int64) : 'E' ∉ (formatTime nanos).toList := by
  rw [formatTime, String.toList_ofList, List.mem_append]
  rintro (h | h)
  · exact E_not_mem_clockText _ h
  · exact E_not_mem_fractionText _ _ h

theorem E_not_mem_duration (months days : Int32) (nanos : Int64) : 'E' ∉ (durationText months days nanos).toList := by
  rw [durationText_eq]
  simp only [List.mem_append, List.mem_cons, E_not_mem_intText]
  decide

/-- No text but those of the text types is that of the empty value. -/
theorem native_ne_empty {v : Native} (h : v.type ∉ [NativeType.ascii, .text, .blob]) : v.toJson T ≠ .string "Empty" := by
  have hne {text : String} (hE : 'E' ∉ text.toList) : Value.string text ≠ .string "Empty" := by
    intro heq
    rw [Value.string.inj heq] at hE
    exact hE (by decide)
  cases v with
  | ascii s => exact absurd (by simp [Native.type]) h
  | text s => exact absurd (by simp [Native.type]) h
  | float x => cases x <;> simp [Native.toJson, Double.toJson]
  | double x => cases x <;> simp [Native.toJson, Double.toJson]
  | uuid id => exact hne (T.lower id)
  | timeuuid id => exact hne (T.lower id)
  | timestamp millis => exact hne (E_not_mem_timestamp millis)
  | date days => exact hne (E_not_mem_date days)
  | time nanos => exact hne (E_not_mem_time nanos)
  | decimal unscaled scale => exact hne (E_not_mem_decimal unscaled scale)
  | inet address => exact hne fun h => absurd (IpAddr.toText_chars h) (by decide)
  | varint bytes => exact hne (signedBeToDecimal_eq bytes ▸ E_not_mem_intText _)
  | duration months days nanoseconds => exact hne (E_not_mem_duration months days nanoseconds)
  | _ => simp [Native.toJson, Value.ofI64]

end Ecat.Cassandra
