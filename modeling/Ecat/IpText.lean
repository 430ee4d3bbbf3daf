import Ecat.Delimited
import Ecat.Digits

/-! IP addresses and their texts: bytes with points between them, or segments with colons, the longest run of
zero segments left out. -/

namespace Ecat

inductive IpAddr
  | v4 (a b c d : UInt8)
  | v6 (segments : Vector UInt16 8)
  deriving DecidableEq

def v4Text (a b c d : UInt8) : List Char :=
  joined '.' ([a, b, c, d].map fun byte => Nat.toDigits 10 byte.toNat)

def segmentText (segment : UInt16) : List Char := Nat.toDigits 16 segment.toNat

def segmentsText (segments : List UInt16) : List Char := joined ':' (segments.map segmentText)

/-- The bytes of an IPv4 address behind `::ffff:`. -/
def toIpv4Mapped : List UInt16 → Option (UInt8 × UInt8 × UInt8 × UInt8)
  | [0, 0, 0, 0, 0, 0xffff, ab, cd] =>
    some (.ofNat (ab.toNat / 256), .ofNat (ab.toNat % 256), .ofNat (cd.toNat / 256), .ofNat (cd.toNat % 256))
  | _ => none

structure Span where
  start : Nat
  len : Nat

/-- The run with the zero at `i`, which a run without zeros begins at. -/
def Span.grow (span : Span) (i : Nat) : Span := ⟨if span.len = 0 then i else span.start, span.len + 1⟩

/-- The first of the longest runs of zeros among segments that begin at `i`. -/
def longestZeros (i : Nat) (longest current : Span) : List UInt16 → Span
  | [] => longest
  | segment :: segments =>
    if segment = 0 then
      let current := current.grow i
      longestZeros (i + 1) (if longest.len < current.len then current else longest) current segments
    else longestZeros (i + 1) longest ⟨0, 0⟩ segments

def v6Text (segments : List UInt16) : List Char :=
  match toIpv4Mapped segments with
  | some (a, b, c, d) => "::ffff:".toList ++ v4Text a b c d
  | none =>
    let zeroes := longestZeros 0 ⟨0, 0⟩ ⟨0, 0⟩ segments
    if 1 < zeroes.len then
      segmentsText (segments.take zeroes.start) ++ "::".toList ++ segmentsText (segments.drop (zeroes.start + zeroes.len))
    else segmentsText segments

def IpAddr.toText : IpAddr → String
  | .v4 a b c d => .ofList (v4Text a b c d)
  | .v6 segments => .ofList (v6Text segments.toList)

/-! ### Runs of zeros -/

/-- The segments of the span are zeros. -/
def Zeros (segments : List UInt16) (span : Span) : Prop :=
  ∀ i, span.start ≤ i → i < span.start + span.len → segments[i]? = some 0

theorem Zeros.append {segments : List UInt16} {span : Span} (h : Zeros segments span) (more : List UInt16) :
    Zeros (segments ++ more) span := by
  intro i hstart hend
  have hi := h i hstart hend
  rw [List.getElem?_append_left (List.getElem?_eq_some_iff.1 hi).1, hi]

/-- What has been read so far has the zeros of both spans, and the current one ends with it. -/
theorem zeros_longestZeros {segments done : List UInt16} {longest current : Span} (hlongest : Zeros done longest)
    (hcurrent : Zeros done current) (hend : current.len ≠ 0 → current.start + current.len = done.length) :
    Zeros (done ++ segments) (longestZeros done.length longest current segments) := by
  induction segments generalizing done longest current with
  | nil =>
    rw [List.append_nil, longestZeros]
    exact hlongest
  | cons segment segments ih =>
    have hlength : (done ++ [segment]).length = done.length + 1 := by simp
    have hsplit : done ++ segment :: segments = (done ++ [segment]) ++ segments := by simp
    rw [hsplit, longestZeros, ← hlength]
    by_cases hzero : segment = 0
    · have hstart : (current.grow done.length).start + current.len = done.length := by
        unfold Span.grow
        split_ifs with hlen
        · exact hlen ▸ Nat.add_zero _
        · exact hend hlen
      have hgrown : Zeros (done ++ [segment]) (current.grow done.length) := by
        intro i hfrom hto
        have hlast : (current.grow done.length).len = current.len + 1 := rfl
        by_cases hi : i = done.length
        · rw [hi, List.getElem?_concat_length, hzero]
        · have hlen : current.len ≠ 0 := by omega
          have hsame : (current.grow done.length).start = current.start := if_neg hlen
          exact hcurrent.append [segment] i (by omega) (by omega)
      rw [if_pos hzero]
      refine ih ?_ hgrown fun _ => ?_
      · split_ifs
        · exact hgrown
        · exact hlongest.append _
      · rw [hlength]
        exact congrArg (· + 1) hstart
    · rw [if_neg hzero]
      refine ih (hlongest.append _) ?_ ?_
      · intro i hfrom hto
        simp only [Nat.add_zero] at hto
        omega
      · intro h
        exact absurd rfl h

/-- What stands before and behind a run of zeros, and how long all is, tell the segments. -/
theorem Zeros.segments_eq {segments : List UInt16} {span : Span} (h : Zeros segments span) (hlen : 0 < span.len) :
    segments = segments.take span.start ++ List.replicate span.len 0 ++ segments.drop (span.start + span.len) := by
  have hrun : (segments.drop span.start).take span.len = List.replicate span.len 0 := by
    have hlast := (List.getElem?_eq_some_iff.1 (h (span.start + span.len - 1) (by omega) (by omega))).1
    apply List.ext_getElem?
    intro i
    rw [List.getElem?_take, List.getElem?_replicate, List.getElem?_drop]
    by_cases hi : i < span.len
    · rw [if_pos hi, if_pos hi]
      exact h (span.start + i) (by omega) (by omega)
    · rw [if_neg hi, if_neg hi]
  rw [← hrun, List.append_assoc, ← List.drop_drop, List.take_append_drop, List.take_append_drop]

/-! ### The texts tell the addresses -/

theorem byteTexts_free {bytes : List UInt8} {c : Char} (hc : c.isDigit = false) :
    ∀ part ∈ bytes.map fun byte => Nat.toDigits 10 byte.toNat, c ∉ part := by
  intro part hpart hmem
  obtain ⟨byte, -, rfl⟩ := List.mem_map.1 hpart
  exact absurd (hc.symm.trans (isDigit_toDigits _ c hmem)) (by simp)

theorem v4Text_inj {a b c d a' b' c' d' : UInt8} (h : v4Text a b c d = v4Text a' b' c' d') :
    a = a' ∧ b = b' ∧ c = c' ∧ d = d' := by
  have hparts := joined_inj (by simp) (by simp) (byteTexts_free (by decide)) (byteTexts_free (by decide)) h
  have hbytes : [a, b, c, d] = [a', b', c', d'] :=
    List.map_injective_iff.2 (fun x y hxy => UInt8.toNat_inj.1 (toDigits_inj hxy)) hparts
  simpa using hbytes

theorem segmentText_inj {segment other : UInt16} (h : segmentText segment = segmentText other) : segment = other :=
  UInt16.toNat_inj.1 (toDigits_hex_inj h)

theorem segmentTexts_inj {segments others : List UInt16} (h : segments.map segmentText = others.map segmentText) :
    segments = others :=
  List.map_injective_iff.2 (fun _ _ => segmentText_inj) h

theorem segmentTexts_free {segments : List UInt16} {c : Char} (hc : c ∉ hexDigits) :
    ∀ part ∈ segments.map segmentText, c ∉ part := by
  intro part hpart hmem
  obtain ⟨segment, -, rfl⟩ := List.mem_map.1 hpart
  exact hc (mem_hexDigits hmem)

theorem nil_not_mem_segmentTexts (segments : List UInt16) : [] ∉ segments.map segmentText := by
  intro h
  obtain ⟨segment, -, hnil⟩ := List.mem_map.1 h
  exact Nat.toDigits_ne_nil hnil

/-- The parts on one side of `::`, which stands for an empty part also at the end of the text. -/
def side (parts : List (List Char)) : List (List Char) := if parts = [] then [[]] else parts

theorem side_of_ne_nil {parts : List (List Char)} (h : parts ≠ []) : side parts = parts := if_neg h

theorem side_ne_nil (parts : List (List Char)) : side parts ≠ [] := by
  unfold side
  split_ifs with h
  · simp
  · exact h

theorem joined_side (parts : List (List Char)) : joined ':' (side parts) = joined ':' parts := by
  unfold side
  split_ifs with h
  · rw [h]
    rfl
  · rfl

theorem side_inj {parts others : List (List Char)} (h : [] ∉ parts) (h' : [] ∉ others) (heq : side parts = side others) :
    parts = others := by
  unfold side at heq
  split_ifs at heq with hnil hnil' hnil'
  · rw [hnil, hnil']
  · exact absurd (heq ▸ List.mem_singleton_self []) h'
  · exact absurd (heq ▸ List.mem_singleton_self []) h
  · exact heq

theorem sides_inj {front back front' back' : List (List Char)} (hfront : [] ∉ front) (hfront' : [] ∉ front')
    (hback : [] ∉ back) (hback' : [] ∉ back') (h : side front ++ [] :: side back = side front' ++ [] :: side back') :
    front = front' ∧ back = back' := by
  by_cases hnil : front = []
  · subst hnil
    by_cases hnil' : front' = []
    · subst hnil'
      exact ⟨rfl, side_inj hback hback' (List.cons.inj (List.cons.inj h).2).2⟩
    · obtain ⟨part, parts, rfl⟩ := List.exists_cons_of_ne_nil hnil'
      rw [side_of_ne_nil hnil'] at h
      exact absurd ((List.cons.inj h).1 ▸ List.mem_cons_self) hfront'
  · by_cases hnil' : front' = []
    · obtain ⟨part, parts, rfl⟩ := List.exists_cons_of_ne_nil hnil
      subst hnil'
      rw [side_of_ne_nil hnil] at h
      exact absurd ((List.cons.inj h).1 ▸ List.mem_cons_self) hfront
    · rw [side_of_ne_nil hnil, side_of_ne_nil hnil'] at h
      obtain ⟨rfl, hsides⟩ := append_cons_inj hfront hfront' h
      exact ⟨rfl, side_inj hback hback' hsides⟩

theorem side_free {parts : List (List Char)} {c : Char} (h : ∀ part ∈ parts, c ∉ part) :
    ∀ part ∈ side parts, c ∉ part := by
  unfold side
  split_ifs
  · simp
  · exact h

theorem compressed_text (front back : List UInt16) : segmentsText front ++ "::".toList ++ segmentsText back =
    joined ':' (side (front.map segmentText) ++ [] :: side (back.map segmentText)) := by
  have hback : joined ':' ([] :: side (back.map segmentText)) = ':' :: segmentsText back := by
    obtain ⟨part, parts, hcons⟩ := List.exists_cons_of_ne_nil (side_ne_nil (back.map segmentText))
    rw [segmentsText, ← joined_side (back.map segmentText), hcons, joined_cons_cons, List.nil_append]
  rw [joined_append (side_ne_nil _) (List.cons_ne_nil _ _), joined_side, hback, List.append_assoc]
  rfl

theorem sides_free (front back : List UInt16) :
    ∀ part ∈ side (front.map segmentText) ++ [] :: side (back.map segmentText), ':' ∉ part := by
  rw [List.forall_mem_append, List.forall_mem_cons]
  exact ⟨side_free (segmentTexts_free (by decide)), by simp, side_free (segmentTexts_free (by decide))⟩

theorem compressed_inj {front back front' back' : List UInt16}
    (h : segmentsText front ++ "::".toList ++ segmentsText back = segmentsText front' ++ "::".toList ++ segmentsText back') :
    front = front' ∧ back = back' := by
  rw [compressed_text, compressed_text] at h
  have hparts := joined_inj (by simp) (by simp) (sides_free front back) (sides_free front' back') h
  obtain ⟨hfront, hback⟩ := sides_inj (nil_not_mem_segmentTexts front) (nil_not_mem_segmentTexts front')
    (nil_not_mem_segmentTexts back) (nil_not_mem_segmentTexts back') hparts
  exact ⟨segmentTexts_inj hfront, segmentTexts_inj hback⟩

theorem toIpv4Mapped_eq_some {segments : List UInt16} {a b c d : UInt8} (h : toIpv4Mapped segments = some (a, b, c, d)) :
    segments = [0, 0, 0, 0, 0, 0xffff, .ofNat (a.toNat * 256 + b.toNat), .ofNat (c.toNat * 256 + d.toNat)] := by
  have hbytes (segment : UInt16) :
      UInt16.ofNat ((UInt8.ofNat (segment.toNat / 256)).toNat * 256 + (UInt8.ofNat (segment.toNat % 256)).toNat) = segment := by
    have hlt := segment.toNat_lt
    apply UInt16.toNat_inj.1
    rw [UInt16.toNat_ofNat', UInt8.toNat_ofNat', UInt8.toNat_ofNat']
    omega
  unfold toIpv4Mapped at h
  split at h
  · obtain ⟨rfl, rfl, rfl, rfl⟩ := by simpa using h
    rw [hbytes, hbytes]
  · cases h

/-- The three forms of a text. -/
theorem v6Text_forms (segments : List UInt16) :
    (∃ a b c d, toIpv4Mapped segments = some (a, b, c, d) ∧ v6Text segments = "::ffff:".toList ++ v4Text a b c d) ∨
    (∃ front len back, segments = front ++ List.replicate len 0 ++ back ∧
      v6Text segments = segmentsText front ++ "::".toList ++ segmentsText back) ∨
    v6Text segments = segmentsText segments := by
  unfold v6Text
  split
  next a b c d h => exact .inl ⟨a, b, c, d, h, rfl⟩
  next =>
    have hzeros : Zeros segments (longestZeros 0 ⟨0, 0⟩ ⟨0, 0⟩ segments) := by
      have hnone : Zeros [] ⟨0, 0⟩ := fun i _ hto => absurd hto (Nat.not_lt_zero i)
      exact @zeros_longestZeros segments [] ⟨0, 0⟩ ⟨0, 0⟩ hnone hnone (absurd rfl)
    dsimp only
    split_ifs with hlen
    · exact .inr (.inl ⟨_, _, _, hzeros.segments_eq (by omega), rfl⟩)
    · exact .inr (.inr rfl)

theorem point_mem_v4Text (a b c d : UInt8) : '.' ∈ v4Text a b c d := by
  rw [v4Text, List.map_cons, List.map_cons, joined_cons_cons]
  simp

theorem point_not_mem_segmentsText (segments : List UInt16) : '.' ∉ segmentsText segments := by
  intro h
  rcases mem_joined h with h | ⟨part, hpart, hmem⟩
  · exact absurd h (by decide)
  · exact segmentTexts_free (by decide) part hpart hmem

theorem point_not_mem_compressed (front back : List UInt16) :
    '.' ∉ segmentsText front ++ "::".toList ++ segmentsText back := by
  rw [List.mem_append, List.mem_append]
  rintro ((h | h) | h)
  · exact point_not_mem_segmentsText front h
  · exact absurd h (by decide)
  · exact point_not_mem_segmentsText back h

theorem compressed_ne_full {front back segments : List UInt16} (hne : segments ≠ []) :
    segmentsText front ++ "::".toList ++ segmentsText back ≠ segmentsText segments := by
  intro h
  rw [compressed_text] at h
  have hparts := joined_inj (by simp) (by simpa using hne) (sides_free front back) (segmentTexts_free (by decide)) h
  exact nil_not_mem_segmentTexts segments (by rw [← hparts]; simp)

theorem v6Text_inj {segments others : List UInt16} (hlen : segments.length = 8) (hlen' : others.length = 8)
    (h : v6Text segments = v6Text others) : segments = others := by
  have hne : segments ≠ [] := List.ne_nil_of_length_pos (by omega)
  have hne' : others ≠ [] := List.ne_nil_of_length_pos (by omega)
  have hpoint (a b c d : UInt8) : '.' ∈ "::ffff:".toList ++ v4Text a b c d :=
    List.mem_append_right _ (point_mem_v4Text a b c d)
  rcases v6Text_forms segments with ⟨a, b, c, d, hmapped, htext⟩ | ⟨front, len, back, hsegs, htext⟩ | htext
  · rcases v6Text_forms others with ⟨a', b', c', d', hmapped', htext'⟩ | ⟨front', len', back', hsegs', htext'⟩ | htext'
    · rw [htext, htext'] at h
      obtain ⟨rfl, rfl, rfl, rfl⟩ := v4Text_inj (List.append_cancel_left h)
      rw [toIpv4Mapped_eq_some hmapped, toIpv4Mapped_eq_some hmapped']
    · rw [htext, htext'] at h
      exact absurd (h ▸ hpoint a b c d) (point_not_mem_compressed front' back')
    · rw [htext, htext'] at h
      exact absurd (h ▸ hpoint a b c d) (point_not_mem_segmentsText others)
  · rcases v6Text_forms others with ⟨a', b', c', d', hmapped', htext'⟩ | ⟨front', len', back', hsegs', htext'⟩ | htext'
    · rw [htext, htext'] at h
      exact absurd (h ▸ hpoint a' b' c' d') (point_not_mem_compressed front back)
    · rw [htext, htext'] at h
      obtain ⟨rfl, rfl⟩ := compressed_inj h
      have hsame : len = len' := by
        rw [hsegs, List.length_append, List.length_append, List.length_replicate] at hlen
        rw [hsegs', List.length_append, List.length_append, List.length_replicate] at hlen'
        omega
      rw [hsegs, hsegs', hsame]
    · rw [htext, htext'] at h
      exact absurd h (compressed_ne_full hne')
  · rcases v6Text_forms others with ⟨a', b', c', d', hmapped', htext'⟩ | ⟨front', len', back', hsegs', htext'⟩ | htext'
    · rw [htext, htext'] at h
      exact absurd (h ▸ hpoint a' b' c' d') (point_not_mem_segmentsText segments)
    · rw [htext, htext'] at h
      exact absurd h.symm (compressed_ne_full hne)
    · rw [htext, htext'] at h
      exact segmentTexts_inj (joined_inj (by simpa using hne) (by simpa using hne') (segmentTexts_free (by decide))
        (segmentTexts_free (by decide)) h)

theorem colon_not_mem_v4Text (a b c d : UInt8) : ':' ∉ v4Text a b c d := by
  intro h
  rcases mem_joined h with h | ⟨part, hpart, hmem⟩
  · exact absurd h (by decide)
  · exact byteTexts_free (by decide) part hpart hmem

theorem colon_mem_segmentsText {segments : List UInt16} (h : segments.length = 8) : ':' ∈ segmentsText segments := by
  match segments, h with
  | first :: second :: rest, _ =>
    rw [segmentsText, List.map_cons, List.map_cons, joined_cons_cons]
    simp

theorem colon_mem_v6Text {segments : List UInt16} (h : segments.length = 8) : ':' ∈ v6Text segments := by
  rcases v6Text_forms segments with ⟨a, b, c, d, -, htext⟩ | ⟨front, len, back, -, htext⟩ | htext
  · rw [htext]
    simp
  · rw [htext]
    simp
  · rw [htext]
    exact colon_mem_segmentsText h

theorem IpAddr.toText_inj {address other : IpAddr} (h : address.toText = other.toText) : address = other := by
  cases address with
  | v4 a b c d =>
    cases other with
    | v4 a' b' c' d' =>
      obtain ⟨rfl, rfl, rfl, rfl⟩ := v4Text_inj (String.ofList_inj.1 h)
      rfl
    | v6 segments =>
      have hcolon := colon_mem_v6Text segments.length_toList
      exact absurd (String.ofList_inj.1 h ▸ hcolon) (colon_not_mem_v4Text a b c d)
  | v6 segments =>
    cases other with
    | v4 a b c d =>
      have hcolon := colon_mem_v6Text segments.length_toList
      exact absurd (String.ofList_inj.1 h ▸ hcolon) (colon_not_mem_v4Text a b c d)
    | v6 others =>
      rw [Vector.toList_inj.1 (v6Text_inj segments.length_toList others.length_toList (String.ofList_inj.1 h))]

def IsAddressChar (c : Char) : Prop := c = '.' ∨ c = ':' ∨ c ∈ hexDigits

instance : DecidablePred IsAddressChar := fun _ => inferInstanceAs (Decidable (_ ∨ _))

theorem v4Text_chars {a b c d : UInt8} {ch : Char} (h : ch ∈ v4Text a b c d) : IsAddressChar ch := by
  rcases mem_joined h with h | ⟨part, hpart, hmem⟩
  · exact .inl h
  · obtain ⟨byte, -, rfl⟩ := List.mem_map.1 hpart
    exact .inr (.inr (mem_hexDigits_of_isDigit (isDigit_toDigits _ ch hmem)))

theorem segmentsText_chars {segments : List UInt16} {ch : Char} (h : ch ∈ segmentsText segments) : IsAddressChar ch := by
  rcases mem_joined h with h | ⟨part, hpart, hmem⟩
  · exact .inr (.inl h)
  · obtain ⟨segment, -, rfl⟩ := List.mem_map.1 hpart
    exact .inr (.inr (mem_hexDigits hmem))

theorem v6Text_chars {segments : List UInt16} {ch : Char} (h : ch ∈ v6Text segments) : IsAddressChar ch := by
  have hmark : ∀ ch ∈ "::ffff:".toList, IsAddressChar ch := forall_mem_of_all rfl
  have hcolons : ∀ ch ∈ "::".toList, IsAddressChar ch := forall_mem_of_all rfl
  rcases v6Text_forms segments with ⟨a, b, c, d, -, htext⟩ | ⟨front, len, back, -, htext⟩ | htext
  · rw [htext, List.mem_append] at h
    exact h.elim (hmark ch) v4Text_chars
  · rw [htext, List.mem_append, List.mem_append] at h
    exact h.elim (fun h => h.elim segmentsText_chars (hcolons ch)) segmentsText_chars
  · exact segmentsText_chars (htext ▸ h)

theorem IpAddr.toText_chars {address : IpAddr} {ch : Char} (h : ch ∈ address.toText.toList) : IsAddressChar ch := by
  cases address with
  | v4 a b c d => exact v4Text_chars (String.toList_ofList ▸ h)
  | v6 segments => exact v6Text_chars (String.toList_ofList ▸ h)

end Ecat
