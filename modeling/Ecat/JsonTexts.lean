import Ecat.Digits
import Ecat.JsonLines

/-! The compact text of a JSON value tells the value, and where the text ends. -/

namespace Ecat.Json

/-! ### Strings -/

def unhex (c : Char) : Nat := "0123456789abcdef".toList.idxOf c

/-- What follows a backslash. -/
def readBackslash : List Char → Option (Char × List Char)
  | 'u' :: '0' :: '0' :: high :: low :: rest => some (Char.ofNat (16 * unhex high + unhex low), rest)
  | 'b' :: rest => some (Char.ofNat 8, rest)
  | 't' :: rest => some (Char.ofNat 9, rest)
  | 'n' :: rest => some (Char.ofNat 10, rest)
  | 'f' :: rest => some (Char.ofNat 12, rest)
  | 'r' :: rest => some (Char.ofNat 13, rest)
  | c :: rest => some (c, rest)
  | [] => none

def readEscape : List Char → Option (Char × List Char)
  | [] => none
  | c :: rest => if c = '\\' then readBackslash rest else some (c, rest)

theorem unhex_hexDigit {n : Nat} (h : n < 16) : unhex (hexDigit n) = n := by
  revert n
  decide

theorem eq_ofNat {c : Char} {n : Nat} (h : c.toNat = n) : c = Char.ofNat n := by
  rw [← h, Char.ofNat_toNat]

theorem readEscape_escapeChar (c : Char) (rest : List Char) : readEscape (escapeChar c ++ rest) = some (c, rest) := by
  unfold escapeChar
  split
  case h_8 n h34 h92 h8 h9 h10 h12 h13 =>
    split_ifs with hlow
    · have hhigh := @unhex_hexDigit (c.toNat / 16) (by omega)
      have hunit := @unhex_hexDigit (c.toNat % 16) (by omega)
      have hsum : 16 * (c.toNat / 16) + c.toNat % 16 = c.toNat := Nat.div_add_mod _ _
      simp only [List.cons_append, List.nil_append, readEscape, if_true, readBackslash, hhigh, hunit, hsum, Char.ofNat_toNat]
    · have hne : c ≠ '\\' := fun h => h92 (by rw [h]; rfl)
      rw [List.singleton_append, readEscape, if_neg hne]
  all_goals
    rename_i hc
    rw [eq_ofNat hc]
    rfl

theorem escapeChar_inj {c d : Char} {r s : List Char} (h : escapeChar c ++ r = escapeChar d ++ s) : c = d ∧ r = s := by
  have hread := readEscape_escapeChar c r
  rw [h, readEscape_escapeChar d s] at hread
  obtain ⟨hchar, hrest⟩ := Prod.mk.inj (Option.some.inj hread)
  exact ⟨hchar.symm, hrest.symm⟩

/-- A quote is escaped, so no escape begins with one. -/
theorem escapeChar_ne_quote (c : Char) (r s : List Char) : escapeChar c ++ r ≠ Char.ofNat 34 :: s := by
  intro h
  have hread := readEscape_escapeChar c r
  have hquote : readEscape (Char.ofNat 34 :: s) = some (Char.ofNat 34, s) := rfl
  rw [h, hquote] at hread
  obtain ⟨rfl, -⟩ := Prod.mk.inj (Option.some.inj hread)
  exact absurd (List.cons.inj h).1 (by decide)

theorem stringText_inj {text other : String} {r s : List Char} (h : stringText text ++ r = stringText other ++ s) :
    text = other ∧ r = s := by
  simp only [stringText, List.cons_append, List.append_assoc, List.nil_append] at h
  obtain ⟨hchars, hrest⟩ := flatMap_cons_inj (fun _ _ _ _ => escapeChar_inj) escapeChar_ne_quote (List.cons.inj h).2
  exact ⟨String.toList_inj.1 hchars, hrest⟩

/-! ### Numbers -/

/-- A character that numbers are printed with. -/
def NumberChar (c : Char) : Prop := c.isDigit = true ∨ c ∈ ['-', '+', '.', 'e', 'E']

instance : DecidablePred NumberChar := fun _ => inferInstanceAs (Decidable (_ ∨ _))

/-- No number goes on behind an item. -/
theorem ends_of_follows {stop : Char} (hstop : ¬ NumberChar stop) {as : List Char} (h : Follows ',' stop as) :
    ∀ c ∈ as.head?, ¬ NumberChar c := by
  intro _ hc
  rcases h with h | h <;> obtain rfl := Option.some.inj (h.symm.trans hc)
  · decide
  · exact hstop

/-- What is asked of the texts of the numbers that occur: no two of them print alike. -/
structure Printing (holds : Number → Prop) : Prop where
  nonempty : ∀ n, holds n → n.toText.toList ≠ []
  chars : ∀ n, holds n → ∀ c ∈ n.toText.toList, NumberChar c
  inj : ∀ m n, holds m → holds n → m.toText = n.toText → m = n

def Number.IsInt : Number → Prop
  | .int .. => True
  | .float .. => False

/-- The numerals of the integers are of that kind. -/
theorem printing_isInt : Printing Number.IsInt where
  nonempty n hn := by
    cases n with
    | int k ge lt => exact int_text_ne_nil k
    | float value text => exact hn.elim
  chars n hn c hc := by
    cases n with
    | int k ge lt =>
      rcases int_text_chars hc with rfl | hdigit
      · exact .inr (by decide)
      · exact .inl hdigit
    | float value text => exact hn.elim
  inj m n hm hn h := by
    cases m with
    | int k ge lt =>
      cases n with
      | int l ge' lt' =>
        obtain rfl := intText_inj h
        rfl
      | float value text => exact hn.elim
    | float value text => exact hm.elim

theorem Printing.mono {holds holds' : Number → Prop} (h : Printing holds) (hsub : ∀ n, holds' n → holds n) :
    Printing holds' where
  nonempty n hn := h.nonempty n (hsub n hn)
  chars n hn := h.chars n (hsub n hn)
  inj m n hm hn := h.inj m n (hsub m hm) (hsub n hn)

/-- A number whose text has a point does not print like an integer. -/
theorem Printing.add_float {holds : Number → Prop} (h : Printing holds) {value : ℚ} {text : String}
    (hpoint : '.' ∈ text.toList) (hchars : ∀ c ∈ text.toList, NumberChar c)
    (hnew : ∀ n, holds n → n.toText ≠ text) : Printing fun n => holds n ∨ n = .float value text where
  nonempty n hn := by
    rcases hn with hn | rfl
    · exact h.nonempty n hn
    · exact List.ne_nil_of_mem hpoint
  chars n hn := by
    rcases hn with hn | rfl
    · exact h.chars n hn
    · exact hchars
  inj m n hm hn heq := by
    rcases hm with hm | rfl
    · rcases hn with hn | rfl
      · exact h.inj m n hm hn heq
      · exact absurd heq (hnew m hm)
    · rcases hn with hn | rfl
      · exact absurd heq.symm (hnew n hn)
      · rfl

/-! ### Values -/

/-- What a text begins with, every character of a number taken for a zero. -/
def markOf (c : Char) : Char := if NumberChar c then '0' else c

def Value.mark : Value → Char
  | .null => 'n'
  | .bool true => 't'
  | .bool false => 'f'
  | .number _ => '0'
  | .string _ => Char.ofNat 34
  | .array _ => '['
  | .object _ => '\x7b'

theorem renderItems_eq_map (arrange : List (String × List Char) → List (String × List Char)) (items : List Value) :
    Value.render.renderItems arrange items = items.map (·.render arrange) := by
  induction items with
  | nil => rfl
  | cons item items ih => rw [Value.render.renderItems, ih, List.map_cons]

theorem renderFields_eq_map (arrange : List (String × List Char) → List (String × List Char))
    (fields : List (String × Value)) :
    Value.render.renderFields arrange fields = fields.map fun field => (field.1, field.2.render arrange) := by
  induction fields with
  | nil => rfl
  | cons field fields ih => rw [Value.render.renderFields, ih, List.map_cons]

def Value.fieldText (field : String × Value) : List Char := Json.fieldText (field.1, field.2.render id)

theorem render_array (items : List Value) (r : List Char) :
    (Value.array items).render id ++ r =
      '[' :: (((items.map (·.render id)).intersperse [',']).flatten ++ ']' :: r) := by
  rw [Value.render, renderItems_eq_map, commas]
  simp

theorem render_object (fields : List (String × Value)) (r : List Char) :
    (Value.object fields).render id ++ r =
      '\x7b' :: (((fields.map Value.fieldText).intersperse [',']).flatten ++ '\x7d' :: r) := by
  have hparts : (id (Value.render.renderFields id fields)).map Json.fieldText = fields.map Value.fieldText := by
    rw [renderFields_eq_map, id, List.map_map]
    rfl
  rw [Value.render, hparts, commas]
  simp

theorem bracket_ne_mark (v : Value) : markOf ']' ≠ v.mark := by
  have hself : markOf ']' = ']' := by decide
  rw [hself]
  cases v with
  | bool flag => cases flag <;> simp [Value.mark]
  | _ => simp [Value.mark]

theorem fieldText_append (field : String × Value) (r : List Char) :
    Value.fieldText field ++ r = stringText field.1 ++ ':' :: (field.2.render id ++ r) := by
  rw [Value.fieldText, Json.fieldText, List.append_assoc, List.cons_append]

theorem fieldText_ne_brace (field : String × Value) (r s : List Char) : Value.fieldText field ++ r ≠ '\x7d' :: s := by
  intro h
  exact absurd (List.cons.inj h).1 (by decide)

section Printed

variable {holds : Number → Prop} (hp : Printing holds)
include hp

theorem mark_render {v : Value} (hv : ∀ n ∈ v.numbers, holds n) (r : List Char) :
    (v.render id ++ r).head?.map markOf = some v.mark := by
  cases v with
  | null => rfl
  | bool flag => cases flag <;> rfl
  | number n =>
    have hn := hv n (by simp [Value.numbers])
    have htext : (Value.number n).render id = n.toText.toList := rfl
    obtain ⟨c, cs, hcons⟩ := List.exists_cons_of_ne_nil (hp.nonempty n hn)
    have hc := hp.chars n hn c (by rw [hcons]; exact List.mem_cons_self)
    rw [htext, hcons, List.cons_append, List.head?_cons, Option.map_some, markOf, if_pos hc, Value.mark]
  | string text => rfl
  | array items => rfl
  | object fields => rfl

theorem render_ne_cons {v : Value} (hv : ∀ n ∈ v.numbers, holds n) {c : Char} (hc : markOf c ≠ v.mark)
    (r s : List Char) : v.render id ++ r ≠ c :: s := by
  intro h
  have hmark := mark_render hp hv r
  rw [h, List.head?_cons, Option.map_some] at hmark
  exact hc (Option.some.inj hmark)

theorem mark_eq {v w : Value} (hv : ∀ n ∈ v.numbers, holds n) (hw : ∀ n ∈ w.numbers, holds n) {r s : List Char}
    (h : v.render id ++ r = w.render id ++ s) : v.mark = w.mark := by
  have hboth := mark_render hp hv r
  rw [h, mark_render hp hw s] at hboth
  exact (Option.some.inj hboth).symm

/-- The text of a value tells the value, and where it ends, when no character of a number follows. -/
theorem render_inj {v w : Value} (hv : ∀ n ∈ v.numbers, holds n) (hw : ∀ n ∈ w.numbers, holds n) {r s : List Char}
    (hr : ∀ c ∈ r.head?, ¬ NumberChar c) (hs : ∀ c ∈ s.head?, ¬ NumberChar c)
    (h : v.render id ++ r = w.render id ++ s) : v = w ∧ r = s := by
  have hmark := mark_eq hp hv hw h
  -- The marks agree, so the two values are of one kind in every case.
  induction v using Value.induction generalizing w r s with
  | null =>
    cases w with
    | null => exact ⟨rfl, List.append_cancel_left h⟩
    | bool flag => cases flag <;> simp [Value.mark] at hmark
    | _ => simp [Value.mark] at hmark
  | bool flag =>
    cases w with
    | bool other =>
      have hflag : flag = other := by cases flag <;> cases other <;> simp [Value.mark] at hmark ⊢
      rw [hflag] at h
      exact ⟨by rw [hflag], List.append_cancel_left h⟩
    | _ => cases flag <;> simp [Value.mark] at hmark
  | number n =>
    cases w with
    | number m =>
      have hn := hv n (by simp [Value.numbers])
      have hm := hw m (by simp [Value.numbers])
      obtain ⟨htext, hrest⟩ := append_inj_of_span NumberChar (hp.chars n hn) (hp.chars m hm) hr hs h
      rw [hp.inj n m hn hm (String.toList_inj.1 htext)]
      exact ⟨rfl, hrest⟩
    | bool flag => cases flag <;> simp [Value.mark] at hmark
    | _ => simp [Value.mark] at hmark
  | string text =>
    cases w with
    | string other =>
      obtain ⟨rfl, hrest⟩ := stringText_inj h
      exact ⟨rfl, hrest⟩
    | bool flag => cases flag <;> simp [Value.mark] at hmark
    | _ => simp [Value.mark] at hmark
  | array items ih =>
    cases w with
    | array others =>
      have hitem : ∀ item ∈ items, ∀ n ∈ item.numbers, holds n :=
        fun item hmem n hn => hv n (mem_numbers_items.2 ⟨item, hmem, hn⟩)
      have hother : ∀ item ∈ others, ∀ n ∈ item.numbers, holds n :=
        fun item hmem n hn => hw n (mem_numbers_items.2 ⟨item, hmem, hn⟩)
      rw [render_array, render_array] at h
      obtain ⟨rfl, hrest⟩ := separated_inj (by decide) (fun item hmem other hmem' as bs has hbs heq =>
        ih item hmem (hitem item hmem) (hother other hmem') (ends_of_follows (by decide) has)
          (ends_of_follows (by decide) hbs) heq (mark_eq hp (hitem item hmem) (hother other hmem') heq))
        (fun item hmem => render_ne_cons hp (hitem item hmem) (bracket_ne_mark item))
        (fun item hmem => render_ne_cons hp (hother item hmem) (bracket_ne_mark item)) (List.cons.inj h).2
      exact ⟨rfl, hrest⟩
    | bool flag => cases flag <;> simp [Value.mark] at hmark
    | _ => simp [Value.mark] at hmark
  | object fields ih =>
    cases w with
    | object others =>
      have hfield : ∀ field ∈ fields, ∀ n ∈ field.2.numbers, holds n :=
        fun field hmem n hn => hv n (mem_numbers_fields.2 ⟨field, hmem, hn⟩)
      have hother : ∀ field ∈ others, ∀ n ∈ field.2.numbers, holds n :=
        fun field hmem n hn => hw n (mem_numbers_fields.2 ⟨field, hmem, hn⟩)
      rw [render_object, render_object] at h
      have htold : ∀ field ∈ fields, ∀ other ∈ others, Told Value.fieldText ',' '\x7d' field other := by
        intro field hmem other hmem' as bs has hbs heq
        rw [fieldText_append, fieldText_append] at heq
        obtain ⟨hkey, htail⟩ := stringText_inj heq
        have hvalue := (List.cons.inj htail).2
        obtain ⟨hitem, hrest⟩ := ih field hmem (hfield field hmem) (hother other hmem') (ends_of_follows (by decide) has)
          (ends_of_follows (by decide) hbs) hvalue (mark_eq hp (hfield field hmem) (hother other hmem') hvalue)
        exact ⟨Prod.ext hkey hitem, hrest⟩
      obtain ⟨rfl, hrest⟩ := separated_inj (by decide) htold (fun field _ => fieldText_ne_brace field)
        (fun field _ => fieldText_ne_brace field) (List.cons.inj h).2
      exact ⟨rfl, hrest⟩
    | bool flag => cases flag <;> simp [Value.mark] at hmark
    | _ => simp [Value.mark] at hmark

theorem render_inj_nil {v w : Value} (hv : ∀ n ∈ v.numbers, holds n) (hw : ∀ n ∈ w.numbers, holds n)
    (h : v.render id = w.render id) : v = w := by
  have hends : ∀ c ∈ ([] : List Char).head?, ¬ NumberChar c := by simp
  exact (render_inj hp hv hw hends hends (congrArg (· ++ []) h)).1

end Printed

end Ecat.Json
