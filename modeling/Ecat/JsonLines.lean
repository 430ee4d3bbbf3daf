import Ecat.Delimited
import Ecat.Json
import Ecat.Lines
import Ecat.Numerals

/-! The compact JSON text of a value is one line: what would end a line is escaped. -/

namespace Ecat.Json

/-- Induction on a value through its items and fields. -/
theorem Value.induction {P : Value → Prop} (null : P .null) (bool : ∀ flag, P (.bool flag))
    (number : ∀ n, P (.number n)) (string : ∀ text, P (.string text))
    (array : ∀ items, (∀ item ∈ items, P item) → P (.array items))
    (object : ∀ fields, (∀ field ∈ fields, P field.2) → P (.object fields)) (v : Value) : P v := by
  refine @Value.rec P (fun items => ∀ item ∈ items, P item) (fun fields => ∀ field ∈ fields, P field.2)
    (fun field => P field.2) null bool number string array object ?_ ?_ ?_ ?_ ?_ v
  · simp
  · exact fun item items hitem hitems => List.forall_mem_cons.2 ⟨hitem, hitems⟩
  · simp
  · exact fun field fields hfield hfields => List.forall_mem_cons.2 ⟨hfield, hfields⟩
  · exact fun key item hitem => hitem

/-- The numbers anywhere in a value. -/
def Value.numbers : Value → List Number
  | .number n => [n]
  | .array items => ofItems items
  | .object fields => ofFields fields
  | _ => []
where
  ofItems : List Value → List Number
    | [] => []
    | item :: items => item.numbers ++ ofItems items
  ofFields : List (String × Value) → List Number
    | [] => []
    | (_, item) :: fields => item.numbers ++ ofFields fields

/-- Not a control character. -/
def Printable (c : Char) : Prop := 32 ≤ c.toNat

instance : DecidablePred Printable := fun c => inferInstanceAs (Decidable (32 ≤ c.toNat))

/-- No number in the value prints with a control character. -/
def Value.Prints (v : Value) : Prop := ∀ n ∈ v.numbers, ∀ c ∈ n.toText.toList, Printable c

theorem mem_numbers_items {items : List Value} {n : Number} :
    n ∈ Value.numbers.ofItems items ↔ ∃ item ∈ items, n ∈ item.numbers := by
  induction items with
  | nil => simp [Value.numbers.ofItems]
  | cons item items ih => simp [Value.numbers.ofItems, ih]

theorem mem_numbers_fields {fields : List (String × Value)} {n : Number} :
    n ∈ Value.numbers.ofFields fields ↔ ∃ field ∈ fields, n ∈ field.2.numbers := by
  induction fields with
  | nil => simp [Value.numbers.ofFields]
  | cons field fields ih => simp [Value.numbers.ofFields, ih]

theorem hexDigit_printable (n : Nat) : Printable (hexDigit n) := by
  have hall : ∀ c ∈ "0123456789abcdef".toList, Printable c := forall_mem_of_all rfl
  rw [hexDigit, List.getD_eq_getElem?_getD]
  cases h : "0123456789abcdef".toList[n]? with
  | none => exact (by decide : Printable '0')
  | some c => exact hall c (List.mem_of_getElem? h)

theorem escapeChar_printable {c d : Char} (h : d ∈ escapeChar c) : Printable d := by
  have hletter : ∀ e ∈ ['\\', 'b', 't', 'n', 'f', 'r', 'u', '0'], Printable e := forall_mem_of_all rfl
  unfold escapeChar at h
  split at h
  case h_8 =>
    split_ifs at h with hlow
    · simp only [List.mem_cons, List.not_mem_nil, or_false] at h
      rcases h with rfl | rfl | rfl | rfl | rfl | rfl
      · exact hletter _ (by simp)
      · exact hletter _ (by simp)
      · exact hletter _ (by simp)
      · exact hletter _ (by simp)
      · exact hexDigit_printable _
      · exact hexDigit_printable _
    · rw [List.mem_singleton.1 h]
      exact not_lt.mp hlow
  case h_1 | h_2 =>
    rename_i hc
    simp only [List.mem_cons, List.not_mem_nil, or_false] at h
    rcases h with rfl | rfl
    · exact hletter _ (by simp)
    · exact (by omega : 32 ≤ d.toNat)
  all_goals
    simp only [List.mem_cons, List.not_mem_nil, or_false] at h
    rcases h with rfl | rfl
    · exact hletter _ (by simp)
    · exact hletter _ (by simp)

theorem stringText_printable {text : String} {c : Char} (h : c ∈ stringText text) : Printable c := by
  have hquote : Printable (Char.ofNat 34) := by decide
  simp only [stringText, List.cons_append, List.mem_cons, List.mem_append, List.mem_flatMap, List.not_mem_nil, or_false] at h
  rcases h with rfl | ⟨d, -, hd⟩ | rfl
  · exact hquote
  · exact escapeChar_printable hd
  · exact hquote

theorem mem_renderItems {arrange : List (String × List Char) → List (String × List Char)} {items : List Value}
    {part : List Char} (h : part ∈ Value.render.renderItems arrange items) : ∃ item ∈ items, part = item.render arrange := by
  induction items with
  | nil => cases h
  | cons item items ih =>
    rcases List.mem_cons.1 h with rfl | h
    · exact ⟨item, by simp, rfl⟩
    · obtain ⟨other, hother, heq⟩ := ih h
      exact ⟨other, List.mem_cons_of_mem _ hother, heq⟩

theorem mem_renderFields {arrange : List (String × List Char) → List (String × List Char)}
    {fields : List (String × Value)} {part : String × List Char} (h : part ∈ Value.render.renderFields arrange fields) :
    ∃ field ∈ fields, part.2 = field.2.render arrange := by
  induction fields with
  | nil => cases h
  | cons field fields ih =>
    rcases List.mem_cons.1 h with rfl | h
    · exact ⟨field, by simp, rfl⟩
    · obtain ⟨other, hother, heq⟩ := ih h
      exact ⟨other, List.mem_cons_of_mem _ hother, heq⟩

theorem number_printable {n : Int} {c : Char} (h : c ∈ (toString n).toList) : Printable c := by
  rcases int_text_chars h with rfl | hdigit
  · exact (by decide : Printable '-')
  · simp only [Char.isDigit, Bool.and_eq_true, decide_eq_true_eq] at hdigit
    have hle : 48 ≤ c.toNat := hdigit.1
    exact (by omega : 32 ≤ c.toNat)

theorem prints_string (text : String) : (Value.string text).Prints := by
  simp [Value.Prints, Value.numbers]

theorem prints_int (n : Int) (ge : i64Min ≤ n) (lt : n < 2 ^ 64) : (Value.number (.int n ge lt)).Prints := by
  intro m hm c hc
  rw [Value.numbers, List.mem_singleton] at hm
  rw [hm] at hc
  exact number_printable hc

/-- Where the parts of an object's text have only such characters, the whole text does. -/
theorem object_printable {parts : List (String × List Char)} {c : Char} (h : ∀ part ∈ parts, ∀ c ∈ part.2, Printable c)
    (hc : c ∈ '\x7b' :: commas (parts.map fieldText) ++ ['\x7d']) : Printable c := by
  simp only [List.mem_cons, List.mem_append, List.cons_append, List.not_mem_nil, or_false] at hc
  rcases hc with rfl | hc | rfl
  · exact (by decide : Printable '\x7b')
  · rcases mem_joined hc with rfl | ⟨text, htext, hc⟩
    · exact (by decide : Printable ',')
    · obtain ⟨part, hpart, rfl⟩ := List.mem_map.1 htext
      rcases List.mem_append.1 hc with hc | hc
      · exact stringText_printable hc
      · rcases List.mem_cons.1 hc with rfl | hc
        · exact (by decide : Printable ':')
        · exact h part hpart c hc
  · exact (by decide : Printable '\x7d')

theorem render_printable {v : Value} (h : v.Prints) : ∀ c ∈ v.render id, Printable c := by
  induction v using Value.induction with
  | null => exact forall_mem_of_all rfl
  | bool flag => cases flag <;> exact forall_mem_of_all rfl
  | number n => exact h n (by simp [Value.numbers])
  | string text => exact fun c hc => stringText_printable hc
  | array items ih =>
    intro c hc
    simp only [Value.render, List.mem_cons, List.mem_append, List.cons_append, List.not_mem_nil, or_false] at hc
    rcases hc with rfl | hc | rfl
    · exact (by decide : Printable '[')
    · rcases mem_joined hc with rfl | ⟨part, hpart, hc⟩
      · exact (by decide : Printable ',')
      · obtain ⟨item, hitem, rfl⟩ := mem_renderItems hpart
        refine ih item hitem (fun n hn => h n ?_) c hc
        exact mem_numbers_items.2 ⟨item, hitem, hn⟩
    · exact (by decide : Printable ']')
  | object fields ih =>
    intro c hc
    rw [Value.render] at hc
    refine object_printable (fun part hpart c hc => ?_) hc
    obtain ⟨field, hfield, heq⟩ := mem_renderFields hpart
    rw [heq] at hc
    exact ih field hfield (fun n hn => h n (mem_numbers_fields.2 ⟨field, hfield, hn⟩)) c hc

/-- The text of an object is one line. -/
theorem isLine_object {fields : List (String × Value)} (h : ∀ field ∈ fields, field.2.Prints) :
    IsLine ((Value.object fields).render id) := by
  have hall : ∀ c ∈ (Value.object fields).render id, Printable c := by
    refine render_printable fun n hn => ?_
    obtain ⟨field, hfield, hn⟩ := mem_numbers_fields.1 hn
    exact h field hfield n hn
  constructor
  · intro hmem
    exact absurd (hall _ hmem) (by decide)
  · intro hlast
    exact absurd (hall _ (List.mem_of_getLast? hlast)) (by decide)

end Ecat.Json
