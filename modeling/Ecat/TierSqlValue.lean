import Ecat.Chunks
import Ecat.Numerals
import Ecat.TierQueryModel

/-! Values in the text of an INSERT: how ClickHouse and MySQL read a quoted literal, and that each
rendered value is read as itself. -/

namespace Ecat.Tier

open Json

/-! ### Reading -/

inductive Rules
  | mySql | clickHouse
  deriving DecidableEq, Repr

def hexValue (c : Char) : Nat := if c.isDigit then c.toNat - 48 else c.toLower.toNat - 87

/-- What a backslash and `c` stand for, and how many more characters belong to the escape. -/
def Rules.escape (c : Char) (cs : List Char) : Rules → List Char × Nat
  | mySql =>
    match c with
    | '0' => ([Char.ofNat 0], 0)
    | 'b' => ([Char.ofNat 8], 0)
    | 'n' => (['\n'], 0)
    | 'r' => (['\r'], 0)
    | 't' => (['\t'], 0)
    | 'Z' => ([Char.ofNat 26], 0)
    | '%' => (['\\', '%'], 0)
    | '_' => (['\\', '_'], 0)
    | c => ([c], 0)
  | clickHouse =>
    match c with
    | '0' => ([Char.ofNat 0], 0)
    | 'a' => ([Char.ofNat 7], 0)
    | 'b' => ([Char.ofNat 8], 0)
    | 'f' => ([Char.ofNat 12], 0)
    | 'n' => (['\n'], 0)
    | 'r' => (['\r'], 0)
    | 't' => (['\t'], 0)
    | 'v' => ([Char.ofNat 11], 0)
    | 'x' => ([Char.ofNat ((cs.take 2).foldl (fun n c => n * 16 + hexValue c) 0)], 2)
    | c => ([c], 0)

/-- The value of a literal after its opening quote, and what follows the closing one. Two quotes
side by side stand for one. -/
def readLiteral (rules : Rules) : List Char → Option (List Char × List Char)
  | [] => none
  | c :: cs =>
    if c.toNat = 92 then
      match cs with
      | [] => none
      | d :: cs =>
        let (value, more) := rules.escape d cs
        (readLiteral rules (cs.drop more)).map fun r => (value ++ r.1, r.2)
    else if c.toNat = 39 then
      match cs with
      | [] => some ([], [])
      | d :: cs => if d.toNat = 39 then (readLiteral rules cs).map fun r => (c :: r.1, r.2) else some ([], d :: cs)
    else (readLiteral rules cs).map fun r => (c :: r.1, r.2)
termination_by cs => cs.length

/-- A quoted text, or a keyword or number with its sign. -/
inductive Literal
  | text (value : List Char)
  | word (text : List Char)
  deriving DecidableEq, Repr

def wordChar (c : Char) : Bool := c.isAlphanum || c = '.' || c = '+' || c = '-'

def readValue (rules : Rules) : List Char → Option (Literal × List Char)
  | [] => none
  | c :: cs =>
    if c.toNat = 39 then (readLiteral rules cs).map fun r => (.text r.1, r.2)
    else if wordChar c then some (.word ((c :: cs).takeWhile wordChar), (c :: cs).dropWhile wordChar)
    else none

/-- The values of a tuple after its opening bracket. -/
def readTuple (rules : Rules) : Nat → List Char → Option (List Literal × List Char)
  | 0, _ => none
  | fuel + 1, cs =>
    match readValue rules cs with
    | some (v, ',' :: ' ' :: rest) => (readTuple rules fuel rest).map fun r => (v :: r.1, r.2)
    | some (v, ')' :: rest) => some ([v], rest)
    | _ => none

def readRow (rules : Rules) : List Char → Option (List Literal × List Char)
  | '(' :: cs => (readTuple rules cs.length cs).or (if cs.head? = some ')' then some ([], cs.tail) else none)
  | _ => none

def readRows (rules : Rules) : Nat → List Char → Option (List (List Literal))
  | 0, _ => none
  | fuel + 1, cs =>
    match readRow rules cs with
    | some (row, []) => some [row]
    | some (row, ',' :: ' ' :: rest) => (readRows rules fuel rest).map fun rows => row :: rows
    | _ => none

/-! ### Rendering -/

def renderSqlValue : Value → String
  | .null => "NULL"
  | .bool flag => if flag then "true" else "false"
  | .number n => n.toText
  | .string text => sqlString text
  | .array items => sqlString (Value.array items).toText
  | .object fields => sqlString (Value.object fields).toText

def cells (row : Row) : List Value := (row.columns.zip row.values).map (·.2)

def valueText (v : Value) : List Char := (renderSqlValue v).toList

def renderRow (row : Row) : List Char := '(' :: ([',', ' '].intercalate ((cells row).map valueText) ++ [')'])

/-- What an INSERT of the rows has after `VALUES`. -/
def renderRows (rows : List Row) : List Char := [',', ' '].intercalate (rows.map renderRow)

/-- The literal that a value is rendered as; an array or object is its JSON text. -/
def literal : Value → Literal
  | .null => .word "NULL".toList
  | .bool flag => .word (if flag then "true" else "false").toList
  | .number n => .word n.toText.toList
  | .string text => .text text.toList
  | .array items => .text ((Value.array items).render id)
  | .object fields => .text ((Value.object fields).render id)

/-- A double prints as a numeral. -/
def Printed : Value → Prop
  | .number (.float _ text) => text.toList ≠ [] ∧ ∀ c ∈ text.toList, wordChar c = true
  | _ => True

section

variable {rules : Rules} {tail : List Char}

theorem escape_self {c : Char} (cs : List Char) (h : c.toNat = 92 ∨ c.toNat = 39) : rules.escape c cs = ([c], 0) := by
  rcases h with h | h
  · obtain rfl : c = Char.ofNat 92 := by rw [← h, Char.ofNat_toNat]
    cases rules <;> rfl
  · obtain rfl : c = Char.ofNat 39 := by rw [← h, Char.ofNat_toNat]
    cases rules <;> rfl

theorem readLiteral_cons {c : Char} (cs : List Char) (h : ¬ (c.toNat = 92 ∨ c.toNat = 39)) :
    readLiteral rules (c :: cs) = (readLiteral rules cs).map fun r => (c :: r.1, r.2) := by
  rw [not_or] at h
  cases cs <;> simp [readLiteral, h.1, h.2]

theorem readLiteral_escape (text : List Char) (htail : ∀ c ∈ tail.head?, c.toNat ≠ 39) :
    readLiteral rules (text.flatMap escapeSql ++ Char.ofNat 39 :: tail) = some (text, tail) := by
  induction text with
  | nil =>
    cases tail with
    | nil => simp [readLiteral]
    | cons d tail =>
      have hd : d.toNat ≠ 39 := htail d rfl
      simp [readLiteral, hd]
  | cons c text ih =>
    rw [List.flatMap_cons, List.append_assoc, escapeSql]
    by_cases hc : c.toNat = 92 ∨ c.toNat = 39
    · have hback : Char.toNat '\\' = 92 := rfl
      rw [if_pos hc, List.cons_append, List.singleton_append, readLiteral, if_pos hback, escape_self _ hc]
      simp only [List.drop_zero, ih, Option.map_some, List.singleton_append]
    · rw [if_neg hc, List.singleton_append, readLiteral_cons _ hc, ih]
      rfl

/-- The text of a string is read as that string, up to its last quote. -/
theorem readValue_sqlString (text : String) (htail : ∀ c ∈ tail.head?, c.toNat ≠ 39) :
    readValue rules ((sqlString text).toList ++ tail) = some (.text text.toList, tail) := by
  have hquote : (Char.ofNat 39).toNat = 39 := rfl
  rw [sqlString, String.toList_ofList, List.cons_append, List.cons_append, readValue, if_pos hquote, List.append_assoc,
    List.singleton_append, readLiteral_escape _ htail]
  rfl

theorem readValue_word {word : List Char} (hne : word ≠ []) (hword : ∀ c ∈ word, wordChar c = true)
    (htail : ∀ c ∈ tail.head?, wordChar c = false) : readValue rules (word ++ tail) = some (.word word, tail) := by
  obtain ⟨c, cs, rfl⟩ := List.exists_cons_of_ne_nil hne
  have hc : wordChar c = true := hword c (by simp)
  have hquote : c.toNat ≠ 39 := by
    intro h
    obtain rfl : c = Char.ofNat 39 := by rw [← h, Char.ofNat_toNat]
    exact absurd hc (by decide)
  have htake : tail.takeWhile wordChar = [] ∧ tail.dropWhile wordChar = tail := by
    cases tail with
    | nil => exact ⟨rfl, rfl⟩
    | cons d tail =>
      have hd : wordChar d = false := htail d rfl
      simp [hd]
  rw [List.cons_append, readValue, if_neg hquote, if_pos hc, ← List.cons_append, List.takeWhile_append_of_pos hword,
    List.dropWhile_append_of_pos hword, htake.1, htake.2, List.append_nil]

theorem number_word {n : Number} (h : Printed (.number n)) : n.toText.toList ≠ [] ∧ ∀ c ∈ n.toText.toList, wordChar c = true := by
  cases n with
  | float value text => exact h
  | int n ge lt =>
    refine ⟨?_, ?_⟩
    · exact int_text_ne_nil n
    · intro c hc
      rcases int_text_chars hc with rfl | hdigit
      · decide
      · simp [wordChar, Char.isAlphanum, hdigit]

/-- Every value is rendered as one literal, whatever follows it. -/
theorem readValue_renderSqlValue {v : Value} (hprinted : Printed v)
    (htail : ∀ c ∈ tail.head?, c.toNat ≠ 39 ∧ wordChar c = false) :
    readValue rules ((renderSqlValue v).toList ++ tail) = some (literal v, tail) := by
  have hquote : ∀ c ∈ tail.head?, c.toNat ≠ 39 := fun c hc => (htail c hc).1
  have hword : ∀ c ∈ tail.head?, wordChar c = false := fun c hc => (htail c hc).2
  cases v with
  | null =>
    have hnull : "NULL".toList = ['N', 'U', 'L', 'L'] := rfl
    rw [renderSqlValue, literal, hnull]
    exact readValue_word (by simp) (by simp [wordChar]) hword
  | bool flag =>
    have htrue : "true".toList = ['t', 'r', 'u', 'e'] := rfl
    have hfalse : "false".toList = ['f', 'a', 'l', 's', 'e'] := rfl
    cases flag with
    | true =>
      simp only [renderSqlValue, literal, if_true, htrue]
      exact readValue_word (by simp) (by simp [wordChar]) hword
    | false =>
      simp only [renderSqlValue, literal, Bool.false_eq_true, if_false, hfalse]
      exact readValue_word (by simp) (by simp [wordChar]) hword
  | number n => exact readValue_word (number_word hprinted).1 (number_word hprinted).2 hword
  | string text => exact readValue_sqlString text hquote
  | array items =>
    rw [renderSqlValue, readValue_sqlString _ hquote, Value.toText, String.toList_ofList]
    rfl
  | object fields =>
    rw [renderSqlValue, readValue_sqlString _ hquote, Value.toText, String.toList_ofList]
    rfl

theorem readTuple_values {values : List Value} (hne : values ≠ []) (hprinted : ∀ v ∈ values, Printed v) {fuel : Nat}
    (hfuel : values.length ≤ fuel) :
    readTuple rules fuel ([',', ' '].intercalate (values.map valueText) ++ ')' :: tail) =
      some (values.map literal, tail) := by
  induction values generalizing fuel with
  | nil => exact absurd rfl hne
  | cons v values ih =>
    obtain ⟨hv, hrest⟩ := List.forall_mem_cons.1 hprinted
    obtain ⟨fuel, rfl⟩ : ∃ k, fuel = k + 1 := ⟨fuel - 1, by simp at hfuel; omega⟩
    cases values with
    | nil =>
      have hread := @readValue_renderSqlValue rules (')' :: tail) v hv (by simp [wordChar])
      rw [List.map_singleton, List.intercalate_singleton, readTuple, valueText, hread]
      rfl
    | cons w values =>
      have hread := @readValue_renderSqlValue rules
        (',' :: ' ' :: ([',', ' '].intercalate ((w :: values).map valueText) ++ ')' :: tail)) v hv (by simp [wordChar])
      rw [List.map_cons, List.map_cons, List.intercalate_cons_cons, ← List.map_cons, List.append_assoc,
        List.append_assoc, List.cons_append, List.singleton_append, readTuple, valueText, hread]
      simp only [@ih (by simp) hrest fuel (by simpa using hfuel)]
      rfl

theorem valueText_pos {v : Value} (hprinted : Printed v) : 0 < (valueText v).length := by
  have hread := @readValue_renderSqlValue .mySql [] v hprinted (by simp)
  rw [List.append_nil] at hread
  refine List.length_pos_of_ne_nil fun hnil => ?_
  rw [valueText] at hnil
  rw [hnil] at hread
  cases hread

theorem readRow_renderRow {row : Row} (hprinted : ∀ v ∈ cells row, Printed v) :
    readRow rules (renderRow row ++ tail) = some ((cells row).map literal, tail) := by
  rw [renderRow, List.cons_append, List.append_assoc, List.singleton_append, readRow]
  by_cases hnil : cells row = []
  · rw [hnil]
    rfl
  have hlength := @length_le_intercalate _ _ (cells row) [',', ' '] valueText fun v hv => valueText_pos (hprinted v hv)
  rw [readTuple_values hnil hprinted]
  · rfl
  · rw [List.length_append]
    omega

/-- The text after `VALUES` is read as the values of the rows. -/
theorem readRows_renderRows {rows : List Row} (hne : rows ≠ []) (hprinted : ∀ row ∈ rows, ∀ v ∈ cells row, Printed v)
    {fuel : Nat} (hfuel : rows.length ≤ fuel) :
    readRows rules fuel (renderRows rows) = some (rows.map fun row => (cells row).map literal) := by
  induction rows generalizing fuel with
  | nil => exact absurd rfl hne
  | cons row rows ih =>
    obtain ⟨hrow, hrest⟩ := List.forall_mem_cons.1 hprinted
    obtain ⟨fuel, rfl⟩ : ∃ k, fuel = k + 1 := ⟨fuel - 1, by simp at hfuel; omega⟩
    cases rows with
    | nil =>
      have hread := @readRow_renderRow rules [] row hrow
      rw [List.append_nil] at hread
      rw [renderRows, List.map_singleton, List.intercalate_singleton, readRows, hread]
      rfl
    | cons next rows =>
      have hread := @readRow_renderRow rules (',' :: ' ' :: renderRows (next :: rows)) row hrow
      have htext : renderRows (row :: next :: rows) = renderRow row ++ ',' :: ' ' :: renderRows (next :: rows) := by
        rw [renderRows, List.map_cons, List.map_cons, List.intercalate_cons_cons, ← List.map_cons, List.append_assoc]
        rfl
      rw [htext, readRows, hread]
      simp only [@ih (by simp) hrest fuel (by simpa using hfuel), Option.map_some, List.map_cons]

end

/-- A text is read back whole, every value as one literal whatever separator follows, and the rows
of an INSERT as their values: nothing in a row ends its literal early. -/
theorem literals_exact (rules : Rules) :
    (∀ text : String, readValue rules (sqlString text).toList = some (.text text.toList, [])) ∧
    (∀ (v : Value) (tail : List Char), Printed v → (∀ c ∈ tail.head?, c.toNat ≠ 39 ∧ wordChar c = false) →
      readValue rules ((renderSqlValue v).toList ++ tail) = some (literal v, tail)) ∧
    ∀ rows : List Row, rows ≠ [] → (∀ row ∈ rows, ∀ v ∈ cells row, Printed v) →
      readRows rules rows.length (renderRows rows) = some (rows.map fun row => (cells row).map literal) := by
  refine ⟨?_, ?_, ?_⟩
  · intro text
    have hread := @readValue_sqlString rules [] text (by simp)
    rwa [List.append_nil] at hread
  · intro v tail hprinted htail
    exact readValue_renderSqlValue hprinted htail
  · intro rows hne hprinted
    exact readRows_renderRows hne hprinted (le_refl _)

def quotedRow : Row := ⟨["id", "name"], [.ofU64 1, .string "a', (\\"]⟩

theorem literals_exact_quoted : readRows .clickHouse 1 (renderRows [quotedRow]) =
    some [[.word ['1'], .text ['a', Char.ofNat 39, ',', ' ', '(', '\\']]] := by
  have hread := (literals_exact .clickHouse).2.2 [quotedRow] (by simp) (by
    intro row hrow v hv
    rw [List.mem_singleton.1 hrow] at hv
    simp only [cells, quotedRow, List.zip_cons_cons, List.zip_nil_right, List.map_cons, List.map_nil, List.mem_cons,
      List.not_mem_nil, or_false] at hv
    rcases hv with rfl | rfl <;> trivial)
  exact hread.trans rfl

end Ecat.Tier
