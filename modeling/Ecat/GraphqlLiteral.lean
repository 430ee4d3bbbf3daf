import Ecat.GraphqlPieces

/-! Value literals as the query's text spells them, and what of them comes into the parsed value: lists and
input objects are cut at their commas, and of a part only the value at its front is read. -/

namespace Ecat.Graphql

open Json

/-! ### Literals and their texts -/

mutual

/-- A value with everything of its text: `gap` is what stands between two items. -/
inductive Literal
  | scalar (token : Bytes)
  | string (token : Bytes)
  | reference (name : Bytes)
  | list (gap : Bytes) (items : Items)
  | object (gap : Bytes) (fields : Fields)

inductive Items
  | nil
  | cons (item : Literal) (gap : Bytes) (rest : Items)

/-- `before` and `after` stand around the colon. -/
inductive Fields
  | nil
  | cons (name before after : Bytes) (value : Literal) (gap : Bytes) (rest : Fields)

end

mutual

def Literal.print : Literal → Bytes
  | .scalar token => token
  | .string token => token
  | .reference name => dollar :: name
  | .list gap items => lbracket :: (gap ++ items.print ++ [rbracket])
  | .object gap fields => lbrace :: (gap ++ fields.print ++ [rbrace])

def Items.print : Items → Bytes
  | .nil => []
  | .cons item gap rest => item.print ++ (gap ++ rest.print)

def Fields.print : Fields → Bytes
  | .nil => []
  | .cons name before after value gap rest =>
    name ++ (before ++ colon :: (after ++ (value.print ++ (gap ++ rest.print))))

end

/-- The bytes of numbers and names. -/
def isScalarByte (c : UInt8) : Bool := isIdentByte c || c = 0x2d || c = 0x2b || c = dot

def Items.isNil : Items → Bool
  | .nil => true
  | .cons .. => false

def Fields.isNil : Fields → Bool
  | .nil => true
  | .cons .. => false

mutual

/-- Items are apart by commas, white space and newlines, in any number and order. -/
def Literal.WellFormed : Literal → Prop
  | .scalar token => token ≠ [] ∧ token.all isScalarByte
  | .string token => IsString token
  | .reference name => name ≠ [] ∧ name.all isIdentByte
  | .list gap items => IsGap gap ∧ items.WellFormed
  | .object gap fields => IsGap gap ∧ fields.WellFormed

def Items.WellFormed : Items → Prop
  | .nil => True
  | .cons item gap rest => item.WellFormed ∧ IsGap gap ∧ (rest.isNil ∨ gap ≠ []) ∧ rest.WellFormed

def Fields.WellFormed : Fields → Prop
  | .nil => True
  | .cons name before after value gap rest =>
    (name ≠ [] ∧ name.all isIdentByte) ∧ (IsBlank before ∧ IsBlank after) ∧ value.WellFormed ∧
      IsGap gap ∧ (rest.isNil ∨ gap ≠ []) ∧ rest.WellFormed

end

mutual

/-- Between any two items of a list and any two fields of an object, at every level, there is a comma. -/
def Literal.Separated : Literal → Prop
  | .scalar _ => True
  | .string _ => True
  | .reference _ => True
  | .list _ items => items.Separated
  | .object _ fields => fields.Separated

def Items.Separated : Items → Prop
  | .nil => True
  | .cons item gap rest => item.Separated ∧ (rest.isNil ∨ comma ∈ gap) ∧ rest.Separated

def Fields.Separated : Fields → Prop
  | .nil => True
  | .cons _ _ _ value gap rest => value.Separated ∧ (rest.isNil ∨ comma ∈ gap) ∧ rest.Separated

end

def Items.length : Items → Nat
  | .nil => 0
  | .cons _ _ rest => rest.length + 1

def Fields.length : Fields → Nat
  | .nil => 0
  | .cons _ _ _ _ _ rest => rest.length + 1

/-! ### What a value holds of a literal -/

section

variable (fromSlice : Bytes → Except String Value) (vars : Value)

mutual

/-- The value has the items of the literal in their order and its fields under their names, and no others. -/
def Literal.Holds : Literal → Value → Prop
  | .scalar token, v => parseLiteral fromSlice token = .ok v
  | .string token, v => parseStringLiteral fromSlice token = .ok v
  | .reference name, v => lookupVariable vars (fromUtf8Lossy name) = .ok v
  | .list _ items, v => ∃ vs, v = .array vs ∧ items.Holds vs
  | .object _ fields, v => ∃ m, v = .object m ∧ m.length = fields.length ∧ fields.Holds m

def Items.Holds : Items → List Value → Prop
  | .nil, vs => vs = []
  | .cons item _ rest, vs => ∃ v vs', vs = v :: vs' ∧ item.Holds v ∧ rest.Holds vs'

def Fields.Holds : Fields → List (String × Value) → Prop
  | .nil, _ => True
  | .cons name _ _ value _ rest, m => (∃ v, (fromUtf8Lossy name, v) ∈ m ∧ value.Holds v) ∧ rest.Holds m

end

end

/-! ### The texts are closed -/

theorem nested_bytes {commas : Bool} {b text : Bytes}
    (h : ∀ c ∈ b, ¬ isBracket c ∧ ¬ isQuote c ∧ (c = comma → commas)) (htext : Nested commas text) :
    Nested commas (b ++ text) := by
  induction b with
  | nil => exact htext
  | cons c cs ih =>
    obtain ⟨hbracket, hquote, hcomma⟩ := h c List.mem_cons_self
    exact .plain hbracket hquote hcomma (ih fun d hd => h d (List.mem_cons_of_mem c hd))

theorem scalarByte_spec : ∀ c : UInt8, isScalarByte c → ¬ isBracket c ∧ ¬ isQuote c ∧ isLiteralByte c ∧ c ≠ comma ∧
    c ≠ dollar ∧ c ≠ hash := by
  decide +kernel

theorem nested_scalar {token : Bytes} (h : token.all isScalarByte) : Nested false token := by
  rw [← List.append_nil token]
  refine nested_bytes (fun c hc => ?_) .nil
  obtain ⟨hbracket, hquote, _, hcomma, _⟩ := scalarByte_spec c (List.all_eq_true.mp h c hc)
  exact ⟨hbracket, hquote, fun heq => absurd heq hcomma⟩

theorem nested_ident {commas : Bool} {name text : Bytes} (h : name.all isIdentByte) (htext : Nested commas text) :
    Nested commas (name ++ text) := by
  refine nested_bytes (fun c hc => ?_) htext
  obtain ⟨hbracket, hquote, _, hcomma, _⟩ := identByte_spec c (List.all_eq_true.mp h c hc)
  exact ⟨hbracket, hquote, fun heq => absurd heq hcomma⟩

theorem nested_blank {commas : Bool} {b text : Bytes} (h : IsBlank b) (htext : Nested commas text) :
    Nested commas (b ++ text) := by
  refine nested_bytes (fun c hc => ?_) htext
  obtain ⟨hbracket, hquote, _, hcomma, _⟩ := whitespace_spec c (List.all_eq_true.mp h c hc)
  exact ⟨hbracket, hquote, fun heq => absurd heq hcomma⟩

theorem nested_gap {b text : Bytes} (h : IsGap b) (htext : Nested true text) : Nested true (b ++ text) := by
  refine nested_bytes (fun c hc => ?_) htext
  obtain ⟨hbracket, hquote, _⟩ := gapByte_spec c (List.all_eq_true.mp h c hc)
  exact ⟨hbracket, hquote, fun _ => rfl⟩

/-! ### The entries of lists and objects -/

def Items.toList : Items → List (Literal × Bytes)
  | .nil => []
  | .cons item gap rest => (item, gap) :: rest.toList

structure Field where
  name : Bytes
  before : Bytes
  after : Bytes
  value : Literal

def Fields.toList : Fields → List (Field × Bytes)
  | .nil => []
  | .cons name before after value gap rest => (⟨name, before, after, value⟩, gap) :: rest.toList

def Field.print (f : Field) : Bytes := f.name ++ (f.before ++ colon :: (f.after ++ f.value.print))

theorem Items.print_eq : ∀ items : Items, items.print = printAll Literal.print items.toList
  | .nil => rfl
  | .cons item gap rest => by rw [print, toList, printAll, rest.print_eq]

theorem Fields.print_eq : ∀ fields : Fields, fields.print = printAll Field.print fields.toList
  | .nil => rfl
  | .cons name before after value gap rest => by
    rw [print, toList, printAll, rest.print_eq, Field.print]
    simp

theorem Items.isNil_iff (items : Items) : items.isNil ↔ items.toList = [] := by
  cases items <;> simp [isNil, toList]

theorem Fields.isNil_iff (fields : Fields) : fields.isNil ↔ fields.toList = [] := by
  cases fields <;> simp [isNil, toList]

/-- A field before what comes after it. -/
theorem nested_field {commas : Bool} {name before after text : Bytes} (hname : name.all isIdentByte)
    (hbefore : IsBlank before) (hafter : IsBlank after) (htext : Nested commas text) :
    Nested commas (name ++ (before ++ colon :: (after ++ text))) :=
  nested_ident hname (nested_blank hbefore
    (.plain (by decide) (by decide) (fun h => absurd h (by decide)) (nested_blank hafter htext)))

theorem Items.delimited {gap : Bytes} {rest : Items} (hgap : IsGap gap) (hnext : rest.isNil ∨ gap ≠ []) :
    Delimited (gap ++ rest.print) := by
  rw [rest.print_eq]
  rw [rest.isNil_iff] at hnext
  exact Entries.delimited _ hgap hnext

theorem Fields.delimited {gap : Bytes} {rest : Fields} (hgap : IsGap gap) (hnext : rest.isNil ∨ gap ≠ []) :
    Delimited (gap ++ rest.print) := by
  rw [rest.print_eq]
  rw [rest.isNil_iff] at hnext
  exact Entries.delimited _ hgap hnext

mutual

theorem Literal.nested : ∀ l : Literal, l.WellFormed → Nested false l.print
  | .scalar token, h => nested_scalar h.2
  | .string token, h => by
    rw [Literal.print, ← List.append_nil token]
    exact .string h (by simp [NoQuote]) .nil
  | .reference name, h => by
    rw [Literal.print, ← List.append_nil name]
    exact .plain (by decide) (by decide) (fun heq => absurd heq (by decide)) (nested_ident h.2 .nil)
  | .list gap items, h => .square (nested_gap h.1 (items.nested h.2)) .nil
  | .object gap fields, h => .curly (nested_gap h.1 (fields.nested h.2)) .nil

theorem Items.nested : ∀ items : Items, items.WellFormed → Nested true items.print
  | .nil, _ => .nil
  | .cons item gap rest, h => by
    obtain ⟨hitem, hgap, hnext, hrest⟩ := h
    exact (item.nested hitem).weaken.append (nested_gap hgap (rest.nested hrest))
      (Items.delimited hgap hnext).noQuote

theorem Fields.nested : ∀ fields : Fields, fields.WellFormed → Nested true fields.print
  | .nil, _ => .nil
  | .cons name before after value gap rest, h => by
    obtain ⟨hname, ⟨hbefore, hafter⟩, hvalue, hgap, hnext, hrest⟩ := h
    exact nested_field hname.2 hbefore hafter ((value.nested hvalue).weaken.append
      (nested_gap hgap (rest.nested hrest)) (Fields.delimited hgap hnext).noQuote)

end

/-- A value does not begin with white space or a comment. -/
theorem Literal.start {l : Literal} (h : l.WellFormed) :
    ∃ c cs, l.print = c :: cs ∧ ¬ isWhitespace c ∧ c ≠ hash := by
  have hstart : ∀ c : UInt8, isLiteralByte c → c ≠ hash → ¬ isWhitespace c ∧ c ≠ hash := by
    intro c hliteral hhash
    exact ⟨(literalByte_spec c hliteral).1, hhash⟩
  cases l with
  | scalar token =>
    obtain ⟨c, cs, rfl⟩ := List.exists_cons_of_ne_nil h.1
    obtain ⟨_, _, hliteral, _, _, hhash⟩ := scalarByte_spec c (List.all_eq_true.mp h.2 c List.mem_cons_self)
    exact ⟨c, cs, rfl, hstart c hliteral hhash⟩
  | string token =>
    have hquoted := h.quoted
    cases token with
    | nil => cases hquoted
    | cons c cs =>
      have hquote : isQuote c := by simpa using hquoted
      refine ⟨c, cs, rfl, hstart c (quote_spec c hquote) ?_⟩
      rintro rfl
      cases hquote
  | reference name => exact ⟨dollar, name, rfl, by decide, by decide⟩
  | list gap items => exact ⟨lbracket, _, rfl, by decide, by decide⟩
  | object gap fields => exact ⟨lbrace, _, rfl, by decide, by decide⟩

theorem Literal.entryText {l : Literal} (h : l.WellFormed) : EntryText l.print where
  nested := l.nested h
  solid := by
    obtain ⟨c, cs, hprint, hws, _⟩ := Literal.start h
    rw [hprint]
    intro hblank
    exact hws (List.all_eq_true.mp hblank c List.mem_cons_self)

theorem Items.entries : ∀ {items : Items}, items.WellFormed → Entries Literal.print items.toList
  | .nil, _ => trivial
  | .cons item gap rest, h => by
    obtain ⟨hitem, hgap, hnext, hrest⟩ := h
    rw [rest.isNil_iff] at hnext
    exact ⟨Literal.entryText hitem, hgap, hnext, Items.entries hrest⟩

theorem Field.entryText {f : Field} (hname : f.name ≠ [] ∧ f.name.all isIdentByte) (hbefore : IsBlank f.before)
    (hafter : IsBlank f.after) (hvalue : f.value.WellFormed) : EntryText f.print where
  nested := nested_field hname.2 hbefore hafter (f.value.nested hvalue)
  solid := by
    intro hblank
    obtain ⟨c, cs, hcons⟩ := List.exists_cons_of_ne_nil hname.1
    have hc : isIdentByte c := List.all_eq_true.mp hname.2 c (hcons ▸ List.mem_cons_self)
    have hws : isWhitespace c := by
      refine List.all_eq_true.mp hblank c ?_
      rw [Field.print, hcons]
      exact List.mem_cons_self
    exact (literalByte_spec c (identByte_spec c hc).2.2.1).1 hws

theorem Fields.entries : ∀ {fields : Fields}, fields.WellFormed → Entries Field.print fields.toList
  | .nil, _ => trivial
  | .cons name before after value gap rest, h => by
    obtain ⟨hname, ⟨hbefore, hafter⟩, hvalue, hgap, hnext, hrest⟩ := h
    rw [rest.isNil_iff] at hnext
    exact ⟨Field.entryText (f := ⟨name, before, after, value⟩) hname hbefore hafter hvalue, hgap, hnext,
      Fields.entries hrest⟩

/-! ### Reading a literal -/

theorem takeWhile_all {p : UInt8 → Bool} {b tail : Bytes} (h : b.all p) (htail : ∀ c ∈ tail.head?, ¬ p c) :
    (b ++ tail).takeWhile p = b := by
  rw [List.takeWhile_append_of_pos fun c hc => List.all_eq_true.mp h c hc]
  cases tail with
  | nil => rw [List.takeWhile_nil, List.append_nil]
  | cons c cs => rw [List.takeWhile_cons_of_neg (htail c rfl), List.append_nil]

theorem dropWhile_all {p : UInt8 → Bool} {b tail : Bytes} (h : b.all p) (htail : ∀ c ∈ tail.head?, ¬ p c) :
    (b ++ tail).dropWhile p = tail := by
  rw [List.dropWhile_append_of_pos fun c hc => List.all_eq_true.mp h c hc]
  cases tail with
  | nil => rfl
  | cons c cs => rw [List.dropWhile_cons_of_neg (htail c rfl)]

section

variable {fromSlice : Bytes → Except String Value} {vars : Value} {value : Bytes → Scan (Value × Bytes)}

/-- What is read at a literal is the literal up to its end, and all of it just when it has its commas. -/
def Reads (fromSlice : Bytes → Except String Value) (vars : Value) (value : Bytes → Scan (Value × Bytes)) : Prop :=
  ∀ (l : Literal) (blank tail rest : Bytes) (v : Value), l.WellFormed → IsBlank blank → Delimited tail →
    value (blank ++ (l.print ++ tail)) = .ok (v, rest) → rest = tail ∧ (l.Holds fromSlice vars v ↔ l.Separated)

theorem forall₂_join {α β γ : Type} {R : α → β → Prop} {S : α → γ → Prop} {T : β → γ → Prop} {as : List α}
    {bs : List β} {cs : List γ} (h : List.Forall₂ R as bs) (h' : List.Forall₂ S as cs)
    (hjoin : ∀ a b c, b ∈ bs → R a b → S a c → T b c) : List.Forall₂ T bs cs := by
  induction h generalizing cs with
  | nil =>
    cases h'
    exact .nil
  | cons hab _ ih =>
    cases h' with
    | cons hac h' =>
      refine .cons (hjoin _ _ _ List.mem_cons_self hab hac) (ih h' ?_)
      intro a b c hb
      exact hjoin a b c (List.mem_cons_of_mem _ hb)

theorem kept_subset {α : Type} (fresh : Bool) (entries : List (α × Bytes)) :
    kept fresh entries ⊆ entries.map Prod.fst := by
  induction entries generalizing fresh with
  | nil => simp
  | cons entry entries ih =>
    have hsub : kept (comma ∈ entry.2) entries ⊆ (entry :: entries).map Prod.fst := by
      intro a ha
      exact List.mem_cons_of_mem _ (ih (comma ∈ entry.2) ha)
    cases fresh with
    | true => exact List.cons_subset.mpr ⟨List.mem_cons_self, hsub⟩
    | false => exact hsub

theorem Items.mem_wellFormed : ∀ {items : Items}, items.WellFormed → ∀ l ∈ items.toList.map Prod.fst, l.WellFormed
  | .nil, _, l, hl => by cases hl
  | .cons item gap rest, h, l, hl => by
    rcases List.mem_cons.mp hl with rfl | hl
    · exact h.1
    · exact Items.mem_wellFormed h.2.2.2 l hl

theorem Items.separated_apart : ∀ {items : Items}, items.Separated → Apart items.toList
  | .nil, _ => trivial
  | .cons item gap rest, h => by
    obtain ⟨_, hcomma, hrest⟩ := h
    rw [rest.isNil_iff] at hcomma
    exact ⟨hcomma, Items.separated_apart hrest⟩

theorem Items.holds_length : ∀ {items : Items} {vs : List Value}, items.Holds fromSlice vars vs →
    vs.length = items.toList.length
  | .nil, _, h => by
    cases h
    rfl
  | .cons item gap rest, _, ⟨v, vs, heq, _, hrest⟩ => by
    rw [heq, List.length_cons, Items.holds_length hrest]
    rfl

/-- With a comma between any two items the list has them all, each as it is read by itself. -/
theorem Items.holds_iff : ∀ {items : Items} {vs : List Value}, Apart items.toList →
    List.Forall₂ (fun l v => l.Holds fromSlice vars v ↔ l.Separated) (items.toList.map Prod.fst) vs →
    (items.Holds fromSlice vars vs ↔ items.Separated)
  | .nil, _, _, h => by
    cases h
    simp [Items.Holds, Items.Separated]
  | .cons item gap rest, vs, hapart, h => by
    obtain ⟨hcomma, hrest⟩ := hapart
    cases h with
    | cons hitem htail =>
      have ih := Items.holds_iff hrest htail
      rw [← rest.isNil_iff] at hcomma
      rw [Items.Holds, Items.Separated]
      constructor
      · rintro ⟨v, vs, heq, hv, hvs⟩
        cases heq
        exact ⟨hitem.mp hv, hcomma, ih.mp hvs⟩
      · rintro ⟨hseparated, _, hrest⟩
        exact ⟨_, _, rfl, hitem.mpr hseparated, ih.mpr hrest⟩

theorem parseItems_holds (hreads : Reads fromSlice vars value) {items : Items} (hitems : items.WellFormed)
    {gap : Bytes} (hgap : IsGap gap) {vs : List Value}
    (h : parseItems value (splitTopLevel (gap ++ items.print)) = .ok vs) :
    items.Holds fromSlice vars vs ↔ items.Separated := by
  have hsolid := parseItems_solid h
  obtain ⟨blank, hblank, heq⟩ := solid_gap hgap isBlank_nil items.print
  rw [splitTopLevel, heq, items.print_eq] at hsolid
  have hread := forall₂_join ((pieces (Items.entries hitems)).1 blank hblank) hsolid
    (T := fun l v => l.Holds fromSlice vars v ↔ l.Separated) ?_
  · by_cases hapart : Apart items.toList
    · rw [kept_apart hapart] at hread
      exact Items.holds_iff hapart hread
    · have hlt := kept_notApart hapart
      rw [hread.length_eq] at hlt
      refine iff_of_false (fun hholds => ?_) (fun hseparated => hapart (Items.separated_apart hseparated))
      have hlength := Items.holds_length hholds
      omega
  · rintro part l v hl ⟨blank', more, rfl, hblank', hmore⟩ ⟨rest, hv⟩
    have hwf := Items.mem_wellFormed hitems l (kept_subset _ _ hl)
    exact (hreads l blank' more rest v hwf hblank' hmore hv).2

theorem Fields.mem_wellFormed : ∀ {fields : Fields}, fields.WellFormed → ∀ f ∈ fields.toList.map Prod.fst,
    (f.name ≠ [] ∧ f.name.all isIdentByte) ∧ (IsBlank f.before ∧ IsBlank f.after) ∧ f.value.WellFormed
  | .nil, _, f, hf => by cases hf
  | .cons name before after value gap rest, h, f, hf => by
    obtain ⟨hname, hblanks, hvalue, _, _, hrest⟩ := h
    rcases List.mem_cons.mp hf with rfl | hf
    · exact ⟨hname, hblanks, hvalue⟩
    · exact Fields.mem_wellFormed hrest f hf

theorem Fields.separated_apart : ∀ {fields : Fields}, fields.Separated → Apart fields.toList
  | .nil, _ => trivial
  | .cons name before after value gap rest, h => by
    obtain ⟨_, hcomma, hrest⟩ := h
    rw [rest.isNil_iff] at hcomma
    exact ⟨hcomma, Fields.separated_apart hrest⟩

theorem Fields.length_toList : ∀ fields : Fields, fields.toList.length = fields.length
  | .nil => rfl
  | .cons name before after value gap rest => by rw [toList, List.length_cons, rest.length_toList, length]

/-- What an entry of the map says about the field it was read from. -/
def IsEntry (fromSlice : Bytes → Except String Value) (vars : Value) (f : Field) (entry : String × Value) : Prop :=
  entry.1 = fromUtf8Lossy f.name ∧ (f.value.Holds fromSlice vars entry.2 ↔ f.value.Separated)

theorem eq_of_nodup_keys {m : List (String × Value)} (hnodup : (m.map Prod.fst).Nodup) {name : String} {v v' : Value}
    (h : (name, v) ∈ m) (h' : (name, v') ∈ m) : v = v' := by
  have heq := List.inj_on_of_nodup_map hnodup h h' rfl
  exact (Prod.mk.inj heq).2

/-- A field is in the map with its value just when the value has its own commas. -/
theorem IsEntry.mem_iff {m : List (String × Value)} (hnodup : (m.map Prod.fst).Nodup) {f : Field}
    {entry : String × Value} (hmem : entry ∈ m) (h : IsEntry fromSlice vars f entry) :
    (∃ v, (fromUtf8Lossy f.name, v) ∈ m ∧ f.value.Holds fromSlice vars v) ↔ f.value.Separated := by
  obtain ⟨name, v⟩ := entry
  obtain ⟨rfl, hiff⟩ := h
  constructor
  · rintro ⟨v', hv', hholds⟩
    obtain rfl := eq_of_nodup_keys hnodup hmem hv'
    exact hiff.mp hholds
  · intro hseparated
    exact ⟨v, hmem, hiff.mpr hseparated⟩

theorem Fields.holds_iff {m : List (String × Value)} (hnodup : (m.map Prod.fst).Nodup) :
    ∀ {fields : Fields} {entries : List (String × Value)}, Apart fields.toList → entries ⊆ m →
      List.Forall₂ (IsEntry fromSlice vars) (fields.toList.map Prod.fst) entries →
      (fields.Holds fromSlice vars m ↔ fields.Separated)
  | .nil, _, _, _, _ => by simp [Fields.Holds, Fields.Separated]
  | .cons name before after value gap rest, entries, hapart, hsub, h => by
    obtain ⟨hcomma, hrest⟩ := hapart
    cases h with
    | cons hentry htail =>
      obtain ⟨hmem, hsub⟩ := List.cons_subset.mp hsub
      have ih := Fields.holds_iff hnodup hrest hsub htail
      have hfield := hentry.mem_iff hnodup hmem
      rw [← rest.isNil_iff] at hcomma
      rw [Fields.Holds, Fields.Separated, ih]
      constructor
      · rintro ⟨hv, hvs⟩
        exact ⟨hfield.mp hv, hcomma, hvs⟩
      · rintro ⟨hv, _, hvs⟩
        exact ⟨hfield.mpr hv, hvs⟩

/-- A name in front, and the byte after it and the white space. -/
structure NameThen (c : UInt8) (b name tail : Bytes) : Prop where
  start : skipWs b = b
  named : skipIdent b ≠ b
  name_eq : b.takeWhile isIdentByte = name
  next_eq : skipWs (skipIdent b) = c :: tail

theorem nameThen {c : UInt8} (hident : ¬ isIdentByte c) (hws : ¬ isWhitespace c) (hhash : c ≠ hash)
    {name before : Bytes} (hname : name ≠ [] ∧ name.all isIdentByte) (hbefore : IsBlank before) (tail : Bytes) :
    NameThen c (name ++ (before ++ c :: tail)) name tail := by
  have hnext : ∀ d ∈ (before ++ c :: tail).head?, ¬ isIdentByte d := by
    cases before with
    | nil =>
      intro d hd
      cases hd
      exact hident
    | cons e es =>
      intro d hd
      exact hbefore.delimited.notIdent d hd
  have hdrop : skipIdent (name ++ (before ++ c :: tail)) = before ++ c :: tail := dropWhile_all hname.2 hnext
  refine ⟨?_, ?_, takeWhile_all hname.2 hnext, ?_⟩
  · obtain ⟨d, ds, rfl⟩ := List.exists_cons_of_ne_nil hname.1
    obtain ⟨_, _, hliteral, _, _, hd, _⟩ := identByte_spec d (List.all_eq_true.mp hname.2 d List.mem_cons_self)
    exact skipWs_cons (literalByte_spec d hliteral).1 hd _
  · rw [hdrop]
    intro heq
    exact hname.1 (List.append_left_eq_self.mp heq.symm)
  · rw [hdrop, skipWs_blank hbefore]
    exact skipWs_cons hws hhash _

/-- The value of a field is read after its colon. -/
theorem parseEntry_isEntry (hreads : Reads fromSlice vars value) {f : Field}
    (hname : f.name ≠ [] ∧ f.name.all isIdentByte) (hblanks : IsBlank f.before ∧ IsBlank f.after)
    (hvalue : f.value.WellFormed) {blank more : Bytes} (hblank : IsBlank blank) (hmore : Delimited more)
    {entry : String × Value} (h : parseEntry value (blank ++ (f.print ++ more)) = .ok entry) :
    IsEntry fromSlice vars f entry := by
  obtain ⟨_, hkey, cs, rest, hcolon, hv⟩ := parseEntry_step h
  have hhead := nameThen (c := colon) (by decide) (by decide) (by decide) hname hblanks.1 (f.after ++ (f.value.print ++ more))
  have hprint : f.print ++ more = f.name ++ (f.before ++ colon :: (f.after ++ (f.value.print ++ more))) := by
    simp [Field.print]
  rw [skipWs_blank hblank, hprint, hhead.start] at hkey hcolon
  rw [hhead.next_eq] at hcolon
  cases hcolon
  rw [hhead.name_eq] at hkey
  exact ⟨hkey, (hreads f.value f.after more rest entry.2 hvalue hblanks.2 hmore hv).2⟩

theorem parseEntries_holds (hreads : Reads fromSlice vars value) {fields : Fields} (hfields : fields.WellFormed)
    {gap : Bytes} (hgap : IsGap gap) {m : List (String × Value)}
    (h : parseEntries value [] (splitTopLevel (gap ++ fields.print)) = .ok m) :
    m.length = fields.length ∧ fields.Holds fromSlice vars m ↔ fields.Separated := by
  obtain ⟨entries, hm, hnodup, hsolid⟩ := parseEntries_solid nodup_keys_nil h
  rw [List.nil_append] at hm
  subst hm
  obtain ⟨blank, hblank, heq⟩ := solid_gap hgap isBlank_nil fields.print
  rw [splitTopLevel, heq, fields.print_eq] at hsolid
  have hread := forall₂_join ((pieces (Fields.entries hfields)).1 blank hblank) hsolid
    (T := IsEntry fromSlice vars) ?_
  · by_cases hapart : Apart fields.toList
    · rw [kept_apart hapart] at hread
      have hlength : m.length = fields.length := by
        rw [← hread.length_eq, List.length_map, fields.length_toList]
      rw [Fields.holds_iff hnodup hapart (List.Subset.refl m) hread]
      exact and_iff_right hlength
    · have hlt := kept_notApart hapart
      rw [hread.length_eq, fields.length_toList] at hlt
      refine iff_of_false (fun hholds => ?_) (fun hseparated => hapart (Fields.separated_apart hseparated))
      have hlength := hholds.1
      omega
  · rintro part f entry hf ⟨blank', more, rfl, hblank', hmore⟩ hentry
    obtain ⟨hname, hblanks, hvalue⟩ := Fields.mem_wellFormed hfields f (kept_subset _ _ hf)
    exact parseEntry_isEntry hreads hname hblanks hvalue hblank' hmore hentry

/-- The text of a group between its brackets. -/
theorem inside_group (opening closing : UInt8) (inner : Bytes) : inside (opening :: (inner ++ [closing])) = .ok inner := by
  rw [inside, if_neg (by simp)]
  simp

theorem reads_scalar {token : Bytes} (hwf : (Literal.scalar token).WellFormed) {tail rest : Bytes} {v : Value}
    (htail : Delimited tail) (h : ValueStep fromSlice vars value (token ++ tail) v rest) :
    rest = tail ∧ parseLiteral fromSlice token = .ok v := by
  have hall : token.all isLiteralByte := by
    refine List.all_eq_true.mpr fun c hc => ?_
    exact (scalarByte_spec c (List.all_eq_true.mp hwf.2 c hc)).2.2.1
  obtain ⟨c, cs, rfl⟩ := List.exists_cons_of_ne_nil hwf.1
  obtain ⟨hbracket, hquote, _, _, hdollar, _⟩ := scalarByte_spec c (List.all_eq_true.mp hwf.2 c List.mem_cons_self)
  have hne : ∀ d, isBracket d → c ≠ d := by
    rintro d hd rfl
    exact hbracket hd
  rw [List.cons_append] at h
  have hstep := h.literal_inv hquote (hne _ rfl) (hne _ rfl) hdollar
  rw [← List.cons_append, takeWhile_all hall htail, dropWhile_all hall htail] at hstep
  exact ⟨hstep.2, hstep.1⟩

theorem reads_string {token : Bytes} (hwf : IsString token) {tail rest : Bytes} {v : Value} (htail : Delimited tail)
    (h : ValueStep fromSlice vars value (token ++ tail) v rest) :
    rest = tail ∧ parseStringLiteral fromSlice token = .ok v := by
  have hskip := hwf.skip htail.noQuote
  have hquoted := hwf.quoted
  cases token with
  | nil => cases hquoted
  | cons c cs =>
    rw [List.cons_append] at h
    obtain ⟨hstring, hv⟩ := h.string_inv (by simpa using hquoted)
    rw [← List.cons_append, hskip] at hstring
    cases hstring
    rw [← List.cons_append, upTo_append] at hv
    exact ⟨rfl, hv⟩

theorem reads_reference {name : Bytes} (hname : name.all isIdentByte) {tail rest : Bytes} {v : Value}
    (htail : Delimited tail) (h : ValueStep fromSlice vars value (dollar :: (name ++ tail)) v rest) :
    rest = tail ∧ lookupVariable vars (fromUtf8Lossy name) = .ok v := by
  have hstep := h.reference_inv
  rw [takeWhile_all hname htail.notIdent, skipIdent, dropWhile_all hname htail.notIdent] at hstep
  exact ⟨hstep.2, hstep.1⟩

theorem reads_list (hreads : Reads fromSlice vars value) {gap : Bytes} {items : Items} (hgap : IsGap gap)
    (hitems : items.WellFormed) {tail rest : Bytes} {v : Value}
    (h : ValueStep fromSlice vars value ((Literal.list gap items).print ++ tail) v rest) :
    rest = tail ∧ ((Literal.list gap items).Holds fromSlice vars v ↔ items.Separated) := by
  have htext : (Literal.list gap items).print ++ tail = lbracket :: (gap ++ items.print ++ rbracket :: tail) := by
    simp [Literal.print]
  have hgroup := (nested_gap hgap (items.nested hitems)).group .square tail
  have htoken := upTo_append (lbracket :: (gap ++ items.print ++ [rbracket])) tail
  rw [List.cons_append, List.append_assoc, List.singleton_append] at htoken
  rw [htext] at h
  obtain ⟨hrest, hv⟩ := h.list_inv
  rw [hgroup] at hrest
  cases hrest
  rw [htoken, parseList, inside_group] at hv
  obtain ⟨vs, hvs, rfl⟩ := map_ok hv
  have hiff := parseItems_holds hreads hitems hgap hvs
  refine ⟨rfl, ?_⟩
  rw [← hiff, Literal.Holds]
  constructor
  · rintro ⟨vs', heq, hholds⟩
    cases heq
    exact hholds
  · intro hholds
    exact ⟨vs, rfl, hholds⟩

theorem reads_object (hreads : Reads fromSlice vars value) {gap : Bytes} {fields : Fields} (hgap : IsGap gap)
    (hfields : fields.WellFormed) {tail rest : Bytes} {v : Value}
    (h : ValueStep fromSlice vars value ((Literal.object gap fields).print ++ tail) v rest) :
    rest = tail ∧ ((Literal.object gap fields).Holds fromSlice vars v ↔ fields.Separated) := by
  have htext : (Literal.object gap fields).print ++ tail = lbrace :: (gap ++ fields.print ++ rbrace :: tail) := by
    simp [Literal.print]
  have hgroup := (nested_gap hgap (fields.nested hfields)).group .curly tail
  have htoken := upTo_append (lbrace :: (gap ++ fields.print ++ [rbrace])) tail
  rw [List.cons_append, List.append_assoc, List.singleton_append] at htoken
  rw [htext] at h
  obtain ⟨hrest, hv⟩ := h.object_inv
  rw [hgroup] at hrest
  cases hrest
  rw [htoken, parseInputObject, inside_group] at hv
  obtain ⟨m, hm, rfl⟩ := map_ok hv
  have hiff := parseEntries_holds hreads hfields hgap hm
  refine ⟨rfl, ?_⟩
  rw [← hiff, Literal.Holds]
  constructor
  · rintro ⟨m', heq, hholds⟩
    cases heq
    exact hholds
  · intro hholds
    exact ⟨m, rfl, hholds⟩

/-- A literal is read up to its end, and the value holds all of it just when there is a comma between any two
neighbours in it. -/
theorem parseValue_reads (stack depth : Nat) : Reads fromSlice vars (parseValue fromSlice vars stack depth) := by
  induction stack generalizing depth with
  | zero =>
    intro l blank tail rest v _ _ _ h
    cases h
  | succ stack ih =>
    intro l blank tail rest v hwf hblank htail h
    obtain ⟨_, step⟩ := parseValue_step h
    obtain ⟨c, cs, hprint, hws, hhash⟩ := Literal.start hwf
    have hstart : skipWs (blank ++ (l.print ++ tail)) = l.print ++ tail := by
      rw [skipWs_blank hblank, hprint]
      exact skipWs_cons hws hhash _
    rw [hstart] at step
    cases l with
    | scalar token =>
      obtain ⟨hrest, hv⟩ := reads_scalar hwf htail step
      exact ⟨hrest, iff_of_true hv trivial⟩
    | string token =>
      obtain ⟨hrest, hv⟩ := reads_string hwf htail step
      exact ⟨hrest, iff_of_true hv trivial⟩
    | reference name =>
      obtain ⟨hrest, hv⟩ := reads_reference hwf.2 htail step
      exact ⟨hrest, iff_of_true hv trivial⟩
    | list gap items => exact reads_list (ih (depth + 1)) hwf.1 hwf.2 step
    | object gap fields => exact reads_object (ih (depth + 1)) hwf.1 hwf.2 step

end

end Ecat.Graphql
