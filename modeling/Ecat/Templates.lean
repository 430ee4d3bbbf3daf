import Mathlib

/-! Texts in which values stand, written with placeholders in their stead. A reader that tells
placeholders from quoted text puts every value back where it stood. -/

namespace Ecat

abbrev Template (V : Type) := List (String ⊕ V)

variable {V : Type}

/-- What ends a quotation that a character begins, and how a placeholder looks: a sigil, and its
number if it has one. -/
structure Marking where
  closing : Char → Option Char
  first : Char
  rest : List Char
  numbered : Bool
  outside : closing first = none
  no_digit : first.isDigit = false

namespace Marking

variable (m : Marking)

def sigil : List Char := m.first :: m.rest

def number (k : Nat) : Option Nat := if m.numbered then some k else none

def placeholder (k : Nat) : String :=
  String.ofList (m.sigil ++ if m.numbered then Nat.toDigits 10 k else [])

/-! ### Reading -/

inductive Mode
  | code
  | quoted (close : Char)
  | pending (seen : List Char)
  deriving DecidableEq, Repr

/-- A character of the text, or a placeholder with its number. -/
abbrev Token := Char ⊕ Option Nat

/-- What was seen since a sigil began is a placeholder or plain text. -/
def flush (seen : List Char) : List Token :=
  if m.numbered = false ∧ seen = m.sigil then [.inr none]
  else if m.numbered = true ∧ m.sigil.length < seen.length then
    [.inr (some (Nat.ofDigitChars 10 (seen.drop m.sigil.length) 0))]
  else seen.map .inl

def goesOn (seen : List Char) (c : Char) : Bool :=
  (seen ++ [c]).isPrefixOf m.sigil || (m.numbered && m.sigil.isPrefixOf seen && c.isDigit)

def enter (c : Char) : List Token × Mode :=
  match m.closing c with
  | some close => ([.inl c], .quoted close)
  | none => if c = m.first then ([], .pending [c]) else ([.inl c], .code)

def advance : Mode → Char → List Token × Mode
  | .code, c => m.enter c
  | .quoted close, c => ([.inl c], if c = close then .code else .quoted close)
  | .pending seen, c =>
    if m.goesOn seen c then ([], .pending (seen ++ [c])) else (m.flush seen ++ (m.enter c).1, (m.enter c).2)

def run : Mode → List Char → List Token × Mode
  | mode, [] => ([], mode)
  | mode, c :: cs =>
    let (ts, mode) := m.advance mode c
    (ts ++ (run mode cs).1, (run mode cs).2)

def finish : Mode → List Token
  | .pending seen => m.flush seen
  | .code | .quoted _ => []

def scan (mode : Mode) (cs : List Char) : List Token := (m.run mode cs).1 ++ m.finish (m.run mode cs).2

/-- The placeholders of a text, by their numbers. -/
def placeholders (text : String) : List (Option Nat) := (m.scan .code text.toList).filterMap Sum.getRight?

/-- Placeholders with a number stand for the value of that number, those without for the next one. -/
def substitute (params : List V) : Nat → List Token → Option (List (Char ⊕ V))
  | _, [] => some []
  | k, .inl c :: ts => (substitute params k ts).map (.inl c :: ·)
  | k, .inr none :: ts => params[k]?.bind fun v => (substitute params (k + 1) ts).map (.inr v :: ·)
  | _, .inr (some 0) :: _ => none
  | k, .inr (some (n + 1)) :: ts => params[n]?.bind fun v => (substitute params (k + 1) ts).map (.inr v :: ·)

def bound (text : String) (params : List V) : Option (List (Char ⊕ V)) :=
  substitute params 0 (m.scan .code text.toList)

/-- A text that holds no placeholder and leaves no quotation open. -/
def Inert (text : String) : Prop := m.run .code text.toList = (text.toList.map .inl, .code)

instance (text : String) : Decidable (m.Inert text) := inferInstanceAs (Decidable (_ = _))

end Marking

namespace Template

def operands (t : Template V) : List V := t.filterMap Sum.getRight?

/-- The text with a placeholder for every value, counted from the `k`-th on. -/
def write (placeholder : Nat → String) : Nat → Template V → String
  | _, [] => ""
  | k, .inl text :: t => text ++ write placeholder k t
  | k, .inr _ :: t => placeholder (k + 1) ++ write placeholder (k + 1) t

def writeEach (placeholder : Nat → String) : Nat → List (Template V) → List String
  | _, [] => []
  | k, t :: ts => t.write placeholder k :: writeEach placeholder (k + t.operands.length) ts

def symbols (t : Template V) : List (Char ⊕ V) :=
  t.flatMap fun
    | .inl text => text.toList.map .inl
    | .inr v => [.inr v]

/-- Texts that hold no placeholder, and no digit directly behind a value. -/
def Legible (m : Marking) : Bool → Template V → Prop
  | _, [] => True
  | behind, .inl text :: t => m.Inert text ∧ (behind = true → ∀ c ∈ text.toList.head?, c.isDigit = false) ∧
      Legible m (behind && text.toList.isEmpty) t
  | _, .inr _ :: t => Legible m true t

end Template

/-! ### Writing -/

namespace Template

variable (placeholder : Nat → String) (k : Nat) (t u : Template V)

@[simp] theorem operands_nil : operands ([] : Template V) = [] := rfl

@[simp] theorem operands_text (text : String) : operands (.inl text :: t) = t.operands := rfl

@[simp] theorem operands_value (v : V) : operands (.inr v :: t) = v :: t.operands := rfl

@[simp] theorem operands_append : (t ++ u).operands = t.operands ++ u.operands := List.filterMap_append

@[simp] theorem write_text (text : String) : write placeholder k (.inl text :: t) = text ++ t.write placeholder k := rfl

theorem write_append :
    (t ++ u).write placeholder k = t.write placeholder k ++ u.write placeholder (k + t.operands.length) := by
  induction t generalizing k with
  | nil => simp [write]
  | cons piece t ih =>
    cases piece with
    | inl text => simp [write, ih, String.append_assoc]
    | inr v =>
      rw [List.cons_append, write, write, ih, operands_value, List.length_cons, Nat.add_right_comm, Nat.add_assoc,
        String.append_assoc]

theorem write_intercalate (sep : String) (ts : List (Template V)) :
    write placeholder k ([.inl sep].intercalate ts) = sep.intercalate (writeEach placeholder k ts) := by
  induction ts generalizing k with
  | nil => rfl
  | cons t ts ih =>
    cases ts with
    | nil => simp [writeEach]
    | cons u ts =>
      rw [List.intercalate_cons_cons, write_append, write_append, ih]
      simp [writeEach, write, String.append_assoc]

theorem operands_intercalate (sep : String) (ts : List (Template V)) :
    operands ([.inl sep].intercalate ts) = ts.flatMap operands := by
  induction ts with
  | nil => rfl
  | cons t ts ih =>
    cases ts with
    | nil => simp
    | cons u ts =>
      rw [List.intercalate_cons_cons, operands_append, operands_append, ih, operands_text, operands_nil, List.append_nil,
        ← List.flatMap_cons]

end Template

/-! ### Reading what was written -/

namespace Marking

variable {m : Marking}

theorem run_cons {mode mode' : Mode} {c : Char} {ts : List Token} (h : m.advance mode c = (ts, mode')) (cs : List Char) :
    m.run mode (c :: cs) = (ts ++ (m.run mode' cs).1, (m.run mode' cs).2) := by
  rw [run, h]

theorem run_append (mode : Mode) (xs ys : List Char) : m.run mode (xs ++ ys) =
    ((m.run mode xs).1 ++ (m.run (m.run mode xs).2 ys).1, (m.run (m.run mode xs).2 ys).2) := by
  induction xs generalizing mode with
  | nil => rfl
  | cons x xs ih => simp [run, ih]

theorem scan_append (mode : Mode) (xs ys : List Char) :
    m.scan mode (xs ++ ys) = (m.run mode xs).1 ++ m.scan (m.run mode xs).2 ys := by
  rw [scan, run_append, scan, List.append_assoc]

theorem Inert.append {a b : String} (ha : m.Inert a) (hb : m.Inert b) : m.Inert (a ++ b) := by
  rw [Inert, String.toList_append, run_append, ha, hb, List.map_append]

theorem inert_empty : m.Inert "" := rfl

theorem Inert.scan {text : String} (h : m.Inert text) (cs : List Char) :
    m.scan .code (text.toList ++ cs) = text.toList.map .inl ++ m.scan .code cs := by
  rw [scan_append, h]

theorem Inert.intercalate {sep : String} {texts : List String} (hsep : m.Inert sep)
    (h : ∀ text ∈ texts, m.Inert text) : m.Inert (sep.intercalate texts) := by
  induction texts with
  | nil => exact inert_empty
  | cons text texts ih =>
    obtain ⟨htext, htexts⟩ := List.forall_mem_cons.1 h
    by_cases hnil : texts = []
    · rw [hnil, String.intercalate_singleton]
      exact htext
    · rw [String.intercalate_cons_of_ne_nil hnil]
      exact (htext.append hsep).append (ih htexts)

/-- Text that neither quotes nor marks. -/
theorem inert_of_forall {text : String} (h : ∀ c ∈ text.toList, m.closing c = none ∧ c ≠ m.first) :
    m.Inert text := by
  rw [Inert]
  generalize text.toList = cs at h
  induction cs with
  | nil => rfl
  | cons c cs ih =>
    obtain ⟨⟨hclosing, hfirst⟩, hrest⟩ := List.forall_mem_cons.1 h
    have henter : m.advance .code c = ([.inl c], .code) := by simp [advance, enter, hclosing, hfirst]
    rw [run_cons henter, ih hrest]
    rfl

theorem run_quoted {close : Char} {cs : List Char} (h : close ∉ cs) :
    m.run (.quoted close) cs = (cs.map .inl, .quoted close) := by
  induction cs with
  | nil => rfl
  | cons c cs ih =>
    rw [List.mem_cons, not_or] at h
    have hadvance : m.advance (.quoted close) c = ([.inl c], .quoted close) := by
      simp [advance, Ne.symm h.1]
    rw [run_cons hadvance, ih h.2]
    rfl

/-- A quotation that does not hold the character that ends it. -/
theorem inert_quotation {opening close : Char} {name : String} (hopening : m.closing opening = some close)
    (h : close ∉ name.toList) : m.Inert (opening.toString ++ name ++ close.toString) := by
  have henter : m.run .code [opening] = ([.inl opening], .quoted close) := by
    simp [run, advance, enter, hopening]
  have hleave : m.run (.quoted close) [close] = ([.inl close], .code) := by
    simp [run, advance]
  rw [Inert, String.toList_append, String.toList_append, run_append, run_append]
  simp [Char.toString, henter, hleave, run_quoted h]

theorem run_sigil {seen cs : List Char} (h : seen ++ cs = m.sigil) :
    m.run (.pending seen) cs = ([], .pending (seen ++ cs)) := by
  induction cs generalizing seen with
  | nil => simp [run]
  | cons c cs ih =>
    have hgoes : m.goesOn seen c = true := by
      simp [goesOn, ← h]
    rw [run_cons (by rw [advance, if_pos hgoes]), ih (by simpa using h)]
    simp

theorem run_digits {seen cs : List Char} (hnumbered : m.numbered = true) (hsigil : m.sigil <+: seen)
    (h : ∀ c ∈ cs, c.isDigit = true) : m.run (.pending seen) cs = ([], .pending (seen ++ cs)) := by
  induction cs generalizing seen with
  | nil => simp [run]
  | cons c cs ih =>
    obtain ⟨hc, hcs⟩ := List.forall_mem_cons.1 h
    have hgoes : m.goesOn seen c = true := by
      simp [goesOn, hnumbered, hsigil, hc]
    rw [run_cons (by rw [advance, if_pos hgoes]), ih (hsigil.trans (List.prefix_append _ _)) hcs]
    simp

theorem toList_placeholder (k : Nat) :
    (m.placeholder k).toList = m.sigil ++ if m.numbered then Nat.toDigits 10 k else [] :=
  String.toList_ofList

theorem run_placeholder (k : Nat) :
    m.run .code (m.placeholder k).toList = ([], .pending (m.placeholder k).toList) := by
  have hsigil : m.run .code m.sigil = ([], .pending m.sigil) := by
    have henter : m.advance .code m.first = ([], .pending [m.first]) := by
      simp [advance, enter, m.outside]
    rw [sigil, run_cons henter, @run_sigil m [m.first] m.rest rfl]
    rfl
  rw [toList_placeholder, run_append, hsigil]
  by_cases hnumbered : m.numbered = true
  · rw [if_pos hnumbered, run_digits hnumbered (List.prefix_refl _)]
    · rfl
    · intro c hc
      exact Nat.isDigit_of_mem_toDigits (by omega) (by omega) hc
  · rw [if_neg hnumbered]
    simp [run]

theorem flush_placeholder (k : Nat) : m.flush (m.placeholder k).toList = [.inr (m.number k)] := by
  rw [toList_placeholder, flush, number]
  by_cases hnumbered : m.numbered = true
  · have hpos : 0 < (Nat.toDigits 10 k).length := Nat.length_toDigits_pos
    simp [hnumbered, hpos]
  · simp [hnumbered]

theorem not_goesOn_placeholder (k : Nat) {c : Char} (h : c.isDigit = false) :
    m.goesOn (m.placeholder k).toList c = false := by
  have hlong : ((m.placeholder k).toList ++ [c]).isPrefixOf m.sigil = false := by
    rw [Bool.eq_false_iff]
    intro hprefix
    have hlength := (List.isPrefixOf_iff_prefix.1 hprefix).length_le
    rw [toList_placeholder] at hlength
    simp only [List.length_append, List.length_singleton] at hlength
    omega
  simp [goesOn, hlong, h]

/-- A placeholder ends before a character that is no digit, and at the end of the text. -/
theorem scan_placeholder (k : Nat) {cs : List Char} (h : ∀ c ∈ cs.head?, c.isDigit = false) :
    m.scan .code ((m.placeholder k).toList ++ cs) = .inr (m.number k) :: m.scan .code cs := by
  rw [scan_append, run_placeholder, List.nil_append, ← List.singleton_append, ← flush_placeholder]
  cases cs with
  | nil => simp [scan, run, finish]
  | cons c cs =>
    have hstops := m.not_goesOn_placeholder k (h c rfl)
    simp [scan, run, advance, hstops]

end Marking

namespace Template

open Marking

variable {m : Marking} {t u : Template V}

/-- What a reader should make of the text. -/
def tokens (m : Marking) : Nat → Template V → List Token
  | _, [] => []
  | k, .inl text :: t => text.toList.map .inl ++ tokens m k t
  | k, .inr _ :: t => .inr (m.number (k + 1)) :: tokens m (k + 1) t

theorem Legible.weaken (h : t.Legible m true) : t.Legible m false := by
  induction t with
  | nil => trivial
  | cons piece t ih =>
    cases piece with
    | inl text =>
      obtain ⟨hinert, _, hrest⟩ := h
      refine ⟨hinert, by simp, ?_⟩
      by_cases hempty : text.toList.isEmpty = true
      · rw [hempty] at hrest
        exact ih hrest
      · rw [Bool.not_eq_true] at hempty
        rw [hempty] at hrest
        exact hrest
    | inr v => exact h

theorem Legible.append {behind : Bool} (ht : t.Legible m behind) (hu : u.Legible m true) :
    (t ++ u).Legible m behind := by
  induction t generalizing behind with
  | nil =>
    cases behind with
    | false => exact hu.weaken
    | true => exact hu
  | cons piece t ih =>
    cases piece with
    | inl text => exact ⟨ht.1, ht.2.1, ih ht.2.2⟩
    | inr v => exact ih ht

/-- A text that does not begin with a digit may stand behind a value, and anything behind it. -/
theorem legible_separator {behind : Bool} {sep : String} {c : Char} (hhead : sep.toList.head? = some c)
    (hc : c.isDigit = false) (hinert : m.Inert sep) (hu : u.Legible m false) : Legible m behind (.inl sep :: u) := by
  obtain ⟨cs, hsep⟩ := List.head?_eq_some_iff.1 hhead
  refine ⟨hinert, ?_, ?_⟩
  · simp [hsep, hc]
  · simpa [hsep] using hu

theorem head?_append {a : String} {c : Char} (h : a.toList.head? = some c) (b : String) :
    (a ++ b).toList.head? = some c := by
  obtain ⟨cs, ha⟩ := List.head?_eq_some_iff.1 h
  rw [String.toList_append, ha]
  rfl

theorem Legible.intercalate {sep : String} {c : Char} {ts : List (Template V)} (hhead : sep.toList.head? = some c)
    (hc : c.isDigit = false) (hinert : m.Inert sep) (h : ∀ t ∈ ts, Legible m false t) :
    Legible m false ([.inl sep].intercalate ts) := by
  induction ts with
  | nil => trivial
  | cons t ts ih =>
    obtain ⟨ht, hts⟩ := List.forall_mem_cons.1 h
    cases ts with
    | nil => simpa using ht
    | cons u ts =>
      rw [List.intercalate_cons_cons, List.append_assoc]
      exact ht.append (legible_separator hhead hc hinert (ih hts))

theorem head_write (h : t.Legible m true) (k : Nat) :
    ∀ c ∈ (t.write m.placeholder k).toList.head?, c.isDigit = false := by
  induction t generalizing k with
  | nil => simp [write]
  | cons piece t ih =>
    cases piece with
    | inl text =>
      obtain ⟨_, hhead, hrest⟩ := h
      rw [write, String.toList_append]
      cases htext : text.toList with
      | nil => exact ih (by simpa [htext] using hrest) k
      | cons c cs => simpa [htext] using hhead
    | inr v =>
      rw [write, String.toList_append, toList_placeholder, sigil]
      simp [m.no_digit]

theorem scan_write (h : t.Legible m false) (k : Nat) :
    m.scan .code (t.write m.placeholder k).toList = t.tokens m k := by
  induction t generalizing k with
  | nil => rfl
  | cons piece t ih =>
    cases piece with
    | inl text => rw [write, String.toList_append, h.1.scan, ih h.2.2, tokens]
    | inr v => rw [write, String.toList_append, scan_placeholder _ (head_write h _), ih h.weaken, tokens]

theorem substitute_number (params : List V) (k : Nat) (ts : List Token) :
    substitute params k (.inr (m.number (k + 1)) :: ts) =
      params[k]?.bind fun v => (substitute params (k + 1) ts).map (.inr v :: ·) := by
  rw [number]
  split_ifs <;> rfl

theorem substitute_text (params : List V) (k : Nat) (cs : List Char) (ts : List Token) :
    substitute params k (cs.map .inl ++ ts) = (substitute params k ts).map (cs.map .inl ++ ·) := by
  induction cs with
  | nil => simp
  | cons c cs ih => simp [substitute, ih, Function.comp_def]

theorem substitute_tokens (pre : List V) :
    substitute (pre ++ t.operands) pre.length (t.tokens m pre.length) = some t.symbols := by
  induction t generalizing pre with
  | nil => rfl
  | cons piece t ih =>
    cases piece with
    | inl text => simp [tokens, symbols, substitute_text, ih]
    | inr v =>
      have hrest := ih (pre ++ [v])
      rw [List.length_append, List.length_singleton, List.append_assoc, List.singleton_append] at hrest
      simp [tokens, symbols, substitute_number, hrest]

/-- Every value is read where it stood. -/
theorem bound_write (h : t.Legible m false) : m.bound (t.write m.placeholder 0) t.operands = some t.symbols := by
  rw [bound, scan_write h]
  exact substitute_tokens []

theorem marks_tokens (k : Nat) : (t.tokens m k).filterMap Sum.getRight? =
    (List.range' (k + 1) t.operands.length).map m.number := by
  induction t generalizing k with
  | nil => rfl
  | cons piece t ih =>
    cases piece with
    | inl text => simp [tokens, ih, List.filterMap_map, Function.comp_def]
    | inr v => simp [tokens, ih, List.range'_succ]

theorem placeholders_write (h : t.Legible m false) :
    m.placeholders (t.write m.placeholder 0) = (List.range' 1 t.operands.length).map m.number := by
  rw [placeholders, scan_write h, marks_tokens]

end Template

end Ecat
