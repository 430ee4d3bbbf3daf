import Ecat.GraphqlPieces

/-! The grammar of a query, read from the front with white space and comments between the tokens: every
relation goes from the bytes at its start to those that are left. -/

namespace Ecat.Graphql

open Json

/-! ### Values -/

/-- The brackets of lists, and of input objects, whose entries are named. -/
def opening (named : Bool) : UInt8 := if named then lbrace else lbracket

def closing (named : Bool) : UInt8 := if named then rbrace else rbracket

/-- From an entry to its value: in an input object there is a name and a colon before it. -/
def EntryStart (named : Bool) (b start : Bytes) : Prop :=
  if named then skipIdent b ≠ b ∧ ∃ cs, skipWs (skipIdent b) = colon :: cs ∧ start = skipWs cs else start = b

section

variable (fromSlice : Bytes → Except String Value)

/-- A string, a variable or a literal of at least one byte. -/
inductive Token : Bytes → Bytes → Prop
  | string {c : UInt8} {cs rest : Bytes} (hquote : isQuote c) (hblock : cs.take 2 ≠ [c, c])
      (hstring : skipString (c :: cs) = (.ok (), rest)) : Token (c :: cs) rest
  | reference {cs : Bytes} (hname : skipIdent cs ≠ cs) : Token (dollar :: cs) (skipIdent cs)
  | literal {c : UInt8} {cs : Bytes} (hliteral : isLiteralByte c) (hquote : ¬ isQuote c) (hlist : c ≠ lbracket)
      (hobject : c ≠ lbrace) (hdollar : c ≠ dollar)
      (hv : (parseLiteral fromSlice ((c :: cs).takeWhile isLiteralByte)).isOk) :
      Token (c :: cs) ((c :: cs).dropWhile isLiteralByte)

/-- A value, and with `some named` the entries of a list or an input object up to its closing bracket. -/
inductive Text : Option Bool → Bytes → Bytes → Prop
  | token {b rest : Bytes} (h : Token fromSlice b rest) : Text none b rest
  | group {named : Bool} {cs rest : Bytes} (h : Text (some named) (skipWs cs) rest) :
      Text none (opening named :: cs) rest
  | close {named : Bool} {cs : Bytes} : Text (some named) (closing named :: cs) cs
  | comma {named : Bool} {cs rest : Bytes} (h : Text (some named) (skipWs cs) rest) :
      Text (some named) (comma :: cs) rest
  | entry {named : Bool} {b start mid rest : Bytes} (hstart : EntryStart named b start) (hvalue : Text none start mid)
      (hnext : (skipWs mid).head? = some comma ∨ (skipWs mid).head? = some (closing named))
      (hrest : Text (some named) (skipWs mid) rest) : Text (some named) b rest

/-- The arguments up to the closing parenthesis, with a comma or none between them. -/
inductive Arguments : Bytes → Bytes → Prop
  | close {cs : Bytes} : Arguments (rparen :: cs) cs
  | argument {b start mid rest : Bytes} (hstart : EntryStart true b start) (hvalue : Text fromSlice none start mid)
      (hrest : Arguments (skipWs (skipComma (skipWs mid))) rest) : Arguments b rest

/-! ### Fields -/

/-- Directives, each with a name; in their parentheses anything may stand. -/
inductive Directives : Bytes → Bytes → Prop
  | done {b : Bytes} (h : b.head? ≠ some atSign) : Directives b b
  | directive {cs mid rest : Bytes} (hname : skipIdent cs ≠ cs) (hskip : skipDirective (atSign :: cs) = .ok mid)
      (hrest : Directives (skipWs mid) rest) : Directives (atSign :: cs) rest

/-- The arguments of a field, where it has any, and the white space after them. -/
def ArgumentGroup (b rest : Bytes) : Prop :=
  (b.head? ≠ some lparen ∧ rest = b) ∨
    ∃ cs after : Bytes, b = lparen :: cs ∧ Arguments fromSlice (skipWs cs) after ∧ rest = skipWs after

/-- A field, and with `true` the fields up to the closing brace. -/
inductive FieldText : Bool → Bytes → Bytes → Prop
  | leaf {b mid rest : Bytes} (hname : skipIdent b ≠ b) (hargs : ArgumentGroup fromSlice (skipWs (skipIdent b)) mid)
      (hdirectives : Directives mid rest) (hopen : rest.head? ≠ some lbrace) : FieldText false b rest
  | branch {b mid cs rest : Bytes} (hname : skipIdent b ≠ b) (hargs : ArgumentGroup fromSlice (skipWs (skipIdent b)) mid)
      (hdirectives : Directives mid (lbrace :: cs)) (hempty : (skipWs cs).head? ≠ some rbrace)
      (hfields : FieldText true (skipWs cs) rest) : FieldText false b rest
  | close {cs : Bytes} : FieldText true (rbrace :: cs) cs
  | more {b mid rest : Bytes} (hfield : FieldText false b mid) (hrest : FieldText true (skipWs mid) rest) :
      FieldText true b rest

end

/-! ### The query -/

/-- Variable definitions in balanced parentheses, and directives. -/
inductive Definitions : Bytes → Bytes → Prop
  | done {b : Bytes} (hparen : b.head? ≠ some lparen) (hat : b.head? ≠ some atSign) : Definitions b b
  | group {cs mid rest : Bytes} (hskip : skipParens 0 (lparen :: cs) = .ok mid) (hrest : Definitions (skipWs mid) rest) :
      Definitions (lparen :: cs) rest
  | directive {cs mid rest : Bytes} (hname : skipIdent cs ≠ cs) (hskip : skipDirective (atSign :: cs) = .ok mid)
      (hrest : Definitions (skipWs mid) rest) : Definitions (atSign :: cs) rest

/-- What follows the keyword and the name of an operation, which may both be left out. -/
def header (query : Bytes) : Bytes := skipName (skipWs (readOperation (skipWs query)).2)

/-- The whole text is one operation with one field, and nothing comes after its closing brace. -/
def IsOperation (fromSlice : Bytes → Except String Value) (query : Bytes) : Prop :=
  ∃ cs mid after : Bytes, Definitions (header query) (lbrace :: cs) ∧ FieldText fromSlice false (skipWs cs) mid ∧
    skipWs mid = rbrace :: after ∧ skipWs after = []

/-! ### More text behind -/

theorem skipFrom_append {comment : Bool} {b : Bytes} (h : skipFrom comment b ≠ []) (tail : Bytes) :
    skipFrom comment (b ++ tail) = skipFrom comment b ++ tail := by
  induction b generalizing comment with
  | nil => exact absurd rfl h
  | cons c cs ih =>
    rw [skipFrom] at h
    rw [List.cons_append, skipFrom, skipFrom]
    split_ifs at h ⊢
    · exact ih h
    · exact ih h
    · exact ih h
    · rfl

theorem skipWs_append {b : Bytes} (h : skipWs b ≠ []) (tail : Bytes) : skipWs (b ++ tail) = skipWs b ++ tail :=
  skipFrom_append h tail

theorem takeWhile_extend {p : UInt8 → Bool} {b tail : Bytes}
    (h : b.dropWhile p ≠ [] ∨ ∀ c ∈ tail.head?, ¬ p c) : (b ++ tail).takeWhile p = b.takeWhile p := by
  induction b with
  | nil =>
    rcases h with h | h
    · exact absurd rfl h
    · cases tail with
      | nil => rfl
      | cons c cs => exact List.takeWhile_cons_of_neg (h c rfl)
  | cons c cs ih =>
    by_cases hc : p c
    · rw [List.dropWhile_cons_of_pos hc] at h
      rw [List.cons_append, List.takeWhile_cons_of_pos hc, List.takeWhile_cons_of_pos hc, ih h]
    · rw [List.takeWhile_cons_of_neg hc, List.cons_append, List.takeWhile_cons_of_neg hc]

theorem dropWhile_extend {p : UInt8 → Bool} {b tail : Bytes}
    (h : b.dropWhile p ≠ [] ∨ ∀ c ∈ tail.head?, ¬ p c) : (b ++ tail).dropWhile p = b.dropWhile p ++ tail := by
  induction b with
  | nil =>
    rcases h with h | h
    · exact absurd rfl h
    · cases tail with
      | nil => rfl
      | cons c cs => exact List.dropWhile_cons_of_neg (h c rfl)
  | cons c cs ih =>
    by_cases hc : p c
    · rw [List.dropWhile_cons_of_pos hc] at h ⊢
      rw [List.cons_append, List.dropWhile_cons_of_pos hc]
      exact ih h
    · rw [List.dropWhile_cons_of_neg hc, List.cons_append, List.dropWhile_cons_of_neg hc]

/-- The text behind does not reach into a value that ends before it. -/
def Ends (rest tail : Bytes) : Prop := rest ≠ [] ∨ Delimited tail

theorem Ends.literal {rest tail : Bytes} (h : Ends rest tail) : rest ≠ [] ∨ ∀ c ∈ tail.head?, ¬ isLiteralByte c := h

theorem Ends.ident {rest tail : Bytes} (h : Ends rest tail) : rest ≠ [] ∨ ∀ c ∈ tail.head?, ¬ isIdentByte c :=
  h.imp_right Delimited.notIdent

theorem skipSimple_two {q : UInt8} {cs rest : Bytes} (h : skipSimple q cs = (.ok (), rest)) (hrest : rest ≠ []) :
    2 ≤ cs.length := by
  match cs, h with
  | [], h => cases h
  | [c], h =>
    rw [skipSimple] at h
    split_ifs at h <;> cases h
    exact absurd rfl hrest
  | _ :: _ :: _, _ => simp

section

variable {fromSlice : Bytes → Except String Value}

theorem Token.append {b rest : Bytes} (h : Token fromSlice b rest) {tail : Bytes} (hends : Ends rest tail) :
    Token fromSlice (b ++ tail) (rest ++ tail) := by
  cases h with
  | @string c cs _ hquote hblock hstring =>
    rw [skipString, if_neg hblock] at hstring
    have hblock' : (cs ++ tail).take 2 ≠ [c, c] := by
      rcases hends with hrest | htail
      · rwa [take_two_append (skipSimple_two hstring hrest)]
      · cases cs with
        | nil => cases hstring
        | cons d ds =>
          cases ds with
          | cons e ds => rwa [take_two_append (by simp)]
          | nil =>
            intro htake
            cases tail with
            | nil => cases htake
            | cons e tail =>
              simp only [List.cons_append, List.nil_append, List.take_succ_cons, List.take_zero, List.cons.injEq] at htake
              obtain ⟨_, rfl, _⟩ := htake
              exact htail e rfl (quote_spec e hquote)
    rw [List.cons_append]
    refine .string hquote hblock' ?_
    rw [skipString, if_neg hblock']
    exact skipSimple_append hstring tail
  | @reference cs hname =>
    have hdrop : skipIdent (cs ++ tail) = skipIdent cs ++ tail := dropWhile_extend hends.ident
    rw [← hdrop, List.cons_append]
    refine .reference ?_
    rw [hdrop]
    exact fun heq => hname (List.append_cancel_right heq)
  | literal hliteral hquote hlist hobject hdollar hv =>
    rw [← takeWhile_extend hends.literal] at hv
    rw [← dropWhile_extend hends.literal]
    exact .literal hliteral hquote hlist hobject hdollar hv

theorem EntryStart.append {named : Bool} {b start : Bytes} (h : EntryStart named b start) (hstart : start ≠ [])
    (tail : Bytes) : EntryStart named (b ++ tail) (start ++ tail) := by
  cases named with
  | false => exact congrArg (· ++ tail) h
  | true =>
    obtain ⟨hname, cs, hcolon, rfl⟩ := h
    have hne : skipIdent b ≠ [] := by
      intro hnil
      rw [hnil] at hcolon
      cases hcolon
    have hdrop : skipIdent (b ++ tail) = skipIdent b ++ tail := dropWhile_extend (.inl hne)
    refine ⟨?_, cs ++ tail, ?_, (skipWs_append hstart tail).symm⟩
    · rw [hdrop]
      exact fun heq => hname (List.append_cancel_right heq)
    · rw [hdrop, skipWs_append (by rw [hcolon]; simp), hcolon, List.cons_append]

theorem EntryStart.ne_nil {named : Bool} {b start : Bytes} (h : EntryStart named b start) (hstart : start ≠ []) :
    b ≠ [] := by
  rintro rfl
  cases named with
  | false => exact hstart h
  | true => exact h.1 rfl

theorem Text.ne_nil {kind : Option Bool} {b rest : Bytes} (h : Text fromSlice kind b rest) : b ≠ [] := by
  induction h with
  | token h => cases h <;> simp
  | group => simp
  | close => simp
  | comma => simp
  | entry hstart _ _ _ ihvalue _ => exact hstart.ne_nil ihvalue

theorem head_append {b : Bytes} (h : b ≠ []) (tail : Bytes) : (b ++ tail).head? = b.head? := by
  obtain ⟨c, cs, rfl⟩ := List.exists_cons_of_ne_nil h
  rfl

theorem Text.append {kind : Option Bool} {b rest : Bytes} (h : Text fromSlice kind b rest) {tail : Bytes}
    (hends : Ends rest tail) : Text fromSlice kind (b ++ tail) (rest ++ tail) := by
  induction h with
  | token h => exact .token (h.append hends)
  | group h ih =>
    rw [List.cons_append]
    refine .group ?_
    rw [skipWs_append h.ne_nil]
    exact ih hends
  | close => exact .close
  | comma h ih =>
    rw [List.cons_append]
    refine .comma ?_
    rw [skipWs_append h.ne_nil]
    exact ih hends
  | @entry named b start mid rest hstart hvalue hnext hrest ihvalue ihrest =>
    have hmid : mid ≠ [] := by
      rintro rfl
      exact hrest.ne_nil rfl
    refine .entry (hstart.append hvalue.ne_nil tail) (ihvalue (.inl hmid)) ?_ ?_
    · rwa [skipWs_append hrest.ne_nil, head_append hrest.ne_nil]
    · rw [skipWs_append hrest.ne_nil]
      exact ihrest hends

theorem Arguments.ne_nil {b rest : Bytes} (h : Arguments fromSlice b rest) : b ≠ [] := by
  cases h with
  | close => simp
  | argument hstart hvalue _ => exact hstart.ne_nil hvalue.ne_nil

theorem skipComma_append {b : Bytes} (h : b ≠ []) (tail : Bytes) : skipComma (b ++ tail) = skipComma b ++ tail := by
  obtain ⟨c, cs, rfl⟩ := List.exists_cons_of_ne_nil h
  rw [List.cons_append, skipComma, skipComma]
  split_ifs <;> rfl

theorem Arguments.append {b rest : Bytes} (h : Arguments fromSlice b rest) (tail : Bytes) :
    Arguments fromSlice (b ++ tail) (rest ++ tail) := by
  induction h with
  | close => exact .close
  | @argument b start mid rest hstart hvalue hrest ih =>
    have hws : skipWs mid ≠ [] := by
      intro hnil
      rw [hnil] at hrest
      exact hrest.ne_nil rfl
    have hmid : mid ≠ [] := by
      rintro rfl
      exact hws rfl
    refine .argument (hstart.append hvalue.ne_nil tail) (hvalue.append (.inl hmid)) ?_
    rw [skipWs_append hws, skipComma_append hws, skipWs_append hrest.ne_nil]
    exact ih

end

end Ecat.Graphql
