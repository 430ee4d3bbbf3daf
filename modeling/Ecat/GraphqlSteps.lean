import Ecat.GraphqlParser

/-! What an accepted call of the GraphQL parser has done, one statement for each function. -/

namespace Ecat.Graphql

open Json

theorem map_ok {α β : Type} {r : Scan α} {f : α → β} {b : β} (h : r.map f = .ok b) : ∃ a, r = .ok a ∧ f a = b := by
  cases r with
  | error e => cases h
  | ok a => exact ⟨a, rfl, Except.ok.inj h⟩

theorem hasKey_iff {α : Type} {fields : List (String × α)} {name : String} :
    hasKey fields name ↔ name ∈ fields.map Prod.fst := by
  simp [hasKey]

theorem accepted {α : Type} {r : Scan α} (h : r.isOk = true) : ∃ a, r = .ok a := by
  cases r with
  | error e => cases h
  | ok a => exact ⟨a, rfl⟩

/-- A reader of JSON texts where there is none. -/
def noJson : Bytes → Except String Value := fun _ => .error ""

section

variable (fromSlice : Bytes → Except String Value) (vars : Value) (value : Bytes → Scan (Value × Bytes))

/-- A value at the front of the bytes, where `value` reads those within it, and what is left. -/
inductive ValueStep : Bytes → Value → Bytes → Prop
  | string {c : UInt8} {cs rest : Bytes} {v : Value} (hquote : isQuote c) (hblock : cs.take 2 ≠ [c, c])
      (hstring : skipString (c :: cs) = (.ok (), rest))
      (hv : parseStringLiteral fromSlice (upTo (c :: cs) rest) = .ok v) : ValueStep (c :: cs) v rest
  | list {cs rest : Bytes} {v : Value} (hgroup : skipBalanced lbracket rbracket 0 (lbracket :: cs) = .ok rest)
      (hv : parseList value (upTo (lbracket :: cs) rest) = .ok v) : ValueStep (lbracket :: cs) v rest
  | object {cs rest : Bytes} {v : Value} (hgroup : skipBalanced lbrace rbrace 0 (lbrace :: cs) = .ok rest)
      (hv : parseInputObject value (upTo (lbrace :: cs) rest) = .ok v) : ValueStep (lbrace :: cs) v rest
  | reference {cs : Bytes} {v : Value}
      (hv : lookupVariable vars (fromUtf8Lossy (cs.takeWhile isIdentByte)) = .ok v) :
      ValueStep (dollar :: cs) v (skipIdent cs)
  | literal {c : UInt8} {cs : Bytes} {v : Value} (hquote : ¬ isQuote c) (hlist : c ≠ lbracket)
      (hobject : c ≠ lbrace) (hdollar : c ≠ dollar)
      (hv : parseLiteral fromSlice ((c :: cs).takeWhile isLiteralByte) = .ok v) :
      ValueStep (c :: cs) v ((c :: cs).dropWhile isLiteralByte)

end

section

variable {fromSlice : Bytes → Except String Value} {vars : Value}

theorem parseValue_step {stack depth : Nat} {b rest : Bytes} {v : Value}
    (h : parseValue fromSlice vars (stack + 1) depth b = .ok (v, rest)) :
    depth ≤ maxDepth ∧ ValueStep fromSlice vars (parseValue fromSlice vars stack (depth + 1)) (skipWs b) v rest := by
  rw [parseValue] at h
  split at h
  · cases h
  rename_i hdepth
  refine ⟨by omega, ?_⟩
  split at h
  · cases h
  rename_i c cs hws
  rw [hws]
  split at h
  · rename_i hquote
    split at h
    · cases h
    rename_i hblock
    split at h
    · cases h
    rename_i rest' hstring
    obtain ⟨v', hv, heq⟩ := map_ok h
    cases heq
    exact .string hquote hblock hstring hv
  rename_i hquote
  split at h
  · rename_i hlist
    subst hlist
    split at h
    · cases h
    rename_i rest' hgroup
    obtain ⟨v', hv, heq⟩ := map_ok h
    cases heq
    exact .list hgroup hv
  rename_i hlist
  split at h
  · rename_i hobject
    subst hobject
    split at h
    · cases h
    rename_i rest' hgroup
    obtain ⟨v', hv, heq⟩ := map_ok h
    cases heq
    exact .object hgroup hv
  rename_i hobject
  split at h
  · rename_i hdollar
    subst hdollar
    obtain ⟨v', hv, heq⟩ := map_ok h
    cases heq
    exact .reference hv
  · rename_i hdollar
    obtain ⟨v', hv, heq⟩ := map_ok h
    cases heq
    exact .literal hquote hlist hobject hdollar hv

/-! The first byte decides which value is read. -/

theorem ValueStep.string_inv {value : Bytes → Scan (Value × Bytes)} {c : UInt8} {cs rest : Bytes} {v : Value}
    (h : ValueStep fromSlice vars value (c :: cs) v rest) (hquote : isQuote c) :
    skipString (c :: cs) = (.ok (), rest) ∧ parseStringLiteral fromSlice (upTo (c :: cs) rest) = .ok v := by
  cases h with
  | string _ _ hstring hv => exact ⟨hstring, hv⟩
  | list => cases hquote
  | object => cases hquote
  | reference => cases hquote
  | literal hnot => exact absurd hquote hnot

theorem ValueStep.list_inv {value : Bytes → Scan (Value × Bytes)} {cs rest : Bytes} {v : Value}
    (h : ValueStep fromSlice vars value (lbracket :: cs) v rest) :
    skipBalanced lbracket rbracket 0 (lbracket :: cs) = .ok rest ∧
      parseList value (upTo (lbracket :: cs) rest) = .ok v := by
  cases h with
  | string hquote => cases hquote
  | list hgroup hv => exact ⟨hgroup, hv⟩
  | literal _ hlist => exact absurd rfl hlist

theorem ValueStep.object_inv {value : Bytes → Scan (Value × Bytes)} {cs rest : Bytes} {v : Value}
    (h : ValueStep fromSlice vars value (lbrace :: cs) v rest) :
    skipBalanced lbrace rbrace 0 (lbrace :: cs) = .ok rest ∧
      parseInputObject value (upTo (lbrace :: cs) rest) = .ok v := by
  cases h with
  | string hquote => cases hquote
  | object hgroup hv => exact ⟨hgroup, hv⟩
  | literal _ _ hobject => exact absurd rfl hobject

theorem ValueStep.reference_inv {value : Bytes → Scan (Value × Bytes)} {cs rest : Bytes} {v : Value}
    (h : ValueStep fromSlice vars value (dollar :: cs) v rest) :
    lookupVariable vars (fromUtf8Lossy (cs.takeWhile isIdentByte)) = .ok v ∧ rest = skipIdent cs := by
  cases h with
  | string hquote => cases hquote
  | reference hv => exact ⟨hv, rfl⟩
  | literal _ _ _ hdollar => exact absurd rfl hdollar

theorem ValueStep.literal_inv {value : Bytes → Scan (Value × Bytes)} {c : UInt8} {cs rest : Bytes} {v : Value}
    (h : ValueStep fromSlice vars value (c :: cs) v rest) (hquote : ¬ isQuote c) (hlist : c ≠ lbracket)
    (hobject : c ≠ lbrace) (hdollar : c ≠ dollar) :
    parseLiteral fromSlice ((c :: cs).takeWhile isLiteralByte) = .ok v ∧
      rest = (c :: cs).dropWhile isLiteralByte := by
  cases h with
  | string hq => exact absurd hq hquote
  | list => exact absurd rfl hlist
  | object => exact absurd rfl hobject
  | reference => exact absurd rfl hdollar
  | literal _ _ _ _ hv => exact ⟨hv, rfl⟩

/-- What is read of a part of an input object. -/
theorem parseEntry_step {value : Bytes → Scan (Value × Bytes)} {item : Bytes} {entry : String × Value}
    (h : parseEntry value item = .ok entry) :
    skipIdent (skipWs item) ≠ skipWs item ∧ entry.1 = fromUtf8Lossy ((skipWs item).takeWhile isIdentByte) ∧
      ∃ cs rest : Bytes, skipWs (skipIdent (skipWs item)) = colon :: cs ∧ value cs = .ok (entry.2, rest) := by
  rw [parseEntry] at h
  split at h
  · split at h <;> cases h
  rename_i hname
  split at h
  · cases h
  rename_i c cs hws
  split at h
  · rename_i hcolon
    subst hcolon
    obtain ⟨⟨v, rest⟩, hv, rfl⟩ := map_ok h
    exact ⟨hname, rfl, cs, rest, hws, hv⟩
  · cases h

/-- The end of the arguments, or one more of them. -/
theorem argsLoop_step {value : Bytes → Scan (Value × Bytes)} {args result : List (String × Value)} {b : Bytes}
    (h : argsLoop value args b = .ok result) :
    (∃ cs, skipWs b = rparen :: cs ∧ result = args) ∨
      ∃ (ds rest : Bytes) (v : Value), skipIdent (skipWs b) ≠ skipWs b ∧
        skipWs (skipIdent (skipWs b)) = colon :: ds ∧ value (skipWs ds) = .ok (v, rest) ∧
        hasKey args (fromUtf8Lossy ((skipWs b).takeWhile isIdentByte)) = false ∧
        argsLoop value (insertField args (fromUtf8Lossy ((skipWs b).takeWhile isIdentByte)) v)
          (skipComma (skipWs rest)) = .ok result := by
  rw [argsLoop] at h
  split at h
  · cases h
  rename_i c cs hws
  split at h
  · rename_i hclose
    subst hclose
    cases h
    exact .inl ⟨cs, hws, rfl⟩
  dsimp only at h
  split at h
  · cases h
  rename_i hname
  split at h
  · cases h
  rename_i d ds hcolon
  split at h
  · rename_i hd
    subst hd
    split at h
    · cases h
    rename_i v rest hv
    split at h
    · cases h
    rename_i hkey
    split at h
    · rw [hws]
      exact .inr ⟨ds, rest, v, hname, hcolon, hv, by simpa using hkey, h⟩
    · cases h
  · cases h

/-- A field at the front of the bytes: its name, its arguments, its directives and its selection in turn. -/
structure FieldStep (fromSlice : Bytes → Except String Value) (vars : Value) (stack depth : Nat) (b : Bytes)
    (f : ParsedField) (rest : Bytes) : Prop where
  depth_le : depth ≤ maxDepth
  named : skipIdent (skipWs b) ≠ skipWs b
  name_eq : f.name = fromUtf8Lossy ((skipWs b).takeWhile isIdentByte)
  no_alias : (skipWs (skipIdent (skipWs b))).head? ≠ some colon
  parts : ∃ afterArgs afterDirectives : Bytes,
    fieldArgs fromSlice vars stack depth (skipWs (skipIdent (skipWs b))) = .ok (f.args, afterArgs) ∧
    skipDirectives afterArgs = .ok afterDirectives ∧
    fieldSelection (parseField fromSlice vars stack (depth + 1) .query) (depth + 1) afterDirectives =
      .ok (f.selection, rest)

theorem parseField_step {stack depth : Nat} {operation : Operation} {b rest : Bytes} {f : ParsedField}
    (h : parseField fromSlice vars (stack + 1) depth operation b = .ok (f, rest)) :
    FieldStep fromSlice vars stack depth b f rest := by
  rw [parseField] at h
  split at h
  · cases h
  rename_i hdepth
  split at h
  · cases h
  rename_i hname
  dsimp only at h
  split at h
  · cases h
  rename_i hcolon
  split at h
  · cases h
  rename_i args afterArgs hargs
  split at h
  · cases h
  rename_i afterDirectives hdirectives
  obtain ⟨⟨selection, rest'⟩, hselection, heq⟩ := map_ok h
  cases heq
  exact ⟨by omega, hname, rfl, hcolon, afterArgs, afterDirectives, hargs, hdirectives, hselection⟩

theorem fieldArgs_step {stack depth : Nat} {b rest : Bytes} {args : List (String × Value)}
    (h : fieldArgs fromSlice vars stack depth b = .ok (args, rest)) :
    (b.head? ≠ some lparen ∧ args = [] ∧ rest = b) ∨
      (b.head? = some lparen ∧ ∃ after : Bytes, skipParens 0 b = .ok after ∧ rest = skipWs after ∧
        parseArgs fromSlice vars stack depth (upTo b after) = .ok args) := by
  rw [fieldArgs] at h
  split at h
  · rename_i hparen
    split at h
    · cases h
    rename_i after hgroup
    obtain ⟨args', hargs, heq⟩ := map_ok h
    cases heq
    exact .inr ⟨hparen, after, hgroup, rfl, hargs⟩
  · rename_i hparen
    cases h
    exact .inl ⟨hparen, rfl, rfl⟩

theorem fieldSelection_step {field : Bytes → Scan (ParsedField × Bytes)} {depth : Nat} {b rest : Bytes}
    {selection : Option SelectionSet} (h : fieldSelection field depth b = .ok (selection, rest)) :
    (b.head? ≠ some lbrace ∧ selection = none ∧ rest = b) ∨
      (b.head? = some lbrace ∧ depth ≤ maxDepth ∧ skipWs b.tail ≠ [] ∧ (skipWs b.tail).head? ≠ some rbrace ∧
        ∃ set, selection = some set ∧ selectionLoop field [] (skipWs b.tail) = .ok (set, rest)) := by
  rw [fieldSelection] at h
  split at h
  · rename_i hbrace
    obtain ⟨⟨set, rest'⟩, hset, heq⟩ := map_ok h
    cases heq
    unfold parseSelectionSet at hset
    split at hset
    · cases hset
    rename_i hdepth
    split at hset
    · cases hset
    rename_i c cs
    split at hset
    · cases hset
    rename_i d ds hws
    split at hset
    · cases hset
    rename_i hclose
    rw [List.tail_cons, hws]
    exact .inr ⟨hbrace, by omega, by simp, by simpa using hclose, set, rfl, hset⟩
  · rename_i hbrace
    cases h
    exact .inl ⟨hbrace, rfl, rfl⟩

/-- An operation: after its header one field between braces, of which the closing one is only looked for. -/
theorem parseQuery_step {stack : Nat} {query : Bytes} {f : ParsedField}
    (h : parseQuery fromSlice vars stack query = .ok f) :
    ∃ cs rest after : Bytes, skipHeader (readOperation (skipWs query)).2 = .ok (lbrace :: cs) ∧
      parseField fromSlice vars stack 0 (readOperation (skipWs query)).1 (skipWs cs) = .ok (f, rest) ∧
      skipWs rest = rbrace :: after := by
  rw [parseQuery] at h
  split at h
  · cases h
  rename_i b hheader
  unfold parseRoot at h
  split at h
  · cases h
  rename_i c cs
  split at h
  · rename_i hbrace
    subst hbrace
    split at h
    · cases h
    rename_i d ds hws
    split at h
    · cases h
    split at h
    · cases h
    split at h
    · cases h
    rename_i f' rest hfield
    rw [finishQuery] at h
    split at h
    · cases h
    rename_i e after hend
    split at h
    · rename_i hclose
      subst hclose
      cases h
      rw [← hws] at hfield
      exact ⟨cs, rest, after, hheader, hfield, hend⟩
    · split at h <;> cases h
  · cases h

end

end Ecat.Graphql
