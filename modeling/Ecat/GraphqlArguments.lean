import Ecat.GraphqlLiteral

/-! The arguments of a field, each a name and a literal: what the parsed arguments hold of them. -/

namespace Ecat.Graphql

open Json

section

variable {fromSlice : Bytes → Except String Value} {vars : Value} {value : Bytes → Scan (Value × Bytes)}

/-- An argument list begins with a name or ends with its parenthesis. -/
theorem Fields.start {fields : Fields} (h : fields.WellFormed) (t : Bytes) :
    ∃ c cs, fields.print ++ rparen :: t = c :: cs ∧ ¬ isWhitespace c ∧ c ≠ hash ∧ c ≠ comma := by
  cases fields with
  | nil => exact ⟨rparen, t, rfl, by decide, by decide, by decide⟩
  | cons name before after value gap rest =>
    obtain ⟨c, cs, rfl⟩ := List.exists_cons_of_ne_nil h.1.1
    obtain ⟨_, _, hliteral, hcomma, _, hhash, _⟩ := identByte_spec c (List.all_eq_true.mp h.1.2 c List.mem_cons_self)
    exact ⟨c, _, rfl, (literalByte_spec c hliteral).1, hhash, hcomma⟩

theorem skipWs_fields {fields : Fields} (h : fields.WellFormed) (t : Bytes) :
    skipWs (fields.print ++ rparen :: t) = fields.print ++ rparen :: t := by
  obtain ⟨c, cs, heq, hws, hhash, _⟩ := Fields.start h t
  rw [heq]
  exact skipWs_cons hws hhash cs

/-- One comma goes with the white space after an argument. -/
theorem skipComma_gap {gap : Bytes} (hgap : IsGap gap) {fields : Fields} (h : fields.WellFormed) (t : Bytes) :
    ∃ gap' : Bytes, IsGap gap' ∧
      skipComma (skipWs (gap ++ (fields.print ++ rparen :: t))) = gap' ++ (fields.print ++ rparen :: t) := by
  obtain ⟨c, cs, heq, _, _, hcomma⟩ := Fields.start h t
  rcases hgap.cases with ⟨_, hblank⟩ | ⟨blank, rest, rfl, hblank, hrest⟩
  · refine ⟨[], rfl, ?_⟩
    rw [skipWs_blank hblank, skipWs_fields h, heq, skipComma, if_neg hcomma]
    rfl
  · refine ⟨rest, hrest, ?_⟩
    rw [List.append_assoc, skipWs_blank hblank, List.cons_append, skipWs_cons (by decide) (by decide), skipComma,
      if_pos rfl]

/-- A comma where an argument should begin is an error. -/
theorem argsLoop_gap {args result : List (String × Value)} {gap : Bytes} (hgap : IsGap gap) {fields : Fields}
    (hfields : fields.WellFormed) {t : Bytes}
    (h : argsLoop value args (gap ++ (fields.print ++ rparen :: t)) = .ok result) :
    skipWs (gap ++ (fields.print ++ rparen :: t)) = fields.print ++ rparen :: t := by
  rcases hgap.cases with ⟨_, hblank⟩ | ⟨blank, rest, rfl, hblank, _⟩
  · rw [skipWs_blank hblank, skipWs_fields hfields]
  · have hws : skipWs (blank ++ comma :: rest ++ (fields.print ++ rparen :: t)) =
        comma :: (rest ++ (fields.print ++ rparen :: t)) := by
      rw [List.append_assoc, skipWs_blank hblank, List.cons_append]
      exact skipWs_cons (by decide) (by decide) _
    obtain ⟨cs, hclose, _⟩ | ⟨_, _, _, hname, _⟩ := argsLoop_step h
    · rw [hws] at hclose
      cases hclose
    · rw [hws] at hname
      exact absurd rfl hname

/-- The arguments come in one by one, each as it is read by itself. -/
theorem argsLoop_entries (hreads : Reads fromSlice vars value) : ∀ {fields : Fields} {gap t : Bytes}
    {args result : List (String × Value)}, fields.WellFormed → IsGap gap → (args.map Prod.fst).Nodup →
    argsLoop value args (gap ++ (fields.print ++ rparen :: t)) = .ok result →
    ∃ entries, result = args ++ entries ∧ (result.map Prod.fst).Nodup ∧
      List.Forall₂ (IsEntry fromSlice vars) (fields.toList.map Prod.fst) entries
  | .nil, gap, t, args, result, hfields, hgap, hnodup, h => by
    have hws := argsLoop_gap hgap hfields h
    rw [Fields.print, List.nil_append] at hws h
    obtain ⟨cs, _, rfl⟩ | ⟨_, _, _, hname, _⟩ := argsLoop_step h
    · exact ⟨[], (List.append_nil _).symm, hnodup, .nil⟩
    · rw [hws] at hname
      exact absurd rfl hname
  | .cons name before after l gap' rest, gap, t, args, result, hfields, hgap, hnodup, h => by
    have hws := argsLoop_gap hgap hfields h
    obtain ⟨hname, ⟨hbefore, hafter⟩, hl, hgap', hnext, hrest⟩ := hfields
    have hprint : (Fields.cons name before after l gap' rest).print ++ rparen :: t =
        name ++ (before ++ colon :: (after ++ (l.print ++ (gap' ++ (rest.print ++ rparen :: t))))) := by
      simp [Fields.print]
    have hhead := nameThen (c := colon) (by decide) (by decide) (by decide) hname hbefore
      (after ++ (l.print ++ (gap' ++ (rest.print ++ rparen :: t))))
    rw [hprint] at hws h
    obtain ⟨cs, hclose, _⟩ | ⟨ds, left, v, _, hcolon, hv, hkey, hloop⟩ := argsLoop_step h
    · rw [hws] at hclose
      have hnamed := hhead.named
      rw [hclose] at hnamed
      exact absurd rfl hnamed
    rw [hws, hhead.next_eq] at hcolon
    cases hcolon
    rw [hws, hhead.name_eq] at hkey hloop
    have htail : Delimited (gap' ++ (rest.print ++ rparen :: t)) := by
      rw [← List.append_assoc]
      exact (Fields.delimited hgap' hnext).append (delimited_cons (by decide) t)
    obtain ⟨c, cs, hl', hlws, hlhash⟩ := Literal.start hl
    have hvalue : skipWs (after ++ (l.print ++ (gap' ++ (rest.print ++ rparen :: t)))) =
        [] ++ (l.print ++ (gap' ++ (rest.print ++ rparen :: t))) := by
      rw [skipWs_blank hafter, hl']
      exact skipWs_cons hlws hlhash _
    rw [hvalue] at hv
    obtain ⟨rfl, hiff⟩ := hreads l [] _ left v hl rfl htail hv
    obtain ⟨gap'', hgap'', heq⟩ := skipComma_gap hgap' hrest t
    rw [heq, insertField_fresh hkey] at hloop
    have hnodup' : ((args ++ [(fromUtf8Lossy name, v)]).map Prod.fst).Nodup := by
      have hnew : fromUtf8Lossy name ∉ args.map Prod.fst := mt hasKey_iff.mpr (ne_true_of_eq_false hkey)
      rw [List.map_append]
      exact hnodup.append (List.nodup_singleton _) (List.disjoint_singleton.mpr hnew)
    obtain ⟨entries, rfl, hkeys, hentries⟩ := argsLoop_entries hreads hrest hgap'' hnodup' hloop
    exact ⟨(fromUtf8Lossy name, v) :: entries, by simp, hkeys, .cons ⟨rfl, hiff⟩ hentries⟩

/-- An argument list in its parentheses. -/
def Fields.group (gap : Bytes) (fields : Fields) : Bytes := lparen :: (gap ++ fields.print ++ [rparen])

theorem skipParens_group {gap : Bytes} {fields : Fields} (hgap : IsGap gap) (hfields : fields.WellFormed)
    (tail : Bytes) : skipParens 0 (fields.group gap ++ tail) = .ok tail := by
  have htext : fields.group gap ++ tail = lparen :: (gap ++ fields.print ++ rparen :: tail) := by
    simp [Fields.group]
  rw [htext, skipParens, if_pos rfl, (nested_gap hgap (fields.nested hfields)).parens _ (noQuote_cons rfl _), skipParens,
    if_neg (by decide), if_pos rfl, if_neg (by decide), if_pos rfl]

theorem parseArgs_entries {stack depth : Nat} {gap : Bytes} {fields : Fields} (hgap : IsGap gap)
    (hfields : fields.WellFormed) {args : List (String × Value)}
    (h : parseArgs fromSlice vars stack depth (fields.group gap) = .ok args) :
    (args.map Prod.fst).Nodup ∧ List.Forall₂ (IsEntry fromSlice vars) (fields.toList.map Prod.fst) args := by
  rw [Fields.group, parseArgs, skipWs_cons (by decide) (by decide)] at h
  dsimp only at h
  rw [if_pos rfl, List.append_assoc] at h
  obtain ⟨entries, rfl, hnodup, hentries⟩ :=
    argsLoop_entries (parseValue_reads stack depth) hfields hgap nodup_keys_nil h
  exact ⟨hnodup, hentries⟩

theorem parseField_entries {stack depth : Nat} {operation : Operation} {blank name blank' gap tail rest : Bytes}
    {fields : Fields} {f : ParsedField} (hblank : IsBlank blank) (hname : name ≠ [] ∧ name.all isIdentByte)
    (hblank' : IsBlank blank') (hgap : IsGap gap) (hfields : fields.WellFormed)
    (h : parseField fromSlice vars stack depth operation
      (blank ++ (name ++ (blank' ++ (fields.group gap ++ tail)))) = .ok (f, rest)) :
    (f.args.map Prod.fst).Nodup ∧ List.Forall₂ (IsEntry fromSlice vars) (fields.toList.map Prod.fst) f.args := by
  cases stack with
  | zero => cases h
  | succ stack =>
    obtain ⟨afterArgs, _, hargs, _⟩ := (parseField_step h).parts
    have hhead := nameThen (c := lparen) (by decide) (by decide) (by decide) hname hblank'
      (gap ++ fields.print ++ [rparen] ++ tail)
    have htext : name ++ (blank' ++ (fields.group gap ++ tail)) =
        name ++ (blank' ++ lparen :: (gap ++ fields.print ++ [rparen] ++ tail)) := rfl
    rw [skipWs_blank hblank, htext, hhead.start, hhead.next_eq] at hargs
    obtain ⟨hparen, _⟩ | ⟨_, after, hgroup, _, hparse⟩ := fieldArgs_step hargs
    · exact absurd rfl hparen
    · have hskip := skipParens_group hgap hfields tail
      have hraw := upTo_append (fields.group gap) tail
      rw [Fields.group, List.cons_append] at hskip hraw
      rw [hskip] at hgroup
      cases hgroup
      rw [hraw] at hparse
      exact parseArgs_entries hgap hfields hparse

/-- An argument's value holds the literal just when it has a comma between any two neighbours, at every level. -/
theorem entries_hold {fields : Fields} {args : List (String × Value)} (hnodup : (args.map Prod.fst).Nodup)
    (h : List.Forall₂ (IsEntry fromSlice vars) (fields.toList.map Prod.fst) args) (field : Field)
    (hfield : field ∈ fields.toList.map Prod.fst) :
    (∃ v, (fromUtf8Lossy field.name, v) ∈ args ∧ field.value.Holds fromSlice vars v) ↔ field.value.Separated := by
  obtain ⟨entry, hmem, hentry⟩ := exists_right_of_forall₂ h hfield
  exact hentry.mem_iff hnodup hmem

end

/-- A field with its arguments, at any place of a query that is accepted: of every argument's literal the parsed
value has all items and fields just when the literal has a comma between any two neighbours, at every level. -/
theorem arguments_hold {fromSlice : Bytes → Except String Value} {vars : Value} {stack depth : Nat}
    {operation : Operation} {blank name blank' gap tail rest : Bytes} {fields : Fields} {f : ParsedField}
    (hblank : IsBlank blank) (hname : name ≠ [] ∧ name.all isIdentByte) (hblank' : IsBlank blank') (hgap : IsGap gap)
    (hfields : fields.WellFormed)
    (h : parseField fromSlice vars stack depth operation
      (blank ++ (name ++ (blank' ++ (fields.group gap ++ tail)))) = .ok (f, rest)) :
    ∀ field ∈ fields.toList.map Prod.fst,
      (∃ v, (fromUtf8Lossy field.name, v) ∈ f.args ∧ field.value.Holds fromSlice vars v) ↔ field.value.Separated := by
  obtain ⟨hnodup, hentries⟩ := parseField_entries hblank hname hblank' hgap hfields h
  intro field hfield
  exact entries_hold hnodup hentries field hfield

/-! ### Two argument lists -/

/-- `[RED GREEN]` with `gap` between the two. -/
def colours (gap : String) : Literal :=
  .list [] (.cons (.scalar (ascii "RED")) (ascii gap) (.cons (.scalar (ascii "GREEN")) [] .nil))

def coloursArg (gap : String) : Fields := .cons (ascii "a") [] (ascii " ") (colours gap) [] .nil

def coloursQuery (gap : String) : Bytes :=
  ascii "\x7b " ++ (ascii "f" ++ ((coloursArg gap).group [] ++ ascii " \x7d"))

theorem coloursArg_wellFormed (gap : String) (hgap : IsGap (ascii gap)) (hne : ascii gap ≠ []) :
    (coloursArg gap).WellFormed := by
  have hred : (Literal.scalar (ascii "RED")).WellFormed := by
    rw [Literal.WellFormed]
    decide +kernel
  have hgreen : (Literal.scalar (ascii "GREEN")).WellFormed := by
    rw [Literal.WellFormed]
    decide +kernel
  have hspace : (ascii " ").all isWhitespace := by decide +kernel
  exact ⟨by decide +kernel, ⟨rfl, hspace⟩, ⟨rfl, hred, hgap, .inr hne, hgreen, rfl, .inl rfl, trivial⟩, rfl, .inl rfl,
    trivial⟩

theorem coloursQuery_field {gap : String} {f : ParsedField}
    (h : parseQuery noJson .null (maxDepth + 3) (coloursQuery gap) = .ok f)
    (hheader : skipHeader (readOperation (skipWs (coloursQuery gap))).2 =
      .ok (lbrace :: (ascii " " ++ (ascii "f" ++ ((coloursArg gap).group [] ++ ascii " \x7d"))))) :
    ∃ operation rest, parseField noJson .null (maxDepth + 3) 0 operation
      ([] ++ (ascii "f" ++ ([] ++ ((coloursArg gap).group [] ++ ascii " \x7d")))) = .ok (f, rest) := by
  obtain ⟨cs, rest, _, hcs, hfield, _⟩ := parseQuery_step h
  rw [hheader] at hcs
  cases hcs
  have hspace : IsBlank (ascii " ") := by
    have hall : (ascii " ").all isWhitespace := by decide +kernel
    exact hall
  rw [skipWs_blank hspace] at hfield
  exact ⟨_, rest, hfield⟩

/-- `GREEN` comes after a space, and is lost. -/
theorem colours_lost : ∃ f, parseQuery noJson .null (maxDepth + 3) (coloursQuery " ") = .ok f ∧
    ¬ ∃ v, (fromUtf8Lossy (ascii "a"), v) ∈ f.args ∧ (colours " ").Holds noJson .null v := by
  obtain ⟨f, hf⟩ := accepted (r := parseQuery noJson .null (maxDepth + 3) (coloursQuery " ")) (by decide +kernel)
  obtain ⟨operation, rest, hfield⟩ := coloursQuery_field hf (by decide +kernel)
  have hwf := coloursArg_wellFormed " " (by unfold IsGap; decide +kernel) (by decide +kernel)
  obtain ⟨hnodup, hentries⟩ := parseField_entries isBlank_nil (by decide +kernel) isBlank_nil isGap_nil hwf hfield
  have hiff := entries_hold hnodup hentries ⟨ascii "a", [], ascii " ", colours " "⟩ List.mem_cons_self
  refine ⟨f, hf, mt hiff.mp ?_⟩
  rintro ⟨_, hcomma, _⟩
  revert hcomma
  decide +kernel

/-- After a comma it is there. -/
theorem arguments_hold_colours : ∃ f, parseQuery noJson .null (maxDepth + 3) (coloursQuery ", ") = .ok f ∧
    ∃ v, (fromUtf8Lossy (ascii "a"), v) ∈ f.args ∧ (colours ", ").Holds noJson .null v := by
  obtain ⟨f, hf⟩ := accepted (r := parseQuery noJson .null (maxDepth + 3) (coloursQuery ", ")) (by decide +kernel)
  obtain ⟨operation, rest, hfield⟩ := coloursQuery_field hf (by decide +kernel)
  have hwf := coloursArg_wellFormed ", " (by unfold IsGap; decide +kernel) (by decide +kernel)
  have hiff := arguments_hold isBlank_nil (by decide +kernel) isBlank_nil isGap_nil hwf hfield ⟨ascii "a", [], ascii " ", colours ", "⟩
    List.mem_cons_self
  refine ⟨f, hf, hiff.mpr ⟨trivial, .inr ?_, trivial, .inl rfl, trivial⟩⟩
  decide +kernel

end Ecat.Graphql
