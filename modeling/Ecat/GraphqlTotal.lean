import Ecat.GraphqlSteps

/-! The parser returns on every input: no panic, no loop that stands still, and no more calls within
each other than the depth limit allows. -/

namespace Ecat.Graphql

open Json

/-- A scan ends with a result or an error of the source, in no other way. -/
def Fine {α : Type} (r : Scan α) : Prop := ∀ e, r = .error e → ∃ text, e = .error text

theorem fine_ok {α : Type} (a : α) : Fine (.ok a : Scan α) := by
  intro e h
  cases h

theorem fine_fail {α : Type} (text : String) : Fine (fail text : Scan α) := by
  intro e h
  cases h
  exact ⟨text, rfl⟩

theorem Fine.map {α β : Type} {r : Scan α} (h : Fine r) (f : α → β) : Fine (r.map f) := by
  intro e he
  cases r with
  | error e' =>
    cases he
    exact h e rfl
  | ok a => cases he

theorem Fine.error {α β : Type} {r : Scan α} {e : Stop} (h : Fine r) (he : r = .error e) :
    Fine (.error e : Scan β) := by
  intro e' he'
  cases he'
  exact h e he

/-! ### Scanners leave a suffix -/

theorem skipFrom_suffix (comment : Bool) (b : Bytes) : skipFrom comment b <:+ b := by
  induction b generalizing comment with
  | nil => exact List.suffix_rfl
  | cons c cs ih =>
    rw [skipFrom]
    split_ifs
    · exact (ih _).trans (List.suffix_cons _ _)
    · exact (ih _).trans (List.suffix_cons _ _)
    · exact (ih _).trans (List.suffix_cons _ _)
    · exact List.suffix_rfl

theorem skipWs_suffix (b : Bytes) : skipWs b <:+ b := skipFrom_suffix false b

theorem skipIdent_suffix (b : Bytes) : skipIdent b <:+ b := List.dropWhile_suffix _

theorem skipIdent_lt {b : Bytes} (h : skipIdent b ≠ b) : (skipIdent b).length < b.length := by
  have hle := (skipIdent_suffix b).length_le
  have hne : (skipIdent b).length ≠ b.length := fun heq => h ((skipIdent_suffix b).eq_of_length heq)
  omega

theorem skipComma_suffix (b : Bytes) : skipComma b <:+ b := by
  cases b with
  | nil => exact List.suffix_rfl
  | cons c cs =>
    rw [skipComma]
    split_ifs
    · exact List.suffix_cons _ _
    · exact List.suffix_rfl

/-- The scan is fine, and what it leaves is a proper suffix. -/
structure Consumes (b : Bytes) (r : Scan Bytes) : Prop where
  fine : Fine r
  suffix : ∀ rest, r = .ok rest → rest <:+ b
  lt : ∀ rest, r = .ok rest → rest.length < b.length

theorem Consumes.of_suffix {b b' : Bytes} {r : Scan Bytes} (h : Consumes b' r) (hb : b' <:+ b) : Consumes b r where
  fine := h.fine
  suffix rest hr := (h.suffix rest hr).trans hb
  lt rest hr := (h.lt rest hr).trans_le hb.length_le

theorem Consumes.cons {cs : Bytes} {r : Scan Bytes} (h : Consumes cs r) (c : UInt8) : Consumes (c :: cs) r :=
  h.of_suffix (List.suffix_cons c cs)

theorem Fine.consumes {e : Stop} (h : Fine (.error e : Scan Bytes)) (b : Bytes) : Consumes b (.error e) where
  fine := h
  suffix _ hr := by cases hr
  lt _ hr := by cases hr

theorem consumes_fail (b : Bytes) (text : String) : Consumes b (fail text) := (fine_fail text).consumes b

theorem consumes_tail (c : UInt8) (cs : Bytes) : Consumes (c :: cs) (.ok cs) where
  fine := fine_ok cs
  suffix rest h := by
    cases h
    exact List.suffix_cons _ _
  lt rest h := by
    cases h
    simp

theorem skipSimple_fine (q : UInt8) (b : Bytes) : Fine (skipSimple q b).1 := by
  have herror : Fine (.error unterminated : Scan Unit) := fine_fail _
  fun_induction skipSimple q b with
  | case1 => exact herror
  | case2 => exact herror
  | case3 => exact fine_ok ()
  | case4 => exact herror
  | case5 d cs ih => exact ih
  | case6 => exact fine_ok ()
  | case7 c d cs _ _ ih => exact ih

theorem skipSimple_lt {q : UInt8} {b rest : Bytes} (h : skipSimple q b = (.ok (), rest)) :
    rest.length < b.length := by
  fun_induction skipSimple q b with
  | case1 => cases h
  | case2 => cases h
  | case3 =>
    cases h
    simp
  | case4 => cases h
  | case5 d cs ih =>
    have hlt := ih h
    simp only [List.length_cons]
    omega
  | case6 =>
    cases h
    simp
  | case7 c d cs _ _ ih =>
    have hlt := ih h
    simp only [List.length_cons] at hlt ⊢
    omega

theorem skipBlock_fine (q : UInt8) (b : Bytes) : Fine (skipBlock q b).1 := by
  fun_induction skipBlock q b with
  | case1 => exact fine_fail _
  | case2 => exact fine_ok ()
  | case3 c cs _ ih => exact ih

theorem skipString_fine (c : UInt8) (cs : Bytes) : Fine (skipString (c :: cs)).1 := by
  rw [skipString]
  split_ifs
  · exact skipBlock_fine _ _
  · exact skipSimple_fine _ _

theorem skipParens_consumes (depth : Nat) {b : Bytes} (h : depth = 0 → b.head? = some lparen) :
    Consumes b (skipParens depth b) := by
  fun_induction skipParens depth b with
  | case1 => exact consumes_fail _ _
  | case2 depth cs ih => exact (ih (by omega)).cons _
  | case3 cs =>
    cases h rfl
  | case4 cs => exact consumes_tail _ _
  | case5 depth cs _ hzero hone ih => exact (ih (by omega)).cons _
  | case6 depth c cs _ _ _ e he =>
    exact ((skipString_fine c cs).error he).consumes (c :: cs)
  | case7 depth c cs hl _ _ _ _ ih =>
    have hdepth : depth ≠ 0 := by
      intro hzero
      exact hl (Option.some.inj (h hzero))
    have hrest := ih (fun hzero => absurd hzero hdepth)
    exact hrest.of_suffix ((skipString_suffix c cs).trans (List.suffix_cons c cs))
  | case8 depth c cs hl _ _ ih =>
    have hdepth : depth ≠ 0 := by
      intro hzero
      exact hl (Option.some.inj (h hzero))
    exact (ih (fun hzero => absurd hzero hdepth)).cons _

theorem skipGroup_consumes (cs : Bytes) : Consumes (lparen :: cs) (skipParens 0 (lparen :: cs)) :=
  skipParens_consumes 0 fun _ => rfl

theorem skipBalanced_consumes (opening closing : UInt8) (depth : Nat) (b : Bytes) :
    Consumes b (skipBalanced opening closing depth b) := by
  fun_induction skipBalanced opening closing depth b with
  | case1 => exact consumes_fail _ _
  | case2 depth cs ih => exact ih.cons _
  | case3 => exact consumes_tail _ _
  | case4 depth cs _ _ ih => exact ih.cons _
  | case5 depth c cs _ _ _ e he =>
    exact ((skipString_fine c cs).error he).consumes (c :: cs)
  | case6 depth c cs _ _ _ _ _ ih =>
    exact ih.of_suffix ((skipString_suffix c cs).trans (List.suffix_cons c cs))
  | case7 depth c cs _ _ _ ih => exact ih.cons _

/-- A group of the kind it begins with has both its brackets. -/
theorem skipBalanced_group {opening closing : UInt8} {cs rest : Bytes}
    (h : skipBalanced opening closing 0 (opening :: cs) = .ok rest) : rest.length < cs.length := by
  rw [skipBalanced, if_pos rfl] at h
  exact (skipBalanced_consumes opening closing 1 cs).lt rest h

theorem length_upTo {b rest : Bytes} (h : rest.length ≤ b.length) :
    (upTo b rest).length = b.length - rest.length := by
  rw [upTo, List.length_take]
  omega

theorem skipDirective_consumes (c : UInt8) (cs : Bytes) : Consumes (c :: cs) (skipDirective (c :: cs)) := by
  have hsub : skipWs (skipIdent cs) <:+ cs := (skipWs_suffix _).trans (skipIdent_suffix _)
  rw [skipDirective]
  split
  · exact ⟨fine_ok _, fun rest hr => by cases hr; exact List.nil_suffix, fun rest hr => by cases hr; simp⟩
  · rename_i d ds hws
    rw [hws] at hsub
    split_ifs with hparen
    · subst hparen
      exact ((skipGroup_consumes ds).of_suffix hsub).cons c
    · refine ⟨fine_ok _, fun rest hr => ?_, fun rest hr => ?_⟩
      · cases hr
        exact hsub.trans (List.suffix_cons _ _)
      · cases hr
        exact Nat.lt_succ_of_le hsub.length_le

/-- What is left after the white space is shorter still. -/
theorem Consumes.progress {b rest : Bytes} {r : Scan Bytes} (h : Consumes b r) (hr : r = .ok rest) :
    (skipWs rest).length < b.length :=
  (skipWs_suffix rest).length_le.trans_lt (h.lt rest hr)

theorem skipDirectives_fine (b : Bytes) : Fine (skipDirectives b) := by
  fun_induction skipDirectives b with
  | case1 => exact fine_ok _
  | case2 cs e he =>
    exact (skipDirective_consumes atSign cs).fine.error he
  | case3 cs rest _ _ ih => exact ih
  | case4 cs rest hnot hrest => exact absurd ((skipDirective_consumes atSign cs).progress hrest) hnot
  | case5 => exact fine_ok _

theorem skipDirectives_suffix {b rest : Bytes} (h : skipDirectives b = .ok rest) : rest <:+ b := by
  fun_induction skipDirectives b with
  | case1 =>
    cases h
    exact List.suffix_rfl
  | case2 => cases h
  | case3 cs rest' _ hrest ih =>
    exact (ih h).trans ((skipWs_suffix _).trans ((skipDirective_consumes atSign cs).suffix rest' hrest))
  | case4 => cases h
  | case5 =>
    cases h
    exact List.suffix_rfl

theorem skipDefinitions_fine (b : Bytes) : Fine (skipDefinitions b) := by
  fun_induction skipDefinitions b with
  | case1 => exact fine_ok _
  | case2 cs e he =>
    exact (skipGroup_consumes cs).fine.error he
  | case3 cs rest _ _ ih => exact ih
  | case4 cs rest hnot hrest => exact absurd ((skipGroup_consumes cs).progress hrest) hnot
  | case5 cs _ e he =>
    exact (skipDirective_consumes atSign cs).fine.error he
  | case6 cs rest _ _ _ ih => exact ih
  | case7 cs rest hnot _ hrest => exact absurd ((skipDirective_consumes atSign cs).progress hrest) hnot
  | case8 => exact fine_ok _

/-! ### Strings and literals -/

theorem unescape_fine (out b : Bytes) : Fine (unescape out b) := by
  fun_induction unescape out b with
  | case1 => exact fine_ok _
  | case2 => exact fine_fail _
  | case3 => exact fine_ok _
  | case4 out c d ds _ ih => exact ih
  | case5 out c ds _ char _ ih => exact ih
  | case6 => exact fine_fail _
  | case7 out c d ds _ _ e _ ih => exact ih
  | case8 => exact fine_fail _

theorem inside_ok {raw : Bytes} (h : 2 ≤ raw.length) : inside raw = .ok raw.tail.dropLast := by
  rw [inside, if_neg (by omega)]

section

variable {fromSlice : Bytes → Except String Value} {vars : Value}

/-- A token with both its quotes. -/
theorem parseStringLiteral_fine {token : Bytes} (h : 2 ≤ token.length) :
    Fine (parseStringLiteral fromSlice token) := by
  rw [parseStringLiteral]
  split_ifs with hquote
  · split
    · exact fine_ok _
    · exact fine_fail _
  · rw [inside_ok h]
    exact (unescape_fine _ _).map _

theorem parseLiteral_fine (token : Bytes) : Fine (parseLiteral fromSlice token) := by
  rw [parseLiteral]
  split
  · exact fine_ok _
  · split_ifs
    · exact fine_ok _
    · exact fine_fail _

theorem lookupVariable_fine (name : String) : Fine (lookupVariable vars name) := by
  cases vars with
  | object m =>
    rw [lookupVariable]
    cases m.lookup name with
    | none => exact fine_fail _
    | some v => exact fine_ok v
  | _ => exact fine_fail _

end

/-! ### Lists and input objects -/

section

variable {value : Bytes → Scan (Value × Bytes)}

theorem parseItems_fine (hvalue : ∀ b, Fine (value b)) (items : List Bytes) : Fine (parseItems value items) := by
  induction items with
  | nil => exact fine_ok _
  | cons item items ih =>
    rw [parseItems]
    split_ifs
    · exact ih
    · split
      · rename_i e he
        exact (hvalue item).error he
      · exact ih.map _

theorem parseEntry_fine (hvalue : ∀ b, Fine (value b)) (item : Bytes) : Fine (parseEntry value item) := by
  rw [parseEntry]
  split_ifs
  · exact fine_fail _
  · exact fine_fail _
  · split
    · exact fine_fail _
    · split_ifs
      · exact (hvalue _).map _
      · exact fine_fail _

theorem parseEntries_fine (hvalue : ∀ b, Fine (value b)) (items : List Bytes) (map : List (String × Value)) :
    Fine (parseEntries value map items) := by
  induction items generalizing map with
  | nil => exact fine_ok _
  | cons item items ih =>
    rw [parseEntries]
    split_ifs
    · exact ih map
    · have hentry := parseEntry_fine hvalue item
      split
      · rename_i e he
        exact hentry.error he
      · split_ifs
        · exact fine_fail _
        · exact ih _

theorem parseList_fine (hvalue : ∀ b, Fine (value b)) {raw : Bytes} (h : 2 ≤ raw.length) :
    Fine (parseList value raw) := by
  rw [parseList, inside_ok h]
  exact (parseItems_fine hvalue _).map _

theorem parseInputObject_fine (hvalue : ∀ b, Fine (value b)) {raw : Bytes} (h : 2 ≤ raw.length) :
    Fine (parseInputObject value raw) := by
  rw [parseInputObject, inside_ok h]
  exact (parseEntries_fine hvalue _ []).map _

end

/-! ### Values -/

section

variable {fromSlice : Bytes → Except String Value} {vars : Value}

theorem ValueStep.suffix {value : Bytes → Scan (Value × Bytes)} {b rest : Bytes} {v : Value}
    (h : ValueStep fromSlice vars value b v rest) : rest <:+ b := by
  cases h with
  | string hquote hblock hstring hv =>
    rename_i c cs
    have hrest := skipString_suffix c cs
    rw [hstring] at hrest
    exact hrest.trans (List.suffix_cons c cs)
  | list hgroup hv => exact (skipBalanced_consumes _ _ _ _).suffix rest hgroup
  | object hgroup hv => exact (skipBalanced_consumes _ _ _ _).suffix rest hgroup
  | reference hv => exact (skipIdent_suffix _).trans (List.suffix_cons _ _)
  | literal => exact List.dropWhile_suffix _

theorem parseValue_suffix {stack depth : Nat} {b rest : Bytes} {v : Value}
    (h : parseValue fromSlice vars stack depth b = .ok (v, rest)) : rest <:+ b := by
  cases stack with
  | zero => cases h
  | succ stack => exact (parseValue_step h).2.suffix.trans (skipWs_suffix b)

/-- Every level of nesting takes one level of depth, so that the stack lasts. -/
theorem parseValue_fine (stack depth : Nat) (b : Bytes) (hdepth : depth ≤ maxDepth + 1)
    (hstack : maxDepth + 1 < stack + depth) : Fine (parseValue fromSlice vars stack depth b) := by
  induction stack generalizing depth b with
  | zero => omega
  | succ stack ih =>
    rw [parseValue]
    split_ifs with hdeep
    · exact fine_fail _
    have hvalue : ∀ item, Fine (parseValue fromSlice vars stack (depth + 1) item) := by
      intro item
      exact ih (depth + 1) item (by omega) (by omega)
    split
    · exact fine_fail _
    rename_i c cs hws
    split_ifs with hquote hblock hlist hobject hdollar
    · exact fine_fail _
    · split
      · rename_i e rest hstring
        exact (skipString_fine c cs).error (by rw [hstring])
      · rename_i rest hstring
        rw [skipString, if_neg hblock] at hstring
        have hlt := skipSimple_lt hstring
        refine (parseStringLiteral_fine ?_).map _
        rw [length_upTo (by simp; omega), List.length_cons]
        omega
    · split
      · rename_i e he
        exact (skipBalanced_consumes lbracket rbracket 0 (c :: cs)).fine.error he
      · rename_i rest hgroup
        subst hlist
        have hlt := skipBalanced_group hgroup
        refine (parseList_fine hvalue ?_).map _
        rw [length_upTo (by simp; omega), List.length_cons]
        omega
    · split
      · rename_i e he
        exact (skipBalanced_consumes lbrace rbrace 0 (c :: cs)).fine.error he
      · rename_i rest hgroup
        subst hobject
        have hlt := skipBalanced_group hgroup
        refine (parseInputObject_fine hvalue ?_).map _
        rw [length_upTo (by simp; omega), List.length_cons]
        omega
    · exact (lookupVariable_fine _).map _
    · exact (parseLiteral_fine _).map _

/-! ### Arguments, fields and selection sets -/

theorem argsLoop_fine {value : Bytes → Scan (Value × Bytes)} (hvalue : ∀ b, Fine (value b))
    (hrest : ∀ b v rest, value b = .ok (v, rest) → rest <:+ b) (args : List (String × Value)) (b : Bytes) :
    Fine (argsLoop value args b) := by
  fun_induction argsLoop value args b with
  | case1 => exact fine_fail _
  | case2 => exact fine_ok _
  | case3 => exact fine_fail _
  | case4 => exact fine_fail _
  | case5 =>
    rename_i ds e hv _
    exact (hvalue (skipWs ds)).error hv
  | case6 => exact fine_fail _
  | case7 =>
    rename_i ih
    exact ih
  | case8 args b c cs hws _ name hname ds v rest hv _ hnot hcolon =>
    have hcs : (c :: cs).length ≤ b.length := hws ▸ (skipWs_suffix b).length_le
    have hds : (skipWs (skipIdent (c :: cs))).length ≤ (skipIdent (c :: cs)).length := (skipWs_suffix _).length_le
    have hlt := skipIdent_lt hname
    have hvalue := (hrest _ _ _ hv).length_le.trans (skipWs_suffix ds).length_le
    have hafter := (skipComma_suffix _).length_le.trans (skipWs_suffix rest).length_le
    rw [hcolon, List.length_cons] at hds
    omega
  | case9 => exact fine_fail _

theorem parseArgs_fine (stack depth : Nat) (raw : Bytes) (hdepth : depth ≤ maxDepth + 1)
    (hstack : maxDepth + 1 < stack + depth) : Fine (parseArgs fromSlice vars stack depth raw) := by
  have hvalue : ∀ b, Fine (parseValue fromSlice vars stack depth b) := by
    intro b
    exact parseValue_fine stack depth b hdepth hstack
  rw [parseArgs]
  split
  · exact fine_fail _
  · split_ifs
    · exact argsLoop_fine hvalue (fun _ _ _ h => parseValue_suffix h) _ _
    · exact fine_fail _

theorem fieldArgs_fine (stack depth : Nat) (b : Bytes) (hdepth : depth ≤ maxDepth + 1)
    (hstack : maxDepth + 1 < stack + depth) : Fine (fieldArgs fromSlice vars stack depth b) := by
  rw [fieldArgs]
  split_ifs with hparen
  · split
    · rename_i e he
      exact (skipParens_consumes 0 fun _ => hparen).fine.error he
    · exact (parseArgs_fine stack depth _ hdepth hstack).map _
  · exact fine_ok _

theorem fieldArgs_suffix {stack depth : Nat} {b rest : Bytes} {args : List (String × Value)}
    (h : fieldArgs fromSlice vars stack depth b = .ok (args, rest)) : rest <:+ b := by
  obtain ⟨_, _, rfl⟩ | ⟨hparen, after, hgroup, rfl, _⟩ := fieldArgs_step h
  · exact List.suffix_rfl
  · exact (skipWs_suffix after).trans ((skipParens_consumes 0 fun _ => hparen).suffix after hgroup)

theorem selectionLoop_fine {field : Bytes → Scan (ParsedField × Bytes)} (hfield : ∀ b, Fine (field b))
    (hlt : ∀ b f rest, field b = .ok (f, rest) → rest.length < b.length) (set : SelectionSet) (b : Bytes) :
    Fine (selectionLoop field set b) := by
  fun_induction selectionLoop field set b with
  | case1 => exact fine_fail _
  | case2 => exact fine_ok _
  | case3 => exact fine_fail _
  | case4 set c cs _ _ e he =>
    exact (hfield (c :: cs)).error he
  | case5 set c cs _ _ f rest _ _ ih => exact ih
  | case6 set c cs _ _ f rest hrest hnot =>
    have hws := (skipWs_suffix rest).length_le
    exact absurd (hws.trans_lt (hlt _ _ _ hrest)) hnot

theorem selectionLoop_length {field : Bytes → Scan (ParsedField × Bytes)} {set result : SelectionSet}
    {b rest : Bytes} (h : selectionLoop field set b = .ok (result, rest)) : rest.length < b.length := by
  fun_induction selectionLoop field set b with
  | case1 => cases h
  | case2 =>
    cases h
    simp
  | case3 => cases h
  | case4 => cases h
  | case5 set c cs _ _ f rest' _ hlt ih => exact (ih h).trans hlt
  | case6 => cases h

/-- A field takes its name at least. -/
theorem parseField_length {stack depth : Nat} {operation : Operation} {b rest : Bytes} {f : ParsedField}
    (h : parseField fromSlice vars stack depth operation b = .ok (f, rest)) : rest.length < b.length := by
  cases stack with
  | zero => cases h
  | succ stack =>
    have step := parseField_step h
    obtain ⟨afterArgs, afterDirectives, hargs, hdirectives, hselection⟩ := step.parts
    have hname := skipIdent_lt step.named
    have hb := (skipWs_suffix b).length_le
    have hws := (skipWs_suffix (skipIdent (skipWs b))).length_le
    have hargs' := (fieldArgs_suffix hargs).length_le
    have hdirectives' := (skipDirectives_suffix hdirectives).length_le
    have hrest : rest.length ≤ afterDirectives.length := by
      obtain ⟨_, _, rfl⟩ | ⟨_, _, _, _, set, _, hloop⟩ := fieldSelection_step hselection
      · exact le_rfl
      · have hloop' := selectionLoop_length hloop
        have htail := (skipWs_suffix afterDirectives.tail).length_le
        rw [List.length_tail] at htail
        omega
    omega

theorem parseSelectionSet_fine {field : Bytes → Scan (ParsedField × Bytes)} {depth : Nat} {b : Bytes}
    (hfield : depth ≤ maxDepth → ∀ b, Fine (field b))
    (hlt : ∀ b f rest, field b = .ok (f, rest) → rest.length < b.length) (hb : b ≠ []) :
    Fine (parseSelectionSet field depth b) := by
  obtain ⟨c, cs, rfl⟩ := List.exists_cons_of_ne_nil hb
  unfold parseSelectionSet
  split_ifs with hdepth
  · exact fine_fail _
  · dsimp only
    split
    · exact fine_fail _
    · split_ifs
      · exact fine_fail _
      · exact selectionLoop_fine (hfield (by omega)) hlt _ _

theorem parseField_fine (stack depth : Nat) (operation : Operation) (b : Bytes) (hdepth : depth ≤ maxDepth)
    (hstack : maxDepth + 2 < stack + depth) : Fine (parseField fromSlice vars stack depth operation b) := by
  induction stack generalizing depth operation b with
  | zero => omega
  | succ stack ih =>
    rw [parseField]
    split_ifs
    · exact fine_fail _
    · exact fine_fail _
    · dsimp only
      split_ifs
      · exact fine_fail _
      · have hargs : Fine (fieldArgs fromSlice vars stack depth (skipWs (skipIdent (skipWs b)))) :=
          fieldArgs_fine stack depth _ (by omega) (by omega)
        split
        · rename_i e he
          exact hargs.error he
        · rename_i args afterArgs _
          have hdirectives := skipDirectives_fine afterArgs
          split
          · rename_i e he
            exact hdirectives.error he
          · rename_i afterDirectives _
            refine Fine.map ?_ _
            rw [fieldSelection]
            split_ifs with hbrace
            · refine (parseSelectionSet_fine ?_ (fun _ _ _ h => parseField_length h) ?_).map _
              · intro hle b
                exact ih (depth + 1) .query b hle (by omega)
              · rintro rfl
                cases hbrace
            · exact fine_ok _

theorem finishQuery_fine (f : ParsedField) (rest : Bytes) : Fine (finishQuery f rest) := by
  rw [finishQuery]
  split
  · exact fine_fail _
  · split_ifs
    · exact fine_ok _
    · exact fine_fail _
    · exact fine_fail _

theorem parseRoot_fine (operation : Operation) (b : Bytes) :
    Fine (parseRoot fromSlice vars (maxDepth + 3) operation b) := by
  unfold parseRoot
  split
  · exact fine_fail _
  split_ifs
  · split
    · exact fine_fail _
    rename_i d ds _
    split_ifs
    · exact fine_fail _
    · exact fine_fail _
    have hfield : Fine (parseField fromSlice vars (maxDepth + 3) 0 operation (d :: ds)) :=
      parseField_fine (maxDepth + 3) 0 operation (d :: ds) (Nat.zero_le _) (by omega)
    split
    · rename_i e he
      exact hfield.error he
    · exact finishQuery_fine _ _
  · exact fine_fail _

theorem parseQuery_fine (query : Bytes) : Fine (parseQuery fromSlice vars (maxDepth + 3) query) := by
  have hheader := skipDefinitions_fine (skipName (skipWs (readOperation (skipWs query)).2))
  rw [parseQuery, skipHeader]
  split
  · rename_i e he
    exact hheader.error he
  · exact parseRoot_fine _ _

end

/-- On every text and with all variables the parser returns a field or an error; calls of `parse_field` and
`parse_value` are never more than `MAX_DEPTH + 3` deep. -/
theorem parseQuery_returns (fromSlice : Bytes → Except String Value) (vars : Value) (query : Bytes) :
    (∃ f, parseQuery fromSlice vars (maxDepth + 3) query = .ok f) ∨
      ∃ text, parseQuery fromSlice vars (maxDepth + 3) query = .error (.error text) := by
  cases h : parseQuery fromSlice vars (maxDepth + 3) query with
  | ok f => exact .inl ⟨f, rfl⟩
  | error e =>
    obtain ⟨text, rfl⟩ := parseQuery_fine query e h
    exact .inr ⟨text, rfl⟩

end Ecat.Graphql
