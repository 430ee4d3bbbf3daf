import Ecat.GraphqlGrammar
import Ecat.GraphqlTotal

/-! What the parser accepts against the grammar: groups are scanned for their end first and their parts are read
after that, so that text may be left over. A reading is tidy where nothing is, and then it is in the grammar. -/

namespace Ecat.Graphql

open Json

/-! ### Where values end -/

def groupEnd (opening closing : UInt8) (b : Bytes) : Bytes :=
  match skipBalanced opening closing 0 b with
  | .ok rest => rest
  | .error _ => []

/-- What is left after the value in front. -/
def valueEnd : Bytes → Bytes
  | [] => []
  | c :: cs =>
    if isQuote c then (skipString (c :: cs)).2
    else if c = lbracket then groupEnd lbracket rbracket (c :: cs)
    else if c = lbrace then groupEnd lbrace rbrace (c :: cs)
    else if c = dollar then skipIdent cs
    else (c :: cs).dropWhile isLiteralByte

/-- The parts of the group in front that are not blank. -/
def groupParts (b : Bytes) : List Bytes := solid (splitTopLevel (upTo b (valueEnd b)).tail.dropLast)

/-- Where the value of a part begins. -/
def entryValue (named : Bool) (part : Bytes) : Bytes :=
  if named then skipWs (skipWs (skipIdent (skipWs part))).tail else skipWs part

/-- There are only white space and comments, the last of which has its newline. -/
def Ended (b : Bytes) : Prop := skipWs (b ++ [comma]) = [comma]

instance (b : Bytes) : Decidable (Ended b) := inferInstanceAs (Decidable (_ = _))

/-- No value is empty, every variable has a name, and nothing stands after the value in a part of a group. -/
inductive Tidy : Bytes → Prop
  | token {c : UInt8} {cs : Bytes} (hliteral : isLiteralByte c) (hlist : c ≠ lbracket) (hobject : c ≠ lbrace)
      (hname : c = dollar → skipIdent cs ≠ cs) : Tidy (c :: cs)
  | group {named : Bool} {cs : Bytes}
      (hvalues : ∀ part ∈ groupParts (opening named :: cs), Tidy (entryValue named part))
      (hends : ∀ part ∈ groupParts (opening named :: cs), Ended (valueEnd (entryValue named part))) :
      Tidy (opening named :: cs)

section

variable {fromSlice : Bytes → Except String Value} {vars : Value} {value : Bytes → Scan (Value × Bytes)}

theorem ValueStep.valueEnd_eq {b rest : Bytes} {v : Value} (h : ValueStep fromSlice vars value b v rest) :
    rest = valueEnd b := by
  cases h with
  | string hquote hblock hstring hv => rw [valueEnd, if_pos hquote, hstring]
  | list hgroup hv => rw [valueEnd, if_neg (by decide), if_pos rfl, groupEnd, hgroup]
  | object hgroup hv => rw [valueEnd, if_neg (by decide), if_neg (by decide), if_pos rfl, groupEnd, hgroup]
  | reference hv => rw [valueEnd, if_neg (by decide), if_neg (by decide), if_neg (by decide), if_pos rfl]
  | literal hquote hlist hobject hdollar hv =>
    rw [valueEnd, if_neg hquote, if_neg hlist, if_neg hobject, if_neg hdollar]

/-! ### The parts of a group -/

def joinComma : List Bytes → Bytes
  | [] => []
  | [part] => part
  | part :: parts => part ++ comma :: joinComma parts

theorem joinComma_cons (part : Bytes) {parts : List Bytes} (h : parts ≠ []) :
    joinComma (part :: parts) = part ++ comma :: joinComma parts := by
  cases parts with
  | nil => exact absurd rfl h
  | cons => rfl

theorem splitFrom_ne_nil (g : Groups) (part b : Bytes) : splitFrom g part b ≠ [] := by
  fun_induction splitFrom g part b with
  | case1 => simp
  | case2 _ _ _ _ _ ih => exact ih
  | case3 => simp
  | case4 _ _ _ _ _ _ ih => exact ih

theorem append_upTo {b rest : Bytes} (h : rest <:+ b) : upTo b rest ++ rest = b := by
  obtain ⟨pre, rfl⟩ := h
  rw [upTo_append]

/-- The parts with commas between them are the text again. -/
theorem joinComma_splitFrom (g : Groups) (part b : Bytes) : joinComma (splitFrom g part b) = part ++ b := by
  fun_induction splitFrom g part b with
  | case1 => simp [joinComma]
  | case2 g part c cs hquote ih =>
    have hsub := (skipString_suffix c cs).trans (List.suffix_cons c cs)
    rw [ih, List.append_assoc, append_upTo hsub]
  | case3 g part c cs hquote hcomma ih =>
    rw [joinComma_cons _ (splitFrom_ne_nil _ _ _), ih, hcomma.1]
    rfl
  | case4 g part c cs hquote hcomma ih =>
    rw [ih, List.append_assoc]
    rfl

theorem skipBalanced_closing {opening closing : UInt8} {depth : Nat} {b rest : Bytes}
    (h : skipBalanced opening closing depth b = .ok rest) : ∃ pre : Bytes, b = pre ++ closing :: rest := by
  fun_induction skipBalanced opening closing depth b with
  | case1 => cases h
  | case2 depth cs ih =>
    obtain ⟨pre, rfl⟩ := ih h
    exact ⟨opening :: pre, rfl⟩
  | case3 =>
    cases h
    exact ⟨[], rfl⟩
  | case4 depth cs _ _ ih =>
    obtain ⟨pre, rfl⟩ := ih h
    exact ⟨closing :: pre, rfl⟩
  | case5 => cases h
  | case6 depth c cs _ _ _ _ _ ih =>
    obtain ⟨pre, hpre⟩ := ih h
    have hsub := (skipString_suffix c cs).trans (List.suffix_cons c cs)
    refine ⟨upTo (c :: cs) (skipString (c :: cs)).2 ++ pre, ?_⟩
    rw [List.append_assoc, ← hpre, append_upTo hsub]
  | case7 depth c cs _ _ _ ih =>
    obtain ⟨pre, rfl⟩ := ih h
    exact ⟨c :: pre, rfl⟩

theorem opening_ne_closing (named : Bool) : opening named ≠ closing named := by
  cases named <;> decide

/-- A group is its brackets and what is between them. -/
theorem group_inside {named : Bool} {cs rest : Bytes}
    (h : skipBalanced (opening named) (closing named) 0 (opening named :: cs) = .ok rest) :
    ∃ inner : Bytes, cs = inner ++ closing named :: rest ∧
      upTo (opening named :: cs) rest = opening named :: (inner ++ [closing named]) := by
  obtain ⟨pre, hpre⟩ := skipBalanced_closing h
  cases pre with
  | nil => exact absurd (List.cons.inj hpre).1 (opening_ne_closing named)
  | cons c inner =>
    obtain ⟨rfl, hcs⟩ := List.cons.inj hpre
    refine ⟨inner, hcs, ?_⟩
    have htoken := upTo_append (opening named :: (inner ++ [closing named])) rest
    rw [List.cons_append, List.append_assoc, List.singleton_append] at htoken
    rw [hcs]
    exact htoken

/-- A part of a group with one entry in it. -/
def PartText (fromSlice : Bytes → Except String Value) (named : Bool) (part : Bytes) : Prop :=
  ∃ start mid : Bytes, EntryStart named (skipWs part) start ∧ Text fromSlice none start mid ∧ Ended mid

theorem skipFrom_ended {comment : Bool} {b : Bytes} (h : skipFrom comment (b ++ [comma]) = [comma]) {c : UInt8}
    (hws : ¬ isWhitespace c) (hhash : c ≠ hash) (tail : Bytes) : skipFrom comment (b ++ c :: tail) = c :: tail := by
  induction b generalizing comment with
  | nil =>
    cases comment with
    | true => cases h
    | false => exact skipWs_cons hws hhash tail
  | cons d ds ih =>
    rw [List.cons_append, skipFrom] at h ⊢
    split_ifs at h ⊢
    · exact ih h
    · exact ih h
    · exact ih h
    · have hlength := congrArg List.length h
      simp at hlength

theorem Ended.skip {b : Bytes} (h : Ended b) {c : UInt8} (hws : ¬ isWhitespace c) (hhash : c ≠ hash) (tail : Bytes) :
    skipWs (b ++ c :: tail) = c :: tail :=
  skipFrom_ended h hws hhash tail

theorem closing_byte (named : Bool) :
    ¬ isWhitespace (closing named) ∧ closing named ≠ hash ∧ ¬ isLiteralByte (closing named) := by
  cases named <;> decide

/-- A part with an entry, before a comma or the closing bracket. -/
theorem PartText.entry {named : Bool} {part : Bytes} (h : PartText fromSlice named part) {c : UInt8}
    (hc : c = comma ∨ c = closing named) {tail rest : Bytes} (hrest : Text fromSlice (some named) (c :: tail) rest) :
    Text fromSlice (some named) (skipWs (part ++ c :: tail)) rest := by
  have hbyte : ¬ isWhitespace c ∧ c ≠ hash ∧ ¬ isLiteralByte c := by
    rcases hc with rfl | rfl
    · decide
    · exact closing_byte named
  obtain ⟨start, mid, hstart, hvalue, hended⟩ := h
  have hnext := hended.skip hbyte.1 hbyte.2.1 tail
  rw [skipWs_append (hstart.ne_nil hvalue.ne_nil)]
  refine .entry (hstart.append hvalue.ne_nil _) (hvalue.append (.inr (delimited_cons hbyte.2.2 tail))) ?_ ?_
  · rw [hnext]
    exact hc.imp (congrArg some) (congrArg some)
  · rwa [hnext]

/-- Parts that are blank or have one entry are the entries of the group. -/
theorem text_parts {named : Bool} {parts : List Bytes} (hne : parts ≠ [])
    (h : ∀ part ∈ solid parts, PartText fromSlice named part) (tail : Bytes) :
    Text fromSlice (some named) (skipWs (joinComma parts ++ closing named :: tail)) tail := by
  induction parts with
  | nil => exact absurd rfl hne
  | cons part parts ih =>
    have hpart : IsBlank part ∨ PartText fromSlice named part := by
      by_cases hblank : IsBlank part
      · exact .inl hblank
      · exact .inr (h part (by rw [solid_cons hblank]; exact List.mem_cons_self))
    have hparts : ∀ p ∈ solid parts, PartText fromSlice named p := by
      intro p hp
      refine h p ?_
      by_cases hblank : IsBlank part
      · rwa [solid_blank hblank]
      · rw [solid_cons hblank]
        exact List.mem_cons_of_mem _ hp
    have hstep : ∀ (c : UInt8) (tail' : Bytes), c = comma ∨ c = closing named →
        Text fromSlice (some named) (c :: tail') tail → Text fromSlice (some named) (skipWs (part ++ c :: tail')) tail := by
      intro c tail' hc hrest
      rcases hpart with hblank | hpart
      · have hbyte : ¬ isWhitespace c ∧ c ≠ hash := by
          rcases hc with rfl | rfl
          · decide
          · exact ⟨(closing_byte named).1, (closing_byte named).2.1⟩
        rwa [skipWs_blank hblank, skipWs_cons hbyte.1 hbyte.2]
      · exact hpart.entry hc hrest
    by_cases hnil : parts = []
    · subst hnil
      exact hstep _ tail (.inr rfl) .close
    · rw [joinComma_cons part hnil, List.append_assoc, List.cons_append]
      exact hstep _ _ (.inl rfl) (.comma (ih hnil hparts))

/-! ### Values -/

/-- What is read ends where the value ends, and where it is tidy it is in the grammar. -/
def Sound (fromSlice : Bytes → Except String Value) (value : Bytes → Scan (Value × Bytes)) : Prop :=
  ∀ (b rest : Bytes) (v : Value), value b = .ok (v, rest) →
    rest = valueEnd (skipWs b) ∧ (Tidy (skipWs b) → Text fromSlice none (skipWs b) rest)

theorem Tidy.named_reference {cs : Bytes} (h : Tidy (dollar :: cs)) : skipIdent cs ≠ cs := by
  generalize hb : dollar :: cs = b at h
  cases h with
  | token hliteral hlist hobject hname =>
    obtain ⟨rfl, rfl⟩ := List.cons.inj hb
    exact hname rfl
  | @group named =>
    have hc := (List.cons.inj hb).1
    cases named <;> cases hc

theorem Tidy.literal {c : UInt8} {cs : Bytes} (h : Tidy (c :: cs)) (hlist : c ≠ lbracket) (hobject : c ≠ lbrace) :
    isLiteralByte c := by
  generalize hb : c :: cs = b at h
  cases h with
  | token hliteral =>
    obtain ⟨rfl, rfl⟩ := List.cons.inj hb
    exact hliteral
  | @group named =>
    have hc := (List.cons.inj hb).1
    cases named with
    | false => exact absurd hc hlist
    | true => exact absurd hc hobject

theorem Tidy.parts (named : Bool) {cs : Bytes} (h : Tidy (opening named :: cs)) :
    (∀ part ∈ groupParts (opening named :: cs), Tidy (entryValue named part)) ∧
      ∀ part ∈ groupParts (opening named :: cs), Ended (valueEnd (entryValue named part)) := by
  generalize hb : opening named :: cs = b at h
  cases h with
  | token _ hlist hobject =>
    obtain ⟨rfl, rfl⟩ := List.cons.inj hb
    cases named with
    | false => exact absurd rfl hlist
    | true => exact absurd rfl hobject
  | @group named' _ hvalues hends =>
    obtain ⟨hc, rfl⟩ := List.cons.inj hb
    have hnamed : named = named' := by
      cases named <;> cases named' <;> first | rfl | cases hc
    subst hnamed
    exact ⟨hvalues, hends⟩

/-- A group with an entry in every part that is not blank. -/
theorem group_text (named : Bool) {cs rest : Bytes}
    (hgroup : skipBalanced (opening named) (closing named) 0 (opening named :: cs) = .ok rest)
    (hend : rest = valueEnd (opening named :: cs))
    (hparts : ∀ part ∈ groupParts (opening named :: cs), PartText fromSlice named part) : Text fromSlice none (opening named :: cs) rest := by
  obtain ⟨inner, hcs, htoken⟩ := group_inside hgroup
  have hinner : (upTo (opening named :: cs) (valueEnd (opening named :: cs))).tail.dropLast = inner := by
    rw [← hend, htoken]
    simp
  rw [groupParts, hinner] at hparts
  have htext := text_parts (splitFrom_ne_nil .none [] inner) hparts rest
  rw [joinComma_splitFrom, List.nil_append, ← hcs] at htext
  exact .group htext

theorem mem_solid_items {parts : List Bytes} {vs : List Value} (h : parseItems value parts = .ok vs) {part : Bytes}
    (hpart : part ∈ solid parts) : ∃ v rest, value part = .ok (v, rest) := by
  obtain ⟨v, _, rest, hv⟩ := exists_right_of_forall₂ (parseItems_solid h) hpart
  exact ⟨v, rest, hv⟩

/-- The parts that are read. -/
theorem groupParts_inside (named : Bool) {cs rest inner : Bytes} (hend : rest = valueEnd (opening named :: cs))
    (hinside : inside (upTo (opening named :: cs) rest) = .ok inner) :
    groupParts (opening named :: cs) = solid (splitTopLevel inner) := by
  rw [groupParts, ← hend]
  rw [inside] at hinside
  split at hinside
  · cases hinside
  · cases hinside
    rfl

theorem list_text (hsound : Sound fromSlice value) {cs rest : Bytes} {v : Value}
    (hgroup : skipBalanced lbracket rbracket 0 (lbracket :: cs) = .ok rest) (hend : rest = valueEnd (lbracket :: cs))
    (hv : parseList value (upTo (lbracket :: cs) rest) = .ok v) (ht : Tidy (lbracket :: cs)) :
    Text fromSlice none (lbracket :: cs) rest := by
  obtain ⟨hvalues, hends⟩ := ht.parts false
  refine group_text false hgroup hend fun part hpart => ?_
  rw [parseList] at hv
  split at hv
  · cases hv
  rename_i inner hinside
  obtain ⟨vs, hvs, rfl⟩ := map_ok hv
  have hitem := hpart
  rw [groupParts_inside false hend hinside] at hitem
  obtain ⟨v, rest', hv⟩ := mem_solid_items hvs hitem
  obtain ⟨hrest, htext⟩ := hsound _ _ _ hv
  have hended := hends part hpart
  exact ⟨skipWs part, rest', rfl, htext (hvalues part hpart), hrest ▸ hended⟩

theorem object_text (hsound : Sound fromSlice value) {cs rest : Bytes} {v : Value}
    (hgroup : skipBalanced lbrace rbrace 0 (lbrace :: cs) = .ok rest) (hend : rest = valueEnd (lbrace :: cs))
    (hv : parseInputObject value (upTo (lbrace :: cs) rest) = .ok v) (ht : Tidy (lbrace :: cs)) :
    Text fromSlice none (lbrace :: cs) rest := by
  obtain ⟨hvalues, hends⟩ := ht.parts true
  refine group_text true hgroup hend fun part hpart => ?_
  rw [parseInputObject] at hv
  split at hv
  · cases hv
  rename_i inner hinside
  obtain ⟨m, hm, rfl⟩ := map_ok hv
  have hitem := hpart
  rw [groupParts_inside true hend hinside] at hitem
  obtain ⟨entries, _, _, hentries⟩ := parseEntries_solid nodup_keys_nil hm
  obtain ⟨entry, _, hentry⟩ := exists_right_of_forall₂ hentries hitem
  obtain ⟨hname, _, ds, rest', hcolon, hv⟩ := parseEntry_step hentry
  obtain ⟨hrest, htext⟩ := hsound _ _ _ hv
  have hstart : entryValue true part = skipWs ds := by
    rw [entryValue, if_pos rfl, hcolon, List.tail_cons]
  have hended := hends part hpart
  have htidy := hvalues part hpart
  rw [hstart] at hended htidy
  exact ⟨skipWs ds, rest', ⟨hname, ds, hcolon, rfl⟩, htext htidy, hrest ▸ hended⟩

theorem ValueStep.text (hsound : Sound fromSlice value) {b rest : Bytes} {v : Value}
    (h : ValueStep fromSlice vars value b v rest) (ht : Tidy b) : Text fromSlice none b rest := by
  have hend := h.valueEnd_eq
  cases h with
  | string hquote hblock hstring hv => exact .token (.string hquote hblock hstring)
  | list hgroup hv => exact list_text hsound hgroup hend hv ht
  | object hgroup hv => exact object_text hsound hgroup hend hv ht
  | reference hv => exact .token (.reference ht.named_reference)
  | literal hquote hlist hobject hdollar hv =>
    exact .token (.literal (ht.literal hlist hobject) hquote hlist hobject hdollar (by rw [hv]; rfl))

theorem parseValue_sound (stack depth : Nat) : Sound fromSlice (parseValue fromSlice vars stack depth) := by
  induction stack generalizing depth with
  | zero =>
    intro b rest v h
    cases h
  | succ stack ih =>
    intro b rest v h
    obtain ⟨_, step⟩ := parseValue_step h
    exact ⟨step.valueEnd_eq, step.text (ih (depth + 1))⟩

end

/-! ### Arguments -/

theorem skipFrom_start (comment : Bool) (b : Bytes) :
    skipFrom comment b = [] ∨ ∃ c cs, skipFrom comment b = c :: cs ∧ ¬ isWhitespace c ∧ c ≠ hash := by
  induction b generalizing comment with
  | nil => exact .inl rfl
  | cons c cs ih =>
    rw [skipFrom]
    split_ifs with hcomment hws hhash
    · exact ih _
    · exact ih _
    · exact ih _
    · exact .inr ⟨c, cs, rfl, hws, hhash⟩

theorem skipWs_idem (b : Bytes) : skipWs (skipWs b) = skipWs b := by
  rcases skipFrom_start false b with hnil | ⟨c, cs, hcons, hws, hhash⟩
  · have hskip : skipWs b = [] := hnil
    rw [hskip]
    rfl
  · have hskip : skipWs b = c :: cs := hcons
    rw [hskip, skipWs_cons hws hhash]

/-- Every argument has a value, and nothing stands after the parenthesis that ends them. -/
inductive TidyArgs : Bytes → Prop
  | close {b : Bytes} (h : skipWs b = [rparen]) : TidyArgs b
  | argument {b : Bytes} (hopen : (skipWs b).head? ≠ some rparen) (hvalue : Tidy (entryValue true b))
      (hrest : TidyArgs (skipComma (skipWs (valueEnd (entryValue true b))))) : TidyArgs b

theorem argsLoop_text {fromSlice : Bytes → Except String Value} {value : Bytes → Scan (Value × Bytes)} (hsound : Sound fromSlice value) {args result : List (String × Value)}
    {b : Bytes} (h : argsLoop value args b = .ok result) (ht : TidyArgs b) : Arguments fromSlice (skipWs b) [] := by
  induction ht generalizing args with
  | close hclose =>
    rw [hclose]
    exact .close
  | @argument b hopen hvalue _ ih =>
    obtain ⟨cs, hclose, _⟩ | ⟨ds, rest, v, hname, hcolon, hv, _, hloop⟩ := argsLoop_step h
    · rw [hclose] at hopen
      exact absurd rfl hopen
    · obtain ⟨hrest, htext⟩ := hsound _ _ _ hv
      have hstart : entryValue true b = skipWs ds := by
        rw [entryValue, if_pos rfl, hcolon, List.tail_cons]
      rw [skipWs_idem] at hrest htext
      rw [hstart] at hvalue ih
      rw [hrest] at hloop
      exact .argument ⟨hname, ds, hcolon, rfl⟩ (hrest ▸ htext hvalue) (ih hloop)

theorem parseArgs_text {fromSlice : Bytes → Except String Value} {vars : Value} {stack depth : Nat} {cs : Bytes}
    {args : List (String × Value)} (h : parseArgs fromSlice vars stack depth (lparen :: cs) = .ok args)
    (ht : TidyArgs cs) : Arguments fromSlice (skipWs cs) [] := by
  rw [parseArgs, skipWs_cons (by decide) (by decide)] at h
  exact argsLoop_text (parseValue_sound stack depth) h ht

/-! ### Fields -/

/-- Every directive has a name. -/
inductive DirectivesNamed : Bytes → Prop
  | done {b : Bytes} (h : b.head? ≠ some atSign) : DirectivesNamed b
  | directive {cs mid : Bytes} (hname : skipIdent cs ≠ cs) (hskip : skipDirective (atSign :: cs) = .ok mid)
      (hrest : DirectivesNamed (skipWs mid)) : DirectivesNamed (atSign :: cs)

theorem DirectivesNamed.directives {b rest : Bytes} (h : DirectivesNamed b) (hskip : skipDirectives b = .ok rest) :
    Directives b rest := by
  induction h with
  | @done b hat =>
    have hrest : rest = b := by
      cases b with
      | nil =>
        rw [skipDirectives] at hskip
        cases hskip
        rfl
      | cons c cs =>
        rw [skipDirectives, if_neg (by simpa using hat)] at hskip
        cases hskip
        rfl
    rw [hrest]
    exact .done hat
  | @directive cs mid hname hmid _ ih =>
    rw [skipDirectives, if_pos rfl, hmid] at hskip
    dsimp only at hskip
    split at hskip
    · exact .directive hname hmid (ih hskip)
    · cases hskip

/-- What is left after the arguments, by their parentheses. -/
def ArgsSkip (b rest : Bytes) : Prop :=
  (b.head? ≠ some lparen ∧ rest = b) ∨
    b.head? = some lparen ∧ ∃ after, skipParens 0 b = .ok after ∧ rest = skipWs after

/-- The arguments and the directives of a field are tidy. -/
structure TidyHead (b : Bytes) : Prop where
  args : ∀ cs after, b = lparen :: cs → skipParens 0 b = .ok after → TidyArgs (upTo b after).tail
  directives : ∀ rest, ArgsSkip b rest → DirectivesNamed rest

/-- The fields by their names and brackets: the places after their names, and what is left. -/
inductive FieldHeads : Bool → Bytes → List Bytes → Bytes → Prop
  | leaf {b mid rest : Bytes} (hname : skipIdent b ≠ b) (hargs : ArgsSkip (skipWs (skipIdent b)) mid)
      (hdirectives : skipDirectives mid = .ok rest) (hopen : rest.head? ≠ some lbrace) :
      FieldHeads false b [skipWs (skipIdent b)] rest
  | branch {b mid cs rest : Bytes} {heads : List Bytes} (hname : skipIdent b ≠ b)
      (hargs : ArgsSkip (skipWs (skipIdent b)) mid) (hdirectives : skipDirectives mid = .ok (lbrace :: cs))
      (hempty : (skipWs cs).head? ≠ some rbrace) (hfields : FieldHeads true (skipWs cs) heads rest) :
      FieldHeads false b (skipWs (skipIdent b) :: heads) rest
  | close {cs : Bytes} : FieldHeads true (rbrace :: cs) [] cs
  | more {b mid rest : Bytes} {heads heads' : List Bytes} (hopen : b.head? ≠ some rbrace)
      (hfield : FieldHeads false b heads mid)
      (hrest : FieldHeads true (skipWs mid) heads' rest) : FieldHeads true b (heads ++ heads') rest

section

variable {fromSlice : Bytes → Except String Value} {vars : Value}

/-- The arguments at a place are read without an error. -/
def ArgsRead (fromSlice : Bytes → Except String Value) (vars : Value) (b : Bytes) : Prop :=
  ∃ (stack depth : Nat) (args : List (String × Value)) (rest : Bytes),
    fieldArgs fromSlice vars stack depth b = .ok (args, rest)

theorem argumentGroup {b mid : Bytes} (hread : ArgsRead fromSlice vars b) (hskip : ArgsSkip b mid) (ht : TidyHead b) :
    ArgumentGroup fromSlice b mid := by
  obtain ⟨hparen, rfl⟩ | ⟨hparen, after, hgroup, rfl⟩ := hskip
  · exact .inl ⟨hparen, rfl⟩
  · obtain ⟨cs, rfl⟩ := List.head?_eq_some_iff.mp hparen
    obtain ⟨stack, depth, args, rest, hargs⟩ := hread
    obtain ⟨hnot, _⟩ | ⟨_, after', hgroup', _, hparse⟩ := fieldArgs_step hargs
    · exact absurd rfl hnot
    rw [hgroup] at hgroup'
    cases hgroup'
    have hb := append_upTo ((skipGroup_consumes cs).suffix after hgroup)
    have hlt := (skipGroup_consumes cs).lt after hgroup
    have htidy := ht.args cs after rfl hgroup
    cases hraw : upTo (lparen :: cs) after with
    | nil =>
      rw [hraw, List.nil_append] at hb
      rw [hb] at hlt
      exact absurd hlt (lt_irrefl _)
    | cons c raw =>
      rw [hraw, List.cons_append] at hb
      obtain ⟨rfl, rfl⟩ := List.cons.inj hb
      rw [hraw] at hparse htidy
      have htext := parseArgs_text hparse htidy
      refine .inr ⟨_, after, rfl, ?_, rfl⟩
      rw [skipWs_append htext.ne_nil]
      exact htext.append after

/-- Where every head is tidy the fields are in the grammar. -/
theorem FieldHeads.text {many : Bool} {b rest : Bytes} {heads : List Bytes} (h : FieldHeads many b heads rest)
    (hread : ∀ head ∈ heads, ArgsRead fromSlice vars head) (ht : ∀ head ∈ heads, TidyHead head) :
    FieldText fromSlice many b rest := by
  induction h with
  | leaf hname hargs hdirectives hopen =>
    have htidy := ht _ List.mem_cons_self
    exact .leaf hname (argumentGroup (hread _ List.mem_cons_self) hargs htidy)
      ((htidy.directives _ hargs).directives hdirectives) hopen
  | branch hname hargs hdirectives hempty hfields ih =>
    have htidy := ht _ List.mem_cons_self
    refine .branch hname (argumentGroup (hread _ List.mem_cons_self) hargs htidy)
      ((htidy.directives _ hargs).directives hdirectives) hempty (ih ?_ ?_)
    · exact fun head hhead => hread head (List.mem_cons_of_mem _ hhead)
    · exact fun head hhead => ht head (List.mem_cons_of_mem _ hhead)
  | close => exact .close
  | more hopen hfield hrest ihfield ihrest =>
    refine .more (ihfield ?_ ?_) (ihrest ?_ ?_)
    · exact fun head hhead => hread head (List.mem_append_left _ hhead)
    · exact fun head hhead => ht head (List.mem_append_left _ hhead)
    · exact fun head hhead => hread head (List.mem_append_right _ hhead)
    · exact fun head hhead => ht head (List.mem_append_right _ hhead)

/-! ### The heads of an accepted query -/

theorem fieldArgs_skip {stack depth : Nat} {b rest : Bytes} {args : List (String × Value)}
    (h : fieldArgs fromSlice vars stack depth b = .ok (args, rest)) : ArgsSkip b rest := by
  obtain ⟨hparen, _, hrest⟩ | ⟨hparen, after, hgroup, hrest, _⟩ := fieldArgs_step h
  · exact .inl ⟨hparen, hrest⟩
  · exact .inr ⟨hparen, after, hgroup, hrest⟩

/-- The heads of a field or of fields, all of whose arguments are read. -/
def HeadsRead (fromSlice : Bytes → Except String Value) (vars : Value) (many : Bool) (b rest : Bytes) : Prop :=
  ∃ heads : List Bytes, FieldHeads many b heads rest ∧ ∀ head ∈ heads, ArgsRead fromSlice vars head

theorem selectionLoop_heads {field : Bytes → Scan (ParsedField × Bytes)} {set result : SelectionSet} {b rest : Bytes}
    (hfield : ∀ b f rest, field b = .ok (f, rest) → HeadsRead fromSlice vars false (skipWs b) rest)
    (hb : skipWs b = b) (h : selectionLoop field set b = .ok (result, rest)) :
    HeadsRead fromSlice vars true b rest := by
  fun_induction selectionLoop field set b with
  | case1 => cases h
  | case2 set cs =>
    cases h
    exact ⟨[], .close, fun _ hhead => (List.not_mem_nil hhead).elim⟩
  | case3 => cases h
  | case4 => cases h
  | case5 set c cs hclose _ f rest' hf _ ih =>
    obtain ⟨heads, hheads, hread⟩ := hfield _ _ _ hf
    obtain ⟨heads', hheads', hread'⟩ := ih (skipWs_idem rest') h
    rw [hb] at hheads
    refine ⟨heads ++ heads', .more (by simpa using hclose) hheads hheads', ?_⟩
    intro head hhead
    rcases List.mem_append.mp hhead with hhead | hhead
    · exact hread head hhead
    · exact hread' head hhead
  | case6 => cases h

theorem parseField_headsRead {stack depth : Nat} {operation : Operation} {b rest : Bytes} {f : ParsedField}
    (h : parseField fromSlice vars stack depth operation b = .ok (f, rest)) :
    HeadsRead fromSlice vars false (skipWs b) rest := by
  induction stack generalizing depth operation b rest f with
  | zero => cases h
  | succ stack ih =>
    have step := parseField_step h
    obtain ⟨afterArgs, afterDirectives, hargs, hdirectives, hselection⟩ := step.parts
    have hread : ArgsRead fromSlice vars (skipWs (skipIdent (skipWs b))) := ⟨stack, depth, _, _, hargs⟩
    obtain ⟨hopen, _, rfl⟩ | ⟨hopen, _, _, hempty, set, _, hloop⟩ := fieldSelection_step hselection
    · refine ⟨_, .leaf step.named (fieldArgs_skip hargs) hdirectives hopen, ?_⟩
      intro head hhead
      rw [List.mem_singleton.mp hhead]
      exact hread
    · obtain ⟨cs, rfl⟩ := List.head?_eq_some_iff.mp hopen
      obtain ⟨heads, hheads, hreads⟩ := selectionLoop_heads (fun _ _ _ hf => ih hf) (skipWs_idem cs) hloop
      refine ⟨_, .branch step.named (fieldArgs_skip hargs) hdirectives hempty hheads, ?_⟩
      intro head hhead
      rcases List.mem_cons.mp hhead with rfl | hhead
      · exact hread
      · exact hreads head hhead

end

/-! ### The query -/

/-- Every directive of the operation itself has a name. -/
inductive DefinitionsNamed : Bytes → Prop
  | done {b : Bytes} (hparen : b.head? ≠ some lparen) (hat : b.head? ≠ some atSign) : DefinitionsNamed b
  | group {cs mid : Bytes} (hskip : skipParens 0 (lparen :: cs) = .ok mid) (hrest : DefinitionsNamed (skipWs mid)) :
      DefinitionsNamed (lparen :: cs)
  | directive {cs mid : Bytes} (hname : skipIdent cs ≠ cs) (hskip : skipDirective (atSign :: cs) = .ok mid)
      (hrest : DefinitionsNamed (skipWs mid)) : DefinitionsNamed (atSign :: cs)

theorem DefinitionsNamed.definitions {b rest : Bytes} (h : DefinitionsNamed b) (hskip : skipDefinitions b = .ok rest) :
    Definitions b rest := by
  induction h with
  | @done b hparen hat =>
    have hrest : rest = b := by
      cases b with
      | nil =>
        rw [skipDefinitions] at hskip
        cases hskip
        rfl
      | cons c cs =>
        rw [skipDefinitions, if_neg (by simpa using hparen), if_neg (by simpa using hat)] at hskip
        cases hskip
        rfl
    rw [hrest]
    exact .done hparen hat
  | @group cs mid hmid _ ih =>
    rw [skipDefinitions, if_pos rfl, hmid] at hskip
    dsimp only at hskip
    split at hskip
    · exact .group hmid (ih hskip)
    · cases hskip
  | @directive cs mid hname hmid _ ih =>
    rw [skipDefinitions, if_neg (by decide), if_pos rfl, hmid] at hskip
    dsimp only at hskip
    split at hskip
    · exact .directive hname hmid (ih hskip)
    · cases hskip

/-- A query's text by the scanners alone: the places after its fields' names, and what comes after its closing
brace. -/
def Outline (query : Bytes) (heads : List Bytes) (after : Bytes) : Prop :=
  ∃ cs rest, skipDefinitions (header query) = .ok (lbrace :: cs) ∧ FieldHeads false (skipWs cs) heads rest ∧
    skipWs rest = rbrace :: after

/-- The text is tidy at each of its places, and there is nothing after its closing brace. -/
structure TidyOutline (query : Bytes) (heads : List Bytes) (after : Bytes) : Prop where
  header : DefinitionsNamed (header query)
  heads : ∀ head ∈ heads, TidyHead head
  after : skipWs after = []

theorem ArgsSkip.unique {b rest rest' : Bytes} (h : ArgsSkip b rest) (h' : ArgsSkip b rest') : rest = rest' := by
  obtain ⟨hparen, rfl⟩ | ⟨hparen, after, hgroup, rfl⟩ := h
  · obtain ⟨_, rfl⟩ | ⟨hparen', _⟩ := h'
    · rfl
    · exact absurd hparen' hparen
  · obtain ⟨hparen', _⟩ | ⟨_, after', hgroup', rfl⟩ := h'
    · exact absurd hparen hparen'
    · rw [hgroup] at hgroup'
      cases hgroup'
      rfl

theorem FieldHeads.unique {many : Bool} {b rest rest' : Bytes} {heads heads' : List Bytes}
    (h : FieldHeads many b heads rest) (h' : FieldHeads many b heads' rest') : heads = heads' ∧ rest = rest' := by
  induction h generalizing heads' rest' with
  | leaf hname hargs hdirectives hopen =>
    cases h' with
    | leaf _ hargs' hdirectives' _ =>
      obtain rfl := hargs.unique hargs'
      rw [hdirectives] at hdirectives'
      cases hdirectives'
      exact ⟨rfl, rfl⟩
    | branch _ hargs' hdirectives' _ _ =>
      obtain rfl := hargs.unique hargs'
      rw [hdirectives] at hdirectives'
      cases hdirectives'
      exact absurd rfl hopen
  | branch hname hargs hdirectives hempty hfields ih =>
    cases h' with
    | leaf _ hargs' hdirectives' hopen' =>
      obtain rfl := hargs.unique hargs'
      rw [hdirectives] at hdirectives'
      cases hdirectives'
      exact absurd rfl hopen'
    | branch _ hargs' hdirectives' _ hfields' =>
      obtain rfl := hargs.unique hargs'
      rw [hdirectives] at hdirectives'
      cases hdirectives'
      obtain ⟨rfl, rfl⟩ := ih hfields'
      exact ⟨rfl, rfl⟩
  | close =>
    cases h' with
    | close => exact ⟨rfl, rfl⟩
    | more hopen => exact absurd rfl hopen
  | more hopen hfield hrest ihfield ihrest =>
    cases h' with
    | close => exact absurd rfl hopen
    | more _ hfield' hrest' =>
      obtain ⟨rfl, rfl⟩ := ihfield hfield'
      obtain ⟨rfl, rfl⟩ := ihrest hrest'
      exact ⟨rfl, rfl⟩

theorem Outline.unique {query after after' : Bytes} {heads heads' : List Bytes} (h : Outline query heads after)
    (h' : Outline query heads' after') : heads = heads' ∧ after = after' := by
  obtain ⟨cs, rest, hheader, hheads, hclose⟩ := h
  obtain ⟨cs', rest', hheader', hheads', hclose'⟩ := h'
  rw [hheader] at hheader'
  cases hheader'
  obtain ⟨rfl, rfl⟩ := hheads.unique hheads'
  rw [hclose] at hclose'
  cases hclose'
  exact ⟨rfl, rfl⟩

section

variable {fromSlice : Bytes → Except String Value} {vars : Value}

theorem parseQuery_outline {stack : Nat} {query : Bytes} {f : ParsedField}
    (h : parseQuery fromSlice vars stack query = .ok f) :
    ∃ heads after, Outline query heads after ∧ ∀ head ∈ heads, ArgsRead fromSlice vars head := by
  obtain ⟨cs, rest, after, hheader, hfield, hclose⟩ := parseQuery_step h
  obtain ⟨heads, hheads, hread⟩ := parseField_headsRead hfield
  rw [skipWs_idem] at hheads
  exact ⟨heads, after, ⟨cs, rest, hheader, hheads, hclose⟩, hread⟩

theorem TidyOutline.isOperation {query after : Bytes} {heads : List Bytes} (h : Outline query heads after)
    (hread : ∀ head ∈ heads, ArgsRead fromSlice vars head) (ht : TidyOutline query heads after) :
    IsOperation fromSlice query := by
  obtain ⟨cs, rest, hheader, hheads, hclose⟩ := h
  exact ⟨cs, rest, after, ht.header.definitions hheader, hheads.text hread ht.heads, hclose, ht.after⟩

end

end Ecat.Graphql
