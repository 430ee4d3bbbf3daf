import Ecat.GraphqlLiteral
import Ecat.GraphqlTidy

/-! The other direction, for queries without comments between their braces: a text of the grammar is read as the
grammar reads it, and so is tidy. -/

namespace Ecat.Graphql

open Json

/-- What a JSON text of literal bytes consists of, unless it is a string, a list or an object. -/
def JsonScalars (fromSlice : Bytes → Except String Value) : Prop :=
  ∀ (token : Bytes) (v : Value), fromSlice token = .ok v → token.all isLiteralByte →
    (∀ c ∈ token.head?, ¬ isQuote c ∧ c ≠ lbracket ∧ c ≠ lbrace) → token.all isScalarByte

/-! ### White space without comments -/

theorem skipWs_split {b : Bytes} (h : hash ∉ b) : ∃ blank : Bytes, IsBlank blank ∧ b = blank ++ skipWs b := by
  induction b with
  | nil => exact ⟨[], isBlank_nil, rfl⟩
  | cons c cs ih =>
    have hc : c ≠ hash := fun heq => h (heq ▸ List.mem_cons_self)
    by_cases hws : isWhitespace c
    · obtain ⟨blank, hblank, hcs⟩ := ih fun hmem => h (List.mem_cons_of_mem _ hmem)
      have hskip : skipWs (c :: cs) = skipWs cs := by
        rw [skipWs, skipFrom, if_neg (by simp), if_pos hws]
        rfl
      have hblank' : IsBlank (c :: blank) := by simpa [IsBlank, hws] using hblank
      refine ⟨c :: blank, hblank', ?_⟩
      rw [hskip, List.cons_append, ← hcs]
    · exact ⟨[], isBlank_nil, (skipWs_cons hws hc cs).symm⟩

theorem IsBlank.gap {b : Bytes} (h : IsBlank b) : IsGap b :=
  List.all_eq_true.2 fun c hc => by simp [isGapByte, List.all_eq_true.1 h c hc]

theorem IsBlank.ended {b : Bytes} (h : IsBlank b) : Ended b := by
  rw [Ended, skipWs_blank h]
  exact skipWs_cons (by decide) (by decide) []

/-! ### Tokens -/

theorem skipSimple_restrict {q : UInt8} {b rest : Bytes} (h : skipSimple q b = (.ok (), rest)) :
    ∃ p : Bytes, b = p ++ rest ∧ p ≠ [] ∧ skipSimple q p = (.ok (), []) := by
  fun_induction skipSimple q b with
  | case1 => cases h
  | case2 => cases h
  | case3 hescape =>
    cases h
    refine ⟨[q], rfl, by simp, ?_⟩
    rw [skipSimple, if_neg hescape, if_pos rfl]
  | case4 => cases h
  | case5 d cs ih =>
    obtain ⟨p, rfl, hp, hskip⟩ := ih h
    refine ⟨backslash :: d :: p, rfl, by simp, ?_⟩
    rw [skipSimple, if_pos rfl]
    exact hskip
  | case6 d cs hescape =>
    cases h
    refine ⟨[q], rfl, by simp, ?_⟩
    rw [skipSimple, if_neg hescape, if_pos rfl]
  | case7 c d cs hescape hquote ih =>
    obtain ⟨p, hcs, hp, hskip⟩ := ih h
    refine ⟨c :: p, by rw [hcs]; rfl, by simp, ?_⟩
    obtain ⟨e, p, rfl⟩ := List.exists_cons_of_ne_nil hp
    rw [skipSimple, if_neg hescape, if_neg hquote]
    exact hskip

theorem literal_scalar {fromSlice : Bytes → Except String Value} (hjson : JsonScalars fromSlice) {token : Bytes}
    (hall : token.all isLiteralByte) (hhead : ∀ c ∈ token.head?, ¬ isQuote c ∧ c ≠ lbracket ∧ c ≠ lbrace)
    (h : (parseLiteral fromSlice token).isOk) : token.all isScalarByte := by
  rw [parseLiteral] at h
  split at h
  · rename_i v hv
    exact hjson token v hv hall hhead
  · split at h
    · rename_i hident
      refine List.all_eq_true.mpr fun c hc => ?_
      have hc' : isIdentByte c := List.all_eq_true.mp hident.1 c hc
      simp [isScalarByte, hc']
    · cases h

/-- What may follow a value whose text goes on with `rest`. -/
def Follow (rest tail : Bytes) : Prop := NoQuote tail ∧ (Delimited tail ∨ tail.head? = rest.head?)

/-- The text of a value, which ends where it does whatever follows it. -/
structure ValueText (b rest pre : Bytes) : Prop where
  eq : b = pre ++ rest
  nested : Nested false pre
  start : ∃ c cs, pre = c :: cs ∧ ¬ isWhitespace c ∧ c ≠ hash
  tidy : ∀ tail, Follow rest tail → Tidy (pre ++ tail) ∧ valueEnd (pre ++ tail) = tail

theorem ValueText.notMem {b rest pre : Bytes} (h : ValueText b rest pre) (hhash : hash ∉ b) : hash ∉ rest := by
  intro hmem
  apply hhash
  rw [h.eq]
  exact List.mem_append_right pre hmem

theorem Follow.delimited {rest tail : Bytes} (h : Follow rest tail) (hrest : Delimited rest) : Delimited tail := by
  rcases h.2 with htail | htail
  · exact htail
  · rwa [Delimited, htail]

theorem Follow.notIdent {rest tail : Bytes} (h : Follow rest tail) (hrest : ∀ c ∈ rest.head?, ¬ isIdentByte c) :
    ∀ c ∈ tail.head?, ¬ isIdentByte c := by
  rcases h.2 with htail | htail
  · exact htail.notIdent
  · rwa [htail]

theorem head_dropWhile (p : UInt8 → Bool) (b : Bytes) : ∀ c ∈ (b.dropWhile p).head?, ¬ p c := by
  induction b with
  | nil =>
    intro c hc
    cases hc
  | cons d ds ih =>
    by_cases hd : p d
    · rwa [List.dropWhile_cons_of_pos hd]
    · rw [List.dropWhile_cons_of_neg hd]
      intro c hc
      cases hc
      exact hd

theorem takeWhile_ne_nil {p : UInt8 → Bool} {b : Bytes} (h : b.dropWhile p ≠ b) : b.takeWhile p ≠ [] := by
  intro hnil
  have happend := @List.takeWhile_append_dropWhile _ p b
  rw [hnil, List.nil_append] at happend
  exact h happend

theorem Token.valueText {fromSlice : Bytes → Except String Value} (hjson : JsonScalars fromSlice) {b rest : Bytes}
    (hhash : hash ∉ b) (h : Token fromSlice b rest) : ∃ pre, ValueText b rest pre := by
  cases h with
  | @string c cs _ hquote hblock hstring =>
    rw [skipString, if_neg hblock] at hstring
    obtain ⟨p, rfl, hp, hskip⟩ := skipSimple_restrict hstring
    have hopen : ¬ p.take 2 = [c, c] := by
      intro htake
      rw [take_two_append (two_le_of_take htake)] at hblock
      exact hblock htake
    have htoken : IsString (c :: p) := ⟨by simpa using hquote, by rw [skipString, if_neg hopen, hskip]⟩
    have hnested : Nested false (c :: p) := by
      rw [← List.append_nil (c :: p)]
      exact .string htoken (by simp [NoQuote]) .nil
    have hliteral := quote_spec c hquote
    refine ⟨c :: p, rfl, hnested, ⟨c, p, rfl, (literalByte_spec c hliteral).1, ?_⟩, ?_⟩
    · exact fun heq => hhash (heq ▸ List.mem_cons_self)
    · intro tail htail
      have hne : ∀ d, ¬ isQuote d → c ≠ d := by
        rintro d hd rfl
        exact hd hquote
      refine ⟨.token hliteral (hne _ (by decide)) (hne _ (by decide)) (fun heq => absurd heq (hne _ (by decide))), ?_⟩
      have hskip' := htoken.skip htail.1
      rw [List.cons_append] at hskip' ⊢
      rw [valueEnd, if_pos hquote, hskip']
  | @reference cs hname =>
    have hall : (cs.takeWhile isIdentByte).all isIdentByte := List.all_takeWhile
    refine ⟨dollar :: cs.takeWhile isIdentByte, ?_, ?_, ⟨dollar, _, rfl, by decide, by decide⟩, ?_⟩
    · rw [List.cons_append, skipIdent, List.takeWhile_append_dropWhile]
    · rw [← List.append_nil (cs.takeWhile isIdentByte)]
      exact .plain (by decide) (by decide) (fun heq => absurd heq (by decide)) (nested_ident hall .nil)
    · intro tail htail
      have hdrop : skipIdent (cs.takeWhile isIdentByte ++ tail) = tail :=
        dropWhile_all hall (htail.notIdent (head_dropWhile _ cs))
      rw [List.cons_append]
      refine ⟨.token (by decide) (by decide) (by decide) fun _ heq => ?_, ?_⟩
      · rw [hdrop] at heq
        exact takeWhile_ne_nil hname (List.append_left_eq_self.mp heq.symm)
      · rw [valueEnd, if_neg (by decide), if_neg (by decide), if_neg (by decide), if_pos rfl, hdrop]
  | @literal c cs hliteral hquote hlist hobject hdollar hv =>
    have hpre : (c :: cs).takeWhile isLiteralByte = c :: cs.takeWhile isLiteralByte :=
      List.takeWhile_cons_of_pos hliteral
    have hall : ((c :: cs).takeWhile isLiteralByte).all isLiteralByte := List.all_takeWhile
    have hscalar := literal_scalar hjson hall (by
      intro d hd
      rw [hpre] at hd
      cases hd
      exact ⟨hquote, hlist, hobject⟩) hv
    refine ⟨(c :: cs).takeWhile isLiteralByte, List.takeWhile_append_dropWhile.symm, nested_scalar hscalar, ?_, ?_⟩
    · exact ⟨c, _, hpre, (literalByte_spec c hliteral).1, fun heq => hhash (heq ▸ List.mem_cons_self)⟩
    · intro tail htail
      have hdrop := dropWhile_all hall (htail.delimited (head_dropWhile isLiteralByte (c :: cs)))
      rw [hpre, List.cons_append] at hdrop ⊢
      refine ⟨.token hliteral hlist hobject fun heq => absurd heq hdollar, ?_⟩
      rw [valueEnd, if_neg hquote, if_neg hlist, if_neg hobject, if_neg hdollar, hdrop]

/-! ### Groups -/

/-- The text of the entries of a group up to its closing bracket, and what its parts are. -/
structure EntriesText (named : Bool) (b rest inner : Bytes) : Prop where
  eq : b = inner ++ closing named :: rest
  nested : Nested true inner
  tidy : ∀ blank, IsBlank blank → ∀ part ∈ solid (splitFrom .none blank inner),
    Tidy (entryValue named part) ∧ Ended (valueEnd (entryValue named part))

theorem pair_named (named : Bool) : Pair (opening named) (closing named) := by
  cases named
  · exact .square
  · exact .curly

theorem valueEnd_group {named : Bool} {cs rest : Bytes}
    (h : skipBalanced (opening named) (closing named) 0 (opening named :: cs) = .ok rest) :
    valueEnd (opening named :: cs) = rest := by
  have hend : valueEnd (opening named :: cs) = groupEnd (opening named) (closing named) (opening named :: cs) := by
    cases named <;> rfl
  rw [hend, groupEnd, h]

theorem nested_group {commas : Bool} (named : Bool) {inner : Bytes} (h : Nested true inner) :
    Nested commas (opening named :: (inner ++ [closing named])) := by
  cases named
  · exact .square h .nil
  · exact .curly h .nil

theorem group_valueText {named : Bool} {cs rest : Bytes} (hhash : hash ∉ cs) {inner : Bytes}
    (h : EntriesText named (skipWs cs) rest inner) : ∃ pre, ValueText (opening named :: cs) rest pre := by
  obtain ⟨blank, hblank, hcs⟩ := skipWs_split hhash
  have hnested := nested_blank hblank h.nested
  have hopening : ¬ isWhitespace (opening named) ∧ opening named ≠ hash := by cases named <;> decide
  refine ⟨opening named :: (blank ++ inner ++ [closing named]), ?_, nested_group named hnested,
    ⟨_, _, rfl, hopening⟩, ?_⟩
  · rw [hcs, h.eq]
    simp
  · intro tail _
    have htext : opening named :: (blank ++ inner ++ [closing named]) ++ tail =
        opening named :: (blank ++ inner ++ closing named :: tail) := by
      simp
    have hend := valueEnd_group (hnested.group (pair_named named) tail)
    have hparts : groupParts (opening named :: (blank ++ inner ++ closing named :: tail)) =
        solid (splitFrom .none blank inner) := by
      have htoken := upTo_append (opening named :: (blank ++ inner ++ [closing named])) tail
      rw [htext] at htoken
      rw [groupParts, hend, htoken, List.tail_cons, List.dropLast_concat, splitTopLevel, splitFrom_blank hblank]
      rfl
    rw [htext]
    refine ⟨.group ?_ ?_, hend⟩
    · rw [hparts]
      exact fun part hpart => (h.tidy blank hblank part hpart).1
    · rw [hparts]
      exact fun part hpart => (h.tidy blank hblank part hpart).2

/-- The name and the colon before the value of an entry. -/
structure EntryPrefix (named : Bool) (e : Bytes) : Prop where
  nested : ∀ {commas : Bool} {text : Bytes}, Nested commas text → Nested commas (e ++ text)
  value : ∀ blank x : Bytes, IsBlank blank → skipWs x = x → x ≠ [] → entryValue named (blank ++ (e ++ x)) = x
  start : named = true → ∃ c cs, e = c :: cs ∧ isIdentByte c

theorem EntryStart.split {named : Bool} {b start : Bytes} (hhash : hash ∉ b) (h : EntryStart named b start) :
    ∃ e, b = e ++ start ∧ EntryPrefix named e := by
  cases named with
  | false =>
    obtain rfl : start = b := h
    refine ⟨[], rfl, fun h => h, ?_, fun hfalse => nomatch hfalse⟩
    intro blank x hblank hx _
    rw [entryValue, if_neg (by decide), skipWs_blank hblank]
    exact hx
  | true =>
    obtain ⟨hname, cs, hcolon, rfl⟩ := h
    have hident := (skipIdent_suffix b).sublist.subset
    obtain ⟨before, hbefore, hdrop⟩ := skipWs_split fun hmem => hhash (hident hmem)
    rw [hcolon] at hdrop
    have hcs : hash ∉ cs := by
      intro hmem
      refine hhash (hident ?_)
      rw [hdrop]
      exact List.mem_append_right _ (List.mem_cons_of_mem _ hmem)
    obtain ⟨after, hafter, hstart⟩ := skipWs_split hcs
    have hall : (b.takeWhile isIdentByte).all isIdentByte := List.all_takeWhile
    have hne := takeWhile_ne_nil hname
    refine ⟨b.takeWhile isIdentByte ++ (before ++ colon :: after), ?_, ?_, ?_, fun _ => ?_⟩
    · have hb := @List.takeWhile_append_dropWhile _ isIdentByte b
      rw [← skipIdent, hdrop, hstart] at hb
      simpa using hb.symm
    · intro commas text htext
      have hfield := nested_field hall hbefore hafter htext
      simpa using hfield
    · intro blank x hblank hx _
      have hhead := nameThen (c := colon) (by decide) (by decide) (by decide) ⟨hne, hall⟩ hbefore (after ++ x)
      have htext : b.takeWhile isIdentByte ++ (before ++ colon :: after) ++ x =
          b.takeWhile isIdentByte ++ (before ++ colon :: (after ++ x)) := by
        simp
      rw [entryValue, if_pos rfl, skipWs_blank hblank, htext, hhead.start, hhead.next_eq, List.tail_cons,
        skipWs_blank hafter, hx]
    · obtain ⟨c, name, hcons⟩ := List.exists_cons_of_ne_nil hne
      refine ⟨c, name ++ (before ++ colon :: after), by rw [hcons]; rfl, ?_⟩
      exact List.all_eq_true.mp hall c (hcons ▸ List.mem_cons_self)

/-! ### The entries of a group -/

theorem Nested.head {commas : Bool} {c : UInt8} {text : Bytes} (h : Nested commas (c :: text)) (named : Bool) :
    c ≠ closing named := by
  generalize htext : c :: text = b at h
  cases h with
  | nil => cases htext
  | plain hbracket _ _ _ =>
    cases htext
    rintro rfl
    exact hbracket (by cases named <;> rfl)
  | @string _ token _ htoken _ _ =>
    obtain ⟨d, ds, rfl, -, hne⟩ := htoken.eq_cons
    cases htext
    exact hne _ (by cases named <;> rfl)
  | square =>
    cases htext
    cases named <;> decide
  | curly =>
    cases htext
    cases named <;> decide

theorem entriesText_close (named : Bool) (cs : Bytes) : EntriesText named (closing named :: cs) cs [] where
  eq := rfl
  nested := .nil
  tidy blank hblank part hpart := by
    rw [splitFrom, solid_blank hblank] at hpart
    cases hpart

namespace EntriesText

variable {named : Bool} {rest inner blank : Bytes}

theorem comma {cs : Bytes} (hblank : IsBlank blank) (hcs : cs = blank ++ skipWs cs)
    (h : EntriesText named (skipWs cs) rest inner) :
    EntriesText named (Graphql.comma :: cs) rest (Graphql.comma :: (blank ++ inner)) where
  eq := by rw [List.cons_append, List.append_assoc, ← h.eq, ← hcs]
  nested := .plain (by decide) (by decide) (fun _ => rfl) (nested_blank hblank h.nested)
  tidy before hbefore part hpart := by
    rw [splitFrom_comma, solid_blank hbefore, splitFrom_blank hblank, List.nil_append] at hpart
    exact h.tidy blank hblank part hpart

/-- An entry up to the next comma, or up to the end of the group, is one part. -/
theorem entry {e start mid pre : Bytes} (he : EntryPrefix named e) (hvalue : ValueText start mid pre)
    (hblank : IsBlank blank) (hmid : mid = blank ++ skipWs mid)
    (hnext : inner = [] ∨ ∃ more, inner = Graphql.comma :: more) (h : EntriesText named (skipWs mid) rest inner) :
    EntriesText named (e ++ start) rest (e ++ (pre ++ (blank ++ inner))) := by
  have hquote : NoQuote inner := by
    rcases hnext with rfl | ⟨more, rfl⟩
    · simp [NoQuote]
    · exact noQuote_cons rfl _
  constructor
  · rw [hvalue.eq, List.append_assoc, List.append_assoc, List.append_assoc, ← h.eq, ← hmid]
  · exact he.nested (hvalue.nested.weaken.append (nested_blank hblank h.nested)
      (hblank.delimited.noQuote.append hquote))
  intro before hbefore part hpart
  have hentry : Tidy (entryValue named (before ++ (e ++ (pre ++ blank)))) ∧
      Ended (valueEnd (entryValue named (before ++ (e ++ (pre ++ blank))))) := by
    obtain ⟨c, cs, hpre, hws, hhash⟩ := hvalue.start
    have hskip : skipWs (pre ++ blank) = pre ++ blank := by
      rw [hpre]
      exact skipWs_cons hws hhash _
    have hne : pre ++ blank ≠ [] := by simp [hpre]
    obtain ⟨htidy, hend⟩ := hvalue.tidy blank ⟨hblank.delimited.noQuote, .inl hblank.delimited⟩
    rw [he.value before _ hbefore hskip hne, hend]
    exact ⟨htidy, hblank.ended⟩
  have hnested : Nested false (pre ++ blank) :=
    hvalue.nested.append (by simpa using nested_blank hblank .nil) hblank.delimited.noQuote
  have hsplit : splitFrom .none before (e ++ (pre ++ (blank ++ inner))) =
      splitFrom .none (before ++ (e ++ (pre ++ blank))) inner := by
    have htext := @Nested.split _ _ (he.nested hnested) .none (by simp) before _ hquote
    simpa using htext
  rw [hsplit] at hpart
  obtain ⟨hmem, hsolid⟩ := List.mem_filter.1 hpart
  rcases hnext with rfl | ⟨more, rfl⟩
  · rw [splitFrom] at hmem
    rw [List.mem_singleton.1 hmem]
    exact hentry
  · rw [splitFrom_comma] at hmem
    rcases List.mem_cons.1 hmem with rfl | hmem
    · exact hentry
    · apply h.tidy [] isBlank_nil
      rw [splitFrom_comma]
      exact List.mem_filter.2 ⟨List.mem_cons_of_mem _ hmem, hsolid⟩

end EntriesText

/-! ### Values -/

/-- The parser's scanners end where the grammar does, and leave nothing over. -/
def Exact : Option Bool → Bytes → Bytes → Prop
  | none, b, rest => ∃ pre, ValueText b rest pre
  | some named, b, rest => ∃ inner, EntriesText named b rest inner

section

variable {fromSlice : Bytes → Except String Value} (hjson : JsonScalars fromSlice)

include hjson

theorem Text.exact {kind : Option Bool} {b rest : Bytes} (h : Text fromSlice kind b rest) :
    hash ∉ b → Exact kind b rest := by
  induction h with
  | token h => exact h.valueText hjson
  | @group named cs rest _ ih =>
    intro hhash
    have hcs : hash ∉ cs := fun hmem => hhash (List.mem_cons_of_mem _ hmem)
    obtain ⟨inner, hinner⟩ := ih fun hmem => hcs ((skipWs_suffix _).subset hmem)
    exact group_valueText hcs hinner
  | close => exact fun _ => ⟨[], entriesText_close _ _⟩
  | @comma named cs rest _ ih =>
    intro hhash
    have hcs : hash ∉ cs := fun hmem => hhash (List.mem_cons_of_mem _ hmem)
    obtain ⟨blank, hblank, hcut⟩ := skipWs_split hcs
    obtain ⟨inner, hinner⟩ := ih fun hmem => hcs ((skipWs_suffix _).subset hmem)
    exact ⟨_, hinner.comma hblank hcut⟩
  | @entry named b start mid rest hstart _ hnext _ ihvalue ihrest =>
    intro hhash
    obtain ⟨e, rfl, he⟩ := hstart.split hhash
    have hstart' : hash ∉ start := fun hmem => hhash (List.mem_append_right e hmem)
    obtain ⟨pre, hpre⟩ := ihvalue hstart'
    have hmid := hpre.notMem hstart'
    obtain ⟨blank, hblank, hcut⟩ := skipWs_split hmid
    obtain ⟨inner, hinner⟩ := ihrest fun hmem => hmid ((skipWs_suffix _).subset hmem)
    have hcomma : inner = [] ∨ ∃ more, inner = Graphql.comma :: more := by
      cases inner with
      | nil => exact .inl rfl
      | cons c more =>
        rw [hinner.eq] at hnext
        rcases hnext with hnext | hnext
        · cases hnext
          exact .inr ⟨more, rfl⟩
        · exact absurd (Option.some.inj hnext) (hinner.nested.head named)
    exact ⟨_, hinner.entry he hpre hblank hcut hcomma⟩

/-! ### Arguments -/

omit hjson in
/-- What is between two arguments, with whatever comes behind it. -/
theorem skipComma_split {mid : Bytes} (hhash : hash ∉ mid) :
    ∃ gap, IsGap gap ∧ mid = gap ++ skipWs (skipComma (skipWs mid)) ∧
      ∀ c cs, ¬ isWhitespace c → c ≠ hash → c ≠ comma →
        ∃ blank, IsBlank blank ∧ skipComma (skipWs (gap ++ c :: cs)) = blank ++ c :: cs := by
  obtain ⟨blank, hblank, hcut⟩ := skipWs_split hhash
  have hnone : (skipWs mid).head? ≠ some comma → skipWs (skipComma (skipWs mid)) = skipWs mid := by
    intro hne
    have hskip : skipComma (skipWs mid) = skipWs mid := by
      cases hmid : skipWs mid with
      | nil => rfl
      | cons d ds =>
        rw [hmid] at hne
        exact if_neg fun heq => hne (congrArg some heq)
    rw [hskip, skipWs_idem]
  by_cases hcomma : (skipWs mid).head? = some comma
  · obtain ⟨rest, hrest⟩ := List.head?_eq_some_iff.1 hcomma
    have hmem : hash ∉ rest := by
      intro hmem
      apply hhash
      rw [hcut, hrest]
      exact List.mem_append_right blank (List.mem_cons_of_mem comma hmem)
    obtain ⟨blank', hblank', hcut'⟩ := skipWs_split hmem
    have hskip : skipComma (skipWs mid) = rest := by
      rw [hrest, skipComma, if_pos rfl]
    refine ⟨blank ++ comma :: blank', ?_, ?_, fun c cs _ _ _ => ⟨blank', hblank', ?_⟩⟩
    · rw [IsGap, List.all_append, hblank.gap, List.all_cons, hblank'.gap]
      rfl
    · rw [hskip, List.append_assoc, List.cons_append, ← hcut', ← hrest, ← hcut]
    · rw [List.append_assoc, List.cons_append, skipWs_blank hblank, skipWs_cons (by decide) (by decide), skipComma,
        if_pos rfl]
  · refine ⟨blank, hblank.gap, ?_, fun c cs hws hc hcomma' => ⟨[], isBlank_nil, ?_⟩⟩
    · rw [hnone hcomma, ← hcut]
    · rw [skipWs_blank hblank, skipWs_cons hws hc]
      exact if_neg hcomma'

/-- The text of the arguments up to the closing parenthesis, which the parser reads to its end. -/
structure ArgumentsText (b rest inner : Bytes) : Prop where
  eq : b = inner ++ rparen :: rest
  nested : Nested true inner
  start : inner = [] ∨ ∃ c cs, inner = c :: cs ∧ isIdentByte c
  tidy : ∀ blank, IsBlank blank → TidyArgs (blank ++ (inner ++ [rparen]))

namespace ArgumentsText

variable {inner rest : Bytes}

omit hjson

theorem close (cs : Bytes) : ArgumentsText (rparen :: cs) cs [] where
  eq := rfl
  nested := .nil
  start := .inl rfl
  tidy blank hblank := by
    apply TidyArgs.close
    rw [skipWs_blank hblank]
    exact skipWs_cons (by decide) (by decide) []

theorem head {b : Bytes} (h : ArgumentsText b rest inner) (tail : Bytes) :
    ∃ c cs, inner ++ rparen :: tail = c :: cs ∧ ¬ isQuote c ∧ ¬ isWhitespace c ∧ c ≠ hash ∧ c ≠ comma := by
  rcases h.start with rfl | ⟨c, cs, rfl, hc⟩
  · exact ⟨rparen, tail, rfl, by decide, by decide, by decide, by decide⟩
  · obtain ⟨_, hquote, hliteral, hcomma, _, hhash, _⟩ := identByte_spec c hc
    exact ⟨c, cs ++ rparen :: tail, rfl, hquote, (literalByte_spec c hliteral).1, hhash, hcomma⟩

theorem argument {e start mid pre gap : Bytes} (he : EntryPrefix true e) (hvalue : ValueText start mid pre)
    (hgap : IsGap gap) (hmid : mid = gap ++ skipWs (skipComma (skipWs mid)))
    (hnext : ∀ c cs, ¬ isWhitespace c → c ≠ hash → c ≠ comma →
      ∃ blank, IsBlank blank ∧ skipComma (skipWs (gap ++ c :: cs)) = blank ++ c :: cs)
    (h : ArgumentsText (skipWs (skipComma (skipWs mid))) rest inner) :
    ArgumentsText (e ++ start) rest (e ++ (pre ++ (gap ++ inner))) := by
  obtain ⟨a, name, rfl, ha⟩ := he.start rfl
  have hquote : NoQuote inner := by
    rcases h.start with rfl | ⟨c, cs, rfl, hc⟩
    · simp [NoQuote]
    · exact noQuote_cons (by simpa using (identByte_spec c hc).2.1) cs
  constructor
  · rw [hvalue.eq, List.append_assoc, List.append_assoc, List.append_assoc, ← h.eq, ← hmid]
  · exact he.nested (hvalue.nested.weaken.append (nested_gap hgap h.nested) (hgap.delimited.noQuote.append hquote))
  · exact .inr ⟨a, _, rfl, ha⟩
  intro before hbefore
  obtain ⟨c, cs, htail, hcquote, hws, hhash, hcomma⟩ := h.head []
  have hfollow : Follow mid (gap ++ (inner ++ [rparen])) := by
    constructor
    · apply hgap.delimited.noQuote.append
      rw [htail]
      exact noQuote_cons (by simpa using hcquote) cs
    · right
      rw [hmid, h.eq]
      cases gap <;> cases inner <;> rfl
  obtain ⟨htidy, hend⟩ := hvalue.tidy _ hfollow
  have hvalue' : entryValue true (before ++ ((a :: name) ++ (pre ++ (gap ++ (inner ++ [rparen]))))) =
      pre ++ (gap ++ (inner ++ [rparen])) := by
    obtain ⟨d, ds, hpre, hdws, hdhash⟩ := hvalue.start
    apply he.value before _ hbefore
    · rw [hpre]
      exact skipWs_cons hdws hdhash _
    · simp [hpre]
  have htext : before ++ ((a :: name) ++ (pre ++ (gap ++ inner)) ++ [rparen]) =
      before ++ ((a :: name) ++ (pre ++ (gap ++ (inner ++ [rparen])))) := by
    simp
  rw [htext]
  refine .argument ?_ ?_ ?_
  · obtain ⟨_, _, hliteral, _, _, hahash, _⟩ := identByte_spec a ha
    rw [skipWs_blank hbefore, List.cons_append, skipWs_cons (literalByte_spec a hliteral).1 hahash]
    intro hclose
    cases hclose
    cases ha
  · rwa [hvalue']
  · rw [hvalue', hend, htail]
    obtain ⟨blank, hblank, hskip⟩ := hnext c cs hws hhash hcomma
    rw [hskip, ← htail]
    exact h.tidy blank hblank

end ArgumentsText

theorem Arguments.exact {b rest : Bytes} (h : Arguments fromSlice b rest) :
    hash ∉ b → ∃ inner, ArgumentsText b rest inner := by
  induction h with
  | close => exact fun _ => ⟨[], .close _⟩
  | @argument b start mid rest hstart hvalue _ ih =>
    intro hhash
    obtain ⟨e, rfl, he⟩ := hstart.split hhash
    have hstart' : hash ∉ start := fun hmem => hhash (List.mem_append_right e hmem)
    obtain ⟨pre, hpre⟩ := hvalue.exact hjson hstart'
    have hmid := hpre.notMem hstart'
    have hsuffix := (skipWs_suffix _).trans ((skipComma_suffix _).trans (skipWs_suffix mid))
    obtain ⟨inner, hinner⟩ := ih fun hmem => hmid (hsuffix.subset hmem)
    obtain ⟨gap, hgap, hcut, hnext⟩ := skipComma_split hmid
    exact ⟨_, hinner.argument he hpre hgap hcut hnext⟩

/-- The arguments end at the parenthesis where the parser looks for their end. -/
theorem ArgumentGroup.exact {b rest : Bytes} (h : ArgumentGroup fromSlice b rest) (hhash : hash ∉ b) :
    ArgsSkip b rest ∧ rest <:+ b ∧
      ∀ cs after, b = lparen :: cs → skipParens 0 b = .ok after → TidyArgs (upTo b after).tail := by
  obtain ⟨hparen, rfl⟩ | ⟨cs, after, rfl, hargs, rfl⟩ := h
  · refine ⟨.inl ⟨hparen, rfl⟩, List.suffix_rfl, fun cs after heq => ?_⟩
    rw [heq] at hparen
    exact absurd rfl hparen
  · have hcs : hash ∉ cs := fun hmem => hhash (List.mem_cons_of_mem _ hmem)
    obtain ⟨blank, hblank, hcut⟩ := skipWs_split hcs
    obtain ⟨inner, hinner⟩ := hargs.exact hjson fun hmem => hcs ((skipWs_suffix _).subset hmem)
    have hsplit : lparen :: cs = (lparen :: (blank ++ (inner ++ [rparen]))) ++ after := by
      rw [hinner.eq] at hcut
      simp [hcut]
    have hskip : skipParens 0 (lparen :: cs) = .ok after := by
      rw [hinner.eq, ← List.append_assoc] at hcut
      rw [hcut, skipParens, if_pos rfl, (nested_blank hblank hinner.nested).parens _ (noQuote_cons rfl _), skipParens,
        if_neg (by decide), if_pos rfl, if_neg (by decide), if_pos rfl]
    refine ⟨.inr ⟨rfl, after, hskip, rfl⟩, ?_, fun cs' after' _ hskip' => ?_⟩
    · apply (skipWs_suffix after).trans
      rw [hsplit]
      exact List.suffix_append _ _
    · rw [hskip] at hskip'
      obtain rfl := Except.ok.inj hskip'
      rw [hsplit, upTo_append]
      exact hinner.tidy blank hblank

/-! ### Fields -/

omit hjson in
theorem Directives.exact {b rest : Bytes} (h : Directives b rest) : skipDirectives b = .ok rest ∧ DirectivesNamed b := by
  induction h with
  | @done b hat =>
    refine ⟨?_, .done hat⟩
    cases b with
    | nil => rw [skipDirectives]
    | cons c cs => rw [skipDirectives, if_neg (by simpa using hat)]
  | @directive cs mid rest hname hskip _ ih =>
    refine ⟨?_, .directive hname hskip ih.2⟩
    have hlt := (skipDirective_consumes atSign cs).progress hskip
    rw [skipDirectives, if_pos rfl, hskip]
    exact (if_pos hlt).trans ih.1

/-- The part of a field before its selection set. -/
theorem FieldText.head_exact {b mid rest : Bytes} (hhash : hash ∉ b)
    (hargs : ArgumentGroup fromSlice (skipWs (skipIdent b)) mid) (hdirectives : Directives mid rest) :
    ArgsSkip (skipWs (skipIdent b)) mid ∧ skipDirectives mid = .ok rest ∧ TidyHead (skipWs (skipIdent b)) ∧
      rest <:+ b := by
  have hsuffix := (skipWs_suffix _).trans (skipIdent_suffix b)
  obtain ⟨hskip, hmid, htidy⟩ := hargs.exact hjson fun hmem => hhash (hsuffix.subset hmem)
  obtain ⟨hdir, hnamed⟩ := hdirectives.exact
  refine ⟨hskip, hdir, ⟨htidy, fun rest' hskip' => ?_⟩, (skipDirectives_suffix hdir).trans (hmid.trans hsuffix)⟩
  rw [← hskip.unique hskip']
  exact hnamed

theorem FieldText.exact {many : Bool} {b rest : Bytes} (h : FieldText fromSlice many b rest) :
    hash ∉ b → ∃ heads, FieldHeads many b heads rest ∧ rest <:+ b ∧ ∀ head ∈ heads, TidyHead head := by
  induction h with
  | leaf hname hargs hdirectives hopen =>
    intro hhash
    obtain ⟨hskip, hdir, htidy, hrest⟩ := head_exact hjson hhash hargs hdirectives
    exact ⟨_, .leaf hname hskip hdir hopen, hrest, by simpa using htidy⟩
  | @branch b mid cs rest hname hargs hdirectives hempty _ ih =>
    intro hhash
    obtain ⟨hskip, hdir, htidy, hrest⟩ := head_exact hjson hhash hargs hdirectives
    have hfields := (skipWs_suffix cs).trans ((List.suffix_cons lbrace cs).trans hrest)
    obtain ⟨heads, hheads, hrest', htidy'⟩ := ih fun hmem => hhash (hfields.subset hmem)
    exact ⟨_, .branch hname hskip hdir hempty hheads, hrest'.trans hfields, by simpa using ⟨htidy, htidy'⟩⟩
  | close => exact fun _ => ⟨[], .close, List.suffix_cons _ _, by simp⟩
  | @more b mid rest hfield _ ihfield ihrest =>
    intro hhash
    obtain ⟨heads, hheads, hmid, htidy⟩ := ihfield hhash
    have hopen : b.head? ≠ some rbrace := by
      intro hbrace
      obtain ⟨cs, rfl⟩ := List.head?_eq_some_iff.1 hbrace
      cases hfield with
      | leaf hname => exact hname rfl
      | branch hname => exact hname rfl
    have hsuffix := (skipWs_suffix mid).trans hmid
    obtain ⟨heads', hheads', hrest, htidy'⟩ := ihrest fun hmem => hhash (hsuffix.subset hmem)
    refine ⟨_, .more hopen hheads hheads', hrest.trans hsuffix, fun head hhead => ?_⟩
    rcases List.mem_append.1 hhead with hhead | hhead
    · exact htidy head hhead
    · exact htidy' head hhead

end

/-! ### The query -/

theorem Definitions.exact {b rest : Bytes} (h : Definitions b rest) :
    skipDefinitions b = .ok rest ∧ DefinitionsNamed b ∧ rest <:+ b := by
  induction h with
  | @done b hparen hat =>
    refine ⟨?_, .done hparen hat, List.suffix_rfl⟩
    cases b with
    | nil => rw [skipDefinitions]
    | cons c cs => rw [skipDefinitions, if_neg (by simpa using hparen), if_neg (by simpa using hat)]
  | @group cs mid rest hskip _ ih =>
    have hconsumes := skipGroup_consumes cs
    refine ⟨?_, .group hskip ih.2.1, ih.2.2.trans ((skipWs_suffix mid).trans (hconsumes.suffix mid hskip))⟩
    have hlt := hconsumes.progress hskip
    rw [skipDefinitions, if_pos rfl, hskip]
    exact (if_pos hlt).trans ih.1
  | @directive cs mid rest hname hskip _ ih =>
    have hconsumes := skipDirective_consumes atSign cs
    refine ⟨?_, .directive hname hskip ih.2.1, ih.2.2.trans ((skipWs_suffix mid).trans (hconsumes.suffix mid hskip))⟩
    have hlt := hconsumes.progress hskip
    rw [skipDefinitions, if_neg (by decide), if_pos rfl, hskip]
    exact (if_pos hlt).trans ih.1

theorem readOperation_suffix (b : Bytes) : (readOperation b).2 <:+ b := by
  rw [readOperation]
  cases h : keywords.findSome? (readKeyword b) with
  | none => exact List.suffix_rfl
  | some r =>
    obtain ⟨keyword, _, hread⟩ := List.exists_of_findSome?_eq_some h
    rw [readKeyword] at hread
    split_ifs at hread
    cases hread
    exact List.drop_suffix _ _

theorem header_suffix (query : Bytes) : header query <:+ query := by
  have hname : ∀ b, skipName b <:+ b := by
    intro b
    rw [skipName]
    split_ifs
    · exact (skipWs_suffix _).trans (skipIdent_suffix b)
    · exact List.suffix_rfl
  exact (hname _).trans ((skipWs_suffix _).trans ((readOperation_suffix _).trans (skipWs_suffix query)))

/-- By the scanners the query goes on to the end of the text, and its arguments and directives are tidy. -/
def TidyQuery (query : Bytes) : Prop := ∃ heads after, Outline query heads after ∧ TidyOutline query heads after

section

variable {fromSlice : Bytes → Except String Value} {vars : Value}

theorem IsOperation.tidy (hjson : JsonScalars fromSlice) {query : Bytes} (h : IsOperation fromSlice query)
    (hhash : hash ∉ query) : TidyQuery query := by
  obtain ⟨cs, mid, after, hdefs, hfield, hclose, hafter⟩ := h
  obtain ⟨hskip, hnamed, hrest⟩ := hdefs.exact
  have hsuffix := (skipWs_suffix cs).trans ((List.suffix_cons lbrace cs).trans (hrest.trans (header_suffix query)))
  obtain ⟨heads, hheads, _, htidy⟩ := hfield.exact hjson fun hmem => hhash (hsuffix.subset hmem)
  exact ⟨heads, after, ⟨cs, mid, hskip, hheads, hclose⟩, ⟨hnamed, htidy, hafter⟩⟩

/-- An accepted query is in the grammar as a whole where it is tidy, and without comments only there. -/
theorem accepted_isOperation {stack : Nat} {query : Bytes} {f : ParsedField}
    (h : parseQuery fromSlice vars stack query = .ok f) :
    (TidyQuery query → IsOperation fromSlice query) ∧
      (JsonScalars fromSlice → hash ∉ query → (IsOperation fromSlice query ↔ TidyQuery query)) := by
  have htidy : TidyQuery query → IsOperation fromSlice query := by
    intro ⟨heads, after, houtline, htidy⟩
    obtain ⟨heads', after', houtline', hread⟩ := parseQuery_outline h
    obtain ⟨rfl, rfl⟩ := houtline.unique houtline'
    exact htidy.isOperation houtline hread
  exact ⟨htidy, fun hjson hhash => ⟨fun hquery => hquery.tidy hjson hhash, htidy⟩⟩

end

/-! ### Text that is left over, and a value that is missing -/

theorem noJson_scalars : JsonScalars noJson := by
  intro token v h
  cases h

def trailingQuery : Bytes := ascii "\x7b a \x7d b"

def missingQuery : Bytes := ascii "\x7b a(x: ) \x7d"

theorem trailing_outline : Outline trailingQuery [ascii "\x7d b"] (ascii " b") := by
  refine ⟨ascii " a \x7d b", ascii "\x7d b", by decide +kernel, ?_, by decide +kernel⟩
  exact .leaf (by decide +kernel) (.inl ⟨by decide +kernel, rfl⟩) (by decide +kernel) (by decide +kernel)

theorem missing_outline : Outline missingQuery [ascii "(x: ) \x7d"] [] := by
  refine ⟨ascii " a(x: ) \x7d", ascii "\x7d", by decide +kernel, ?_, by decide +kernel⟩
  have hskip : skipParens 0 (ascii "(x: ) \x7d") = .ok (ascii " \x7d") := by decide +kernel
  exact .leaf (by decide +kernel) (.inr ⟨by decide +kernel, _, hskip, rfl⟩) (by decide +kernel) (by decide +kernel)

theorem not_tidy_rparen : ¬ Tidy [rparen] := by
  intro h
  generalize htext : [rparen] = b at h
  cases h with
  | token hliteral =>
    cases htext
    cases hliteral
  | @group named _ _ _ =>
    obtain ⟨hparen, -⟩ := List.cons.inj htext
    cases named <;> cases hparen

/-- Text after the closing brace is accepted, and so is an argument without a value. -/
theorem accepted_not_isOperation :
    (∃ f, parseQuery noJson .null (maxDepth + 3) trailingQuery = .ok f ∧ ¬ IsOperation noJson trailingQuery) ∧
      ∃ f, parseQuery noJson .null (maxDepth + 3) missingQuery = .ok f ∧ ¬ IsOperation noJson missingQuery := by
  constructor
  · obtain ⟨f, hf⟩ := accepted (r := parseQuery noJson .null (maxDepth + 3) trailingQuery) (by decide +kernel)
    refine ⟨f, hf, fun h => ?_⟩
    obtain ⟨heads, after, houtline, htidy⟩ := h.tidy noJson_scalars (by decide +kernel)
    obtain ⟨rfl, rfl⟩ := houtline.unique trailing_outline
    exact absurd htidy.after (by decide +kernel)
  · obtain ⟨f, hf⟩ := accepted (r := parseQuery noJson .null (maxDepth + 3) missingQuery) (by decide +kernel)
    refine ⟨f, hf, fun h => ?_⟩
    obtain ⟨heads, after, houtline, htidy⟩ := h.tidy noJson_scalars (by decide +kernel)
    obtain ⟨rfl, rfl⟩ := houtline.unique missing_outline
    have hskip : skipParens 0 (ascii "(x: ) \x7d") = .ok (ascii " \x7d") := by decide +kernel
    have hargs : TidyArgs (ascii "x: )") := (htidy.heads _ List.mem_cons_self).args _ _ rfl hskip
    cases hargs with
    | close hclose => exact absurd hclose (by decide +kernel)
    | argument _ hvalue => exact not_tidy_rparen hvalue

def namedQuery : Bytes := ascii "\x7b a(x: RED) \x7d"

theorem accepted_isOperation_named : ∃ f, parseQuery noJson .null (maxDepth + 3) namedQuery = .ok f ∧
    IsOperation noJson namedQuery := by
  obtain ⟨f, hf⟩ := accepted (r := parseQuery noJson .null (maxDepth + 3) namedQuery) (by decide +kernel)
  refine ⟨f, hf, (accepted_isOperation hf).1 ⟨[ascii "(x: RED) \x7d"], [], ?_, ?_⟩⟩
  · refine ⟨ascii " a(x: RED) \x7d", ascii "\x7d", by decide +kernel, ?_, by decide +kernel⟩
    have hskip : skipParens 0 (ascii "(x: RED) \x7d") = .ok (ascii " \x7d") := by decide +kernel
    exact .leaf (by decide +kernel) (.inr ⟨by decide +kernel, _, hskip, rfl⟩) (by decide +kernel) (by decide +kernel)
  · refine ⟨.done (by decide +kernel) (by decide +kernel), ?_, rfl⟩
    intro head hhead
    obtain rfl := List.mem_singleton.1 hhead
    have hskip : skipParens 0 (ascii "(x: RED) \x7d") = .ok (ascii " \x7d") := by decide +kernel
    constructor
    · intro cs after _ hskip'
      obtain rfl := Except.ok.inj (hskip.symm.trans hskip')
      exact .argument (by decide +kernel) (.token (by decide) (by decide) (by decide) (by decide))
        (.close (by decide +kernel))
    · rintro rest (⟨hparen, -⟩ | ⟨-, after, hskip', rfl⟩)
      · exact absurd rfl hparen
      · obtain rfl := Except.ok.inj (hskip.symm.trans hskip')
        exact .done (by decide +kernel)

end Ecat.Graphql
