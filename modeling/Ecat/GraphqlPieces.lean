import Ecat.Chunks
import Ecat.GraphqlNested
import Ecat.GraphqlSteps

/-! The parts of a sequence of entries that commas, white space or nothing but white space keep apart: every
run of entries without a comma between them is one part, and only its first entry is at the front. -/

namespace Ecat.Graphql

open Json

def isGapByte (c : UInt8) : Bool := isWhitespace c || c = comma

def IsBlank (b : Bytes) : Prop := b.all isWhitespace

def IsGap (b : Bytes) : Prop := b.all isGapByte

/-- What follows ends a literal at its front. -/
def Delimited (tail : Bytes) : Prop := ∀ c ∈ tail.head?, ¬ isLiteralByte c

/-! ### Bytes -/

theorem identByte_spec : ∀ c : UInt8, isIdentByte c → ¬ isBracket c ∧ ¬ isQuote c ∧ isLiteralByte c ∧
    c ≠ comma ∧ c ≠ colon ∧ c ≠ hash ∧ c ≠ dollar := by
  decide +kernel

theorem whitespace_spec : ∀ c : UInt8, isWhitespace c → ¬ isBracket c ∧ ¬ isQuote c ∧ ¬ isLiteralByte c ∧
    c ≠ comma ∧ c ≠ colon := by
  decide +kernel

theorem quote_spec : ∀ c : UInt8, isQuote c → isLiteralByte c := by
  decide +kernel

theorem literalByte_spec : ∀ c : UInt8, isLiteralByte c → ¬ isWhitespace c ∧ c ≠ comma := by
  decide +kernel

theorem gapByte_spec : ∀ c : UInt8, isGapByte c → ¬ isBracket c ∧ ¬ isQuote c ∧ ¬ isLiteralByte c := by
  decide +kernel

theorem Delimited.noQuote {tail : Bytes} (h : Delimited tail) : NoQuote tail := by
  cases tail with
  | nil => simp [NoQuote]
  | cons c cs => exact noQuote_cons (by simpa using mt (quote_spec c) (h c rfl)) cs

theorem Delimited.notIdent {tail : Bytes} (h : Delimited tail) : ∀ c ∈ tail.head?, ¬ isIdentByte c := by
  intro c hc hident
  exact h c hc (identByte_spec c hident).2.2.1

theorem delimited_nil : Delimited [] := by
  intro c hc
  cases hc

theorem delimited_cons {c : UInt8} (h : ¬ isLiteralByte c) (cs : Bytes) : Delimited (c :: cs) := by
  intro d hd
  cases hd
  exact h

theorem Delimited.append {more : Bytes} (h : Delimited more) {tail : Bytes} (htail : Delimited tail) :
    Delimited (more ++ tail) := by
  cases more with
  | nil => exact htail
  | cons c cs => exact h

theorem IsGap.delimited {gap : Bytes} (h : IsGap gap) : Delimited gap := by
  intro c hc
  exact (gapByte_spec c (List.all_eq_true.mp h c (List.mem_of_mem_head? hc))).2.2

theorem IsBlank.append {b b' : Bytes} (h : IsBlank b) (h' : IsBlank b') : IsBlank (b ++ b') := by
  rw [IsBlank, List.all_append, h, h']
  rfl

/-- A gap is white space up to its first comma. -/
theorem IsGap.cases {gap : Bytes} (h : IsGap gap) :
    (comma ∉ gap ∧ IsBlank gap) ∨ ∃ blank rest : Bytes, gap = blank ++ comma :: rest ∧ IsBlank blank ∧ IsGap rest := by
  induction gap with
  | nil => exact .inl ⟨List.not_mem_nil, rfl⟩
  | cons c cs ih =>
    obtain ⟨hc, hcs⟩ : isGapByte c ∧ IsGap cs := by simpa [IsGap] using h
    by_cases hcomma : c = comma
    · subst hcomma
      exact .inr ⟨[], cs, rfl, rfl, hcs⟩
    have hws : isWhitespace c := by simpa [isGapByte, hcomma] using hc
    rcases ih hcs with ⟨hnot, hblank⟩ | ⟨blank, rest, rfl, hblank, hrest⟩
    · refine .inl ⟨fun hmem => ?_, by simpa [IsBlank, hws] using hblank⟩
      rcases List.mem_cons.mp hmem with heq | hmem
      · exact hcomma heq.symm
      · exact hnot hmem
    · exact .inr ⟨c :: blank, rest, rfl, by simpa [IsBlank, hws] using hblank, hrest⟩

theorem isBlank_nil : IsBlank [] := rfl

theorem isGap_nil : IsGap [] := rfl

/-! ### White space in front -/

theorem skipWs_blank {b : Bytes} (h : IsBlank b) (tail : Bytes) : skipWs (b ++ tail) = skipWs tail := by
  induction b with
  | nil => rfl
  | cons c cs ih =>
    obtain ⟨hc, hcs⟩ : isWhitespace c ∧ IsBlank cs := by simpa [IsBlank] using h
    rw [List.cons_append, skipWs, skipFrom, if_neg (by simp), if_pos hc]
    exact ih hcs

theorem skipWs_cons {c : UInt8} (hws : ¬ isWhitespace c) (hhash : c ≠ hash) (cs : Bytes) : skipWs (c :: cs) = c :: cs := by
  rw [skipWs, skipFrom, if_neg (by simp), if_neg hws, if_neg hhash]

/-! ### Parts -/

theorem splitFrom_blank {blank : Bytes} (h : IsBlank blank) (g : Groups) (part tail : Bytes) :
    splitFrom g part (blank ++ tail) = splitFrom g (part ++ blank) tail := by
  induction blank generalizing part with
  | nil => rw [List.nil_append, List.append_nil]
  | cons c cs ih =>
    obtain ⟨hc, hcs⟩ : isWhitespace c ∧ IsBlank cs := by simpa [IsBlank] using h
    obtain ⟨hbracket, hquote, _, hcomma, _⟩ := whitespace_spec c hc
    rw [List.cons_append, splitFrom_step (by simpa using hquote) (fun hboth => hcomma hboth.1),
      Groups.after_plain hbracket, ih hcs, List.append_assoc]
    rfl

theorem splitFrom_comma (part tail : Bytes) : splitFrom .none part (comma :: tail) = part :: splitFrom .none [] tail := by
  rw [splitFrom, if_neg (by decide), if_pos ⟨rfl, rfl⟩]

/-- The parts that are read. -/
def solid (parts : List Bytes) : List Bytes := parts.filter fun part => !part.all isWhitespace

theorem solid_blank {part : Bytes} (h : IsBlank part) (parts : List Bytes) : solid (part :: parts) = solid parts := by
  have hall : part.all isWhitespace = true := h
  rw [solid, List.filter_cons_of_neg (by simp only [hall]; decide)]
  rfl

theorem solid_cons {part : Bytes} (h : ¬ IsBlank part) (parts : List Bytes) :
    solid (part :: parts) = part :: solid parts := by
  have hall : part.all isWhitespace = false := by simpa [IsBlank] using h
  rw [solid, List.filter_cons_of_pos (by simp only [hall]; decide)]
  rfl

/-- Commas in front of the entries make blank parts only. -/
theorem solid_gap {gap part : Bytes} (hgap : IsGap gap) (hpart : IsBlank part) (tail : Bytes) :
    ∃ blank : Bytes, IsBlank blank ∧
      solid (splitFrom .none part (gap ++ tail)) = solid (splitFrom .none blank tail) := by
  induction hlength : gap.length using Nat.strong_induction_on generalizing gap part with
  | _ n ih =>
    rcases hgap.cases with ⟨_, hblank⟩ | ⟨blank, rest, rfl, hblank, hrest⟩
    · exact ⟨part ++ gap, hpart.append hblank, by rw [splitFrom_blank hblank]⟩
    · obtain ⟨blank', hblank', heq⟩ := ih rest.length (by rw [← hlength]; simp; omega) hrest isBlank_nil rfl
      refine ⟨blank', hblank', ?_⟩
      rw [List.append_assoc, splitFrom_blank hblank, List.cons_append, splitFrom_comma,
        solid_blank (hpart.append hblank), heq]

section

variable {α : Type} (text : α → Bytes)

/-- The entries, each with the gap after it. -/
def printAll : List (α × Bytes) → Bytes
  | [] => []
  | (a, gap) :: entries => text a ++ (gap ++ printAll entries)

/-- The entries after a comma. -/
def kept : Bool → List (α × Bytes) → List α
  | _, [] => []
  | true, (a, gap) :: entries => a :: kept (comma ∈ gap) entries
  | false, (_, gap) :: entries => kept (comma ∈ gap) entries

/-- A part has its entry at the front; what comes after it does not belong to it. -/
def Piece (part : Bytes) (a : α) : Prop :=
  ∃ blank more : Bytes, part = blank ++ (text a ++ more) ∧ IsBlank blank ∧ Delimited more

structure EntryText (text : Bytes) : Prop where
  nested : Nested false text
  solid : ¬ IsBlank text

/-- Entries with a gap between any two of them. -/
def Entries : List (α × Bytes) → Prop
  | [] => True
  | (a, gap) :: entries => EntryText (text a) ∧ IsGap gap ∧ (entries = [] ∨ gap ≠ []) ∧ Entries entries

variable {text : α → Bytes}

@[simp] theorem kept_nil (fresh : Bool) : kept fresh ([] : List (α × Bytes)) = [] := by
  cases fresh <;> rfl

@[simp] theorem kept_true (a : α) (gap : Bytes) (entries : List (α × Bytes)) :
    kept true ((a, gap) :: entries) = a :: kept (comma ∈ gap) entries := rfl

@[simp] theorem kept_false (a : α) (gap : Bytes) (entries : List (α × Bytes)) :
    kept false ((a, gap) :: entries) = kept (comma ∈ gap) entries := rfl

theorem Entries.delimited (text : α → Bytes) {gap : Bytes} {entries : List (α × Bytes)} (hgap : IsGap gap)
    (hnext : entries = [] ∨ gap ≠ []) : Delimited (gap ++ printAll text entries) := by
  rcases hnext with rfl | hne
  · rw [printAll, List.append_nil]
    exact hgap.delimited
  · obtain ⟨c, cs, rfl⟩ := List.exists_cons_of_ne_nil hne
    exact hgap.delimited

theorem not_isBlank_part {blank b : Bytes} (h : ¬ IsBlank b) (more : Bytes) : ¬ IsBlank (blank ++ (b ++ more)) := by
  intro hall
  simp only [IsBlank, List.all_append, Bool.and_eq_true] at hall
  exact h hall.2.1

/-- The parts of the entries where the current part is blank. -/
def Fresh (text : α → Bytes) (entries : List (α × Bytes)) : Prop :=
  ∀ blank : Bytes, IsBlank blank →
    List.Forall₂ (Piece text) (solid (splitFrom .none blank (printAll text entries))) (kept true entries)

/-- The parts of the entries where the current part has an entry at its front. -/
def Behind (text : α → Bytes) (entries : List (α × Bytes)) : Prop :=
  ∀ (a : α) (blank more gap : Bytes), EntryText (text a) → IsBlank blank → Delimited more → IsBlank gap →
    (entries = [] ∨ gap ≠ []) →
    List.Forall₂ (Piece text) (solid (splitFrom .none (blank ++ (text a ++ more)) (gap ++ printAll text entries)))
      (a :: kept false entries)

theorem IsBlank.delimited {gap : Bytes} (h : IsBlank gap) : Delimited gap := by
  intro c hc
  exact (whitespace_spec c (List.all_eq_true.mp h c (List.mem_of_mem_head? hc))).2.2.1

theorem pieces_gap {entries : List (α × Bytes)} (hfresh : Fresh text entries) (hbehind : Behind text entries) {a : α}
    (ha : EntryText (text a)) {blank more gap : Bytes} (hblank : IsBlank blank) (hmore : Delimited more)
    (hgap : IsGap gap) (hnext : entries = [] ∨ gap ≠ []) :
    List.Forall₂ (Piece text) (solid (splitFrom .none (blank ++ (text a ++ more)) (gap ++ printAll text entries)))
      (a :: kept (comma ∈ gap) entries) := by
  rcases hgap.cases with ⟨hcomma, hgap⟩ | ⟨blank', rest, rfl, hblank', hrest⟩
  · rw [decide_eq_false hcomma]
    exact hbehind a blank more gap ha hblank hmore hgap hnext
  · have hmem : comma ∈ blank' ++ comma :: rest := List.mem_append_right _ List.mem_cons_self
    obtain ⟨blank'', hblank'', heq⟩ := solid_gap hrest isBlank_nil (printAll text entries)
    rw [decide_eq_true hmem, List.append_assoc, splitFrom_blank hblank', List.cons_append, splitFrom_comma,
      List.append_assoc, List.append_assoc, solid_cons (not_isBlank_part ha.solid _), heq]
    exact .cons ⟨blank, more ++ blank', rfl, hblank, hmore.append hblank'.delimited⟩ (hfresh blank'' hblank'')

theorem fresh_nil : Fresh text [] := by
  intro blank hblank
  rw [printAll, splitFrom, solid_blank hblank]
  exact .nil

theorem behind_nil : Behind text [] := by
  intro a blank more gap ha hblank hmore hgap _
  rw [printAll, splitFrom_blank hgap, splitFrom, List.append_assoc, List.append_assoc,
    solid_cons (not_isBlank_part ha.solid _)]
  exact .cons ⟨blank, more ++ gap, rfl, hblank, hmore.append hgap.delimited⟩ .nil

/-- Every run of entries without a comma between them is one part, with its first entry at the front. -/
theorem pieces {entries : List (α × Bytes)} (h : Entries text entries) : Fresh text entries ∧ Behind text entries := by
  induction entries with
  | nil => exact ⟨fresh_nil, behind_nil⟩
  | cons entry entries ih =>
    obtain ⟨b, gap⟩ := entry
    obtain ⟨hb, hgap, hnext, hentries⟩ := h
    obtain ⟨hfresh, hbehind⟩ := ih hentries
    have hafter := Entries.delimited text hgap hnext
    constructor
    · intro blank hblank
      rw [printAll, hb.nested.split (by simp) _ hafter.noQuote, kept_true]
      have hpieces := pieces_gap hfresh hbehind hb hblank delimited_nil hgap hnext
      rwa [List.append_nil] at hpieces
    · intro a blank more gap' ha hblank hmore hgap' hne
      have hne' : gap' ≠ [] := hne.resolve_left (List.cons_ne_nil _ _)
      obtain ⟨c, cs, rfl⟩ := List.exists_cons_of_ne_nil hne'
      have hmore' : Delimited (more ++ (c :: cs ++ text b)) := hmore.append hgap'.delimited
      rw [printAll, splitFrom_blank hgap', hb.nested.split (by simp) _ hafter.noQuote, kept_false]
      have hpieces := pieces_gap hfresh hbehind ha hblank hmore' hgap hnext
      have hassoc : blank ++ (text a ++ (more ++ (c :: cs ++ text b))) =
          blank ++ (text a ++ more) ++ (c :: cs) ++ text b := by
        simp only [List.append_assoc]
      rwa [hassoc] at hpieces

/-! ### What is left out -/

/-- Between any two entries there is a comma. -/
def Apart : List (α × Bytes) → Prop
  | [] => True
  | (_, gap) :: entries => (entries = [] ∨ comma ∈ gap) ∧ Apart entries

theorem kept_length (fresh : Bool) (entries : List (α × Bytes)) : (kept fresh entries).length ≤ entries.length := by
  induction entries generalizing fresh with
  | nil => simp
  | cons entry entries ih =>
    have hle := ih (comma ∈ entry.2)
    cases fresh with
    | true => exact Nat.succ_le_succ hle
    | false => exact Nat.le_succ_of_le hle

theorem kept_false_length {entries : List (α × Bytes)} (h : entries ≠ []) :
    (kept false entries).length < entries.length := by
  obtain ⟨entry, entries, rfl⟩ := List.exists_cons_of_ne_nil h
  exact Nat.lt_succ_of_le (kept_length _ entries)

theorem kept_apart {entries : List (α × Bytes)} (h : Apart entries) : kept true entries = entries.map Prod.fst := by
  induction entries with
  | nil => rfl
  | cons entry entries ih =>
    obtain ⟨a, gap⟩ := entry
    rw [kept_true, List.map_cons]
    rcases h.1 with rfl | hcomma
    · rw [kept_nil]
      rfl
    · rw [decide_eq_true hcomma, ih h.2]

theorem kept_notApart {entries : List (α × Bytes)} (h : ¬ Apart entries) :
    (kept true entries).length < entries.length := by
  induction entries with
  | nil => exact absurd trivial h
  | cons entry entries ih =>
    obtain ⟨a, gap⟩ := entry
    rw [kept_true, List.length_cons, List.length_cons]
    by_cases hcomma : comma ∈ gap
    · rw [decide_eq_true hcomma]
      exact Nat.succ_lt_succ (ih fun hapart => h ⟨.inr hcomma, hapart⟩)
    · rw [decide_eq_false hcomma]
      refine Nat.succ_lt_succ (kept_false_length ?_)
      rintro rfl
      exact h ⟨.inl rfl, trivial⟩

end

/-! ### Reading the parts -/

section

variable {value : Bytes → Scan (Value × Bytes)}

theorem parseItems_solid {parts : List Bytes} {vs : List Value} (h : parseItems value parts = .ok vs) :
    List.Forall₂ (fun part v => ∃ rest, value part = .ok (v, rest)) (solid parts) vs := by
  induction parts generalizing vs with
  | nil =>
    cases h
    exact .nil
  | cons part parts ih =>
    rw [parseItems] at h
    split at h
    · rename_i hblank
      rw [solid_blank hblank]
      exact ih h
    · rename_i hblank
      split at h
      · cases h
      rename_i v rest hv
      obtain ⟨vs', hvs, rfl⟩ := map_ok h
      rw [solid_cons hblank]
      exact .cons ⟨rest, hv⟩ (ih hvs)

theorem insertField_fresh {fields : List (String × Value)} {name : String} (h : hasKey fields name = false) (v : Value) :
    insertField fields name v = fields ++ [(name, v)] := by
  rw [insertField]
  exact if_neg (ne_true_of_eq_false h)

theorem nodup_keys_nil : (([] : List (String × Value)).map Prod.fst).Nodup := List.nodup_nil

theorem parseEntries_solid {parts : List Bytes} {start result : List (String × Value)}
    (hnodup : (start.map Prod.fst).Nodup) (h : parseEntries value start parts = .ok result) :
    ∃ entries, result = start ++ entries ∧ (result.map Prod.fst).Nodup ∧
      List.Forall₂ (fun part entry => parseEntry value part = .ok entry) (solid parts) entries := by
  induction parts generalizing start with
  | nil =>
    cases h
    exact ⟨[], (List.append_nil _).symm, hnodup, .nil⟩
  | cons part parts ih =>
    rw [parseEntries] at h
    split at h
    · rename_i hblank
      rw [solid_blank hblank]
      exact ih hnodup h
    · rename_i hblank
      split at h
      · cases h
      rename_i name v hentry
      split at h
      · cases h
      rename_i hkey
      rw [insertField_fresh (by simpa using hkey)] at h
      have hname : name ∉ start.map Prod.fst := mt hasKey_iff.mpr hkey
      have hnodup' : ((start ++ [(name, v)]).map Prod.fst).Nodup := by
        rw [List.map_append]
        exact hnodup.append (List.nodup_singleton name) (List.disjoint_singleton.mpr hname)
      obtain ⟨entries, rfl, hkeys, hentries⟩ := ih hnodup' h
      refine ⟨(name, v) :: entries, by simp, hkeys, ?_⟩
      rw [solid_cons hblank]
      exact .cons hentry hentries

end

end Ecat.Graphql
