import Ecat.GraphqlScan

/-! Texts in which every string and every group is closed. The scanners that look for the end of a group or
for the next comma go over such a text and come out as they went in. -/

namespace Ecat.Graphql

def isBracket (c : UInt8) : Bool :=
  c = lparen || c = rparen || c = lbracket || c = rbracket || c = lbrace || c = rbrace

/-- A string with both its quotes. -/
structure IsString (token : Bytes) : Prop where
  quoted : token.head?.any isQuote
  closed : skipString token = (.ok (), [])

def NoQuote (b : Bytes) : Prop := ¬ b.head?.any isQuote

/-- Every string and every group is closed; `commas` says whether commas may stand outside the groups. -/
inductive Nested : Bool → Bytes → Prop
  | nil {commas : Bool} : Nested commas []
  | plain {commas : Bool} {c : UInt8} {text : Bytes} (hbracket : ¬ isBracket c) (hquote : ¬ isQuote c)
      (hcomma : c = comma → commas) (htext : Nested commas text) : Nested commas (c :: text)
  | string {commas : Bool} {token text : Bytes} (htoken : IsString token) (hnext : NoQuote text)
      (htext : Nested commas text) : Nested commas (token ++ text)
  | square {commas : Bool} {inner text : Bytes} (hinner : Nested true inner) (htext : Nested commas text) :
      Nested commas (lbracket :: (inner ++ rbracket :: text))
  | curly {commas : Bool} {inner text : Bytes} (hinner : Nested true inner) (htext : Nested commas text) :
      Nested commas (lbrace :: (inner ++ rbrace :: text))

/-! ### Strings -/

theorem skipSimple_append {q : UInt8} {b rest : Bytes} (h : skipSimple q b = (.ok (), rest)) (tail : Bytes) :
    skipSimple q (b ++ tail) = (.ok (), rest ++ tail) := by
  fun_induction skipSimple q b with
  | case1 => cases h
  | case2 => cases h
  | case3 hescape =>
    cases h
    cases tail with
    | nil => simp [skipSimple, hescape]
    | cons d ds => simp [skipSimple, hescape]
  | case4 => cases h
  | case5 d cs ih =>
    rw [List.cons_append, List.cons_append, skipSimple, if_pos rfl]
    exact ih h
  | case6 d cs hescape =>
    cases h
    rw [List.cons_append, List.cons_append, skipSimple, if_neg hescape, if_pos rfl]
  | case7 c d cs hescape hquote ih =>
    rw [List.cons_append, List.cons_append, skipSimple, if_neg hescape, if_neg hquote]
    exact ih h

theorem two_le_of_take {b : Bytes} {c d : UInt8} (h : b.take 2 = [c, d]) : 2 ≤ b.length := by
  have htake := congrArg List.length h
  rw [List.length_take] at htake
  simp only [List.length_cons, List.length_nil] at htake
  omega

theorem skipBlock_length {q : UInt8} {b rest : Bytes} (h : skipBlock q b = (.ok (), rest)) : 3 ≤ b.length := by
  fun_induction skipBlock q b with
  | case1 => cases h
  | case2 c cs hclose =>
    have hlength := two_le_of_take hclose.2
    rw [List.length_cons]
    omega
  | case3 c cs _ ih =>
    have hcs := ih h
    rw [List.length_cons]
    omega

theorem take_two_append {b : Bytes} (h : 2 ≤ b.length) (tail : Bytes) : (b ++ tail).take 2 = b.take 2 :=
  List.take_append_of_le_length h

theorem skipBlock_append {q : UInt8} {b rest : Bytes} (h : skipBlock q b = (.ok (), rest)) (tail : Bytes) :
    skipBlock q (b ++ tail) = (.ok (), rest ++ tail) := by
  fun_induction skipBlock q b with
  | case1 => cases h
  | case2 c cs hclose =>
    have hlength := two_le_of_take hclose.2
    cases h
    rw [List.cons_append, skipBlock, take_two_append hlength, if_pos hclose, List.drop_append_of_le_length hlength]
  | case3 c cs hclose ih =>
    have hlength := skipBlock_length h
    rw [List.cons_append, skipBlock, take_two_append (by omega), if_neg hclose]
    exact ih h

/-- The text after a string does not change where it ends. -/
theorem IsString.skip {token : Bytes} (h : IsString token) {tail : Bytes} (htail : NoQuote tail) :
    skipString (token ++ tail) = (.ok (), tail) := by
  obtain ⟨hquote, hclosed⟩ := h
  cases token with
  | nil => cases hquote
  | cons c cs =>
    have hc : isQuote c := by simpa using hquote
    rw [skipString] at hclosed
    rw [List.cons_append, skipString]
    split_ifs at hclosed with hblock
    · have hlength := two_le_of_take hblock
      rw [take_two_append hlength, if_pos hblock, List.drop_append_of_le_length hlength]
      exact skipBlock_append hclosed tail
    · have hopen : ¬ (cs ++ tail).take 2 = [c, c] := by
        rcases cs with _ | ⟨d, _ | ⟨e, cs⟩⟩
        · cases hclosed
        · cases tail with
          | nil => simp
          | cons e tail =>
            intro htake
            simp only [List.cons_append, List.nil_append, List.take_succ_cons, List.take_zero, List.cons.injEq] at htake
            obtain ⟨_, rfl, _⟩ := htake
            exact htail (by simpa using hc)
        · rw [take_two_append (by simp)]
          exact hblock
      rw [if_neg hopen]
      exact skipSimple_append hclosed tail

theorem upTo_append (b rest : Bytes) : upTo (b ++ rest) rest = b := by
  rw [upTo, List.length_append, Nat.add_sub_cancel, List.take_left]

theorem NoQuote.append {b tail : Bytes} (h : NoQuote b) (htail : NoQuote tail) : NoQuote (b ++ tail) := by
  cases b with
  | nil => exact htail
  | cons c cs => exact h

theorem noQuote_cons {c : UInt8} (h : isQuote c = false) (cs : Bytes) : NoQuote (c :: cs) := by
  simp [NoQuote, h]

theorem isQuote_of_bracket {c : UInt8} (h : isBracket c) : isQuote c = false := by
  simp only [isBracket, Bool.or_eq_true, decide_eq_true_eq] at h
  rcases h with ((((rfl | rfl) | rfl) | rfl) | rfl) | rfl <;> rfl

theorem IsString.eq_cons {token : Bytes} (h : IsString token) :
    ∃ c cs, token = c :: cs ∧ isQuote c ∧ ∀ d, isBracket d → c ≠ d := by
  obtain ⟨hquote, _⟩ := h
  cases token with
  | nil => cases hquote
  | cons c cs =>
    have hc : isQuote c := by simpa using hquote
    refine ⟨c, cs, rfl, hc, ?_⟩
    rintro d hd rfl
    rw [isQuote_of_bracket hd] at hc
    cases hc

/-! ### Splitting at commas -/

theorem Groups.after_plain {c : UInt8} (h : ¬ isBracket c) (g : Groups) : g.after c = g := by
  simp only [isBracket, Bool.or_eq_true, decide_eq_true_eq, not_or] at h
  obtain ⟨⟨⟨⟨⟨h1, h2⟩, h3⟩, h4⟩, h5⟩, h6⟩ := h
  simp [after, h1, h2, h3, h4, h5, h6]

theorem Groups.after_square (g : Groups) : (g.after lbracket).after rbracket = g := rfl

theorem Groups.after_curly (g : Groups) : (g.after lbrace).after rbrace = g := rfl

theorem Groups.after_square_ne (g : Groups) : g.after lbracket ≠ .none := by
  intro h
  cases congrArg Groups.square h

theorem Groups.after_curly_ne (g : Groups) : g.after lbrace ≠ .none := by
  intro h
  cases congrArg Groups.curly h

theorem splitFrom_step {c : UInt8} (hquote : isQuote c = false) {g : Groups} (hcomma : ¬ (c = comma ∧ g = .none))
    (part cs : Bytes) : splitFrom g part (c :: cs) = splitFrom (g.after c) (part ++ [c]) cs := by
  rw [splitFrom, if_neg (by simp [hquote]), if_neg hcomma]

theorem splitFrom_string {token : Bytes} (h : IsString token) {tail : Bytes} (htail : NoQuote tail) (g : Groups)
    (part : Bytes) : splitFrom g part (token ++ tail) = splitFrom g (part ++ token) tail := by
  have hskip := h.skip htail
  obtain ⟨c, cs, rfl, hc, _⟩ := h.eq_cons
  rw [List.cons_append] at hskip ⊢
  rw [splitFrom, if_pos hc, hskip, ← List.cons_append, upTo_append]

/-- The text comes into the current part as a whole. -/
theorem Nested.split {commas : Bool} {text : Bytes} (h : Nested commas text) {g : Groups}
    (hg : commas → g ≠ .none) (part : Bytes) {tail : Bytes} (htail : NoQuote tail) :
    splitFrom g part (text ++ tail) = splitFrom g (part ++ text) tail := by
  induction h generalizing g part tail with
  | nil => rw [List.nil_append, List.append_nil]
  | @plain commas c text hbracket hquote hcomma _ ih =>
    have hstay : ¬ (c = comma ∧ g = .none) := fun hboth => hg (hcomma hboth.1) hboth.2
    rw [List.cons_append, splitFrom_step (by simpa using hquote) hstay, Groups.after_plain hbracket, ih hg _ htail,
      List.append_assoc]
    rfl
  | string htoken hnext _ ih =>
    rw [List.append_assoc, splitFrom_string htoken (hnext.append htail), ih hg _ htail, List.append_assoc]
  | @square commas inner text _ _ ihinner ih =>
    rw [List.cons_append, splitFrom_step rfl (fun h => absurd h.1 (by decide)), List.append_assoc, List.cons_append,
      ihinner (fun _ => g.after_square_ne) _ (noQuote_cons rfl _), splitFrom_step rfl (fun h => absurd h.1 (by decide)),
      Groups.after_square, ih hg _ htail]
    simp
  | @curly commas inner text _ _ ihinner ih =>
    rw [List.cons_append, splitFrom_step rfl (fun h => absurd h.1 (by decide)), List.append_assoc, List.cons_append,
      ihinner (fun _ => g.after_curly_ne) _ (noQuote_cons rfl _), splitFrom_step rfl (fun h => absurd h.1 (by decide)),
      Groups.after_curly, ih hg _ htail]
    simp

/-! ### Closing a group -/

theorem skipBalanced_string {opening closing : UInt8} (hopening : isBracket opening) (hclosing : isBracket closing)
    {token : Bytes} (h : IsString token) {tail : Bytes} (htail : NoQuote tail) (depth : Nat) :
    skipBalanced opening closing depth (token ++ tail) = skipBalanced opening closing depth tail := by
  have hskip := h.skip htail
  obtain ⟨c, cs, rfl, hc, hne⟩ := h.eq_cons
  rw [List.cons_append] at hskip ⊢
  rw [skipBalanced, if_neg (hne _ hopening), if_neg (hne _ hclosing), if_pos hc, hskip]

theorem skipBalanced_other {opening closing c : UInt8} (hopening : c ≠ opening) (hclosing : c ≠ closing)
    (hquote : isQuote c = false) (depth : Nat) (cs : Bytes) :
    skipBalanced opening closing depth (c :: cs) = skipBalanced opening closing depth cs := by
  rw [skipBalanced, if_neg hopening, if_neg hclosing, if_neg (by simp [hquote])]

theorem skipBalanced_open (opening closing : UInt8) (depth : Nat) (cs : Bytes) :
    skipBalanced opening closing depth (opening :: cs) = skipBalanced opening closing (depth + 1) cs := by
  rw [skipBalanced, if_pos rfl]

theorem skipBalanced_close {opening closing : UInt8} (hne : closing ≠ opening) (depth : Nat) (cs : Bytes) :
    skipBalanced opening closing (depth + 2) (closing :: cs) = skipBalanced opening closing (depth + 1) cs := by
  rw [skipBalanced, if_neg hne, if_pos rfl, if_neg (by omega)]
  rfl

theorem skipBalanced_end {opening closing : UInt8} (hne : closing ≠ opening) (cs : Bytes) :
    skipBalanced opening closing 1 (closing :: cs) = .ok cs := by
  rw [skipBalanced, if_neg hne, if_pos rfl, if_pos (by omega)]

/-- The brackets of a value group. -/
inductive Pair : UInt8 → UInt8 → Prop
  | square : Pair lbracket rbracket
  | curly : Pair lbrace rbrace

theorem Pair.opening {opening closing : UInt8} (h : Pair opening closing) : isBracket opening := by
  cases h <;> rfl

theorem Pair.closing {opening closing : UInt8} (h : Pair opening closing) : isBracket closing := by
  cases h <;> rfl

theorem Nested.balanced {commas : Bool} {text : Bytes} (h : Nested commas text) {opening closing : UInt8}
    (hpair : Pair opening closing) (depth : Nat) {tail : Bytes} (htail : NoQuote tail) :
    skipBalanced opening closing (depth + 1) (text ++ tail) = skipBalanced opening closing (depth + 1) tail := by
  induction h generalizing depth tail with
  | nil => rfl
  | @plain commas c text hbracket hquote hcomma _ ih =>
    have hne : ∀ d, isBracket d → c ≠ d := by
      rintro d hd rfl
      exact hbracket hd
    rw [List.cons_append, skipBalanced_other (hne _ hpair.opening) (hne _ hpair.closing) (by simpa using hquote),
      ih depth htail]
  | string htoken hnext _ ih =>
    rw [List.append_assoc, skipBalanced_string hpair.opening hpair.closing htoken (hnext.append htail), ih depth htail]
  | @square commas inner text _ _ ihinner ih =>
    rw [List.cons_append, List.append_assoc, List.cons_append]
    cases hpair with
    | square =>
      rw [skipBalanced_open, ihinner _ (noQuote_cons rfl _), skipBalanced_close (by decide), ih depth htail]
    | curly =>
      rw [skipBalanced_other (by decide) (by decide) rfl, ihinner _ (noQuote_cons rfl _),
        skipBalanced_other (by decide) (by decide) rfl, ih depth htail]
  | @curly commas inner text _ _ ihinner ih =>
    rw [List.cons_append, List.append_assoc, List.cons_append]
    cases hpair with
    | square =>
      rw [skipBalanced_other (by decide) (by decide) rfl, ihinner _ (noQuote_cons rfl _),
        skipBalanced_other (by decide) (by decide) rfl, ih depth htail]
    | curly =>
      rw [skipBalanced_open, ihinner _ (noQuote_cons rfl _), skipBalanced_close (by decide), ih depth htail]

/-- A group ends at its own bracket. -/
theorem Nested.group {commas : Bool} {inner : Bytes} (h : Nested commas inner) {opening closing : UInt8}
    (hpair : Pair opening closing) (tail : Bytes) :
    skipBalanced opening closing 0 (opening :: (inner ++ closing :: tail)) = .ok tail := by
  have hne : closing ≠ opening := by cases hpair <;> decide
  rw [skipBalanced_open, h.balanced hpair 0 (noQuote_cons (isQuote_of_bracket hpair.closing) _), skipBalanced_end hne]

/-! ### Arguments in parentheses -/

theorem skipParens_string {token : Bytes} (h : IsString token) {tail : Bytes} (htail : NoQuote tail) (depth : Nat) :
    skipParens depth (token ++ tail) = skipParens depth tail := by
  have hskip := h.skip htail
  obtain ⟨c, cs, rfl, hc, hne⟩ := h.eq_cons
  rw [List.cons_append] at hskip ⊢
  rw [skipParens, if_neg (hne _ rfl), if_neg (hne _ rfl), if_pos hc, hskip]

theorem skipParens_other {c : UInt8} (hopening : c ≠ lparen) (hclosing : c ≠ rparen) (hquote : isQuote c = false)
    (depth : Nat) (cs : Bytes) : skipParens depth (c :: cs) = skipParens depth cs := by
  rw [skipParens, if_neg hopening, if_neg hclosing, if_neg (by simp [hquote])]

theorem Nested.parens {commas : Bool} {text : Bytes} (h : Nested commas text) (depth : Nat) {tail : Bytes}
    (htail : NoQuote tail) : skipParens depth (text ++ tail) = skipParens depth tail := by
  induction h generalizing tail with
  | nil => rfl
  | @plain commas c text hbracket hquote hcomma _ ih =>
    have hne : ∀ d, isBracket d → c ≠ d := by
      rintro d hd rfl
      exact hbracket hd
    rw [List.cons_append, skipParens_other (hne _ rfl) (hne _ rfl) (by simpa using hquote), ih htail]
  | string htoken hnext _ ih =>
    rw [List.append_assoc, skipParens_string htoken (hnext.append htail), ih htail]
  | @square commas inner text _ _ ihinner ih =>
    rw [List.cons_append, List.append_assoc, List.cons_append, skipParens_other (by decide) (by decide) rfl,
      ihinner (noQuote_cons rfl _), skipParens_other (by decide) (by decide) rfl, ih htail]
  | @curly commas inner text _ _ ihinner ih =>
    rw [List.cons_append, List.append_assoc, List.cons_append, skipParens_other (by decide) (by decide) rfl,
      ihinner (noQuote_cons rfl _), skipParens_other (by decide) (by decide) rfl, ih htail]

theorem Nested.append {commas : Bool} {text text' : Bytes} (h : Nested commas text) (h' : Nested commas text')
    (hnext : NoQuote text') : Nested commas (text ++ text') := by
  induction h with
  | nil => exact h'
  | plain hbracket hquote hcomma _ ih => exact .plain hbracket hquote hcomma (ih h')
  | string htoken hquote _ ih =>
    rw [List.append_assoc]
    exact .string htoken (hquote.append hnext) (ih h')
  | square hinner _ _ ih =>
    rw [List.cons_append, List.append_assoc]
    exact .square hinner (ih h')
  | curly hinner _ _ ih =>
    rw [List.cons_append, List.append_assoc]
    exact .curly hinner (ih h')

theorem Nested.weaken {commas : Bool} {text : Bytes} (h : Nested commas text) : Nested true text := by
  induction h with
  | nil => exact .nil
  | plain hbracket hquote _ _ ih => exact .plain hbracket hquote (fun _ => rfl) ih
  | string htoken hnext _ ih => exact .string htoken hnext ih
  | square hinner _ _ ih => exact .square hinner ih
  | curly hinner _ _ ih => exact .curly hinner ih

end Ecat.Graphql
