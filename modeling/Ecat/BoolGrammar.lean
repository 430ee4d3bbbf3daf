import Mathlib.Data.List.Basic
import Mathlib.Logic.Function.Iterate

/-! Boolean expressions as text: NOT binds tighter than AND, AND tighter than OR, and both group to
the left. A grammar, a parser that reads what the grammar derives, and expressions joined by AND
without parentheses. -/

namespace Ecat

inductive BoolToken (α : Type)
  | atom (a : α)
  | not
  | and
  | or
  | left
  | right
  deriving DecidableEq, Repr

inductive BoolExpr (α : Type)
  | atom (a : α)
  | not (e : BoolExpr α)
  | and (e d : BoolExpr α)
  | or (e d : BoolExpr α)
  deriving DecidableEq, Repr

inductive BoolLevel
  | primary | negation | conjunction | disjunction
  deriving DecidableEq, Repr

variable {α : Type}

inductive Reads : BoolLevel → List (BoolToken α) → BoolExpr α → Prop
  | atom (a : α) : Reads .primary [.atom a] (.atom a)
  | group {ts e} : Reads .disjunction ts e → Reads .primary (.left :: (ts ++ [.right])) e
  | primary {ts e} : Reads .primary ts e → Reads .negation ts e
  | not {ts e} : Reads .negation ts e → Reads .negation (.not :: ts) (.not e)
  | negation {ts e} : Reads .negation ts e → Reads .conjunction ts e
  | and {ts us e d} : Reads .conjunction ts e → Reads .negation us d →
      Reads .conjunction (ts ++ .and :: us) (.and e d)
  | conjunction {ts e} : Reads .conjunction ts e → Reads .disjunction ts e
  | or {ts us e d} : Reads .disjunction ts e → Reads .conjunction us d →
      Reads .disjunction (ts ++ .or :: us) (.or e d)

namespace BoolExpr

/-- The truth value of SQL: `none` is unknown. -/
def eval (truth : α → Option Bool) : BoolExpr α → Option Bool
  | .atom a => truth a
  | .not e => (e.eval truth).map Bool.not
  | .and e d => match e.eval truth, d.eval truth with
    | some false, _ | _, some false => some false
    | some true, some true => some true
    | _, _ => none
  | .or e d => match e.eval truth, d.eval truth with
    | some true, _ | _, some true => some true
    | some false, some false => some false
    | _, _ => none

/-- The operands of the outermost ANDs. -/
def conjuncts : BoolExpr α → List (BoolExpr α)
  | .and e d => e.conjuncts ++ d.conjuncts
  | e => [e]

theorem conjuncts_ne_nil (e : BoolExpr α) : e.conjuncts ≠ [] := by
  induction e with
  | and e d ihe _ => simp [conjuncts, ihe]
  | _ => simp [conjuncts]

theorem eval_and_iff {truth : α → Option Bool} {e d : BoolExpr α} :
    (e.and d).eval truth = some true ↔ e.eval truth = some true ∧ d.eval truth = some true := by
  rw [eval]
  rcases e.eval truth with _ | _ | _ <;> rcases d.eval truth with _ | _ | _ <;> simp

theorem eval_iff_conjuncts {truth : α → Option Bool} (e : BoolExpr α) :
    e.eval truth = some true ↔ ∀ c ∈ e.conjuncts, c.eval truth = some true := by
  induction e with
  | and e d ihe ihd =>
    rw [eval_and_iff, ihe, ihd, conjuncts, List.forall_mem_append]
  | _ => simp [conjuncts]

end BoolExpr

/-! ### The parser -/

/-- What has been read of a disjunction: its ORs so far, the ANDs since the last of them, and the
NOTs in front of the operand to come. -/
structure BoolFrame (α : Type) where
  ors : Option (BoolExpr α)
  ands : Option (BoolExpr α)
  nots : Nat

namespace BoolFrame

def empty : BoolFrame α := ⟨none, none, 0⟩

def orWith (e : BoolExpr α) : Option (BoolExpr α) → BoolExpr α
  | none => e
  | some d => .or d e

def andWith (e : BoolExpr α) : Option (BoolExpr α) → BoolExpr α
  | none => e
  | some d => .and d e

def operand (f : BoolFrame α) (e : BoolExpr α) : BoolExpr α := andWith (Nat.iterate BoolExpr.not f.nots e) f.ands

end BoolFrame

/-- Before an operand, or after one; the frames are those of the open parentheses. -/
inductive BoolState (α : Type)
  | before (frame : BoolFrame α) (outer : List (BoolFrame α))
  | after (ors : Option (BoolExpr α)) (conj : BoolExpr α) (outer : List (BoolFrame α))

namespace BoolState

def feed : BoolState α → BoolToken α → Option (BoolState α)
  | .before f outer, .atom a => some (.after f.ors (f.operand (.atom a)) outer)
  | .before f outer, .not => some (.before { f with nots := f.nots + 1 } outer)
  | .before f outer, .left => some (.before .empty (f :: outer))
  | .after ors conj outer, .and => some (.before ⟨ors, some conj, 0⟩ outer)
  | .after ors conj outer, .or => some (.before ⟨some (BoolFrame.orWith conj ors), none, 0⟩ outer)
  | .after ors conj (f :: outer), .right => some (.after f.ors (f.operand (BoolFrame.orWith conj ors)) outer)
  | _, _ => none

def result : BoolState α → Option (BoolExpr α)
  | .after ors conj [] => some (BoolFrame.orWith conj ors)
  | _ => none

end BoolState

def parseBool (ts : List (BoolToken α)) : Option (BoolExpr α) :=
  (ts.foldlM BoolState.feed (.before .empty [])).bind BoolState.result

namespace Reads

variable {ts us : List (BoolToken α)} {e d : BoolExpr α}

/-- Where the parser is once it has read a text of the level. -/
def Fed (ts : List (BoolToken α)) (e : BoolExpr α) : BoolLevel → Prop
  | .primary | .negation => ∀ f outer,
      ts.foldlM BoolState.feed (.before f outer) = some (.after f.ors (f.operand e) outer)
  | .conjunction => ∀ ors outer,
      ts.foldlM BoolState.feed (.before ⟨ors, none, 0⟩ outer) = some (.after ors e outer)
  | .disjunction => ∀ outer, ∃ ors conj, BoolFrame.orWith conj ors = e ∧
      ts.foldlM BoolState.feed (.before .empty outer) = some (.after ors conj outer)

theorem fed {level : BoolLevel} (h : Reads level ts e) : Fed ts e level := by
  induction h with
  | atom a =>
    intro f outer
    rfl
  | @group ts _ _ ih =>
    intro f outer
    obtain ⟨ors, conj, he, hts⟩ := ih (f :: outer)
    show (ts ++ [BoolToken.right]).foldlM BoolState.feed (.before .empty (f :: outer)) = _
    rw [List.foldlM_append, hts, ← he]
    rfl
  | primary _ ih => exact ih
  | not _ ih =>
    intro f outer
    exact ih { f with nots := f.nots + 1 } outer
  | negation _ ih =>
    intro ors outer
    exact ih ⟨ors, none, 0⟩ outer
  | @and _ _ e _ _ _ ihe ihd =>
    intro ors outer
    rw [List.foldlM_append, ihe ors outer]
    exact ihd ⟨ors, some e, 0⟩ outer
  | conjunction _ ih =>
    intro outer
    exact ⟨none, _, rfl, ih none outer⟩
  | @or _ _ e d _ _ ihe ihd =>
    intro outer
    obtain ⟨ors, conj, he, hts⟩ := ihe outer
    refine ⟨some e, d, rfl, ?_⟩
    rw [List.foldlM_append, hts, ← he]
    exact ihd (some (BoolFrame.orWith conj ors)) outer

theorem parse (h : Reads .disjunction ts e) : parseBool ts = some e := by
  obtain ⟨ors, conj, he, hts⟩ := h.fed []
  rw [parseBool, hts, ← he]
  rfl

theorem unique (h : Reads .disjunction ts e) (h' : Reads .disjunction ts d) : e = d := by
  have heq : some e = some d := h.parse.symm.trans h'.parse
  exact Option.some.inj heq

/-! ### Joining by AND -/

theorem conj_and_conj (h : Reads .conjunction ts e) (h' : Reads .conjunction us d) :
    ∃ x, Reads .conjunction (ts ++ .and :: us) x ∧ x.conjuncts = e.conjuncts ++ d.conjuncts := by
  generalize hlevel : BoolLevel.conjunction = level at h'
  induction h' with
  | negation hd _ => exact ⟨_, h.and hd, rfl⟩
  | @and us vs d c _ hc ih _ =>
    obtain ⟨x, hx, hconjuncts⟩ := ih rfl
    refine ⟨x.and c, ?_, ?_⟩
    · simpa using hx.and hc
    · simp [BoolExpr.conjuncts, hconjuncts]
  | _ => cases hlevel

/-- The text has an OR outside parentheses. -/
def OrTop (ts : List (BoolToken α)) : Prop :=
  ∃ us vs e d, ts = us ++ .or :: vs ∧ Reads .disjunction us e ∧ Reads .conjunction vs d

theorem conj_or_orTop (h : Reads .disjunction ts e) : Reads .conjunction ts e ∨ OrTop ts := by
  cases h with
  | conjunction h => exact .inl h
  | or he hd => exact .inr ⟨_, _, _, _, rfl, he, hd⟩

theorem disj_and_conj (h : Reads .disjunction ts e) (h' : Reads .conjunction us d) :
    ∃ x, Reads .disjunction (ts ++ .and :: us) x := by
  cases h with
  | conjunction h =>
    obtain ⟨x, hx, _⟩ := h.conj_and_conj h'
    exact ⟨x, hx.conjunction⟩
  | or he hd =>
    obtain ⟨x, hx, _⟩ := hd.conj_and_conj h'
    exact ⟨_, by simpa using he.or hx⟩

theorem disj_and_disj (h : Reads .disjunction ts e) (h' : Reads .disjunction us d) :
    ∃ x, Reads .disjunction (ts ++ .and :: us) x := by
  generalize hlevel : BoolLevel.disjunction = level at h'
  induction h' with
  | conjunction hd _ => exact h.disj_and_conj hd
  | or _ hc ih _ =>
    obtain ⟨x, hx⟩ := ih rfl
    exact ⟨_, by simpa using hx.or hc⟩
  | _ => cases hlevel

theorem orTop_and (h : OrTop ts) (h' : Reads .disjunction us d) : OrTop (ts ++ .and :: us) := by
  obtain ⟨vs, ws, e, c, rfl, he, hc⟩ := h
  cases h' with
  | conjunction hd =>
    obtain ⟨x, hx, _⟩ := hc.conj_and_conj hd
    exact ⟨vs, ws ++ .and :: us, e, x, by simp, he, hx⟩
  | @or us₁ us₂ _ _ hd hd' =>
    obtain ⟨x, hx⟩ := (he.or hc).disj_and_disj hd
    exact ⟨_, us₂, x, _, by simp, hx, hd'⟩

theorem and_orTop (h : Reads .disjunction ts e) (h' : OrTop us) : OrTop (ts ++ .and :: us) := by
  obtain ⟨vs, ws, d, c, rfl, hd, hc⟩ := h'
  obtain ⟨x, hx⟩ := h.disj_and_disj hd
  exact ⟨ts ++ .and :: vs, ws, x, c, by simp, hx, hc⟩

theorem orTop_reads (h : OrTop ts) : ∃ e d, Reads .disjunction ts (.or e d) := by
  obtain ⟨us, vs, e, d, rfl, he, hd⟩ := h
  exact ⟨e, d, he.or hd⟩

end Reads

/-- An OR at parenthesis depth zero, from the given depth on. -/
def hasOr : Nat → List (BoolToken α) → Bool
  | _, [] => false
  | 0, .or :: _ => true
  | depth, .left :: ts => hasOr (depth + 1) ts
  | depth, .right :: ts => hasOr (depth - 1) ts
  | depth, _ :: ts => hasOr depth ts

namespace Reads

variable {ts us : List (BoolToken α)} {e d : BoolExpr α}

/-- The scan passes over a text of the level, which has to stand in parentheses if it is a disjunction. -/
def Passed (ts : List (BoolToken α)) : BoolLevel → Prop
  | .disjunction => ∀ depth rest, hasOr (depth + 1) (ts ++ rest) = hasOr (depth + 1) rest
  | _ => ∀ depth rest, hasOr depth (ts ++ rest) = hasOr depth rest

theorem passed {level : BoolLevel} (h : Reads level ts e) : Passed ts level := by
  induction h with
  | atom a =>
    intro depth rest
    rw [List.singleton_append, hasOr.eq_def]
  | group _ ih =>
    intro depth rest
    have hgroup := ih depth (.right :: rest)
    simpa [hasOr] using hgroup
  | primary _ ih => exact ih
  | not _ ih =>
    intro depth rest
    have hrest := ih depth rest
    simpa [hasOr] using hrest
  | negation _ ih => exact ih
  | @and ts us _ _ _ _ ihe ihd =>
    intro depth rest
    have hrest := ihd depth rest
    simpa [ihe depth, hasOr] using hrest
  | conjunction _ ih =>
    intro depth rest
    exact ih (depth + 1) rest
  | or _ _ ihe ihd =>
    intro depth rest
    have hrest := ihd (depth + 1) rest
    simpa [ihe depth, hasOr] using hrest

theorem hasOr_before (h : Reads .disjunction ts e) (rest : List (BoolToken α)) :
    hasOr 0 (ts ++ .or :: rest) = true := by
  generalize hlevel : BoolLevel.disjunction = level at h
  induction h generalizing rest with
  | conjunction h _ =>
    rw [h.passed 0]
    rfl
  | @or ts us _ _ _ _ ih _ =>
    have hrest := ih (us ++ .or :: rest) rfl
    simpa using hrest
  | _ => cases hlevel

theorem hasOr_iff (h : Reads .disjunction ts e) : hasOr 0 ts = true ↔ OrTop ts := by
  constructor
  · intro hor
    rcases h.conj_or_orTop with hconj | htop
    · have hpassed := hconj.passed 0 []
      rw [List.append_nil, hor] at hpassed
      cases hpassed
    · exact htop
  · rintro ⟨us, vs, _, _, rfl, he, _⟩
    exact he.hasOr_before vs

theorem conj_of_hasOr (h : Reads .disjunction ts e) (hno : hasOr 0 ts = false) : Reads .conjunction ts e := by
  rcases h.conj_or_orTop with hconj | htop
  · exact hconj
  · rw [h.hasOr_iff.2 htop] at hno
    cases hno

end Reads

/-! ### Lists of expressions -/

/-- A text that is a boolean expression. -/
structure BoolText (α : Type) where
  tokens : List (BoolToken α)
  tree : BoolExpr α
  reads : Reads .disjunction tokens tree

namespace BoolText

def atom (a : α) : BoolText α := ⟨[.atom a], .atom a, .conjunction (.negation (.primary (.atom a)))⟩

def joinAnd : List (BoolText α) → List (BoolToken α)
  | [] => []
  | [c] => c.tokens
  | c :: d :: conds => c.tokens ++ .and :: joinAnd (d :: conds)

theorem joinAnd_reads (c : BoolText α) (conds : List (BoolText α)) :
    ∃ x, Reads .disjunction (joinAnd (c :: conds)) x := by
  induction conds generalizing c with
  | nil => exact ⟨c.tree, c.reads⟩
  | cons d conds ih =>
    obtain ⟨x, hx⟩ := ih d
    exact c.reads.disj_and_disj hx

theorem joinAnd_conj {c : BoolText α} {conds : List (BoolText α)}
    (hno : ∀ d ∈ c :: conds, hasOr 0 d.tokens = false) : ∃ x, Reads .conjunction (joinAnd (c :: conds)) x ∧
      x.conjuncts = (c :: conds).flatMap fun d => d.tree.conjuncts := by
  induction conds generalizing c with
  | nil => exact ⟨c.tree, c.reads.conj_of_hasOr (hno c List.mem_cons_self), by simp⟩
  | cons d conds ih =>
    obtain ⟨hc, hrest⟩ := List.forall_mem_cons.1 hno
    obtain ⟨x, hx, hconjuncts⟩ := ih hrest
    obtain ⟨y, hy, hjoined⟩ := (c.reads.conj_of_hasOr hc).conj_and_conj hx
    refine ⟨y, hy, ?_⟩
    rw [hjoined, hconjuncts]
    rfl

theorem joinAnd_orTop {c : BoolText α} {conds : List (BoolText α)} (hor : ∃ d ∈ c :: conds, hasOr 0 d.tokens = true) :
    Reads.OrTop (joinAnd (c :: conds)) := by
  induction conds generalizing c with
  | nil =>
    obtain ⟨d, hd, htop⟩ := hor
    cases List.mem_singleton.1 hd
    exact c.reads.hasOr_iff.1 htop
  | cons d conds ih =>
    obtain ⟨d', hd', htop⟩ := hor
    rcases List.mem_cons.1 hd' with rfl | htail
    · obtain ⟨x, hx⟩ := joinAnd_reads d conds
      exact Reads.orTop_and (d'.reads.hasOr_iff.1 htop) hx
    · exact c.reads.and_orTop (ih ⟨d', htail, htop⟩)

/-- The joined text is read as the conjunction of its parts. -/
def Conjoins (conds : List (BoolText α)) : Prop :=
  ∃ e, parseBool (joinAnd conds) = some e ∧ e.conjuncts = conds.flatMap fun c => c.tree.conjuncts

theorem conjoins_iff {conds : List (BoolText α)} (hne : conds ≠ []) :
    Conjoins conds ↔ conds.length = 1 ∨ ∀ c ∈ conds, hasOr 0 c.tokens = false := by
  obtain ⟨c, conds, rfl⟩ := List.exists_cons_of_ne_nil hne
  constructor
  · rintro ⟨e, hparse, hconjuncts⟩
    by_contra hnot
    push Not at hnot
    obtain ⟨hlength, d, hd, hor⟩ := hnot
    obtain ⟨l, r, htree⟩ := Reads.orTop_reads (joinAnd_orTop ⟨d, hd, by simpa using hor⟩)
    obtain ⟨c', rest, rfl⟩ := List.exists_cons_of_ne_nil (l := conds) (by rintro rfl; exact hlength rfl)
    cases hparse.symm.trans htree.parse
    have hlengths := congrArg List.length hconjuncts
    have hc := List.length_pos_of_ne_nil c.tree.conjuncts_ne_nil
    have hc' := List.length_pos_of_ne_nil c'.tree.conjuncts_ne_nil
    simp only [BoolExpr.conjuncts, List.flatMap_cons, List.length_append, List.length_singleton] at hlengths
    omega
  · rintro (hone | hno)
    · cases List.length_eq_zero_iff.1 (Nat.succ.inj hone)
      exact ⟨c.tree, c.reads.parse, by simp⟩
    · obtain ⟨x, hx, hconjuncts⟩ := joinAnd_conj hno
      exact ⟨x, hx.conjunction.parse, hconjuncts⟩

theorem Conjoins.eval {conds : List (BoolText α)} (h : Conjoins conds) {e : BoolExpr α}
    (hparse : parseBool (joinAnd conds) = some e) {truth : α → Option Bool} (htrue : e.eval truth = some true) :
    ∀ c ∈ conds, c.tree.eval truth = some true := by
  obtain ⟨e', hparse', hconjuncts⟩ := h
  cases hparse.symm.trans hparse'
  intro c hc
  rw [BoolExpr.eval_iff_conjuncts] at htrue ⊢
  intro d hd
  apply htrue
  rw [hconjuncts]
  exact List.mem_flatMap.2 ⟨c, hc, hd⟩

end BoolText

end Ecat
