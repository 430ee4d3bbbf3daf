import Mathlib

/-! Texts that can be told from what stands behind them. -/

namespace Ecat

variable {α β : Type}

/-- What a test finds of a list holds of its elements. -/
theorem forall_mem_of_all {p : α → Prop} [DecidablePred p] {l : List α} (h : l.all (p ·) = true) : ∀ a ∈ l, p a :=
  fun a ha => of_decide_eq_true (List.all_eq_true.1 h a ha)

/-- The first part ends where the elements of one kind end. -/
theorem append_inj_of_span (p : α → Prop) {xs ys as bs : List α} (hxs : ∀ x ∈ xs, p x) (hys : ∀ y ∈ ys, p y)
    (has : ∀ a ∈ as.head?, ¬ p a) (hbs : ∀ b ∈ bs.head?, ¬ p b) (h : xs ++ as = ys ++ bs) : xs = ys ∧ as = bs := by
  induction xs generalizing ys with
  | nil =>
    cases ys with
    | nil => exact ⟨rfl, h⟩
    | cons y ys =>
      rw [List.nil_append] at h
      exact absurd (hys y List.mem_cons_self) (has y (by rw [h]; rfl))
  | cons x xs ih =>
    cases ys with
    | nil =>
      rw [List.nil_append] at h
      exact absurd (hxs x List.mem_cons_self) (hbs x (by rw [← h]; rfl))
    | cons y ys =>
      obtain ⟨rfl, htail⟩ := List.cons.inj h
      obtain ⟨rfl, hrest⟩ := ih (fun z hz => hxs z (List.mem_cons_of_mem _ hz))
        (fun z hz => hys z (List.mem_cons_of_mem _ hz)) htail
      exact ⟨rfl, hrest⟩

theorem append_cons_inj {c : α} {xs ys as bs : List α} (hxs : c ∉ xs) (hys : c ∉ ys)
    (h : xs ++ c :: as = ys ++ c :: bs) : xs = ys ∧ as = bs := by
  have hne {zs : List α} (hzs : c ∉ zs) : ∀ z ∈ zs, z ≠ c := fun z hz heq => hzs (heq ▸ hz)
  obtain ⟨hfront, hback⟩ := append_inj_of_span (· ≠ c) (hne hxs) (hne hys) (by simp) (by simp) h
  exact ⟨hfront, (List.cons.inj hback).2⟩

/-- Codes of which none begins another, up to an element that begins none. -/
theorem flatMap_cons_inj {f : β → List α} {stop : α}
    (hf : ∀ x y as bs, f x ++ as = f y ++ bs → x = y ∧ as = bs) (hstop : ∀ x as bs, f x ++ as ≠ stop :: bs)
    {xs ys : List β} {as bs : List α} (h : xs.flatMap f ++ stop :: as = ys.flatMap f ++ stop :: bs) :
    xs = ys ∧ as = bs := by
  induction xs generalizing ys with
  | nil =>
    cases ys with
    | nil => exact ⟨rfl, (List.cons.inj h).2⟩
    | cons y ys =>
      rw [List.flatMap_cons, List.append_assoc] at h
      exact absurd h.symm (hstop y _ _)
  | cons x xs ih =>
    cases ys with
    | nil =>
      rw [List.flatMap_cons, List.append_assoc] at h
      exact absurd h (hstop x _ _)
    | cons y ys =>
      rw [List.flatMap_cons, List.flatMap_cons, List.append_assoc, List.append_assoc] at h
      obtain ⟨rfl, htail⟩ := hf x y _ _ h
      obtain ⟨rfl, hrest⟩ := ih htail
      exact ⟨rfl, hrest⟩

/-! ### Lists with a separator -/

section Separated

variable {f : β → List α} {sep stop : α} {xs ys : List β} {as bs : List α}

/-- What may stand behind an item. -/
def Follows (sep stop : α) (as : List α) : Prop := as.head? = some sep ∨ as.head? = some stop

/-- Where the texts of the two agree with what follows them, the two are the same. -/
def Told (f : β → List α) (sep stop : α) (x y : β) : Prop :=
  ∀ as bs, Follows sep stop as → Follows sep stop bs → f x ++ as = f y ++ bs → x = y ∧ as = bs

def restOf (f : β → List α) (sep stop : α) (xs : List β) (as : List α) : List α :=
  match xs with
  | [] => stop :: as
  | x :: xs => sep :: (f x ++ restOf f sep stop xs as)

theorem separated_cons (x : β) (xs : List β) (as : List α) :
    (((x :: xs).map f).intersperse [sep]).flatten ++ stop :: as = f x ++ restOf f sep stop xs as := by
  induction xs generalizing x with
  | nil => simp [restOf]
  | cons y ys ih =>
    have hsplit : (((x :: y :: ys).map f).intersperse [sep]).flatten =
        f x ++ sep :: (((y :: ys).map f).intersperse [sep]).flatten := by simp
    rw [hsplit, List.append_assoc, List.cons_append, ih, restOf]

theorem follows_restOf (xs : List β) (as : List α) : Follows sep stop (restOf f sep stop xs as) := by
  cases xs with
  | nil => exact .inr rfl
  | cons x xs => exact .inl rfl

theorem restOf_inj (hne : sep ≠ stop) (hf : ∀ x ∈ xs, ∀ y ∈ ys, Told f sep stop x y)
    (h : restOf f sep stop xs as = restOf f sep stop ys bs) : xs = ys ∧ as = bs := by
  induction xs generalizing ys with
  | nil =>
    cases ys with
    | nil => exact ⟨rfl, (List.cons.inj h).2⟩
    | cons y ys => exact absurd (List.cons.inj h).1.symm hne
  | cons x xs ih =>
    cases ys with
    | nil => exact absurd (List.cons.inj h).1 hne
    | cons y ys =>
      have hfirst := hf x List.mem_cons_self y List.mem_cons_self
      obtain ⟨rfl, htail⟩ := hfirst _ _ (follows_restOf xs as) (follows_restOf ys bs) (List.cons.inj h).2
      obtain ⟨rfl, hrest⟩ := ih (fun z hz w hw => hf z (List.mem_cons_of_mem _ hz) w (List.mem_cons_of_mem _ hw)) htail
      exact ⟨rfl, hrest⟩

theorem separated_cons_inj (hne : sep ≠ stop) {x y : β} (hf : ∀ x' ∈ x :: xs, ∀ y' ∈ y :: ys, Told f sep stop x' y')
    (h : (((x :: xs).map f).intersperse [sep]).flatten ++ stop :: as =
      (((y :: ys).map f).intersperse [sep]).flatten ++ stop :: bs) : x :: xs = y :: ys ∧ as = bs := by
  rw [separated_cons, separated_cons] at h
  exact restOf_inj hne hf (congrArg (sep :: ·) h)

/-- Such a list can be told where each item can be told from what may stand behind it. -/
theorem separated_inj (hne : sep ≠ stop) (hf : ∀ x ∈ xs, ∀ y ∈ ys, Told f sep stop x y)
    (hxs : ∀ x ∈ xs, ∀ as bs, f x ++ as ≠ stop :: bs) (hys : ∀ y ∈ ys, ∀ as bs, f y ++ as ≠ stop :: bs)
    (h : ((xs.map f).intersperse [sep]).flatten ++ stop :: as = ((ys.map f).intersperse [sep]).flatten ++ stop :: bs) :
    xs = ys ∧ as = bs := by
  cases xs with
  | nil =>
    cases ys with
    | nil => exact ⟨rfl, (List.cons.inj h).2⟩
    | cons y ys =>
      rw [separated_cons] at h
      exact absurd h.symm (hys y List.mem_cons_self _ _)
  | cons x xs =>
    cases ys with
    | nil =>
      rw [separated_cons] at h
      exact absurd h (hxs x List.mem_cons_self _ _)
    | cons y ys => exact separated_cons_inj hne hf h

end Separated

/-! ### Parts without the separator -/

/-- The parts with the separator between them. -/
def joined (sep : α) (parts : List (List α)) : List α := (parts.intersperse [sep]).flatten

theorem joined_cons_cons (sep : α) (part next : List α) (parts : List (List α)) :
    joined sep (part :: next :: parts) = part ++ sep :: joined sep (next :: parts) := by
  simp [joined]

theorem mem_joined {sep a : α} {parts : List (List α)} (h : a ∈ joined sep parts) : a = sep ∨ ∃ part ∈ parts, a ∈ part := by
  induction parts with
  | nil => cases h
  | cons part parts ih =>
    cases parts with
    | nil => exact .inr ⟨part, by simp, by simpa [joined] using h⟩
    | cons next parts =>
      rw [joined_cons_cons, List.mem_append, List.mem_cons] at h
      rcases h with h | h | h
      · exact .inr ⟨part, by simp, h⟩
      · exact .inl h
      · rcases ih h with h | ⟨other, hother, h⟩
        · exact .inl h
        · exact .inr ⟨other, List.mem_cons_of_mem _ hother, h⟩

theorem joined_append {sep : α} {parts others : List (List α)} (hne : parts ≠ []) (hne' : others ≠ []) :
    joined sep (parts ++ others) = joined sep parts ++ sep :: joined sep others := by
  induction parts with
  | nil => exact absurd rfl hne
  | cons part parts ih =>
    cases parts with
    | nil =>
      obtain ⟨next, others, rfl⟩ := List.exists_cons_of_ne_nil hne'
      rw [List.singleton_append, joined_cons_cons]
      simp [joined]
    | cons next parts =>
      rw [List.cons_append, List.cons_append, joined_cons_cons, joined_cons_cons, ← List.cons_append,
        ih (List.cons_ne_nil _ _), List.append_assoc, List.cons_append]

/-- A part ends at the separator or with the list. -/
theorem joined_cons (sep : α) (part : List α) (parts : List (List α)) : ∃ rest, joined sep (part :: parts) = part ++ rest ∧
    (∀ a ∈ rest.head?, ¬ a ≠ sep) ∧ (rest = [] ∧ parts = [] ∨ parts ≠ [] ∧ rest = sep :: joined sep parts) := by
  cases parts with
  | nil => exact ⟨[], by simp [joined], by simp, .inl ⟨rfl, rfl⟩⟩
  | cons next parts => exact ⟨_, joined_cons_cons sep part next parts, by simp, .inr ⟨by simp, rfl⟩⟩

theorem joined_inj {sep : α} {parts others : List (List α)} (hne : parts ≠ []) (hne' : others ≠ [])
    (h : ∀ part ∈ parts, sep ∉ part) (h' : ∀ part ∈ others, sep ∉ part) (heq : joined sep parts = joined sep others) :
    parts = others := by
  have hfree {part : List α} (hpart : sep ∉ part) : ∀ a ∈ part, a ≠ sep := fun a ha heq => hpart (heq ▸ ha)
  induction parts generalizing others with
  | nil => exact absurd rfl hne
  | cons part parts ih =>
    obtain ⟨other, others, rfl⟩ := List.exists_cons_of_ne_nil hne'
    obtain ⟨hpart, hparts⟩ := List.forall_mem_cons.1 h
    obtain ⟨hother, hothers⟩ := List.forall_mem_cons.1 h'
    obtain ⟨rest, hjoined, hhead, hrest⟩ := joined_cons sep part parts
    obtain ⟨rest', hjoined', hhead', hrest'⟩ := joined_cons sep other others
    rw [hjoined, hjoined'] at heq
    obtain ⟨rfl, rfl⟩ := append_inj_of_span (· ≠ sep) (hfree hpart) (hfree hother) hhead hhead' heq
    rcases hrest with ⟨rfl, rfl⟩ | ⟨hne, rfl⟩
    · rcases hrest' with ⟨-, rfl⟩ | ⟨-, hcons⟩
      · rfl
      · cases hcons
    · rcases hrest' with ⟨hnil, -⟩ | ⟨hne', hcons⟩
      · cases hnil
      · rw [ih hne hne' hparts hothers (List.cons.inj hcons).2]

end Ecat
