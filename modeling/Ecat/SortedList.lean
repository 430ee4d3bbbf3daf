import Mathlib

/-! Lists sorted by a relation: dropping repeats that stand side by side, and prefixes of a
strictly sorted list. -/

namespace Ecat

variable {α : Type} {le : α → α → Prop} {same : α → α → Bool}

def dedupFrom (same : α → α → Bool) (kept : α) : List α → List α
  | [] => []
  | a :: l => if same a kept then dedupFrom same kept l else a :: dedupFrom same a l

def dedupBy (same : α → α → Bool) : List α → List α
  | [] => []
  | a :: l => a :: dedupFrom same a l

theorem dedupFrom_sublist (same : α → α → Bool) (kept : α) (l : List α) :
    (dedupFrom same kept l).Sublist l := by
  induction l generalizing kept with
  | nil => exact List.Sublist.refl _
  | cons a l ih =>
    rw [dedupFrom]
    split_ifs
    · exact (ih kept).cons a
    · exact (ih a).cons_cons a

theorem dedupBy_sublist (same : α → α → Bool) (l : List α) : (dedupBy same l).Sublist l := by
  cases l with
  | nil => exact List.Sublist.refl _
  | cons a l => exact (dedupFrom_sublist same a l).cons_cons a

theorem pairwise_dedupFrom (htrans : ∀ a b c, le a b → le b c → le a c)
    (hsame : ∀ a b, le a b → (same b a = true ↔ le b a)) {kept : α} {l : List α}
    (h : (kept :: l).Pairwise le) :
    (kept :: dedupFrom same kept l).Pairwise fun a b => le a b ∧ ¬ le b a := by
  induction l generalizing kept with
  | nil => exact List.pairwise_singleton _ _
  | cons a l ih =>
    obtain ⟨hkept, hrest⟩ := List.pairwise_cons.1 h
    rw [dedupFrom]
    split_ifs with heq
    · exact ih (List.pairwise_cons.2 ⟨fun b hb => hkept b (by simp [hb]), (List.pairwise_cons.1 hrest).2⟩)
    · have hka : le kept a := hkept a (by simp)
      have hak : ¬ le a kept := fun hle => heq ((hsame kept a hka).2 hle)
      refine List.pairwise_cons.2 ⟨?_, ih hrest⟩
      intro b hb
      rcases List.mem_cons.1 hb with rfl | hb
      · exact ⟨hka, hak⟩
      · have hbl := (dedupFrom_sublist same a l).subset hb
        refine ⟨hkept b (by simp [hbl]), fun hle => hak ?_⟩
        exact htrans a b kept ((List.pairwise_cons.1 hrest).1 b hbl) hle

theorem pairwise_dedupBy (le : α → α → Prop) (same : α → α → Bool)
    (htrans : ∀ a b c, le a b → le b c → le a c)
    (hsame : ∀ a b, le a b → (same b a = true ↔ le b a)) {l : List α} (h : l.Pairwise le) :
    (dedupBy same l).Pairwise fun a b => le a b ∧ ¬ le b a := by
  cases l with
  | nil => exact List.Pairwise.nil
  | cons a l => exact pairwise_dedupFrom htrans hsame h

theorem exists_mem_dedupFrom (hrefl : ∀ a, same a a = true) {kept a : α} {l : List α}
    (h : a ∈ kept :: l) : ∃ b ∈ kept :: dedupFrom same kept l, same a b = true := by
  induction l generalizing kept with
  | nil => exact ⟨kept, by simp, by rw [List.mem_singleton.1 h]; exact hrefl _⟩
  | cons c l ih =>
    rw [dedupFrom]
    split_ifs with heq
    · rcases List.mem_cons.1 h with rfl | h
      · exact ⟨a, by simp, hrefl a⟩
      rcases List.mem_cons.1 h with rfl | h
      · exact ⟨kept, by simp, heq⟩
      · exact ih (List.mem_cons_of_mem _ h)
    · rcases List.mem_cons.1 h with rfl | h
      · exact ⟨a, by simp, hrefl a⟩
      · obtain ⟨b, hb, hab⟩ := ih h
        exact ⟨b, List.mem_cons_of_mem _ hb, hab⟩

theorem exists_mem_dedupBy (same : α → α → Bool) (hrefl : ∀ a, same a a = true) {a : α} {l : List α} (h : a ∈ l) :
    ∃ b ∈ dedupBy same l, same a b = true := by
  cases l with
  | nil => cases h
  | cons c l => exact exists_mem_dedupFrom hrefl h

theorem dedupFrom_congr {same' : α → α → Bool} {kept : α} {l : List α}
    (h : ∀ a ∈ kept :: l, ∀ b ∈ kept :: l, same a b = same' a b) :
    dedupFrom same kept l = dedupFrom same' kept l := by
  induction l generalizing kept with
  | nil => rfl
  | cons a l ih =>
    rw [dedupFrom, dedupFrom, h a (by simp) kept (by simp)]
    rw [ih fun b hb c hc => h b (by simp at hb ⊢; tauto) c (by simp at hc ⊢; tauto),
      ih fun b hb c hc => h b (List.mem_cons_of_mem _ hb) c (List.mem_cons_of_mem _ hc)]

theorem dedupBy_congr {same' : α → α → Bool} {l : List α} (h : ∀ a ∈ l, ∀ b ∈ l, same a b = same' a b) :
    dedupBy same l = dedupBy same' l := by
  cases l with
  | nil => rfl
  | cons a l => rw [dedupBy, dedupBy, dedupFrom_congr h]

theorem dedupFrom_map {β : Type} (same : β → β → Bool) (f : α → β) (kept : α) (l : List α) :
    dedupFrom same (f kept) (l.map f) = (dedupFrom (fun a b => same (f a) (f b)) kept l).map f := by
  induction l generalizing kept with
  | nil => rfl
  | cons a l ih =>
    rw [List.map_cons, dedupFrom, dedupFrom]
    split_ifs
    · exact ih kept
    · rw [List.map_cons, ih a]

theorem dedupBy_map {β : Type} (same : β → β → Bool) (f : α → β) (l : List α) :
    dedupBy same (l.map f) = (dedupBy (fun a b => same (f a) (f b)) l).map f := by
  cases l with
  | nil => rfl
  | cons a l => rw [List.map_cons, dedupBy, dedupBy, List.map_cons, dedupFrom_map]

theorem insertionSort_congr {r s : α → α → Prop} [DecidableRel r] [DecidableRel s] {l : List α}
    (h : ∀ a ∈ l, ∀ b ∈ l, r a b ↔ s a b) : l.insertionSort r = l.insertionSort s := by
  simpa using List.map_insertionSort (r := r) (s := s) id l h

theorem isChain_dedupFrom (same : α → α → Bool) (kept : α) (l : List α) :
    (kept :: dedupFrom same kept l).IsChain fun a b => same b a = false := by
  induction l generalizing kept with
  | nil => exact List.isChain_singleton kept
  | cons a l ih =>
    rw [dedupFrom]
    by_cases heq : same a kept = true
    · rw [if_pos heq]
      exact ih kept
    · rw [if_neg heq]
      exact List.isChain_cons_cons.2 ⟨Bool.eq_false_iff.2 heq, ih a⟩

theorem isChain_dedupBy (same : α → α → Bool) (l : List α) :
    (dedupBy same l).IsChain fun a b => same b a = false := by
  cases l with
  | nil => exact List.isChain_nil
  | cons a l => exact isChain_dedupFrom same a l

/-! ### Prefixes -/

/-- Sorting by a test that says which way round two elements of the list stand in `R`. -/
theorem pairwise_insertionSort_of {r R : α → α → Prop} [DecidableRel r] {l : List α}
    (h : ∀ a ∈ l, ∀ b ∈ l, r a b → R a b) (h' : ∀ a ∈ l, ∀ b ∈ l, ¬ r a b → R b a)
    (htrans : ∀ a ∈ l, ∀ b ∈ l, ∀ c ∈ l, R a b → R b c → R a c) : (l.insertionSort r).Pairwise R := by
  induction l with
  | nil => exact List.Pairwise.nil
  | cons a l ih =>
    have hsorted := ih (fun b hb c hc => h b (by simp [hb]) c (by simp [hc]))
      (fun b hb c hc => h' b (by simp [hb]) c (by simp [hc]))
      fun b hb c hc d hd => htrans b (by simp [hb]) c (by simp [hc]) d (by simp [hd])
    have hmem : ∀ b ∈ l.insertionSort r, b ∈ a :: l := by
      intro b hb
      exact List.mem_cons_of_mem a ((List.mem_insertionSort r).1 hb)
    rw [List.insertionSort_cons]
    generalize l.insertionSort r = sorted at hsorted hmem
    induction sorted with
    | nil => exact List.pairwise_singleton R a
    | cons b sorted ihs =>
      obtain ⟨hb, hrest⟩ := List.pairwise_cons.1 hsorted
      obtain ⟨hbl, hmem⟩ := List.forall_mem_cons.1 hmem
      rw [List.orderedInsert_cons]
      split_ifs with hab
      · have hfirst := h a (by simp) b hbl hab
        refine List.pairwise_cons.2 ⟨List.forall_mem_cons.2 ⟨hfirst, ?_⟩, hsorted⟩
        intro c hc
        exact htrans a (by simp) b hbl c (hmem c hc) hfirst (hb c hc)
      · refine List.pairwise_cons.2 ⟨?_, ihs hrest hmem⟩
        intro c hc
        rcases (List.mem_orderedInsert r).1 hc with rfl | hc
        · exact h' c (by simp) b hbl hab
        · exact hb c hc

/-- Sorting by a relation that orders the elements of the list. -/
theorem pairwise_insertionSort_on {r : α → α → Prop} [DecidableRel r] {l : List α}
    (htotal : ∀ a ∈ l, ∀ b ∈ l, r a b ∨ r b a)
    (htrans : ∀ a ∈ l, ∀ b ∈ l, ∀ c ∈ l, r a b → r b c → r a c) : (l.insertionSort r).Pairwise r := by
  apply pairwise_insertionSort_of
  · exact fun _ _ _ _ hab => hab
  · exact fun a ha b hb hab => (htotal a ha b hb).resolve_left hab
  · exact htrans

theorem mem_take_of_sublist {s l : List α} (hs : s.Sublist l) (hl : l.Nodup) {a : α} {n : Nat} (ha : a ∈ s)
    (hn : a ∈ l.take n) : a ∈ s.take n := by
  induction hs generalizing n with
  | slnil => cases ha
  | cons b hsub ih =>
    obtain ⟨hb, hrest⟩ := List.nodup_cons.1 hl
    cases n with
    | zero => cases hn
    | succ n =>
      rw [List.take_succ_cons] at hn
      rcases List.mem_cons.1 hn with rfl | hn
      · exact absurd (hsub.subset ha) hb
      · exact (List.take_subset_take_left _ (Nat.le_succ n)) (ih hrest ha hn)
  | cons_cons b hsub ih =>
    obtain ⟨hb, hrest⟩ := List.nodup_cons.1 hl
    cases n with
    | zero => cases hn
    | succ n =>
      rw [List.take_succ_cons] at hn ⊢
      rcases List.mem_cons.1 hn with rfl | hin
      · exact List.mem_cons_self
      · refine List.mem_cons_of_mem _ (ih hrest ?_ hin)
        rcases List.mem_cons.1 ha with rfl | ha
        · exact absurd (List.mem_of_mem_take hin) hb
        · exact ha

theorem take_eq_of_sublist {s l : List α} (hs : s.Sublist l) (hl : l.Nodup) {n : Nat}
    (h : ∀ a ∈ l.take n, a ∈ s) : s.take n = l.take n := by
  induction hs generalizing n with
  | slnil => rfl
  | cons b hsub ih =>
    obtain ⟨hb, hrest⟩ := List.nodup_cons.1 hl
    cases n with
    | zero => rfl
    | succ n => exact absurd (hsub.subset (h b (by simp))) hb
  | cons_cons b hsub ih =>
    obtain ⟨hb, hrest⟩ := List.nodup_cons.1 hl
    cases n with
    | zero => rfl
    | succ n =>
      rw [List.take_succ_cons, List.take_succ_cons, ih hrest]
      intro a ha
      have hmem := h a (by rw [List.take_succ_cons]; exact List.mem_cons_of_mem _ ha)
      rcases List.mem_cons.1 hmem with rfl | hmem
      · exact absurd (List.mem_of_mem_take ha) hb
      · exact hmem

/-! ### Comparisons -/

theorem compare_isLE_iff {α : Type*} [LinearOrder α] {a b : α} : (compare a b).isLE = true ↔ a ≤ b := by
  rw [← Ordering.ne_gt_iff_isLE]
  exact compare_le_iff_le

theorem compare_strictMono {α β : Type*} [LinearOrder α] [LinearOrder β] {f : α → β} (hf : StrictMono f) (a b : α) :
    compare (f a) (f b) = compare a b := by
  rw [← cmp_eq_compare, ← cmp_eq_compare, hf.cmp_map_eq]

/-! ### Lists sorted strictly by a key -/

section

variable {K : Type} [LinearOrder K] {f : α → K} {l l' : List α}

instance antisymm_lt (f : α → K) : Std.Antisymm fun a b => f a < f b := ⟨fun _ _ h h' => absurd h' h.asymm⟩

instance irrefl_lt (f : α → K) : Std.Irrefl fun a b => f a < f b := ⟨fun _ => lt_irrefl _⟩

theorem strict_ext (hl : l.Pairwise fun a b => f a < f b) (hl' : l'.Pairwise fun a b => f a < f b)
    (h : ∀ a, a ∈ l ↔ a ∈ l') : l = l' := List.Pairwise.eq_of_mem_iff hl hl' h

theorem strict_sublist (hl : l.Pairwise fun a b => f a < f b) (hl' : l'.Pairwise fun a b => f a < f b)
    (h : ∀ a ∈ l, a ∈ l') : l.Sublist l' :=
  List.sublist_of_subperm_of_pairwise (List.subperm_of_subset hl.nodup h) hl hl'

theorem strict_insertionSort (h : ∀ a ∈ l, ∀ b ∈ l, f a = f b → a = b) (hnodup : l.Nodup) :
    (l.insertionSort fun a b => f a ≤ f b).Pairwise fun a b => f a < f b := by
  have hsorted : (l.insertionSort fun a b => f a ≤ f b).Pairwise fun a b => f a ≤ f b :=
    List.pairwise_insertionSort _ _
  have hnodup' := (List.perm_insertionSort (fun a b => f a ≤ f b) l).nodup_iff.2 hnodup
  refine (hsorted.and hnodup').imp_of_mem ?_
  intro a b ha hb hab
  rw [List.mem_insertionSort] at ha hb
  exact lt_of_le_of_ne hab.1 fun he => hab.2 (h a ha b hb he)

theorem strict_insertionSort_of_ne (h : l.Pairwise fun a b => f a ≠ f b) :
    (l.insertionSort fun a b => f a ≤ f b).Pairwise fun a b => f a < f b := by
  have hsymm : Std.Symm fun a b : α => f a ≠ f b := ⟨fun _ _ hne => hne.symm⟩
  refine strict_insertionSort ?_ (h.imp fun hne heq => hne (congrArg f heq))
  intro a ha b hb heq
  by_contra hne
  exact h.forall ha hb hne heq

theorem insertionSort_eq_of_perm (h : l.Perm l') (hne : l.Pairwise fun a b => f a ≠ f b) :
    (l.insertionSort fun a b => f a ≤ f b) = l'.insertionSort fun a b => f a ≤ f b := by
  have hne' : l'.Pairwise fun a b => f a ≠ f b := h.pairwise hne fun hab => hab.symm
  refine strict_ext (strict_insertionSort_of_ne hne) (strict_insertionSort_of_ne hne') fun a => ?_
  rw [List.mem_insertionSort, List.mem_insertionSort, h.mem_iff]

theorem strict_le_getLast (hl : l.Pairwise fun a b => f a < f b) {last a : α} (hlast : l.getLast? = some last)
    (ha : a ∈ l) : f a ≤ f last := by
  obtain ⟨front, rfl⟩ := List.getLast?_eq_some_iff.1 hlast
  rcases List.mem_append.1 ha with ha | ha
  · exact ((List.pairwise_append.1 hl).2.2 a ha last (by simp)).le
  · rw [List.mem_singleton.1 ha]

/-- Sorting by a relation that respects `f`, also where it is no order. -/
theorem monotone_insertionSort {r : α → α → Prop} [DecidableRel r] (h : ∀ a ∈ l, ∀ b ∈ l, r a b → f a ≤ f b)
    (h' : ∀ a ∈ l, ∀ b ∈ l, ¬ r a b → f b ≤ f a) : (l.insertionSort r).Pairwise fun a b => f a ≤ f b :=
  pairwise_insertionSort_of h h' fun _ _ _ _ _ _ => le_trans

/-- An element that is the same as all of its value is kept only where no other of them is. -/
theorem eq_of_mem_dedupBy {same : α → α → Bool} {u v : α} (hsorted : l.Pairwise fun a b => f a ≤ f b)
    (hsame : ∀ w ∈ l, f w = f v → same v w = true ∧ same w v = true) (hu : u ∈ dedupBy same l)
    (hv : v ∈ dedupBy same l) (heq : f u = f v) : u = v := by
  have hchain := isChain_dedupBy same l
  have hout := hsorted.sublist (dedupBy_sublist same l)
  have hmem : ∀ w ∈ dedupBy same l, w ∈ l := fun w hw => (dedupBy_sublist same l).subset hw
  obtain ⟨front, back, hsplit⟩ := List.append_of_mem hv
  rw [hsplit] at hchain hout hmem hu
  obtain ⟨hfront, hback, hcross⟩ := List.pairwise_append.1 hout
  rcases List.mem_append.1 hu with hu | hu
  · obtain ⟨front, p, rfl⟩ := front.eq_nil_or_concat'.resolve_left (List.ne_nil_of_mem hu)
    have hpv : f p = f v := by
      refine le_antisymm (hcross p (by simp) v (by simp)) ?_
      rw [← heq]
      rcases List.mem_append.1 hu with hu | hu
      · exact (List.pairwise_append.1 hfront).2.2 u hu p (by simp)
      · rw [List.mem_singleton.1 hu]
    have hfalse : same v p = false := by
      rw [List.append_assoc] at hchain
      exact (List.isChain_append.1 hchain).2.1.rel
    rw [(hsame p (hmem p (by simp)) hpv).1] at hfalse
    cases hfalse
  · rcases List.mem_cons.1 hu with rfl | hu
    · rfl
    · cases back with
      | nil => cases hu
      | cons n back =>
        have hvn : f n = f v := by
          refine le_antisymm ?_ ((List.pairwise_cons.1 hback).1 n (by simp))
          rw [← heq]
          rcases List.mem_cons.1 hu with rfl | hu
          · exact le_refl _
          · exact (List.pairwise_cons.1 (List.pairwise_cons.1 hback).2).1 u hu
        have hfalse : same n v = false := (List.isChain_append.1 hchain).2.1.rel
        rw [(hsame n (hmem n (by simp)) hvn).2] at hfalse
        cases hfalse

/-! ### Merging -/

/-- Sorting leaves the elements of one key in the order they stand in. -/
theorem filter_insertionSort (k : K) :
    (l.insertionSort fun a b => f a ≤ f b).filter (f · = k) = l.filter (f · = k) := by
  induction l with
  | nil => rfl
  | cons a l ih =>
    have hinsert : ∀ sorted : List α, (sorted.orderedInsert (fun a b => f a ≤ f b) a).filter (f · = k) =
        (a :: sorted).filter (f · = k) := by
      intro sorted
      induction sorted with
      | nil => rfl
      | cons b sorted ihs =>
        rw [List.orderedInsert_cons]
        split_ifs with hab
        · rfl
        · by_cases ha : f a = k
          · have hb : f b ≠ k := fun hb => hab (ha.trans hb.symm).le
            simp only [List.filter_cons, ihs, ha, hb, decide_true, decide_false, if_true, Bool.false_eq_true, if_false]
          · simp only [List.filter_cons, ihs, ha, decide_false, Bool.false_eq_true, if_false]
    rw [List.insertionSort_cons, hinsert, List.filter_cons, List.filter_cons, ih]

theorem filter_dedupFrom (k : K) {kept : α} (h : (kept :: l).Pairwise fun a b => f a ≤ f b) :
    (dedupFrom (fun a b => f a = f b) kept l).filter (f · = k) =
      if f kept = k then [] else (l.filter (f · = k)).take 1 := by
  induction l generalizing kept with
  | nil => simp [dedupFrom]
  | cons a l ih =>
    obtain ⟨hkept, hrest⟩ := List.pairwise_cons.1 h
    have hka : f kept ≤ f a := hkept a (by simp)
    rw [dedupFrom]
    by_cases heq : f a = f kept
    · have hskip : (kept :: l).Pairwise fun a b => f a ≤ f b :=
        List.pairwise_cons.2 ⟨fun b hb => hkept b (by simp [hb]), (List.pairwise_cons.1 hrest).2⟩
      rw [if_pos (by simpa using heq), ih hskip]
      by_cases hk : f kept = k
      · rw [if_pos hk, if_pos hk]
      · rw [if_neg hk, if_neg hk, List.filter_cons_of_neg (by simpa [heq] using hk)]
    · rw [if_neg (by simpa using heq)]
      by_cases hk : f kept = k
      · have hak : f a ≠ k := fun hak => heq (hak.trans hk.symm)
        have hnone : l.filter (f · = k) = [] := by
          rw [List.filter_eq_nil_iff]
          intro b hb hbk
          have hab : f a ≤ f b := (List.pairwise_cons.1 hrest).1 b hb
          rw [of_decide_eq_true hbk, ← hk] at hab
          exact heq (le_antisymm hab hka)
        rw [if_pos hk, List.filter_cons_of_neg (by simpa using hak), ih hrest, if_neg hak, hnone]
        rfl
      · rw [if_neg hk]
        by_cases hak : f a = k
        · rw [List.filter_cons_of_pos (by simpa using hak), List.filter_cons_of_pos (by simpa using hak), ih hrest,
            if_pos hak]
          rfl
        · rw [List.filter_cons_of_neg (by simpa using hak), List.filter_cons_of_neg (by simpa using hak), ih hrest,
            if_neg hak]

/-- Of the elements of one key the first one stays. -/
theorem filter_dedupBy (k : K) (h : l.Pairwise fun a b => f a ≤ f b) :
    (dedupBy (fun a b => f a = f b) l).filter (f · = k) = (l.filter (f · = k)).take 1 := by
  cases l with
  | nil => rfl
  | cons a l =>
    rw [dedupBy]
    by_cases hak : f a = k
    · rw [List.filter_cons_of_pos (by simpa using hak), List.filter_cons_of_pos (by simpa using hak),
        filter_dedupFrom k h, if_pos hak]
      rfl
    · rw [List.filter_cons_of_neg (by simpa using hak), List.filter_cons_of_neg (by simpa using hak),
        filter_dedupFrom k h, if_neg hak]

/-- Two lists sorted strictly by `f`, merged. Where both have a key, the element of the left one stays. -/
def mergeBy (f : α → K) : List α → List α → List α
  | [], l' => l'
  | a :: l, [] => a :: l
  | a :: l, b :: l' =>
    if f a < f b then a :: mergeBy f l (b :: l')
    else if f b < f a then b :: mergeBy f (a :: l) l'
    else a :: mergeBy f l l'

theorem mergeBy_nil (l : List α) : mergeBy f l [] = l := by
  cases l <;> simp [mergeBy]

theorem take_mergeBy {n m m' : Nat} (hm : n ≤ m) (hm' : n ≤ m') :
    (mergeBy f (l.take m) (l'.take m')).take n = (mergeBy f l l').take n := by
  induction l, l' using mergeBy.induct f generalizing n m m' with
  | case1 l' => rw [List.take_nil, mergeBy, mergeBy, List.take_take, Nat.min_eq_left hm']
  | case2 a l => rw [List.take_nil, mergeBy_nil, mergeBy_nil, List.take_take, Nat.min_eq_left hm]
  | case3 a l b l' hab ih =>
    cases n with
    | zero => simp
    | succ n =>
      obtain ⟨m, rfl⟩ : ∃ k, m = k + 1 := ⟨m - 1, by omega⟩
      obtain ⟨m', rfl⟩ : ∃ k, m' = k + 1 := ⟨m' - 1, by omega⟩
      have hrest := @ih n m (m' + 1) (by omega) (by omega)
      rw [List.take_succ_cons] at hrest
      rw [List.take_succ_cons, List.take_succ_cons, mergeBy, mergeBy, if_pos hab, if_pos hab, List.take_succ_cons,
        List.take_succ_cons, hrest]
  | case4 a l b l' hab hba ih =>
    cases n with
    | zero => simp
    | succ n =>
      obtain ⟨m, rfl⟩ : ∃ k, m = k + 1 := ⟨m - 1, by omega⟩
      obtain ⟨m', rfl⟩ : ∃ k, m' = k + 1 := ⟨m' - 1, by omega⟩
      have hrest := @ih n (m + 1) m' (by omega) (by omega)
      rw [List.take_succ_cons] at hrest
      rw [List.take_succ_cons, List.take_succ_cons, mergeBy, mergeBy, if_neg hab, if_neg hab, if_pos hba,
        if_pos hba, List.take_succ_cons, List.take_succ_cons, hrest]
  | case5 a l b l' hab hba ih =>
    cases n with
    | zero => simp
    | succ n =>
      obtain ⟨m, rfl⟩ : ∃ k, m = k + 1 := ⟨m - 1, by omega⟩
      obtain ⟨m', rfl⟩ : ∃ k, m' = k + 1 := ⟨m' - 1, by omega⟩
      rw [List.take_succ_cons, List.take_succ_cons, mergeBy, mergeBy, if_neg hab, if_neg hab, if_neg hba,
        if_neg hba, List.take_succ_cons, List.take_succ_cons, ih (by omega) (by omega)]

theorem mem_mergeBy {e : α} (hl : l.Pairwise fun a b => f a < f b) (hl' : l'.Pairwise fun a b => f a < f b) :
    e ∈ mergeBy f l l' ↔ e ∈ l ∨ e ∈ l' ∧ ∀ a ∈ l, f a ≠ f e := by
  induction l, l' using mergeBy.induct f with
  | case1 l' => simp [mergeBy]
  | case2 a l => simp [mergeBy]
  | case3 a l b l' hab ih =>
    obtain ⟨hal, hrest⟩ := List.pairwise_cons.1 hl
    have hne : ∀ e ∈ b :: l', f a ≠ f e := by
      intro e he
      rcases List.mem_cons.1 he with rfl | he
      · exact hab.ne
      · exact (hab.trans ((List.pairwise_cons.1 hl').1 e he)).ne
    rw [mergeBy, if_pos hab, List.mem_cons, List.mem_cons, ih hrest hl', List.forall_mem_cons, or_assoc]
    refine or_congr_right (or_congr_right (and_congr_right fun he => ?_))
    exact (and_iff_right (hne e he)).symm
  | case4 a l b l' hab hba ih =>
    obtain ⟨hbl, hrest⟩ := List.pairwise_cons.1 hl'
    have hne : ∀ c ∈ a :: l, f c ≠ f b := by
      intro c hc
      rcases List.mem_cons.1 hc with rfl | hc
      · exact hba.ne'
      · exact (hba.trans ((List.pairwise_cons.1 hl).1 c hc)).ne'
    rw [mergeBy, if_neg hab, if_pos hba, List.mem_cons, ih hl hrest, List.mem_cons (b := b)]
    constructor
    · rintro (rfl | he | he)
      · exact .inr ⟨.inl rfl, hne⟩
      · exact .inl he
      · exact .inr ⟨.inr he.1, he.2⟩
    · rintro (he | ⟨rfl | he, hkeys⟩)
      · exact .inr (.inl he)
      · exact .inl rfl
      · exact .inr (.inr ⟨he, hkeys⟩)
  | case5 a l b l' hab hba ih =>
    have heq : f a = f b := le_antisymm (not_lt.1 hba) (not_lt.1 hab)
    obtain ⟨hal, hrest⟩ := List.pairwise_cons.1 hl
    obtain ⟨hbl, hrest'⟩ := List.pairwise_cons.1 hl'
    rw [mergeBy, if_neg hab, if_neg hba, List.mem_cons, List.mem_cons, ih hrest hrest', List.mem_cons (b := b),
      List.forall_mem_cons, or_assoc]
    refine or_congr_right (or_congr_right ?_)
    constructor
    · rintro ⟨he, hkeys⟩
      exact ⟨.inr he, by rw [heq]; exact (hbl e he).ne, hkeys⟩
    · rintro ⟨rfl | he, hne, hkeys⟩
      · exact absurd heq hne
      · exact ⟨he, hkeys⟩

theorem mergeBy_strict (hl : l.Pairwise fun a b => f a < f b) (hl' : l'.Pairwise fun a b => f a < f b) :
    (mergeBy f l l').Pairwise fun a b => f a < f b := by
  induction l, l' using mergeBy.induct f with
  | case1 l' => rwa [mergeBy]
  | case2 a l => rwa [mergeBy_nil]
  | case3 a l b l' hab ih =>
    obtain ⟨hal, hrest⟩ := List.pairwise_cons.1 hl
    rw [mergeBy, if_pos hab]
    refine List.pairwise_cons.2 ⟨?_, ih hrest hl'⟩
    intro e he
    rcases (mem_mergeBy hrest hl').1 he with he | ⟨he, -⟩
    · exact hal e he
    · rcases List.mem_cons.1 he with rfl | he
      · exact hab
      · exact hab.trans ((List.pairwise_cons.1 hl').1 e he)
  | case4 a l b l' hab hba ih =>
    obtain ⟨hbl, hrest⟩ := List.pairwise_cons.1 hl'
    rw [mergeBy, if_neg hab, if_pos hba]
    refine List.pairwise_cons.2 ⟨?_, ih hl hrest⟩
    intro e he
    rcases (mem_mergeBy hl hrest).1 he with he | ⟨he, -⟩
    · rcases List.mem_cons.1 he with rfl | he
      · exact hba
      · exact hba.trans ((List.pairwise_cons.1 hl).1 e he)
    · exact hbl e he
  | case5 a l b l' hab hba ih =>
    have heq : f a = f b := le_antisymm (not_lt.1 hba) (not_lt.1 hab)
    obtain ⟨hal, hrest⟩ := List.pairwise_cons.1 hl
    obtain ⟨hbl, hrest'⟩ := List.pairwise_cons.1 hl'
    rw [mergeBy, if_neg hab, if_neg hba]
    refine List.pairwise_cons.2 ⟨?_, ih hrest hrest'⟩
    intro e he
    rcases (mem_mergeBy hrest hrest').1 he with he | ⟨he, -⟩
    · exact hal e he
    · rw [heq]
      exact hbl e he

theorem strict_inj (hl : l.Pairwise fun a b => f a < f b) {a b : α} (ha : a ∈ l) (hb : b ∈ l) (h : f a = f b) : a = b := by
  by_contra hne
  have hsymm : Std.Symm fun a b : α => f a ≠ f b := ⟨fun _ _ h => h.symm⟩
  exact (hl.imp fun hab => hab.ne).forall ha hb hne h

theorem filter_strict (hl : l.Pairwise fun a b => f a < f b) {a : α} (ha : a ∈ l) :
    l.filter (f · = f a) = [a] := by
  refine strict_ext (f := f) (hl.filter _) (List.pairwise_singleton _ a) ?_
  intro b
  rw [List.mem_filter, List.mem_singleton, decide_eq_true_eq]
  constructor
  · rintro ⟨hb, hba⟩
    exact strict_inj hl hb ha hba
  · rintro rfl
    exact ⟨ha, rfl⟩

/-- Sorting two strictly sorted lists as one and dropping repeated keys merges them. -/
theorem dedupBy_insertionSort_append (hl : l.Pairwise fun a b => f a < f b) (hl' : l'.Pairwise fun a b => f a < f b) :
    dedupBy (fun a b => f a = f b) ((l ++ l').insertionSort fun a b => f a ≤ f b) = mergeBy f l l' := by
  have hsorted : ((l ++ l').insertionSort fun a b => f a ≤ f b).Pairwise fun a b => f a ≤ f b :=
    List.pairwise_insertionSort _ _
  have hstrict := pairwise_dedupBy (fun a b => f a ≤ f b) (fun a b => f a = f b) (fun a b c => le_trans)
    (fun a b hab => by
      rw [decide_eq_true_eq]
      exact ⟨fun he => he.le, fun hle => le_antisymm hle hab⟩) hsorted
  refine strict_ext (hstrict.imp fun hab => lt_of_le_not_ge hab.1 hab.2) (mergeBy_strict hl hl') ?_
  intro e
  have hmem : ∀ l : List α, e ∈ l ↔ e ∈ l.filter (f · = f e) := by
    intro l
    rw [List.mem_filter, decide_eq_true_eq, and_iff_left rfl]
  rw [hmem, filter_dedupBy _ hsorted, filter_insertionSort, List.filter_append, mem_mergeBy hl hl']
  by_cases hin : ∃ a ∈ l, f a = f e
  · obtain ⟨a, ha, hae⟩ := hin
    rw [← hae, filter_strict hl ha, List.singleton_append, List.take_succ_cons, List.take_zero, List.mem_singleton]
    constructor
    · rintro rfl
      exact .inl ha
    · rintro (he | ⟨-, hne⟩)
      · exact strict_inj hl he ha hae.symm
      · exact absurd rfl (hne a ha)
  · have hnone : l.filter (f · = f e) = [] := by
      rw [List.filter_eq_nil_iff]
      intro a ha hae
      exact hin ⟨a, ha, of_decide_eq_true hae⟩
    rw [hnone, List.nil_append]
    constructor
    · intro he
      exact .inr ⟨List.mem_of_mem_filter (List.mem_of_mem_take he), fun a ha hae => hin ⟨a, ha, hae⟩⟩
    · rintro (he | ⟨he, -⟩)
      · exact absurd ⟨e, he, rfl⟩ hin
      · rw [filter_strict hl' he]
        exact List.mem_singleton_self e

end

end Ecat
