import Ecat.SortedList

/-! Maps as lists of their entries in the order of the keys, with one entry for each key. -/

namespace Ecat

/-- Where no key stands twice, the entry of a key is the one that is found first. -/
theorem find?_key_eq_some {K V : Type} [DecidableEq K] {l : List (K × V)} (h : (l.map Prod.fst).Nodup) {key : K} {v : V} :
    (l.find? (·.1 = key)).map (·.2) = some v ↔ (key, v) ∈ l := by
  constructor
  · intro hfind
    obtain ⟨e, he, rfl⟩ := Option.map_eq_some_iff.1 hfind
    have hkey : e.1 = key := by simpa using List.find?_some he
    rw [← hkey]
    exact List.mem_of_find?_eq_some he
  · intro hmem
    obtain ⟨e, he⟩ := Option.isSome_iff_exists.1
      (List.find?_isSome.2 ⟨(key, v), hmem, decide_eq_true rfl⟩ : (l.find? (·.1 = key)).isSome)
    have hkey : e.1 = key := by simpa using List.find?_some he
    have heq : e = (key, v) := List.inj_on_of_nodup_map h (List.mem_of_find?_eq_some he) hmem hkey
    rw [he, heq]
    rfl

structure SortedMap (K V : Type) [LinearOrder K] where
  entries : List (K × V)
  sorted : entries.Pairwise fun a b => a.1 < b.1

namespace SortedMap

variable {K V W : Type} [LinearOrder K]

theorem ext_mem {m m' : SortedMap K V} (h : ∀ e, e ∈ m.entries ↔ e ∈ m'.entries) : m = m' := by
  obtain ⟨l, hl⟩ := m
  obtain ⟨l', hl'⟩ := m'
  obtain rfl : l = l' := strict_ext hl hl' h
  rfl

theorem keys_nodup (m : SortedMap K V) : (m.entries.map Prod.fst).Nodup :=
  List.pairwise_map.2 (m.sorted.imp fun hlt => hlt.ne)

def empty : SortedMap K V := ⟨[], List.Pairwise.nil⟩

def contains (m : SortedMap K V) (key : K) : Bool := m.entries.any (·.1 = key)

theorem contains_iff {m : SortedMap K V} {key : K} : m.contains key = true ↔ key ∈ m.entries.map Prod.fst := by
  rw [contains, List.any_eq_true, List.mem_map]
  simp only [decide_eq_true_eq]

/-- A key that is not there is given the value. -/
def orInsert (m : SortedMap K V) (key : K) (v : V) : SortedMap K V :=
  if h : m.contains key then m
  else ⟨((key, v) :: m.entries).insertionSort (·.1 ≤ ·.1), by
    have hnodup : (((key, v) :: m.entries).map Prod.fst).Nodup :=
      List.nodup_cons.2 ⟨fun hin => h (contains_iff.2 hin), m.keys_nodup⟩
    exact strict_insertionSort (fun a ha b hb hab => List.inj_on_of_nodup_map hnodup ha hb hab) (.of_map _ hnodup)⟩

theorem mem_orInsert {m : SortedMap K V} {key : K} (hfresh : key ∉ m.entries.map Prod.fst) (v : V) (e : K × V) :
    e ∈ (m.orInsert key v).entries ↔ e = (key, v) ∨ e ∈ m.entries := by
  rw [orInsert, dif_neg fun h => hfresh (contains_iff.1 h), List.mem_insertionSort, List.mem_cons]

def erase (m : SortedMap K V) (key : K) : SortedMap K V := ⟨m.entries.filter (·.1 ≠ key), m.sorted.filter _⟩

/-- The key is given the value, also where it had another one. -/
def insert (m : SortedMap K V) (key : K) (v : V) : SortedMap K V := (m.erase key).orInsert key v

theorem mem_insert {m : SortedMap K V} {key : K} {v : V} {e : K × V} :
    e ∈ (m.insert key v).entries ↔ e = (key, v) ∨ e ∈ m.entries ∧ e.1 ≠ key := by
  have hfresh : key ∉ (m.erase key).entries.map Prod.fst := by
    simp [erase]
  rw [insert, mem_orInsert hfresh, erase, List.mem_filter, decide_eq_true_eq]

/-- Entries with different keys are all there after they have been inserted. -/
theorem mem_foldl_insert {l : List (K × V)} (hnodup : (l.map Prod.fst).Nodup) {m : SortedMap K V} {e : K × V} :
    e ∈ (l.foldl (fun m e => m.insert e.1 e.2) m).entries ↔ e ∈ l ∨ e ∈ m.entries ∧ e.1 ∉ l.map Prod.fst := by
  induction l generalizing m with
  | nil => simp
  | cons d l ih =>
    obtain ⟨hd, hnodup⟩ := List.nodup_cons.1 hnodup
    rw [List.foldl_cons, ih hnodup, mem_insert, List.mem_cons, List.map_cons, List.mem_cons]
    by_cases h : e = d
    · subst h
      simp [hd]
    · simp only [h, false_or]
      tauto

theorem mem_of_mem_foldl_insert {l : List (K × V)} {m : SortedMap K V} {e : K × V}
    (h : e ∈ (l.foldl (fun m e => m.insert e.1 e.2) m).entries) : e ∈ l ∨ e ∈ m.entries := by
  induction l generalizing m with
  | nil => exact .inr h
  | cons d l ih =>
    rcases ih h with hin | hin
    · exact .inl (List.mem_cons_of_mem d hin)
    · rcases mem_insert.1 hin with heq | hin
      · exact .inl (List.mem_cons.2 (.inl heq))
      · exact .inr hin.1

def get? (m : SortedMap K V) (key : K) : Option V := (m.entries.find? (·.1 = key)).map (·.2)

theorem get?_eq_some {m : SortedMap K V} {key : K} {v : V} : m.get? key = some v ↔ (key, v) ∈ m.entries :=
  find?_key_eq_some m.keys_nodup

theorem get?_insert (m : SortedMap K V) (key key' : K) (v : V) :
    (m.insert key v).get? key' = if key' = key then some v else m.get? key' := by
  apply Option.ext
  intro w
  rw [get?_eq_some, mem_insert]
  by_cases h : key' = key
  · simp [h, eq_comm]
  · rw [if_neg h, get?_eq_some]
    simp [h]

def ofList (l : List (K × V)) : SortedMap K V := l.foldl (fun m e => m.orInsert e.1 e.2) empty

theorem mem_foldl_orInsert {l : List (K × V)} (hnodup : (l.map Prod.fst).Nodup) {m : SortedMap K V}
    (hfresh : ∀ key ∈ l.map Prod.fst, key ∉ m.entries.map Prod.fst) (e : K × V) :
    e ∈ (l.foldl (fun m e => m.orInsert e.1 e.2) m).entries ↔ e ∈ m.entries ∨ e ∈ l := by
  induction l generalizing m with
  | nil => simp
  | cons d l ih =>
    obtain ⟨hd, hnodup⟩ := List.nodup_cons.1 hnodup
    have hinsert := mem_orInsert (hfresh d.1 List.mem_cons_self) d.2
    rw [List.foldl_cons, ih hnodup, hinsert, List.mem_cons]
    · tauto
    · intro key hkey hin
      obtain ⟨e, he, rfl⟩ := List.mem_map.1 hin
      rcases (hinsert e).1 he with rfl | he
      · exact hd hkey
      · exact hfresh e.1 (List.mem_cons_of_mem _ hkey) (List.mem_map_of_mem he)

/-- Whatever the order in which the entries of a map are inserted, it is the same map. -/
theorem ofList_perm {l : List (K × V)} {m : SortedMap K V} (h : l.Perm m.entries) : ofList l = m := by
  have hnodup : (l.map Prod.fst).Nodup := (h.map Prod.fst).nodup_iff.2 m.keys_nodup
  apply ext_mem
  intro e
  rw [ofList, mem_foldl_orInsert hnodup (by simp [empty]), h.mem_iff]
  simp [empty]

def map (f : V → W) (m : SortedMap K V) : SortedMap K W :=
  ⟨m.entries.map fun e => (e.1, f e.2), List.pairwise_map.2 m.sorted⟩

theorem map_eq_self {f : V → V} {m : SortedMap K V} : m.map f = m ↔ ∀ e ∈ m.entries, f e.2 = e.2 := by
  obtain ⟨l, hl⟩ := m
  have hid : l.map (fun e => (e.1, f e.2)) = l ↔ l.map (fun e => (e.1, f e.2)) = l.map id := by rw [List.map_id]
  rw [map, SortedMap.mk.injEq, hid, List.map_inj_left]
  simp [Prod.ext_iff]

end SortedMap

end Ecat
