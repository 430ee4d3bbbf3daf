import Ecat.Delimited
import Ecat.Digits
import Ecat.OrmText

/-! The limits of a SELECT as its text has them: which texts each dialect takes, what rows they ask for,
and when that is the window that the query was given. -/

namespace Ecat.Orm.Paging

open Text

/-! ### Reading -/

/-- The rows behind the first `offset` ones, as many as the limit allows. -/
structure Window where
  offset : Nat
  limit : Option Nat
  deriving DecidableEq, Repr

def Window.select {α : Type} (w : Window) (rows : List α) : List α :=
  match w.limit with
  | none => rows.drop w.offset
  | some n => (rows.drop w.offset).take n

def i64Max : Nat := 2 ^ 63 - 1

/-- A numeral and what stands behind it. A signed 64-bit integer holds the count. -/
def readCount (text : List Char) : Option (Nat × List Char) :=
  match readDigits (text.takeWhile (·.isDigit)) with
  | none => none
  | some n => if n ≤ i64Max then some (n, text.dropWhile (·.isDigit)) else none

/-- A clause that may be left out: its words and a count. -/
def readClause (lead : String) (text : List Char) : Option (Option Nat × List Char) :=
  match text.dropPrefix? lead.toList with
  | none => some (none, text)
  | some rest => (readCount rest).map fun r => (some r.1, r.2)

/-- `LIMIT n OFFSET m`; SQLite and MySQL allow the second only behind the first. -/
def readLimitOffset (bareOffset : Bool) (text : List Char) : Option Window := do
  let (limit, rest) ← readClause " LIMIT " text
  let (offset, rest) ← readClause " OFFSET " rest
  if rest = [] ∧ (limit.isSome ∨ offset = none ∨ bareOffset) then some ⟨offset.getD 0, limit⟩ else none

/-- `OFFSET m ROWS FETCH NEXT n ROWS ONLY`, behind an ORDER BY and with a positive count. -/
def readRows (ordered : Bool) (text : List Char) : Option Window := do
  let (offset, rest) ← readClause " OFFSET " text
  match offset with
  | none => if rest = [] then some ⟨0, none⟩ else none
  | some m =>
    let rest ← rest.dropPrefix? " ROWS".toList
    let (limit, rest) ← readClause " FETCH NEXT " rest
    if rest = (if limit.isSome then " ROWS ONLY".toList else []) ∧ ordered ∧ limit ≠ some 0 then some ⟨m, limit⟩ else none

def readFetch (ordered : Bool) (text : List Char) : Option Window :=
  match text.dropPrefix? " ORDER BY (SELECT NULL)".toList with
  | some rest => if ordered then none else readRows true rest
  | none => readRows ordered text

def readTail (ordered : Bool) (text : List Char) : Dialect → Option Window
  | .standard | .postgres => readLimitOffset true text
  | .sqlite | .mysql => readLimitOffset false text
  | .mssql => readFetch ordered text

/-- What stands between SELECT and the columns. -/
def readHead (text : List Char) : Dialect → Option (Option Nat)
  | .standard | .postgres | .sqlite | .mysql => if text = [] then some none else none
  | .mssql => do
    let (top, rest) ← readClause "TOP (" text
    if rest = (if top.isSome then ") ".toList else []) then some top else none

/-- TOP stands alone. -/
def readWindow (dialect : Dialect) (ordered : Bool) (head tail : List Char) : Option Window := do
  let top ← readHead head dialect
  let window ← readTail ordered tail dialect
  match top with
  | none => some window
  | some n => if window = ⟨0, none⟩ then some ⟨0, some n⟩ else none

variable {V : Type} {E : Entity}

/-- The columns, the tables and the WHERE. -/
def selectBody (dialect : Dialect) (q : Query V E) : String :=
  q.joins.foldl (fun sql j => sql ++ joinClause dialect j)
      (columnList dialect E.toTableMeta false ++ " FROM " ++ dialect.quote E.table) ++
    match (Text.renderWhere dialect E.toEntityMeta q.filters q.withTrashed ⟨0, []⟩).1 with
    | none => ""
    | some w => " WHERE " ++ w

/-- The text is a SELECT of the dialect with this body and this ORDER BY, and asks for a window. -/
def Asks (dialect : Dialect) (body order sql : String) (w : Window) : Prop :=
  ∃ head tail, sql = "SELECT " ++ head ++ body ++ order ++ tail ∧
    readWindow dialect (order ≠ "") head.toList tail.toList = some w

/-- What the query's statement selects from the rows in their order. -/
def Selects (dialect : Dialect) (q : Query V E) (rows out : Table V) : Prop :=
  ∃ w, Asks dialect (selectBody dialect q) (orderClause dialect q false) (buildSelect dialect q false).sql w ∧
    out = w.select rows

/-! ### The clauses -/

theorem readCount_append {rest : List Char} (h : ∀ c ∈ rest.head?, c.isDigit = false) (n : Nat) :
    readCount (Nat.toDigits 10 n ++ rest) = if n ≤ i64Max then some (n, rest) else none := by
  have htake : rest.takeWhile (·.isDigit) = [] := by
    cases rest with
    | nil => rfl
    | cons c cs => rw [List.takeWhile_cons, h c rfl]; rfl
  have hdrop : rest.dropWhile (·.isDigit) = rest := by
    cases rest with
    | nil => rfl
    | cons c cs => rw [List.dropWhile_cons, h c rfl]; rfl
  rw [readCount, List.takeWhile_append_of_pos (isDigit_toDigits n), htake, List.append_nil, readDigits_toDigits,
    List.dropWhile_append_of_pos (isDigit_toDigits n), hdrop]

theorem readClause_given {rest : List Char} (lead : String) (h : ∀ c ∈ rest.head?, c.isDigit = false) (n : Nat) :
    readClause lead (lead.toList ++ (Nat.toDigits 10 n ++ rest)) =
      if n ≤ i64Max then some (some n, rest) else none := by
  have hlead := List.dropPrefix?_append_of_beq (Nat.toDigits 10 n ++ rest) (show lead.toList == lead.toList by simp)
  rw [readClause, hlead]
  simp only [readCount_append h]
  split_ifs <;> rfl

theorem readClause_absent {lead : String} {text : List Char} (h : text.dropPrefix? lead.toList = none) :
    readClause lead text = some (none, text) := by
  rw [readClause, h]

theorem noDigit_nil : ∀ c ∈ ([] : List Char).head?, c.isDigit = false := by simp

/-- The counts that are printed. -/
def Fits (limit : Option Nat) (offset : Nat) : Prop := (∀ n ∈ limit, n ≤ i64Max) ∧ offset ≤ i64Max

theorem fits_none {offset : Nat} : Fits none offset ↔ offset ≤ i64Max := by simp [Fits]

theorem fits_some {n offset : Nat} : Fits (some n) offset ↔ n ≤ i64Max ∧ offset ≤ i64Max := by simp [Fits]

theorem i64Max_pos : 0 ≤ i64Max := Nat.zero_le _

/-- What the dialects with LIMIT and OFFSET make of the texts that are rendered for them. -/
theorem readLimitOffset_window (bareOffset : Bool) (limit : Option Nat) (offset : Nat) (w : Window) :
    readLimitOffset bareOffset (Limit.window limit offset).suffix.toList = some w ↔
      Fits limit offset ∧ (limit.isSome ∨ offset = 0 ∨ bareOffset) ∧ w = ⟨offset, limit⟩ := by
  cases limit with
  | none =>
    cases offset with
    | zero =>
      have hread : readLimitOffset bareOffset (Limit.window none 0).suffix.toList = some ⟨0, none⟩ := rfl
      rw [hread, fits_none]
      simp only [Option.some.injEq, i64Max_pos, true_and, true_or, or_true, eq_comm]
    | succ m =>
      have hlimit : readClause " LIMIT " (" OFFSET ".toList ++ (Nat.toDigits 10 (m + 1) ++ [])) = _ :=
        readClause_absent rfl
      have hoffset := @readClause_given [] " OFFSET " noDigit_nil (m + 1)
      rw [List.append_nil] at hlimit hoffset
      have htext : (Limit.window none (m + 1)).suffix = " OFFSET " ++ toString (m + 1) := rfl
      rw [htext, readLimitOffset, String.toList_append, toList_natText, hlimit, fits_none]
      simp only [Option.bind_eq_bind, Option.bind_some, hoffset]
      by_cases h : m + 1 ≤ i64Max
      · simp only [h, if_true, Option.bind_some, Option.getD_some, true_and, Option.isSome_none,
          Nat.succ_ne_zero, reduceCtorEq, false_or]
        cases bareOffset <;> simp [eq_comm]
      · simp only [h, if_false, Option.bind_none, false_and, reduceCtorEq]
  | some n =>
    have hn (rest : List Char) (hrest : ∀ c ∈ rest.head?, c.isDigit = false) := @readClause_given rest " LIMIT " hrest n
    cases offset with
    | zero =>
      have hlimit := hn [] noDigit_nil
      have hoffset : readClause " OFFSET " [] = _ := readClause_absent rfl
      rw [List.append_nil] at hlimit
      have htext : (Limit.window (some n) 0).suffix = " LIMIT " ++ toString n := rfl
      rw [htext, readLimitOffset, String.toList_append, toList_natText, hlimit, fits_some]
      by_cases h : n ≤ i64Max
      · simp only [h, if_true, Option.bind_eq_bind, Option.bind_some, hoffset, Option.getD_none, true_and,
          Option.isSome_some, true_or, i64Max_pos, and_self, Option.some.injEq, eq_comm]
      · simp only [h, if_false, Option.bind_eq_bind, Option.bind_none, false_and, reduceCtorEq]
    | succ m =>
      have hlimit := hn (" OFFSET ".toList ++ Nat.toDigits 10 (m + 1)) (by simp)
      have hoffset := @readClause_given [] " OFFSET " noDigit_nil (m + 1)
      rw [List.append_nil] at hoffset
      have htext : (Limit.window (some n) (m + 1)).suffix = " LIMIT " ++ toString n ++ " OFFSET " ++ toString (m + 1) := rfl
      rw [htext, readLimitOffset, String.toList_append, String.toList_append, String.toList_append, toList_natText n,
        toList_natText (m + 1), List.append_assoc, List.append_assoc, hlimit, fits_some]
      by_cases h : n ≤ i64Max
      · simp only [h, if_true, Option.bind_eq_bind, Option.bind_some, hoffset, true_and]
        by_cases hm : m + 1 ≤ i64Max
        · simp only [hm, if_true, Option.bind_some, Option.getD_some, Option.isSome_some, true_or, and_self, true_and,
            Option.some.injEq, eq_comm]
        · simp only [hm, if_false, Option.bind_none, false_and, reduceCtorEq]
      · simp only [h, if_false, Option.bind_eq_bind, Option.bind_none, false_and, reduceCtorEq]

def fetchText (limit : Option Nat) : List Char :=
  limit.elim [] fun n => " FETCH NEXT ".toList ++ (Nat.toDigits 10 n ++ " ROWS ONLY".toList)

theorem fetchText_none : fetchText none = [] := rfl

theorem fetchText_some (n : Nat) :
    fetchText (some n) = " FETCH NEXT ".toList ++ (Nat.toDigits 10 n ++ " ROWS ONLY".toList) := rfl

theorem readClause_fetchText (limit : Option Nat) (hfit : ∀ n ∈ limit, n ≤ i64Max) :
    readClause " FETCH NEXT " (fetchText limit) =
      some (limit, if limit.isSome then " ROWS ONLY".toList else []) := by
  cases limit with
  | none =>
    rw [fetchText_none, readClause_absent rfl]
    rfl
  | some n => rw [fetchText_some, readClause_given _ (by simp), if_pos (hfit n rfl), Option.isSome_some, if_pos rfl]

theorem readRows_text (limit : Option Nat) (offset : Nat) (w : Window) :
    readRows true (" OFFSET ".toList ++ (Nat.toDigits 10 offset ++ (" ROWS".toList ++ fetchText limit))) = some w ↔
      Fits limit offset ∧ limit ≠ some 0 ∧ w = ⟨offset, limit⟩ := by
  have hoffset := @readClause_given (" ROWS".toList ++ fetchText limit) " OFFSET " (by simp) offset
  have hrows := List.dropPrefix?_append_of_beq (fetchText limit) (show " ROWS".toList == " ROWS".toList by simp)
  rw [readRows, hoffset]
  by_cases hm : offset ≤ i64Max
  · simp only [hm, if_true, Option.bind_eq_bind, Option.bind_some, hrows]
    by_cases hfit : ∀ n ∈ limit, n ≤ i64Max
    · have hfits : Fits limit offset := ⟨hfit, hm⟩
      rw [readClause_fetchText limit hfit]
      by_cases hzero : limit = some 0
      · simp only [Option.bind_some, true_and, hzero, ne_eq, not_true_eq_false, if_false, false_and, and_false,
          reduceCtorEq]
      · simp only [Option.bind_some, hfits, hzero, ne_eq, not_false_eq_true, and_self, if_true, true_and,
          Option.some.injEq, eq_comm]
    · have hfits : ¬ Fits limit offset := fun h => hfit h.1
      have hnone : readClause " FETCH NEXT " (fetchText limit) = none := by
        cases limit with
        | none => simp at hfit
        | some n => rw [fetchText_some, readClause_given _ (by simp), if_neg (by simpa using hfit)]
      simp only [hnone, hfits, Option.bind_none, false_and, reduceCtorEq]
  · have hfits : ¬ Fits limit offset := fun h => hm h.2
    simp only [hm, hfits, if_false, Option.bind_eq_bind, Option.bind_none, false_and, reduceCtorEq]

theorem topOrFetch_suffix (limit : Option Nat) {offset : Nat} (hoffset : offset ≠ 0) (ordered : Bool) :
    (Limit.topOrFetch limit offset ordered).suffix.toList =
      (if ordered then "" else " ORDER BY (SELECT NULL)").toList ++
        (" OFFSET ".toList ++ (Nat.toDigits 10 offset ++ (" ROWS".toList ++ fetchText limit))) := by
  unfold Limit.topOrFetch
  rw [if_neg hoffset]
  cases limit with
  | none => simp only [String.toList_append, toList_natText, fetchText_none, List.append_assoc, String.toList_empty]
  | some n => simp only [String.toList_append, toList_natText, fetchText_some, List.append_assoc]

/-- What SQL Server makes of a window, which is rendered with an offset only. -/
theorem readFetch_window (limit : Option Nat) {offset : Nat} (hoffset : offset ≠ 0) (ordered : Bool) (w : Window) :
    readFetch ordered (Limit.topOrFetch limit offset ordered).suffix.toList = some w ↔
      Fits limit offset ∧ limit ≠ some 0 ∧ w = ⟨offset, limit⟩ := by
  rw [topOrFetch_suffix limit hoffset]
  generalize hrows : Nat.toDigits 10 offset ++ (" ROWS".toList ++ fetchText limit) = rows
  cases ordered with
  | true =>
    have hnone : (" OFFSET ".toList ++ rows).dropPrefix? " ORDER BY (SELECT NULL)".toList = none := rfl
    rw [if_pos rfl, String.toList_empty, List.nil_append, readFetch, hnone, ← hrows]
    exact readRows_text limit offset w
  | false =>
    have hdrop := List.dropPrefix?_append_of_beq (" OFFSET ".toList ++ rows)
      (show " ORDER BY (SELECT NULL)".toList == " ORDER BY (SELECT NULL)".toList by simp)
    rw [if_neg Bool.false_ne_true, readFetch, hdrop, ← hrows]
    exact readRows_text limit offset w

theorem readHead_top (n : Nat) :
    readHead ("TOP (" ++ toString n ++ ") ").toList .mssql = if n ≤ i64Max then some (some n) else none := by
  have hclause := @readClause_given ") ".toList "TOP (" (by simp) n
  rw [readHead, String.toList_append, String.toList_append, toList_natText, List.append_assoc, hclause]
  by_cases h : n ≤ i64Max
  · simp only [h, if_true, Option.bind_eq_bind, Option.bind_some, Option.isSome_some]
  · simp only [h, if_false, Option.bind_eq_bind, Option.bind_none]

theorem readHead_nil (dialect : Dialect) : readHead [] dialect = some none := by
  cases dialect <;> rfl

theorem readWindow_of_none {dialect : Dialect} (ordered : Bool) (tail : List Char) :
    readWindow dialect ordered [] tail = readTail ordered tail dialect := by
  rw [readWindow, readHead_nil]
  cases readTail ordered tail dialect <;> rfl

theorem readWindow_top (ordered : Bool) (n : Nat) (w : Window) :
    readWindow .mssql ordered ("TOP (" ++ toString n ++ ") ").toList [] = some w ↔
      Fits (some n) 0 ∧ w = ⟨0, some n⟩ := by
  have htail : readTail ordered [] .mssql = some ⟨0, none⟩ := rfl
  rw [readWindow, readHead_top, htail, fits_some]
  by_cases h : n ≤ i64Max
  · simp only [h, if_true, Option.bind_eq_bind, Option.bind_some, i64Max_pos, and_self, true_and, Option.some.injEq,
      eq_comm]
  · simp only [h, if_false, Option.bind_eq_bind, Option.bind_none, false_and, reduceCtorEq]

/-- The window that is read from the rendered texts is the one that was asked for, if any is read. -/
theorem readWindow_limitClause (dialect : Dialect) (limit : Option Nat) (offset : Nat) (ordered : Bool) (w : Window) :
    readWindow dialect ordered (dialect.limitClause limit offset ordered).head.toList
        (dialect.limitClause limit offset ordered).suffix.toList = some w ↔
      (Fits limit offset ∧ dialect.takesWindow limit offset) ∧ w = ⟨offset, limit⟩ := by
  have hwindow (bareOffset : Bool) := readLimitOffset_window bareOffset limit offset w
  cases dialect with
  | standard | postgres =>
    have htrue := hwindow true
    simp only [or_true, true_and] at htrue
    simp only [Dialect.takesWindow, and_true, ← htrue]
    exact iff_of_eq (congrArg (· = some w) (readWindow_of_none ordered _))
  | sqlite | mysql =>
    have hfalse := hwindow false
    simp only [Bool.false_eq_true, or_false] at hfalse
    simp only [Dialect.takesWindow, Bool.or_eq_true, beq_iff_eq, and_assoc, ← hfalse]
    exact iff_of_eq (congrArg (· = some w) (readWindow_of_none ordered _))
  | mssql =>
    by_cases hoffset : offset = 0
    · subst hoffset
      cases limit with
      | none =>
        have hread : readWindow .mssql ordered [] [] = some ⟨0, none⟩ := by
          rw [readWindow_of_none]
          rfl
        have hfits := fits_none.2 i64Max_pos
        simp only [Dialect.takesWindow, hfits, beq_self_eq_true, Bool.or_true, and_self, true_and]
        rw [show (Dialect.mssql.limitClause none 0 ordered).head.toList = [] from rfl,
          show (Dialect.mssql.limitClause none 0 ordered).suffix.toList = [] from rfl, hread, Option.some.injEq, eq_comm]
      | some n =>
        simp only [Dialect.takesWindow, beq_self_eq_true, Bool.or_true, and_true]
        exact readWindow_top ordered n w
    · have hhead : (Dialect.mssql.limitClause limit offset ordered).head = "" := by
        simp only [Dialect.limitClause, Limit.topOrFetch, if_neg hoffset]
      have hfetch := readFetch_window limit hoffset ordered w
      rw [hhead, String.toList_empty, readWindow_of_none]
      simp only [Dialect.takesWindow, beq_eq_false_iff_ne.2 hoffset, Bool.or_false, bne_iff_ne, and_assoc]
      exact hfetch

/-! ### The statement -/

theorem foldl_append {α : Type} (f : α → String) (l : List α) (text : String) :
    l.foldl (fun sql j => sql ++ f j) text = text ++ l.foldl (fun sql j => sql ++ f j) "" := by
  induction l generalizing text with
  | nil => simp
  | cons j l ih => rw [List.foldl_cons, ih, List.foldl_cons, ih ("" ++ f j), String.empty_append, String.append_assoc]

theorem buildSelect_sql (dialect : Dialect) (q : Query V E) :
    (buildSelect dialect q false).sql = "SELECT " ++ (limit dialect q false).head ++ selectBody dialect q ++
      orderClause dialect q false ++ (limit dialect q false).suffix := by
  rw [buildSelect, selectBody, selectHead, foldl_append (joinClause dialect) q.joins ("SELECT " ++ _ ++ _ ++ _ ++ _),
    foldl_append (joinClause dialect) q.joins (columnList _ _ _ ++ _ ++ _)]
  obtain ⟨clause, bound⟩ := Text.renderWhere dialect E.toEntityMeta q.filters q.withTrashed ⟨0, []⟩
  cases clause with
  | none => simp only [String.append_assoc, String.append_empty]
  | some w => simp only [String.append_assoc]

theorem orderClause_ne_empty (dialect : Dialect) (q : Query V E) :
    decide (orderClause dialect q false ≠ "") = !q.orders.isEmpty := by
  rw [orderClause]
  cases q.orders.isEmpty with
  | true => rfl
  | false =>
    simp only [Bool.not_false, Bool.and_self, if_true, decide_eq_true_eq]
    intro h
    have hlist := congrArg String.toList h
    simp at hlist

/-- The text is not empty and no TOP begins it. -/
def NoTop (text : String) : Prop := ∃ c cs, text.toList = c :: cs ∧ c ≠ 'T'

theorem NoTop.append {text : String} (h : NoTop text) (rest : String) : NoTop (text ++ rest) := by
  obtain ⟨c, cs, htext, hne⟩ := h
  exact ⟨c, cs ++ rest.toList, by rw [String.toList_append, htext, List.cons_append], hne⟩

theorem noTop_quote (dialect : Dialect) (name : String) : NoTop (dialect.quote name) := by
  cases dialect <;> simp [NoTop, Dialect.quote]

/-- A column list begins with a quote, and the FROM behind an empty one with a blank. -/
theorem noTop_selectBody (dialect : Dialect) (q : Query V E) : NoTop (selectBody dialect q) := by
  have hcolumns : NoTop (columnList dialect E.toTableMeta false ++ " FROM ") := by
    rw [columnList, if_neg Bool.false_ne_true]
    cases E.columns with
    | nil =>
      rw [List.map_nil, String.intercalate_nil, String.empty_append]
      exact ⟨' ', "FROM ".toList, rfl, by decide⟩
    | cons m ms =>
      cases ms with
      | nil => exact (noTop_quote dialect m.name).append _
      | cons m' ms =>
        rw [List.map_cons, List.map_cons, String.intercalate_cons_cons, String.append_assoc, String.append_assoc]
        exact (noTop_quote dialect m.name).append _
  rw [selectBody, foldl_append, String.append_assoc, String.append_assoc, String.append_assoc, ← String.append_assoc]
  exact hcolumns.append _

theorem readCount_digits {text rest : List Char} {n : Nat} (h : readCount text = some (n, rest)) :
    ∃ ds, (∀ c ∈ ds, c.isDigit = true) ∧ text = ds ++ rest := by
  unfold readCount at h
  cases hread : readDigits (text.takeWhile (·.isDigit)) with
  | none => simp [hread] at h
  | some m =>
    simp only [hread] at h
    split_ifs at h
    obtain ⟨-, rfl⟩ := Prod.mk.inj (Option.some.inj h)
    exact ⟨text.takeWhile (·.isDigit), fun c hc => List.mem_takeWhile_imp hc, List.takeWhile_append_dropWhile.symm⟩

/-- What stands in front of the columns: nothing, or a TOP. -/
def HeadText (head : List Char) : Prop :=
  head = [] ∨ ∃ ds, (∀ c ∈ ds, c.isDigit = true) ∧ head = "TOP (".toList ++ (ds ++ ") ".toList)

theorem headText_of_read {dialect : Dialect} {head : List Char} {top : Option Nat}
    (h : readHead head dialect = some top) : HeadText head := by
  cases dialect with
  | standard | postgres | sqlite | mysql =>
    simp only [readHead] at h
    split_ifs at h with hnil
    exact .inl hnil
  | mssql =>
    rw [readHead, readClause] at h
    cases hdrop : head.dropPrefix? "TOP (".toList with
    | none =>
      simp only [hdrop, Option.bind_eq_bind, Option.bind_some, Option.isSome_none, Bool.false_eq_true, if_false] at h
      split_ifs at h with hnil
      exact .inl hnil
    | some rest =>
      obtain ⟨lead, hhead, hlead⟩ := List.dropPrefix?_eq_some_iff.1 hdrop
      rw [beq_iff_eq] at hlead
      cases hcount : readCount rest with
      | none => simp only [hdrop, hcount, Option.map_none, Option.bind_eq_bind, Option.bind_none, reduceCtorEq] at h
      | some r =>
        obtain ⟨n, rest'⟩ := r
        simp only [hdrop, hcount, Option.map_some, Option.bind_eq_bind, Option.bind_some, Option.isSome_some, if_true] at h
        split_ifs at h with hrest
        obtain ⟨ds, hds, rfl⟩ := readCount_digits hcount
        exact .inr ⟨ds, hds, by rw [hhead, hlead, hrest]⟩

theorem headText_limitClause (dialect : Dialect) (limit : Option Nat) (offset : Nat) (ordered : Bool) :
    HeadText (dialect.limitClause limit offset ordered).head.toList := by
  cases dialect with
  | standard | postgres | sqlite | mysql => exact .inl rfl
  | mssql =>
    simp only [Dialect.limitClause, Limit.topOrFetch]
    by_cases h : offset = 0
    · rw [if_pos h]
      cases limit with
      | none => exact .inl rfl
      | some n =>
        refine .inr ⟨Nat.toDigits 10 n, isDigit_toDigits n, ?_⟩
        simp only [String.toList_append, toList_natText, List.append_assoc]
    · rw [if_neg h]
      exact .inl rfl

/-- So a statement has one text in front of its columns. -/
theorem head_unique {head head' body rest rest' : List Char} (h : HeadText head) (h' : HeadText head')
    (hbody : ∃ c cs, body = c :: cs ∧ c ≠ 'T') (heq : head ++ (body ++ rest) = head' ++ (body ++ rest')) :
    head = head' := by
  obtain ⟨c, cs, rfl, hc⟩ := hbody
  have hparen {ds : List Char} : ∀ d ∈ (") ".toList ++ ds).head?, ¬ d.isDigit = true := by simp
  obtain rfl | ⟨ds, hds, rfl⟩ := h
  · obtain rfl | ⟨ds', hds', rfl⟩ := h'
    · rfl
    · exact absurd (List.cons.inj heq).1 hc
  · obtain rfl | ⟨ds', hds', rfl⟩ := h'
    · exact absurd (List.cons.inj heq).1.symm hc
    · rw [List.append_assoc, List.append_assoc, List.append_assoc, List.append_assoc] at heq
      obtain ⟨rfl, -⟩ := append_inj_of_span (·.isDigit = true) hds hds' hparen hparen (List.append_cancel_left heq)
      rfl

/-- The rendered statement asks for the window of the query, or for none that the dialect takes. -/
theorem asks_iff (dialect : Dialect) (q : Query V E) (w : Window) :
    Asks dialect (selectBody dialect q) (orderClause dialect q false) (buildSelect dialect q false).sql w ↔
      (Fits q.limit (q.offset.getD 0) ∧ dialect.takesWindow q.limit (q.offset.getD 0)) ∧
        w = ⟨q.offset.getD 0, q.limit⟩ := by
  have hlimit : limit dialect q false = dialect.limitClause q.limit (q.offset.getD 0) (!q.orders.isEmpty) := rfl
  have hread := readWindow_limitClause dialect q.limit (q.offset.getD 0) (!q.orders.isEmpty) w
  have hhead := headText_limitClause dialect q.limit (q.offset.getD 0) (!q.orders.isEmpty)
  rw [← hlimit] at hread hhead
  rw [Asks, buildSelect_sql, orderClause_ne_empty, ← hread]
  constructor
  · rintro ⟨head, tail, hsql, hw⟩
    have hlist := congrArg String.toList hsql
    simp only [String.toList_append, List.append_assoc] at hlist
    have hrest := List.append_cancel_left hlist
    have hhead' : HeadText head.toList := by
      cases htop : readHead head.toList dialect with
      | none => simp [readWindow, htop] at hw
      | some top => exact headText_of_read htop
    have heq := head_unique hhead hhead' (noTop_selectBody dialect q) hrest
    rw [heq] at hrest ⊢
    rw [List.append_cancel_left (List.append_cancel_left (List.append_cancel_left hrest))]
    exact hw
  · exact fun h => ⟨_, _, rfl, h⟩

/-! ### Pages -/

/-- The first pages of a query, one after the other. -/
def PagesGive (dialect : Dialect) (q : Query V E) (perPage count : Nat) (rows out : Table V) : Prop :=
  ∃ pages : List (Table V), pages.length = count ∧ pages.flatten = out ∧
    ∀ i (h : i < pages.length), Selects dialect (q.page (i + 1) perPage) rows pages[i]

theorem selects_iff (dialect : Dialect) (q : Query V E) (rows out : Table V) :
    Selects dialect q rows out ↔
      (Fits q.limit (q.offset.getD 0) ∧ dialect.takesWindow q.limit (q.offset.getD 0)) ∧
        out = (⟨q.offset.getD 0, q.limit⟩ : Window).select rows := by
  simp only [Selects, asks_iff]
  constructor
  · rintro ⟨w, ⟨h, rfl⟩, rfl⟩
    exact ⟨h, rfl⟩
  · rintro ⟨h, rfl⟩
    exact ⟨_, ⟨h, rfl⟩, rfl⟩

theorem page_fits (dialect : Dialect) (q : Query V E) {perPage : Nat} (hpos : 1 ≤ perPage) (i : Nat) :
    Fits (q.page (i + 1) perPage).limit ((q.page (i + 1) perPage).offset.getD 0) ∧
      dialect.takesWindow (q.page (i + 1) perPage).limit ((q.page (i + 1) perPage).offset.getD 0) ↔
    perPage ≤ i64Max ∧ i * perPage ≤ i64Max := by
  have htakes (offset : Nat) : dialect.takesWindow (some perPage) offset = true := by
    have hne : (some perPage != some 0) = true := by
      rw [bne_iff_ne, Ne, Option.some.injEq]
      omega
    cases dialect <;> simp only [Dialect.takesWindow, Option.isSome_some, Bool.true_or, hne]
  simp only [Query.page, Query.cloneWithLimit, Option.getD_some, htakes, and_true, fits_some, add_tsub_cancel_right]
  rw [u64Max, i64Max]
  omega

theorem flatten_pages {α : Type} (rows : List α) (perPage count : Nat) :
    ((List.range count).map fun i => (rows.drop (i * perPage)).take perPage).flatten = rows.take (count * perPage) := by
  induction count with
  | zero => simp
  | succ count ih =>
    rw [List.range_succ, List.map_append, List.flatten_append, ih, List.map_singleton, List.flatten_singleton,
      Nat.succ_mul, List.take_add]

/-- The pages give everything just when the last one's numbers can be said. -/
theorem pagesGive_iff (dialect : Dialect) (q : Query V E) {perPage count : Nat} {rows : Table V} (hpos : 1 ≤ perPage)
    (hcount : 1 ≤ count) (hrows : rows.length ≤ count * perPage) :
    PagesGive dialect q perPage count rows rows ↔ perPage ≤ i64Max ∧ (count - 1) * perPage ≤ i64Max := by
  constructor
  · rintro ⟨pages, rfl, -, hpages⟩
    have hlast := hpages (pages.length - 1) (by omega)
    exact (page_fits dialect q hpos _).1 ((selects_iff dialect _ rows _).1 hlast).1
  · rintro ⟨hper, hlast⟩
    refine ⟨(List.range count).map fun i => (rows.drop (i * perPage)).take perPage, by simp, ?_, ?_⟩
    · rw [flatten_pages, List.take_of_length_le hrows]
    · intro i hi
      rw [List.length_map, List.length_range] at hi
      have hle : i * perPage ≤ i64Max := (Nat.mul_le_mul_right perPage (by omega)).trans hlast
      have hmin : min (i * perPage) u64Max = i * perPage := by
        rw [i64Max] at hle
        rw [u64Max]
        omega
      rw [selects_iff]
      refine ⟨(page_fits dialect q hpos i).2 ⟨hper, hle⟩, ?_⟩
      simp only [List.getElem_map, List.getElem_range, Query.page, Query.cloneWithLimit, Option.getD_some,
        add_tsub_cancel_right, hmin, Window.select]

/-- A statement asks for the window of its query just when its counts fit, LIMIT is there where the dialect
takes no OFFSET without it, and no FETCH asks for nothing. Pages follow one another under the same
condition. -/
theorem statement_selects_window_iff (dialect : Dialect) (q : Query V E) :
    ((∀ rows, Selects dialect q rows ((⟨q.offset.getD 0, q.limit⟩ : Window).select rows)) ↔
      Fits q.limit (q.offset.getD 0) ∧ dialect.takesWindow q.limit (q.offset.getD 0)) ∧
    ∀ (perPage count : Nat) (rows : Table V), 1 ≤ perPage → 1 ≤ count → rows.length ≤ count * perPage →
      (PagesGive dialect q perPage count rows rows ↔ perPage ≤ i64Max ∧ (count - 1) * perPage ≤ i64Max) := by
  refine ⟨⟨fun h => ((selects_iff dialect q [] _).1 (h [])).1, fun h rows => (selects_iff dialect q rows _).2 ⟨h, rfl⟩⟩, ?_⟩
  intro perPage count rows hpos hcount hrows
  exact pagesGive_iff dialect q hpos hcount hrows

def event : Entity where
  softDelete := none
  table := "events"
  pk := "id"
  columns := [⟨"id", .i64, false, true, true⟩, ⟨"name", .text, false, false, false⟩]
  createdAt := none
  updatedAt := none
  version := none
  nodup := by decide
  key := by decide
  key_mem := by decide
  softDelete_mem := by decide
  relations := []
  relations_nodup := by decide

def eventRow (n : Int) : Row Int := fun column => if column ∈ event.names then some n else none

theorem three_events_in_two_pages :
    (∀ rows, Selects .mssql { Query.all Int event with limit := some 2, offset := some 1 } rows
      ((⟨1, some 2⟩ : Window).select rows)) ∧
    PagesGive .mssql (Query.all Int event) 2 2 [eventRow 1, eventRow 2, eventRow 3]
      [eventRow 1, eventRow 2, eventRow 3] :=
  ⟨(statement_selects_window_iff .mssql { Query.all Int event with limit := some 2, offset := some 1 }).1.2
      ⟨fits_some.2 (by decide), by decide⟩,
    ((statement_selects_window_iff .mssql (Query.all Int event)).2 2 2 [eventRow 1, eventRow 2, eventRow 3]
      (by decide) (by decide) (by decide)).2 (by decide)⟩

/-- An offset without a limit is no SELECT of SQLite. -/
theorem bare_offset_refused :
    ¬ ∀ (dialect : Dialect) (q : Query Int event) (rows : Table Int),
      Selects dialect q rows ((⟨q.offset.getD 0, q.limit⟩ : Window).select rows) := by
  intro hall
  have hselects := hall .sqlite { Query.all Int event with offset := some 20 } []
  exact absurd ((selects_iff _ _ _ _).1 hselects).1.2 (by decide)

end Ecat.Orm.Paging
