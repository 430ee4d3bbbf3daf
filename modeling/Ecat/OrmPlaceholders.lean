import Ecat.OrmText

/-! Reading the texts: where names cannot end their quotations and fragments hold no placeholder, a
database finds as many placeholders as there are parameters, each where its value belongs. -/

namespace Ecat.Orm

variable {V : Type}

namespace Text

open Template

section Reading

variable (dialect : Dialect)

/-- The texts of a condition that do not come from the source. -/
def PlainCond : Cond V → Prop
  | .null column _ | .cmp column _ _ | .in column _ _ => dialect.marking.Inert (dialect.quote column)
  | .constant _ => True
  | .raw operand alternatives => dialect.marking.Inert (" OR ".intercalate (operand :: alternatives))

theorem closing_digit {c : Char} (h : c.isDigit = true) :
    dialect.marking.closing c = none ∧ c ≠ dialect.marking.first := by
  have hcode : 48 ≤ c.toNat ∧ c.toNat ≤ 57 := by
    simpa [Char.isDigit, UInt32.le_iff_toNat_le] using h
  have hquote : c ≠ '"' := by
    rintro rfl
    simp at h
  have hbracket : c ≠ '[' := by
    rintro rfl
    simp at h
  have hfirst : c ≠ dialect.marking.first := by
    rintro rfl
    rw [dialect.marking.no_digit] at h
    cases h
  refine ⟨?_, hfirst⟩
  cases dialect <;> simp [Dialect.marking, Dialect.closing, hquote, hbracket] <;> omega

theorem inert_nat (n : Nat) : dialect.marking.Inert (toString n) := by
  apply Marking.inert_of_forall
  intro c hc
  apply closing_digit
  have hlist : (toString n).toList = Nat.toDigits 10 n := Nat.toList_repr
  rw [hlist] at hc
  exact Nat.isDigit_of_mem_toDigits (by omega) (by omega) hc

theorem inert_op (op : Op) : dialect.marking.Inert (" " ++ op.asSql ++ " ") := by
  cases dialect <;> cases op <;> decide

theorem inert_comma : dialect.marking.Inert ", " := by cases dialect <;> decide

theorem legible_values (values : List V) :
    Legible dialect.marking false ([.inl ", "].intercalate (values.map fun v => [.inr v])) := by
  apply Legible.intercalate rfl rfl (inert_comma dialect)
  intro t ht
  obtain ⟨v, _, rfl⟩ := List.mem_map.1 ht
  trivial

theorem legible_template {c : Cond V} (h : PlainCond dialect c) :
    (c.template dialect).Legible dialect.marking false := by
  cases c with
  | null column negated =>
    have hnull : dialect.marking.Inert (if negated then " IS NOT NULL" else " IS NULL") := by
      cases dialect <;> cases negated <;> decide
    exact ⟨Marking.Inert.append h hnull, by simp, trivial⟩
  | cmp column op value =>
    rw [Cond.template, String.append_assoc, String.append_assoc, ← @String.append_assoc " "]
    exact ⟨Marking.Inert.append h (inert_op dialect op), by simp, trivial⟩
  | «in» column values negated =>
    have hopen : dialect.marking.Inert (" " ++ (if negated then "NOT " else "") ++ "IN (") := by
      cases dialect <;> cases negated <;> decide
    have hclose : dialect.marking.Inert ")" := by cases dialect <;> decide
    rw [Cond.template, String.append_assoc, String.append_assoc, ← @String.append_assoc " "]
    refine ⟨Marking.Inert.append h hopen, by simp, ?_⟩
    exact (legible_values dialect values).append (legible_separator rfl rfl hclose trivial)
  | constant value =>
    have hconst : dialect.marking.Inert (if value then "1 = 1" else "1 = 0") := by
      cases dialect <;> cases value <;> decide
    exact ⟨hconst, by simp, trivial⟩
  | raw operand alternatives => exact ⟨h, by simp, trivial⟩

theorem legible_clauseTemplate {conds : List (Cond V)} (h : ∀ c ∈ conds, PlainCond dialect c) (behind : Bool) :
    (clauseTemplate dialect conds).Legible dialect.marking behind := by
  have hwhere : dialect.marking.Inert " WHERE " := by cases dialect <;> decide
  have hand : dialect.marking.Inert " AND " := by cases dialect <;> decide
  apply legible_separator rfl rfl hwhere
  apply Legible.intercalate rfl rfl hand
  intro t ht
  obtain ⟨c, hc, rfl⟩ := List.mem_map.1 ht
  exact legible_template dialect (h c hc)

def PlainFilter (f : Expr V) : Prop :=
  (∀ column ∈ f.column?, dialect.marking.Inert (dialect.quote column)) ∧ ∀ text ∈ fragment? f, dialect.marking.Inert text

theorem plainFilter_of_slice {share : Nat} {f g : Expr V} (h : PlainFilter dialect f) (hslice : Slice share f g) :
    PlainFilter dialect g := by
  obtain ⟨c, _, rfl⟩ := hslice
  cases f with
  | «in» column values negated => exact ⟨h.1, by simp [Expr.withValues, fragment?]⟩
  | cmp column op value => exact h
  | null column negated => exact h
  | raw operand alternatives => exact h

theorem plain_renderFilter {f : Expr V} (h : PlainFilter dialect f) : PlainCond dialect (Orm.renderFilter f) := by
  cases f with
  | cmp column op value => exact h.1 column rfl
  | «in» column values negated =>
    by_cases hempty : values.isEmpty = true
    · rw [Orm.renderFilter, if_pos hempty]
      trivial
    · rw [Orm.renderFilter, if_neg hempty]
      exact h.1 column rfl
  | null column negated => exact h.1 column rfl
  | raw operand alternatives => exact h.2 _ rfl

theorem plain_renderWhere {entity : EntityMeta} {filters : List (Expr V)} {withTrashed : Bool} {conds : List (Cond V)}
    (hsoft : ∀ sd ∈ entity.softDelete, dialect.marking.Inert (dialect.quote sd))
    (hfilters : ∀ f ∈ filters, PlainFilter dialect f) (h : Orm.renderWhere entity filters withTrashed = some conds) :
    ∀ c ∈ conds, PlainCond dialect c := by
  have hconds : conds = whereConds (entity.softDelete.filter fun _ => !withTrashed) filters := by
    rw [Orm.renderWhere] at h
    split at h
    · cases h
    · exact (Option.some.inj h).symm
  intro c hc
  rw [hconds, whereConds, List.mem_append, List.mem_map, List.mem_map] at hc
  rcases hc with ⟨sd, hsd, rfl⟩ | ⟨f, hf, rfl⟩
  · exact hsoft sd (Option.filter_eq_some_iff.1 (Option.mem_toList.1 hsd)).1
  · exact plain_renderFilter dialect (hfilters f hf)

/-! #### SELECT -/

variable {dialect} {E : Entity} {q : Query V E}

theorem inert_quote {name : String} (h : dialect.closingQuote ∉ name.toList) :
    dialect.marking.Inert (dialect.quote name) := by
  cases dialect with
  | standard => exact @Marking.inert_quotation _ '"' '"' name rfl h
  | sqlite => exact @Marking.inert_quotation _ '"' '"' name rfl h
  | postgres => exact @Marking.inert_quotation _ '"' '"' name rfl h
  | mysql => exact @Marking.inert_quotation _ (Char.ofNat 96) (Char.ofNat 96) name rfl h
  | mssql => exact @Marking.inert_quotation _ '[' ']' name rfl h

theorem Plain.table (h : Plain dialect q) : dialect.marking.Inert (dialect.quote E.table) :=
  inert_quote (h.names _ List.mem_cons_self)

theorem Plain.name (h : Plain dialect q) {name : String} (hname : name ∈ E.names) :
    dialect.marking.Inert (dialect.quote name) :=
  inert_quote (h.names name (List.mem_cons_of_mem _ (List.mem_append_left _ hname)))

theorem Plain.softDelete (h : Plain dialect q) : ∀ sd ∈ E.softDelete, dialect.marking.Inert (dialect.quote sd) := by
  intro sd hsd
  exact h.name (E.softDelete_mem sd hsd)

theorem Plain.filter (h : Plain dialect q) : ∀ f ∈ q.filters, PlainFilter dialect f := by
  intro f hf
  refine ⟨?_, h.fragments f hf⟩
  intro column hcolumn
  exact h.name (q.filters_checked f hf column hcolumn)

theorem inert_columnList (h : Plain dialect q) (forCount : Bool) :
    dialect.marking.Inert (columnList dialect E.toTableMeta forCount) := by
  cases forCount with
  | true =>
    rw [columnList, if_pos rfl]
    cases dialect <;> decide
  | false =>
    rw [columnList, if_neg Bool.false_ne_true]
    apply Marking.Inert.intercalate (inert_comma dialect)
    intro text htext
    obtain ⟨c, hc, rfl⟩ := List.mem_map.1 htext
    exact h.name (List.mem_map_of_mem hc)

theorem inert_joins {joins : List (JoinType × String × String)} {start : String} (hstart : dialect.marking.Inert start)
    (h : ∀ j ∈ joins, dialect.marking.Inert (dialect.quote j.2.1) ∧ dialect.marking.Inert j.2.2) :
    dialect.marking.Inert (joins.foldl (fun sql j => sql ++ joinClause dialect j) start) := by
  induction joins generalizing start with
  | nil => exact hstart
  | cons j joins ih =>
    obtain ⟨⟨htable, hon⟩, hjoins⟩ := List.forall_mem_cons.1 h
    have hkind : dialect.marking.Inert (" " ++ j.1.asSql ++ " ") := by
      cases dialect <;> cases j.1 <;> decide
    have hkeyword : dialect.marking.Inert " ON " := by cases dialect <;> decide
    rw [List.foldl_cons]
    apply ih
    · exact hstart.append (((hkind.append htable).append hkeyword).append hon)
    · exact hjoins

/-- A phrase of the statement with its blank in front. -/
def Phrase (dialect : Dialect) (text : String) : Prop := dialect.marking.Inert text ∧ ∀ c ∈ text.toList.head?, c = ' '

theorem phrase_empty : Phrase dialect "" := ⟨Marking.inert_empty, by simp⟩

theorem phrase_of_head {text : String} (hinert : dialect.marking.Inert text) (hhead : text.toList.head? = some ' ') :
    Phrase dialect text := by
  refine ⟨hinert, ?_⟩
  intro c hc
  rw [hhead] at hc
  exact (Option.some.inj hc).symm

theorem Phrase.with {a b : String} (ha : Phrase dialect a) (hne : a ≠ "") (hb : dialect.marking.Inert b) :
    Phrase dialect (a ++ b) := by
  refine ⟨ha.1.append hb, ?_⟩
  intro c hc
  rw [String.toList_append, List.head?_append_of_ne_nil _ (by simpa using hne)] at hc
  exact ha.2 c hc

theorem Phrase.append {a b : String} (ha : Phrase dialect a) (hb : Phrase dialect b) : Phrase dialect (a ++ b) := by
  by_cases hempty : a = ""
  · rw [hempty, String.empty_append]
    exact hb
  · exact ha.with hempty hb.1

theorem Phrase.legible {text : String} (h : Phrase dialect text) : Legible dialect.marking true [(.inl text : String ⊕ V)] := by
  refine ⟨h.1, ?_, trivial⟩
  intro _ c hc
  rw [h.2 c hc]
  rfl

theorem phrase_number {word : String} (hinert : dialect.marking.Inert word) (hhead : word.toList.head? = some ' ') (n : Nat) :
    Phrase dialect (word ++ toString n) := by
  refine (phrase_of_head hinert hhead).with ?_ (inert_nat dialect n)
  rintro rfl
  cases hhead

theorem phrase_window (limit : Option Nat) (offset : Nat) :
    dialect.marking.Inert (Limit.window limit offset).head ∧ Phrase dialect (Limit.window limit offset).suffix := by
  have hlimit (l : Nat) : Phrase dialect (" LIMIT " ++ toString l) := by
    apply phrase_number _ rfl
    cases dialect <;> decide
  have hoffset (o : Nat) : Phrase dialect (" OFFSET " ++ toString o) := by
    apply phrase_number _ rfl
    cases dialect <;> decide
  refine ⟨Marking.inert_empty, ?_⟩
  simp only [Limit.window]
  split
  · exact phrase_empty
  · exact hoffset offset
  · exact hlimit _
  · rw [String.append_assoc]
    exact (hlimit _).append (hoffset offset)

theorem phrase_topOrFetch (limit : Option Nat) (offset : Nat) (hasOrder : Bool) :
    Dialect.mssql.marking.Inert (Limit.topOrFetch limit offset hasOrder).head ∧
      Phrase .mssql (Limit.topOrFetch limit offset hasOrder).suffix := by
  unfold Limit.topOrFetch
  split
  · refine ⟨?_, phrase_empty⟩
    cases limit with
    | none => exact Marking.inert_empty
    | some l =>
      have htop : Dialect.mssql.marking.Inert "TOP (" := by decide
      exact (htop.append (inert_nat .mssql l)).append (by decide)
  · refine ⟨Marking.inert_empty, ?_⟩
    have horder : Phrase .mssql (if hasOrder then "" else " ORDER BY (SELECT NULL)") := by
      cases hasOrder with
      | false => exact phrase_of_head (by decide) rfl
      | true => exact phrase_empty
    have hoffset : Phrase .mssql (" OFFSET " ++ toString offset) := phrase_number (by decide) rfl offset
    have hrows : Phrase .mssql " ROWS" := phrase_of_head (by decide) rfl
    apply ((horder.append hoffset).append hrows).append
    cases limit with
    | none => exact phrase_empty
    | some l =>
      have hfetch : Phrase .mssql (" FETCH NEXT " ++ toString l) := phrase_number (by decide) rfl l
      exact hfetch.append (phrase_of_head (by decide) rfl)

theorem phrase_limitClause (limit : Option Nat) (offset : Nat) (hasOrder : Bool) :
    dialect.marking.Inert (dialect.limitClause limit offset hasOrder).head ∧
      Phrase dialect (dialect.limitClause limit offset hasOrder).suffix := by
  cases dialect with
  | standard => exact phrase_window limit offset
  | sqlite => exact phrase_window limit offset
  | postgres => exact phrase_window limit offset
  | mysql => exact phrase_window limit offset
  | mssql => exact phrase_topOrFetch limit offset hasOrder

theorem phrase_orderClause (h : Plain dialect q) (forCount : Bool) : Phrase dialect (orderClause dialect q forCount) := by
  rw [orderClause]
  split
  · refine Phrase.with (phrase_of_head ?_ rfl) (by decide) ?_
    · cases dialect <;> decide
    · apply Marking.Inert.intercalate (inert_comma dialect)
      intro text htext
      obtain ⟨o, ho, rfl⟩ := List.mem_map.1 htext
      have hdir : dialect.marking.Inert (" " ++ o.dir.asSql) := by
        cases dialect <;> cases o.dir <;> decide
      rw [String.append_assoc]
      exact (h.name (q.orders_checked o ho)).append hdir
  · exact phrase_empty

theorem legible_selectTemplate (h : Plain dialect q) (forCount : Bool) :
    (selectTemplate dialect q forCount).Legible dialect.marking false := by
  have hlimit : dialect.marking.Inert (limit dialect q forCount).head ∧
      Phrase dialect (limit dialect q forCount).suffix := by
    rw [limit]
    split
    · exact ⟨rfl, phrase_empty⟩
    · exact phrase_limitClause _ _ _
  have hhead : dialect.marking.Inert (selectHead dialect q forCount) := by
    have hselect : dialect.marking.Inert "SELECT " := by cases dialect <;> decide
    have hfrom : dialect.marking.Inert " FROM " := by cases dialect <;> decide
    apply inert_joins
    · exact (((hselect.append hlimit.1).append (inert_columnList h forCount)).append hfrom).append h.table
    · intro j hj
      have htable : dialect.marking.Inert (dialect.quote j.2.1) :=
        inert_quote (h.names _ (List.mem_cons_of_mem _ (List.mem_append_right _ (List.mem_map_of_mem hj))))
      exact ⟨htable, h.conditions j hj⟩
  have hwhere : (whereTemplate dialect E.toEntityMeta q.filters q.withTrashed).Legible dialect.marking false := by
    rw [whereTemplate]
    cases hconds : Orm.renderWhere E.toEntityMeta q.filters q.withTrashed with
    | none => trivial
    | some conds => exact legible_clauseTemplate dialect (plain_renderWhere dialect h.softDelete h.filter hconds) false
  have htail : Legible dialect.marking true
      [(.inl (orderClause dialect q forCount) : String ⊕ V), .inl (limit dialect q forCount).suffix] :=
    Legible.append (phrase_orderClause h forCount).legible hlimit.2.legible
  exact ⟨hhead, by simp, hwhere.append htail⟩

theorem buildSelect_lines_up (q : Query V E) (forCount : Bool) :
    LinesUp dialect (buildSelect dialect q forCount) (selectTemplate dialect q forCount) (Plain dialect q) := by
  rw [buildSelect_eq]
  exact lines_up rfl rfl fun hplain => legible_selectTemplate hplain forCount

/-! #### DELETE -/

theorem legible_statement (h : Plain dialect q) {hard : Bool} {now : V} {conds : List (Cond V)}
    (hconds : ∀ c ∈ conds, PlainCond dialect c) :
    ((chunkStatement (softColumn E.toTableMeta hard) now conds).template dialect E.toTableMeta).Legible
      dialect.marking false := by
  have htable : dialect.marking.Inert (dialect.quote E.table) := h.table
  cases hsoft : softColumn E.toTableMeta hard with
  | none =>
    have hdelete : dialect.marking.Inert "DELETE FROM " := by cases dialect <;> decide
    exact ⟨hdelete.append htable, by simp, legible_clauseTemplate dialect hconds _⟩
  | some sd =>
    have hupdate : dialect.marking.Inert "UPDATE " := by cases dialect <;> decide
    have hset : dialect.marking.Inert " SET " := by cases dialect <;> decide
    have hequals : dialect.marking.Inert " = " := by cases dialect <;> decide
    have hcolumn := h.softDelete sd (Option.filter_eq_some_iff.1 hsoft).1
    refine ⟨(((hupdate.append htable).append hset).append hcolumn).append hequals, by simp, ?_⟩
    exact legible_clauseTemplate dialect hconds _

end Reading

theorem sendAll_sent {execute : Nat → Built V → Except OrmError Nat} {k total i : Nat}
    {statements : List (Except OrmError (Built V))} {built : Built V}
    (h : (sendAll execute k total statements).1[i]? = some built) : statements[i]? = some (.ok built) := by
  induction statements generalizing k total i with
  | nil => simp [sendAll] at h
  | cons statement rest ih =>
    cases statement with
    | error error => simp [sendAll] at h
    | ok first =>
      rw [sendAll] at h
      cases hanswer : execute k first with
      | error error =>
        rw [hanswer] at h
        cases i with
        | zero => simpa using h
        | succ i => simp at h
      | ok affected =>
        rw [hanswer] at h
        cases i with
        | zero => simpa using h
        | succ i => exact ih h

theorem deleteWhere_lines_up (dialect : Dialect) {E : Entity} (q : Query V E) (hard : Bool) (now : Nat → V)
    (execute : Nat → Built V → Except OrmError Nat) {k : Nat} {built : Built V}
    (h : (deleteWhere dialect E.toTableMeta q.filters hard now execute).1[k]? = some built) :
    ∃ chunk conds, (deleteChunks dialect E.toTableMeta q.filters hard)[k]? = some chunk ∧
      Orm.renderWhere E.toEntityMeta chunk hard = some conds ∧
      LinesUp dialect built ((chunkStatement (softColumn E.toTableMeta hard) (now k) conds).template dialect E.toTableMeta)
        (Plain dialect q) := by
  have hstatement := sendAll_sent h
  rw [List.getElem?_mapIdx, Option.map_eq_some_iff] at hstatement
  obtain ⟨chunk, hchunk, hbuilt⟩ := hstatement
  rw [deleteStatement_eq] at hbuilt
  cases hconds : Orm.renderWhere E.toEntityMeta chunk hard with
  | none => simp [hconds] at hbuilt
  | some conds =>
    rw [hconds] at hbuilt
    cases hbuilt
    refine ⟨chunk, conds, hchunk, hconds, lines_up rfl rfl ?_⟩
    intro hplain
    have hslices := (mem_splitInFilters _ chunk).1 (List.mem_of_getElem? hchunk)
    have hfilters : ∀ f ∈ chunk, PlainFilter dialect f := by
      intro g hg
      obtain ⟨f, hf, hslice⟩ := exists_left_of_forall₂ hslices hg
      exact plainFilter_of_slice dialect (hplain.filter f hf) hslice
    exact legible_statement hplain (plain_renderWhere dialect hplain.softDelete hfilters hconds)

/-- A statement goes out as soon as those before it have gone through. -/
theorem sendAll_covers {execute : Nat → Built V → Except OrmError Nat} {k total i : Nat}
    {statements : List (Except OrmError (Built V))} {built : Built V} (hbuilt : statements[i]? = some (.ok built))
    (hbefore : ∀ j < i, ∃ first n, (sendAll execute k total statements).1[j]? = some first ∧
      execute (k + j) first = .ok n) : (sendAll execute k total statements).1[i]? = some built := by
  induction statements generalizing k total i with
  | nil => simp at hbuilt
  | cons statement rest ih =>
    cases i with
    | zero =>
      cases statement with
      | error error => simp at hbuilt
      | ok first =>
        rw [sendAll]
        cases execute k first with
        | error error => simpa using hbuilt
        | ok affected => simpa using hbuilt
    | succ i =>
      obtain ⟨first, n, hfirst, hn⟩ := hbefore 0 (Nat.succ_pos i)
      cases statement with
      | error error => simp [sendAll] at hfirst
      | ok first' =>
        rw [sendAll] at hbefore hfirst ⊢
        cases hanswer : execute k first' with
        | error error =>
          rw [hanswer] at hfirst
          cases hfirst
          rw [Nat.add_zero, hanswer] at hn
          cases hn
        | ok affected =>
          rw [hanswer] at hbefore
          refine ih hbuilt ?_
          intro j hj
          obtain ⟨later, m, hlater, hm⟩ := hbefore (j + 1) (Nat.succ_lt_succ hj)
          exact ⟨later, m, hlater, by rwa [Nat.add_right_comm, Nat.add_assoc]⟩

/-- No chunk is left out as long as the database refuses no statement. -/
theorem deleteWhere_covers (dialect : Dialect) {E : Entity} (q : Query V E) (hard : Bool) (now : Nat → V)
    (execute : Nat → Built V → Except OrmError Nat) {k : Nat} {chunk : List (Expr V)} {conds : List (Cond V)}
    (hchunk : (deleteChunks dialect E.toTableMeta q.filters hard)[k]? = some chunk)
    (hconds : Orm.renderWhere E.toEntityMeta chunk hard = some conds)
    (hbefore : ∀ j < k, ∃ first n, (deleteWhere dialect E.toTableMeta q.filters hard now execute).1[j]? = some first ∧
      execute j first = .ok n) :
    ∃ built, (deleteWhere dialect E.toTableMeta q.filters hard now execute).1[k]? = some built := by
  obtain ⟨built, hbuilt⟩ : ∃ built, deleteStatement dialect E.toTableMeta (softColumn E.toTableMeta hard) hard (now k)
      chunk = .ok built := by
    rw [deleteStatement_eq, hconds]
    exact ⟨_, rfl⟩
  refine ⟨built, sendAll_covers ?_ ?_⟩
  · rw [List.getElem?_mapIdx, hchunk, Option.map_some, hbuilt]
  · intro j hj
    rw [Nat.zero_add]
    exact hbefore j hj

/-- The values a call of `filter` compares its column with. -/
def givenValues (asArray : V → Option (List V)) (value : V) : FilterOp → List V
  | .compare _ => [value]
  | .in | .notIn => (asArray value).getD []
  | .isNull | .notNull => []

theorem operands_renderFilter {asArray : V → Option (List V)} {print : V → String} (dialect : Dialect) {column : String}
    {value : V} {op : FilterOp} {f : Expr V} (h : filterExpr asArray print column value op = .ok f) :
    ((Orm.renderFilter f).template dialect).operands = givenValues asArray value op := by
  have hlist (values : List V) (negated : Bool) :
      ((Orm.renderFilter (.in column values negated)).template dialect).operands = values := by
    by_cases hempty : values.isEmpty = true
    · rw [Orm.renderFilter, if_pos hempty, List.isEmpty_iff.1 hempty]
      rfl
    · rw [Orm.renderFilter, if_neg hempty]
      simp [Cond.template, operands_list]
  cases op with
  | compare op =>
    cases h
    rfl
  | «in» =>
    cases hvalues : asArray value with
    | none => simp [filterExpr, hvalues] at h
    | some values =>
      simp only [filterExpr, hvalues, Except.ok.injEq] at h
      rw [← h, hlist, givenValues, hvalues, Option.getD_some]
  | notIn =>
    cases hvalues : asArray value with
    | none => simp [filterExpr, hvalues] at h
    | some values =>
      simp only [filterExpr, hvalues, Except.ok.injEq] at h
      rw [← h, hlist, givenValues, hvalues, Option.getD_some]
  | isNull =>
    cases h
    rfl
  | notNull =>
    cases h
    rfl

theorem operands_whereTemplate (dialect : Dialect) (entity : EntityMeta) (filters : List (Expr V)) (withTrashed : Bool) :
    operands (whereTemplate dialect entity filters withTrashed) =
      filters.flatMap fun f => ((Orm.renderFilter f).template dialect).operands := by
  have hgate (soft : Option String) : (whereConds soft filters).flatMap (fun c => (c.template dialect).operands) =
      filters.flatMap fun f => ((Orm.renderFilter f).template dialect).operands := by
    rw [whereConds, List.flatMap_append, List.flatMap_map, List.flatMap_map]
    cases soft <;> simp [Cond.template]
  rw [← hgate (entity.softDelete.filter fun _ => !withTrashed), whereTemplate, Orm.renderWhere, ← whereConds]
  by_cases hempty : (whereConds (entity.softDelete.filter fun _ => !withTrashed) filters).isEmpty = true
  · rw [if_pos hempty, List.isEmpty_iff.1 hempty]
    rfl
  · rw [if_neg hempty]
    exact operands_clauseTemplate dialect _

/-- Each call of `filter` adds its values to the parameters, behind those of the calls before it. -/
theorem params_filter {dialect : Dialect} {E : Entity} {q q' : Query V E} {asArray : V → Option (List V)}
    {print : V → String} {column : String} {op : FilterOp} {value : V}
    (h : q.filter asArray print column op value = .ok q') (forCount : Bool) :
    (buildSelect dialect q' forCount).params = (buildSelect dialect q forCount).params ++ givenValues asArray value op := by
  have hparams (q : Query V E) : (buildSelect dialect q forCount).params =
      q.filters.flatMap fun f => ((Orm.renderFilter f).template dialect).operands := by
    simp [buildSelect_eq, selectTemplate, operands_whereTemplate]
  unfold Query.filter at h
  split at h
  · split at h
    · cases h
    · rename_i f hf
      cases h
      rw [hparams, hparams, List.flatMap_append, List.flatMap_singleton, operands_renderFilter dialect hf]
  · cases h

/-- Whatever the filters, the statements of a query and of its deletes are the templates of what they
stand for, with a placeholder for each value and the values as parameters. A delete sends one statement
for each chunk of its filters, up to the first that the database refuses. -/
theorem query_placeholders_line_up (dialect : Dialect) {E : Entity} (q : Query V E) :
    (∀ forCount, LinesUp dialect (buildSelect dialect q forCount) (selectTemplate dialect q forCount)
      (Plain dialect q)) ∧
    ∀ hard now execute,
      (∀ k built, (deleteWhere dialect E.toTableMeta q.filters hard now execute).1[k]? = some built →
        ∃ chunk conds, (deleteChunks dialect E.toTableMeta q.filters hard)[k]? = some chunk ∧
          Orm.renderWhere E.toEntityMeta chunk hard = some conds ∧
          LinesUp dialect built
            ((chunkStatement (softColumn E.toTableMeta hard) (now k) conds).template dialect E.toTableMeta)
            (Plain dialect q)) ∧
      ∀ k chunk conds, (deleteChunks dialect E.toTableMeta q.filters hard)[k]? = some chunk →
        Orm.renderWhere E.toEntityMeta chunk hard = some conds →
        (∀ j < k, ∃ first n, (deleteWhere dialect E.toTableMeta q.filters hard now execute).1[j]? = some first ∧
          execute j first = .ok n) →
        ∃ built, (deleteWhere dialect E.toTableMeta q.filters hard now execute).1[k]? = some built := by
  refine ⟨fun forCount => buildSelect_lines_up q forCount, ?_⟩
  intro hard now execute
  refine ⟨fun k built h => deleteWhere_lines_up dialect q hard now execute h, ?_⟩
  intro k chunk conds hchunk hconds hbefore
  exact deleteWhere_covers dialect q hard now execute hchunk hconds hbefore

def ticket : Entity where
  softDelete := some "deleted_at"
  table := "tickets"
  pk := "id"
  columns := [⟨"id", .i64, false, true, true⟩, ⟨"state", .text, false, false, false⟩,
    ⟨"deleted_at", .text, true, false, false⟩]
  createdAt := none
  updatedAt := none
  version := none
  nodup := by decide
  key := by decide
  key_mem := by decide
  softDelete_mem := by decide
  relations := []
  relations_nodup := List.nodup_nil

/-- Open tickets with one of two ids, with an empty list and a comparison with NULL beside them. -/
def openTickets : Query Int ticket where
  filters := [.cmp "state" .eq 1, .in "id" [7, 8] false, .in "id" [] true, .null "state" true, .raw "now() > '?'" []]
  orders := [⟨"id", .desc⟩]
  joins := []
  limit := some 10
  offset := some 20
  withTrashed := false
  relations := []
  filters_checked := by decide
  orders_checked := by decide

theorem plain_openTickets : Plain .postgres openTickets where
  names := by decide
  fragments := by decide
  conditions := by decide

/-- The SELECT has three placeholders; the soft delete has one statement, with the time in front. -/
theorem query_placeholders_line_up_tickets :
    Dialect.postgres.marking.placeholders (buildSelect .postgres openTickets false).sql = [some 1, some 2, some 3] ∧
    Dialect.postgres.marking.bound (buildSelect .postgres openTickets false).sql [1, 7, 8] =
      some (selectTemplate .postgres openTickets false).symbols ∧
    ∃ built, (deleteWhere .postgres ticket.toTableMeta openTickets.filters false (fun _ => 99) fun _ _ => .ok 1).1 =
        [built] ∧
      Dialect.postgres.marking.placeholders built.sql = [some 1, some 2, some 3, some 4] ∧
      built.params = [99, 1, 7, 8] := by
  obtain ⟨hselect, hdelete⟩ := query_placeholders_line_up .postgres openTickets
  refine ⟨(hselect false).numbers plain_openTickets, (hselect false).bound plain_openTickets, ?_⟩
  obtain ⟨hsent, hcovers⟩ := hdelete false (fun _ => 99) fun _ _ => .ok 1
  obtain ⟨built, hbuilt⟩ := hcovers 0 _ _ rfl rfl (by simp)
  obtain ⟨chunk, conds, hchunk, hconds, hline⟩ := hsent 0 built hbuilt
  cases hchunk
  cases hconds
  have hparams : built.params = [99, 1, 7, 8] := hline.params
  have hnumbers := hline.numbers plain_openTickets
  rw [hparams] at hnumbers
  refine ⟨built, ?_, hnumbers, hparams⟩
  obtain ⟨first, hfirst⟩ := List.length_eq_one_iff.1 (rfl : (deleteWhere .postgres ticket.toTableMeta
    openTickets.filters false (fun _ => 99) fun _ _ => .ok 1).1.length = 1)
  rw [hfirst] at hbuilt
  cases hbuilt
  exact hfirst

end Text

end Ecat.Orm
