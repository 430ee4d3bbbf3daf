import Ecat.GraphqlSteps

/-! The fields that a query's text selects, and what the parser keeps of them: the selection is a map by
name, and a name that comes again takes the place of the field before it. -/

namespace Ecat.Graphql

open Json

/-! ### The fields of the text -/

/-- The fields of a selection set as they stand in the text: the first one, those within it and those
after it. -/
inductive Forest
  | nil
  | cons (name : String) (args : List (String × Value)) (children rest : Forest)

namespace Forest

def count : Forest → Nat
  | nil => 0
  | cons _ _ children rest => children.count + 1 + rest.count

def depth : Forest → Nat
  | nil => 0
  | cons _ _ children rest => max (children.depth + 1) rest.depth

def names : Forest → List String
  | nil => []
  | cons name _ _ rest => name :: rest.names

/-- No selection set has a name twice. -/
def Distinct : Forest → Prop
  | nil => True
  | cons name _ children rest => name ∉ rest.names ∧ children.Distinct ∧ rest.Distinct

instance decidableDistinct : (fields : Forest) → Decidable fields.Distinct
  | nil => isTrue trivial
  | cons _ _ children rest =>
    have := decidableDistinct children
    have := decidableDistinct rest
    inferInstanceAs (Decidable (_ ∧ _ ∧ _))

end Forest

section

variable (fromSlice : Bytes → Except String Value) (vars : Value)

/-- The name, the arguments and the directives of a field, and what is left after them. -/
structure FieldHead (depth : Nat) (b : Bytes) (name : String) (args : List (String × Value)) (after : Bytes) : Prop where
  named : skipIdent (skipWs b) ≠ skipWs b
  name_eq : name = fromUtf8Lossy ((skipWs b).takeWhile isIdentByte)
  parts : ∃ afterArgs : Bytes,
    fieldArgs fromSlice vars (maxDepth + 2 - depth) depth (skipWs (skipIdent (skipWs b))) = .ok (args, afterArgs) ∧
    skipDirectives afterArgs = .ok after

/-- The fields up to the closing brace and what is left after it. -/
inductive Selects : Nat → Bytes → Forest → Bytes → Prop
  | close {depth : Nat} {cs : Bytes} : Selects depth (rbrace :: cs) .nil cs
  | leaf {depth : Nat} {b after rest : Bytes} {name : String} {args : List (String × Value)} {fields : Forest}
      (hhead : FieldHead fromSlice vars depth b name args after) (hopen : after.head? ≠ some lbrace)
      (hrest : Selects depth (skipWs after) fields rest) : Selects depth b (.cons name args .nil fields) rest
  | branch {depth : Nat} {b cs mid rest : Bytes} {name : String} {args : List (String × Value)}
      {children fields : Forest} (hhead : FieldHead fromSlice vars depth b name args (lbrace :: cs))
      (hempty : (skipWs cs).head? ≠ some rbrace)
      (hchildren : Selects (depth + 1) (skipWs cs) children mid) (hrest : Selects depth (skipWs mid) fields rest) :
      Selects depth b (.cons name args children fields) rest

/-- The fields of a query's text. -/
def Source (query : Bytes) (fields : Forest) : Prop :=
  ∃ cs rest : Bytes, skipHeader (readOperation (skipWs query)).2 = .ok (lbrace :: cs) ∧
    Selects fromSlice vars 0 (skipWs cs) fields rest

end

/-! ### What the limits must see -/

def FieldNode.args : FieldNode → List (String × Value)
  | mk args _ => args

/-- The fields within a field. -/
def FieldNode.fields : FieldNode → SelectionSet
  | mk _ none => []
  | mk _ (some set) => set

def FieldNode.depth : FieldNode → Nat
  | mk _ none => 0
  | mk _ (some set) => deepest set
where
  deepest : SelectionSet → Nat
    | [] => 0
    | (_, node) :: set => max (node.depth + 1) (deepest set)

/-- Every field of the text is in the selection at its place, with its arguments. -/
def Forest.Seen : Forest → SelectionSet → Prop
  | nil, _ => True
  | cons name args children rest, set =>
    (∃ node, (name, node) ∈ set ∧ node.args = args ∧ children.Seen node.fields) ∧ rest.Seen set

/-- The parsed field has every field of the text, is as deep and counts as many, so that no more of them pass
than the limit allows. -/
structure AllSeen (f : ParsedField) (fields : Forest) : Prop where
  seen : fields.Seen [(f.name, f.node)]
  depth_le : fields.depth ≤ FieldNode.depth.deepest [(f.name, f.node)]
  count_le : fields.count ≤ f.node.complexity + 1
  within : ∀ limit : Nat, validate f limit = .ok () → fields.count ≤ limit

/-! ### What the parser keeps -/

def Forest.isNil : Forest → Bool
  | nil => true
  | cons .. => false

/-- The fields put into a selection one after the other. -/
def Forest.stored (set : SelectionSet) : Forest → SelectionSet
  | nil => set
  | cons name args children rest =>
    rest.stored (insertNode set name ⟨args, if children.isNil then none else some (children.stored [])⟩)

def Forest.node (args : List (String × Value)) (children : Forest) : FieldNode :=
  ⟨args, if children.isNil then none else some (children.stored [])⟩

@[simp] theorem Forest.stored_cons (set : SelectionSet) (name : String) (args : List (String × Value))
    (children rest : Forest) :
    (cons name args children rest).stored set = rest.stored (insertNode set name (children.node args)) := rfl

@[simp] theorem Forest.node_args (args : List (String × Value)) (children : Forest) :
    (children.node args).args = args := rfl

theorem Forest.node_fields (args : List (String × Value)) (children : Forest) :
    (children.node args).fields = children.stored [] := by
  cases children <;> rfl

open FieldNode.complexity (total)

theorem complexity_eq_total (node : FieldNode) : node.complexity = total node.fields := by
  obtain ⟨args, selection⟩ := node
  cases selection <;> rfl

@[simp] theorem total_nil : total [] = 0 := rfl

@[simp] theorem total_cons (f : String × FieldNode) (set : SelectionSet) :
    total (f :: set) = 1 + f.2.complexity + total set := rfl

@[simp] theorem total_append (set set' : SelectionSet) : total (set ++ set') = total set + total set' := by
  induction set with
  | nil => simp
  | cons f set ih =>
    simp only [List.cons_append, total_cons, ih]
    omega

def FreshKeys (set : SelectionSet) (fields : Forest) : Prop := ∀ name ∈ fields.names, name ∉ set.map Prod.fst

theorem insertNode_fresh {set : SelectionSet} {name : String} (h : name ∉ set.map Prod.fst) (node : FieldNode) :
    insertNode set name node = set ++ [(name, node)] := by
  rw [insertNode, if_neg (mt hasKey_iff.mp h)]

theorem replace_of_notMem {set : SelectionSet} {name : String} (h : name ∉ set.map Prod.fst) (node : FieldNode) :
    (set.map fun f => if f.1 = name then (name, node) else f) = set := by
  conv_rhs => rw [← List.map_id set]
  refine List.map_congr_left fun f hf => if_neg ?_
  rintro rfl
  exact h (List.mem_map_of_mem hf)

theorem insertNode_keys (set : SelectionSet) (name : String) (node : FieldNode) :
    (insertNode set name node).map Prod.fst =
      if name ∈ set.map Prod.fst then set.map Prod.fst else set.map Prod.fst ++ [name] := by
  by_cases h : name ∈ set.map Prod.fst
  · rw [insertNode, if_pos (hasKey_iff.mpr h), if_pos h, List.map_map]
    refine List.map_congr_left fun f _ => ?_
    simp only [Function.comp_apply]
    split_ifs with hf
    · exact hf.symm
    · rfl
  · rw [insertNode_fresh h, if_neg h, List.map_append]
    rfl

theorem insertNode_nodup {set : SelectionSet} (h : (set.map Prod.fst).Nodup) (name : String) (node : FieldNode) :
    ((insertNode set name node).map Prod.fst).Nodup := by
  rw [insertNode_keys]
  split_ifs with hmem
  · exact h
  · exact h.append (List.nodup_singleton name) (List.disjoint_singleton.mpr hmem)

/-- A name that is there already does not count again. -/
theorem total_insertNode_mem {set : SelectionSet} {name : String} (hnodup : (set.map Prod.fst).Nodup)
    (h : name ∈ set.map Prod.fst) (node : FieldNode) :
    total (insertNode set name node) ≤ total set + node.complexity := by
  rw [insertNode, if_pos (hasKey_iff.mpr h)]
  clear h
  induction set with
  | nil => simp
  | cons f set ih =>
    obtain ⟨hnotMem, hnodup'⟩ := List.nodup_cons.mp hnodup
    rw [List.map_cons]
    by_cases hf : f.1 = name
    · rw [if_pos hf, replace_of_notMem (hf ▸ hnotMem)]
      simp only [total_cons]
      omega
    · have hset := ih hnodup'
      rw [if_neg hf, total_cons, total_cons]
      omega

theorem total_insertNode_fresh {set : SelectionSet} {name : String} (h : name ∉ set.map Prod.fst) (node : FieldNode) :
    total (insertNode set name node) = total set + (node.complexity + 1) := by
  rw [insertNode_fresh h, total_append]
  simp only [total_cons, total_nil]
  omega

theorem total_insertNode_le {set : SelectionSet} (hnodup : (set.map Prod.fst).Nodup) (name : String)
    (node : FieldNode) : total (insertNode set name node) ≤ total set + (node.complexity + 1) := by
  by_cases h : name ∈ set.map Prod.fst
  · exact (total_insertNode_mem hnodup h node).trans (by omega)
  · exact (total_insertNode_fresh h node).le

theorem Forest.node_complexity (args : List (String × Value)) (children : Forest) :
    (children.node args).complexity = total (children.stored []) := by
  rw [complexity_eq_total, node_fields]

theorem Forest.total_stored_le {set : SelectionSet} (fields : Forest) (hnodup : (set.map Prod.fst).Nodup) :
    total (fields.stored set) ≤ total set + fields.count := by
  induction fields generalizing set with
  | nil => exact le_rfl
  | cons name args children rest ihchildren ihrest =>
    have hchildren := @ihchildren [] List.nodup_nil
    have hinsert := total_insertNode_le hnodup name (children.node args)
    have hrest := ihrest (insertNode_nodup hnodup name (children.node args))
    rw [node_complexity] at hinsert
    rw [total_nil] at hchildren
    rw [stored_cons, count]
    omega

/-- A repeated name at any place makes the count of what is kept fall short. -/
theorem Forest.total_stored_lt {set : SelectionSet} (fields : Forest) (hnodup : (set.map Prod.fst).Nodup)
    (h : ¬ (FreshKeys set fields ∧ fields.Distinct)) : total (fields.stored set) < total set + fields.count := by
  induction fields generalizing set with
  | nil => exact absurd ⟨fun _ hname => (List.not_mem_nil hname).elim, trivial⟩ h
  | cons name args children rest ihchildren ihrest =>
    have hinsert := total_insertNode_le hnodup name (children.node args)
    have hnodup' := insertNode_nodup hnodup name (children.node args)
    have hle := total_stored_le rest hnodup'
    have hchildren := @total_stored_le [] children List.nodup_nil
    rw [node_complexity] at hinsert
    rw [total_nil] at hchildren
    rw [stored_cons, count]
    by_cases hname : name ∈ set.map Prod.fst
    · have hmem := total_insertNode_mem hnodup hname (children.node args)
      rw [node_complexity] at hmem
      omega
    by_cases hdistinct : children.Distinct
    · have hrest : ¬ (FreshKeys (insertNode set name (children.node args)) rest ∧ rest.Distinct) := by
        rintro ⟨hfresh, hrest⟩
        have hkeys : ∀ other ∈ rest.names, other ≠ name ∧ other ∉ set.map Prod.fst := by
          intro other hother
          have hnot := hfresh other hother
          rw [insertNode_keys, if_neg hname, List.mem_append, List.mem_singleton] at hnot
          exact ⟨fun heq => hnot (.inr heq), fun hmem => hnot (.inl hmem)⟩
        refine h ⟨?_, fun hmem => (hkeys name hmem).1 rfl, hdistinct, hrest⟩
        intro other hother
        rcases List.mem_cons.mp hother with rfl | hother
        · exact hname
        · exact (hkeys other hother).2
      have hlt := ihrest hnodup' hrest
      omega
    · have hlt := @ihchildren [] List.nodup_nil fun hboth => hdistinct hboth.2
      rw [total_nil] at hlt
      omega

/-! ### Without repeated names nothing is lost -/

/-- The selection with every field of the text in its place. -/
def Forest.image : Forest → SelectionSet
  | nil => []
  | cons name args children rest =>
    (name, ⟨args, if children.isNil then none else some children.image⟩) :: rest.image

theorem Forest.stored_eq {set : SelectionSet} (fields : Forest) (hfresh : FreshKeys set fields)
    (hdistinct : fields.Distinct) : fields.stored set = set ++ fields.image := by
  induction fields generalizing set with
  | nil => exact (List.append_nil set).symm
  | cons name args children rest ihchildren ihrest =>
    obtain ⟨hname, hchildren, hrest⟩ := hdistinct
    have hset : name ∉ set.map Prod.fst := hfresh name List.mem_cons_self
    have hempty : FreshKeys [] children := fun _ _ => List.not_mem_nil
    have hfresh' : FreshKeys (set ++ [(name, children.node args)]) rest := by
      intro other hother
      rw [List.map_append, List.mem_append, not_or]
      refine ⟨hfresh other (List.mem_cons_of_mem _ hother), ?_⟩
      intro hmem
      obtain rfl : other = name := List.mem_singleton.mp hmem
      exact hname hother
    rw [stored_cons, insertNode_fresh hset, ihrest hfresh' hrest, image, node, ihchildren hempty hchildren]
    simp

theorem Forest.Seen.mono {fields : Forest} {set set' : SelectionSet} (h : fields.Seen set) (hsub : set ⊆ set') :
    fields.Seen set' := by
  induction fields generalizing set set' with
  | nil => trivial
  | cons name args children rest _ ihrest =>
    obtain ⟨⟨node, hmem, hnode⟩, hrest⟩ := h
    exact ⟨⟨node, hsub hmem, hnode⟩, ihrest hrest hsub⟩

theorem Forest.seen_image (fields : Forest) : fields.Seen fields.image := by
  induction fields with
  | nil => trivial
  | cons name args children rest ihchildren ihrest =>
    refine ⟨⟨_, List.mem_cons_self, rfl, ?_⟩, ihrest.mono (List.subset_cons_self _ _)⟩
    cases children with
    | nil => trivial
    | cons => exact ihchildren

theorem Forest.deepest_image (fields : Forest) : FieldNode.depth.deepest fields.image = fields.depth := by
  induction fields with
  | nil => rfl
  | cons name args children rest ihchildren ihrest =>
    rw [image, FieldNode.depth.deepest, ihrest, depth]
    cases children with
    | nil => rfl
    | cons =>
      rw [← ihchildren]
      rfl

theorem Forest.total_image (fields : Forest) : total fields.image = fields.count := by
  induction fields with
  | nil => rfl
  | cons name args children rest ihchildren ihrest =>
    rw [image, total_cons, complexity_eq_total, ihrest, count]
    cases children with
    | nil =>
      simp only [FieldNode.fields, isNil, count, total_nil, if_true]
    | cons =>
      rw [← ihchildren]
      simp only [FieldNode.fields, isNil, Bool.false_eq_true, if_false]
      omega

theorem validate_iff {f : ParsedField} {limit : Nat} : validate f limit = .ok () ↔ f.node.complexity + 1 ≤ limit := by
  rw [validate]
  split_ifs with h
  · simp only [false_iff]
    omega
  · simp only [true_iff]
    omega

/-- The fields of the text are all seen just when no selection set has a name twice. -/
theorem allSeen_iff {f : ParsedField} {fields : Forest} (h : [(f.name, f.node)] = fields.stored []) :
    AllSeen f fields ↔ fields.Distinct := by
  have hempty : FreshKeys [] fields := fun _ _ => List.not_mem_nil
  have hcount : total (fields.stored []) = f.node.complexity + 1 := by
    rw [← h]
    simp only [total_cons, total_nil]
    omega
  constructor
  · intro hall
    by_contra hdistinct
    have hlt := @Forest.total_stored_lt [] fields List.nodup_nil fun hboth => hdistinct hboth.2
    have hle := hall.count_le
    rw [total_nil] at hlt
    omega
  · intro hdistinct
    have himage : fields.stored [] = fields.image := by
      rw [fields.stored_eq hempty hdistinct, List.nil_append]
    have hle : fields.count ≤ f.node.complexity + 1 := by
      rw [← hcount, himage, fields.total_image]
    refine ⟨?_, ?_, hle, fun limit hlimit => hle.trans (validate_iff.mp hlimit)⟩
    · rw [h, himage]
      exact fields.seen_image
    · rw [h, himage, fields.deepest_image]

/-! ### The parser reads the fields of the text -/

section

variable {fromSlice : Bytes → Except String Value} {vars : Value}

theorem FieldHead.unique {depth : Nat} {b after after' : Bytes} {name name' : String}
    {args args' : List (String × Value)} (h : FieldHead fromSlice vars depth b name args after)
    (h' : FieldHead fromSlice vars depth b name' args' after') : name = name' ∧ args = args' ∧ after = after' := by
  obtain ⟨afterArgs, hargs, hdirectives⟩ := h.parts
  obtain ⟨afterArgs', hargs', hdirectives'⟩ := h'.parts
  rw [hargs] at hargs'
  cases hargs'
  rw [hdirectives] at hdirectives'
  cases hdirectives'
  exact ⟨h.name_eq.trans h'.name_eq.symm, rfl, rfl⟩

/-- A field does not begin with the brace that closes the selection set. -/
theorem FieldHead.ne_close {depth : Nat} {cs after : Bytes} {name : String} {args : List (String × Value)}
    (h : FieldHead fromSlice vars depth (rbrace :: cs) name args after) : False :=
  h.named rfl

theorem Selects.nil_head {depth : Nat} {b rest : Bytes} (h : Selects fromSlice vars depth b .nil rest) :
    b.head? = some rbrace := by
  cases h
  rfl

theorem Selects.unique {depth : Nat} {b rest rest' : Bytes} {fields fields' : Forest}
    (h : Selects fromSlice vars depth b fields rest) (h' : Selects fromSlice vars depth b fields' rest') :
    fields = fields' ∧ rest = rest' := by
  induction h generalizing fields' rest' with
  | close =>
    cases h' with
    | close => exact ⟨rfl, rfl⟩
    | leaf hhead => exact hhead.ne_close.elim
    | branch hhead => exact hhead.ne_close.elim
  | leaf hhead hopen hrest ih =>
    cases h' with
    | close => exact hhead.ne_close.elim
    | leaf hhead' hopen' hrest' =>
      obtain ⟨rfl, rfl, rfl⟩ := hhead.unique hhead'
      obtain ⟨rfl, rfl⟩ := ih hrest'
      exact ⟨rfl, rfl⟩
    | branch hhead' =>
      obtain ⟨_, _, rfl⟩ := hhead.unique hhead'
      exact absurd rfl hopen
  | branch hhead hempty hchildren hrest ihchildren ihrest =>
    cases h' with
    | close => exact hhead.ne_close.elim
    | leaf hhead' hopen' =>
      obtain ⟨_, _, rfl⟩ := hhead.unique hhead'
      exact absurd rfl hopen'
    | branch hhead' hempty' hchildren' hrest' =>
      obtain ⟨rfl, rfl, heq⟩ := hhead.unique hhead'
      cases heq
      obtain ⟨rfl, rfl⟩ := ihchildren hchildren'
      obtain ⟨rfl, rfl⟩ := ihrest hrest'
      exact ⟨rfl, rfl⟩

theorem Source.unique {query : Bytes} {fields fields' : Forest} (h : Source fromSlice vars query fields)
    (h' : Source fromSlice vars query fields') : fields = fields' := by
  obtain ⟨cs, rest, hheader, hselects⟩ := h
  obtain ⟨cs', rest', hheader', hselects'⟩ := h'
  rw [hheader] at hheader'
  cases hheader'
  exact (hselects.unique hselects').1

/-- A field in front of the bytes is in front of their fields, whatever comes after it. -/
def Heads (fromSlice : Bytes → Except String Value) (vars : Value) (depth : Nat) (b rest : Bytes) (f : ParsedField) :
    Prop :=
  ∃ children : Forest, f.node = children.node f.args ∧
    ∀ (fields : Forest) (last : Bytes), Selects fromSlice vars depth (skipWs rest) fields last →
      Selects fromSlice vars depth b (.cons f.name f.args children fields) last

theorem selectionLoop_selects {field : Bytes → Scan (ParsedField × Bytes)} {depth : Nat} {set result : SelectionSet}
    {b rest : Bytes} (hfield : ∀ b f rest, field b = .ok (f, rest) → Heads fromSlice vars depth b rest f)
    (h : selectionLoop field set b = .ok (result, rest)) :
    ∃ fields : Forest, Selects fromSlice vars depth b fields rest ∧ result = fields.stored set := by
  fun_induction selectionLoop field set b with
  | case1 => cases h
  | case2 set cs =>
    cases h
    exact ⟨.nil, .close, rfl⟩
  | case3 => cases h
  | case4 => cases h
  | case5 set c cs _ _ f rest' hf _ ih =>
    obtain ⟨fields, hselects, rfl⟩ := ih h
    obtain ⟨children, hnode, hheads⟩ := hfield _ _ _ hf
    refine ⟨.cons f.name f.args children fields, hheads fields rest hselects, ?_⟩
    rw [Forest.stored_cons, ← hnode]
  | case6 => cases h

theorem parseField_heads {stack depth : Nat} {operation : Operation} {b rest : Bytes} {f : ParsedField}
    (hstack : stack + depth = maxDepth + 3) (h : parseField fromSlice vars stack depth operation b = .ok (f, rest)) :
    Heads fromSlice vars depth b rest f := by
  induction stack generalizing depth operation b rest f with
  | zero => cases h
  | succ stack ih =>
    have step := parseField_step h
    obtain ⟨afterArgs, afterDirectives, hargs, hdirectives, hselection⟩ := step.parts
    have hstack' : stack = maxDepth + 2 - depth := by omega
    have hhead : FieldHead fromSlice vars depth b f.name f.args afterDirectives :=
      ⟨step.named, step.name_eq, afterArgs, hstack' ▸ hargs, hdirectives⟩
    obtain ⟨hopen, hnone, rfl⟩ | ⟨hopen, _, hend, hempty, set, hset, hloop⟩ := fieldSelection_step hselection
    · refine ⟨.nil, ?_, fun fields last hselects => .leaf hhead hopen hselects⟩
      rw [ParsedField.node, hnone]
      rfl
    · obtain ⟨children, hchildren, rfl⟩ := selectionLoop_selects (fun _ _ _ hf => ih (by omega) hf) hloop
      obtain ⟨cs, rfl⟩ := List.head?_eq_some_iff.mp hopen
      refine ⟨children, ?_, fun fields last hselects => .branch hhead hempty hchildren hselects⟩
      rw [ParsedField.node, hset, Forest.node]
      cases children with
      | nil => exact absurd hchildren.nil_head hempty
      | cons => rfl

theorem parseQuery_source {query : Bytes} {f : ParsedField}
    (h : parseQuery fromSlice vars (maxDepth + 3) query = .ok f) :
    ∃ fields : Forest, Source fromSlice vars query fields ∧ [(f.name, f.node)] = fields.stored [] := by
  obtain ⟨cs, rest, after, hheader, hfield, hclose⟩ := parseQuery_step h
  obtain ⟨children, hnode, hheads⟩ := parseField_heads (by omega) hfield
  have hend : Selects fromSlice vars 0 (skipWs rest) .nil after := hclose ▸ .close
  refine ⟨.cons f.name f.args children .nil, ⟨cs, after, hheader, hheads .nil after hend⟩, ?_⟩
  rw [hnode]
  rfl

end

/-- The text of an accepted query has its fields in one way, and the parsed field has them all just when no
selection set of the text has a name twice. -/
theorem parseQuery_sees {fromSlice : Bytes → Except String Value} {vars : Value} {query : Bytes} {f : ParsedField}
    (h : parseQuery fromSlice vars (maxDepth + 3) query = .ok f) :
    ∃ fields : Forest, Source fromSlice vars query fields ∧
      (∀ fields' : Forest, Source fromSlice vars query fields' → fields' = fields) ∧
      (AllSeen f fields ↔ fields.Distinct) := by
  obtain ⟨fields, hsource, hstored⟩ := parseQuery_source h
  exact ⟨fields, hsource, fun fields' h' => h'.unique hsource, allSeen_iff hstored⟩

/-! ### Two queries -/

/-- A field with a name only. -/
structure Bare (b : Bytes) (name : String) (after : Bytes) : Prop where
  named : skipIdent (skipWs b) ≠ skipWs b
  name_eq : name = fromUtf8Lossy ((skipWs b).takeWhile isIdentByte)
  after_eq : skipWs (skipIdent (skipWs b)) = after
  plain : after ≠ [] ∧ after.head? ≠ some lparen ∧ after.head? ≠ some atSign

theorem Bare.head {b after : Bytes} {name : String} (h : Bare b name after) (depth : Nat) :
    FieldHead noJson .null depth b name [] after where
  named := h.named
  name_eq := h.name_eq
  parts := by
    obtain ⟨hne, hparen, hat⟩ := h.plain
    obtain ⟨c, cs, rfl⟩ := List.exists_cons_of_ne_nil hne
    refine ⟨c :: cs, ?_, ?_⟩
    · rw [h.after_eq, fieldArgs, if_neg hparen]
    · rw [skipDirectives, if_neg (by simpa using hat)]

theorem selects_leaf {depth : Nat} {b rest : Bytes} {fields : Forest} (name : String) (after : Bytes)
    (h : Bare b name after) (hopen : after.head? ≠ some lbrace)
    (hrest : Selects noJson .null depth (skipWs after) fields rest) :
    Selects noJson .null depth b (.cons name [] .nil fields) rest :=
  .leaf (h.head depth) hopen hrest

theorem selects_branch {depth : Nat} {b rest : Bytes} {children fields : Forest} (name : String) (cs mid : Bytes)
    (h : Bare b name (lbrace :: cs)) (hempty : (skipWs cs).head? ≠ some rbrace)
    (hchildren : Selects noJson .null (depth + 1) (skipWs cs) children mid)
    (hrest : Selects noJson .null depth (skipWs mid) fields rest) :
    Selects noJson .null depth b (.cons name [] children fields) rest :=
  .branch (h.head depth) hempty hchildren hrest

def twiceQuery : Bytes := ascii "\x7b a \x7b b \x7b x \x7d b \x7b y \x7d \x7d \x7d"

def twiceFields : Forest :=
  .cons "a" [] (.cons "b" [] (.cons "x" [] .nil .nil) (.cons "b" [] (.cons "y" [] .nil .nil) .nil)) .nil

theorem twice_source : Source noJson .null twiceQuery twiceFields := by
  refine ⟨ascii " a \x7b b \x7b x \x7d b \x7b y \x7d \x7d \x7d", [], by decide +kernel, ?_⟩
  refine selects_branch "a" (ascii " b \x7b x \x7d b \x7b y \x7d \x7d \x7d") (ascii " \x7d") ?_ (by decide +kernel) ?_ .close
  · constructor <;> decide +kernel
  refine selects_branch "b" (ascii " x \x7d b \x7b y \x7d \x7d \x7d") (ascii " b \x7b y \x7d \x7d \x7d") ?_ (by decide +kernel) ?_ ?_
  · constructor <;> decide +kernel
  · refine selects_leaf "x" (ascii "\x7d b \x7b y \x7d \x7d \x7d") ?_ (by decide +kernel) .close
    constructor <;> decide +kernel
  refine selects_branch "b" (ascii " y \x7d \x7d \x7d") (ascii " \x7d \x7d") ?_ (by decide +kernel) ?_ .close
  · constructor <;> decide +kernel
  refine selects_leaf "y" (ascii "\x7d \x7d \x7d") ?_ (by decide +kernel) .close
  constructor <;> decide +kernel

/-- The fields of the first `b` are nowhere, and the count is one short. -/
theorem twice_unseen : ∃ f, parseQuery noJson .null (maxDepth + 3) twiceQuery = .ok f ∧
    Source noJson .null twiceQuery twiceFields ∧ ¬ AllSeen f twiceFields := by
  obtain ⟨f, hf⟩ := accepted (r := parseQuery noJson .null (maxDepth + 3) twiceQuery) (by decide +kernel)
  obtain ⟨fields, hsource, hstored⟩ := parseQuery_source hf
  obtain rfl := hsource.unique twice_source
  exact ⟨f, hf, twice_source, mt (allSeen_iff hstored).mp (by decide)⟩

def onceQuery : Bytes := ascii "\x7b a \x7b b c \x7d \x7d"

def onceFields : Forest := .cons "a" [] (.cons "b" [] .nil (.cons "c" [] .nil .nil)) .nil

theorem once_source : Source noJson .null onceQuery onceFields := by
  refine ⟨ascii " a \x7b b c \x7d \x7d", [], by decide +kernel, ?_⟩
  refine selects_branch "a" (ascii " b c \x7d \x7d") (ascii " \x7d") ?_ (by decide +kernel) ?_ .close
  · constructor <;> decide +kernel
  refine selects_leaf "b" (ascii "c \x7d \x7d") ?_ (by decide +kernel) ?_
  · constructor <;> decide +kernel
  refine selects_leaf "c" (ascii "\x7d \x7d") ?_ (by decide +kernel) .close
  constructor <;> decide +kernel

theorem parseQuery_sees_once : ∃ f, parseQuery noJson .null (maxDepth + 3) onceQuery = .ok f ∧
    Source noJson .null onceQuery onceFields ∧ AllSeen f onceFields := by
  obtain ⟨f, hf⟩ := accepted (r := parseQuery noJson .null (maxDepth + 3) onceQuery) (by decide +kernel)
  obtain ⟨fields, hsource, hunique, hseen⟩ := parseQuery_sees hf
  obtain rfl := hunique _ once_source
  exact ⟨f, hf, hsource, hseen.mpr (by decide)⟩

end Ecat.Graphql
