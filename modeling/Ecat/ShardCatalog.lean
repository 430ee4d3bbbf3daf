import Ecat.Json

/-! The shard catalog: validation, and routing of a key to a shard of a table. -/

namespace Ecat.Shard

open Json

inductive ShardError
  | config (text : String)
  | missingKey
  | unknownTable (name : String)
  | shardCountMismatch
  | partialFailure (failed : List String)
  | idOutOfRange
  | unsupportedDialect
  | database (text : String)
  deriving DecidableEq, Repr

structure ShardEndpoint where
  name : String
  url : Option String
  deriving DecidableEq, Repr

inductive ShardAlgorithm
  | hashMod (shards : Nat)
  | range (boundaries : List Int) (fits : ∀ b ∈ boundaries, InI64 b)

structure ShardTable where
  name : String
  key : String
  pk : String
  algorithm : ShardAlgorithm
  shards : List ShardEndpoint

structure ShardCatalog where
  tables : List ShardTable

/-! ### Validation -/

/-- White space as Unicode has it. -/
def isWhitespace (c : Char) : Bool :=
  let n := c.toNat
  (9 ≤ n ∧ n ≤ 13) ∨ (0x2000 ≤ n ∧ n ≤ 0x200A) ∨
    n ∈ [0x20, 0x85, 0xA0, 0x1680, 0x2028, 0x2029, 0x202F, 0x205F, 0x3000]

def isBlank (text : String) : Bool := text.toList.all isWhitespace

def checkAlgorithm (table : String) (algorithm : ShardAlgorithm) (endpoints : Nat) :
    Except ShardError Unit :=
  match algorithm with
  | .hashMod shards => if shards = 0 ∨ shards ≠ endpoints then .error .shardCountMismatch else .ok ()
  | .range boundaries _ =>
    if boundaries.length + 1 ≠ endpoints then .error .shardCountMismatch
    else if boundaries.IsChain (· < ·) then .ok ()
    else .error (.config s!"table `{table}` range boundaries must be strictly increasing")

def firstRepeat (seen : List String) : List String → Option String
  | [] => none
  | name :: names => if name ∈ seen then some name else firstRepeat (name :: seen) names

def ShardTable.shardNames (t : ShardTable) : List String := t.shards.map (·.name)

def validateTable (seen : List String) (t : ShardTable) : Except ShardError Unit :=
  if isBlank t.name ∨ isBlank t.key ∨ isBlank t.pk then
    .error (.config s!"table `{t.name}` has an empty name, key, or pk")
  else if t.name ∈ seen then .error (.config s!"duplicate table name `{t.name}`")
  else if t.shards = [] then .error (.config s!"table `{t.name}` has no shards")
  else
    match firstRepeat [] t.shardNames with
    | some shard => .error (.config s!"table `{t.name}` has duplicate shard name `{shard}`")
    | none => checkAlgorithm t.name t.algorithm t.shards.length

def validateTables (seen : List String) : List ShardTable → Except ShardError Unit
  | [] => .ok ()
  | t :: ts => do
    validateTable seen t
    validateTables (t.name :: seen) ts

def ShardCatalog.validate (c : ShardCatalog) : Except ShardError Unit := validateTables [] c.tables

/-! ### Routing -/

def stableHash64 (key : Value) : Except ShardError UInt64 :=
  match key with
  | .null => .error .missingKey
  | .string text => .ok (fnv1a64 (utf8 text.toList))
  | other => .ok (fnv1a64 (utf8 (writeCanonical other)))

/-- The number of leading elements that satisfy `p`: where a list sorted by `p` changes. -/
def partitionPoint (p : Int → Bool) (l : List Int) : Nat := (l.takeWhile p).length

def ShardCatalog.table (c : ShardCatalog) (name : String) : Except ShardError ShardTable :=
  match c.tables.find? (·.name = name) with
  | some t => .ok t
  | none => .error (.unknownTable name)

def ShardTable.shardFor (t : ShardTable) (key : Value) : Except ShardError Nat := do
  checkAlgorithm t.name t.algorithm t.shards.length
  if key.isNull then .error .missingKey
  else
    match t.algorithm with
    | .hashMod shards => return (← stableHash64 key).toNat % shards
    | .range boundaries _ =>
      match key.asI64 with
      | some id => return partitionPoint (· ≤ id) boundaries
      | none =>
        if key.isU64 then .error .idOutOfRange
        else .error (.config s!"table `{t.name}` range shard key must be an integer")

def ShardCatalog.shardFor (c : ShardCatalog) (table : String) (key : Value) : Except ShardError Nat := do
  (← c.table table).shardFor key

def ShardTable.shardName (t : ShardTable) (i : Nat) : Except ShardError String :=
  match t.shardNames[i]? with
  | some name => .ok name
  | none => .error .shardCountMismatch

def ShardTable.owner (t : ShardTable) (key : Value) : Except ShardError String := do
  t.shardName (← t.shardFor key)

def ShardCatalog.owner (c : ShardCatalog) (table : String) (key : Value) : Except ShardError String := do
  (← c.table table).owner key

/-! ### What validation gives -/

structure ShardTable.Valid (t : ShardTable) : Prop where
  nonempty : t.shards ≠ []
  nodup : t.shardNames.Nodup
  algorithm : checkAlgorithm t.name t.algorithm t.shards.length = .ok ()

theorem firstRepeat_none {seen names : List String} (h : firstRepeat seen names = none) :
    names.Nodup ∧ ∀ name ∈ names, name ∉ seen := by
  induction names generalizing seen with
  | nil => simp
  | cons name names ih =>
    rw [firstRepeat] at h
    split_ifs at h with hseen
    obtain ⟨hnodup, hfresh⟩ := ih h
    refine ⟨List.nodup_cons.2 ⟨fun hmem => hfresh name hmem (by simp), hnodup⟩, ?_⟩
    intro other hother
    rcases List.mem_cons.1 hother with rfl | hother
    · exact hseen
    · exact fun hs => hfresh other hother (List.mem_cons_of_mem _ hs)

theorem validateTable_ok {seen : List String} {t : ShardTable} (h : validateTable seen t = .ok ()) :
    t.name ∉ seen ∧ t.Valid := by
  rw [validateTable] at h
  split_ifs at h with hblank hseen hshards
  split at h
  · cases h
  next hrepeat => exact ⟨hseen, hshards, (firstRepeat_none hrepeat).1, h⟩

theorem validateTables_ok {seen : List String} {ts : List ShardTable} (h : validateTables seen ts = .ok ()) :
    (ts.map (·.name)).Nodup ∧ (∀ t ∈ ts, t.name ∉ seen) ∧ ∀ t ∈ ts, t.Valid := by
  induction ts generalizing seen with
  | nil => simp
  | cons t ts ih =>
    rw [validateTables] at h
    cases hfirst : validateTable seen t with
    | error e =>
      rw [hfirst] at h
      cases h
    | ok u =>
      rw [hfirst] at h
      obtain ⟨hfresh, hvalid⟩ := validateTable_ok hfirst
      obtain ⟨hnodup, hrest, hvalids⟩ := ih h
      refine ⟨?_, ?_, ?_⟩
      · refine List.nodup_cons.2 ⟨?_, hnodup⟩
        intro hmem
        obtain ⟨other, hother, hname⟩ := List.mem_map.1 hmem
        exact hrest other hother (by rw [hname]; simp)
      · intro other hother
        rcases List.mem_cons.1 hother with rfl | hother
        · exact hfresh
        · exact fun hs => hrest other hother (List.mem_cons_of_mem _ hs)
      · exact List.forall_mem_cons.2 ⟨hvalid, hvalids⟩

theorem validate_nodup {c : ShardCatalog} (h : c.validate = .ok ()) : (c.tables.map (·.name)).Nodup :=
  (validateTables_ok h).1

theorem validate_valid {c : ShardCatalog} (h : c.validate = .ok ()) {t : ShardTable} (ht : t ∈ c.tables) :
    t.Valid := (validateTables_ok h).2.2 t ht

theorem find_name {ts : List ShardTable} (h : (ts.map (·.name)).Nodup) {t : ShardTable} (ht : t ∈ ts) :
    ts.find? (·.name = t.name) = some t := by
  induction ts with
  | nil => cases ht
  | cons first ts ih =>
    obtain ⟨hfirst, hrest⟩ := List.nodup_cons.1 h
    rcases List.mem_cons.1 ht with rfl | ht
    · simp
    · have hne : first.name ≠ t.name := by
        intro he
        exact hfirst (List.mem_map.2 ⟨t, ht, he.symm⟩)
      rw [List.find?_cons_of_neg (by simpa using hne)]
      exact ih hrest ht

theorem table_eq_ok {c : ShardCatalog} {name : String} {t : ShardTable} :
    c.table name = .ok t ↔ c.tables.find? (·.name = name) = some t := by
  rw [ShardCatalog.table]
  cases c.tables.find? (·.name = name) with
  | none => simp
  | some t' => simp

theorem table_ok_iff {c : ShardCatalog} (h : c.validate = .ok ()) {name : String} {t : ShardTable} :
    c.table name = .ok t ↔ t ∈ c.tables ∧ t.name = name := by
  rw [table_eq_ok]
  constructor
  · intro hfind
    exact ⟨List.mem_of_find?_eq_some hfind, by simpa using List.find?_some hfind⟩
  · rintro ⟨hmem, rfl⟩
    exact find_name (validate_nodup h) hmem

/-! ### Where a key goes -/

theorem shardFor_cases {t : ShardTable} {key : Value} {i : Nat} (h : t.shardFor key = .ok i) :
    checkAlgorithm t.name t.algorithm t.shards.length = .ok () ∧ key.isNull = false ∧
    ((∃ shards hash, t.algorithm = .hashMod shards ∧ stableHash64 key = .ok hash ∧ i = hash.toNat % shards) ∨
     ∃ boundaries fits id, t.algorithm = .range boundaries fits ∧ key.asI64 = some id ∧
      i = partitionPoint (· ≤ id) boundaries) := by
  unfold ShardTable.shardFor at h
  cases hcheck : checkAlgorithm t.name t.algorithm t.shards.length with
  | error e =>
    rw [hcheck] at h
    cases h
  | ok u =>
    rw [hcheck] at h
    change (if key.isNull then _ else _) = _ at h
    cases hnull : key.isNull with
    | true =>
      rw [hnull] at h
      cases h
    | false =>
    rw [hnull] at h
    refine ⟨rfl, rfl, ?_⟩
    simp only [Bool.false_eq_true, if_false] at h
    split at h
    next shards halg =>
      cases hhash : stableHash64 key with
      | error e =>
        rw [hhash] at h
        cases h
      | ok hash =>
        rw [hhash] at h
        cases h
        exact .inl ⟨shards, hash, halg, rfl, rfl⟩
    next boundaries fits halg =>
      split at h
      next id hid =>
        cases h
        exact .inr ⟨boundaries, fits, id, halg, hid, rfl⟩
      next => split_ifs at h
theorem shardName_ok_iff {t : ShardTable} {i : Nat} {name : String} :
    t.shardName i = .ok name ↔ t.shardNames[i]? = some name := by
  unfold ShardTable.shardName
  cases t.shardNames[i]? with
  | none => simp
  | some other => simp

theorem owner_ok_iff {t : ShardTable} {key : Value} {name : String} :
    t.owner key = .ok name ↔ ∃ i, t.shardFor key = .ok i ∧ t.shardNames[i]? = some name := by
  unfold ShardTable.owner
  cases t.shardFor key with
  | error e =>
    constructor
    · intro h
      cases h
    · rintro ⟨i, hi, -⟩
      cases hi
  | ok i =>
    have hbind : (do t.shardName (← (.ok i : Except ShardError Nat))) = t.shardName i := rfl
    rw [hbind, shardName_ok_iff]
    simp

theorem owner_mem {t : ShardTable} {key : Value} {name : String} (h : t.owner key = .ok name) :
    name ∈ t.shardNames := by
  obtain ⟨i, -, hi⟩ := owner_ok_iff.1 h
  exact List.mem_of_getElem? hi

theorem owner_catalog {c : ShardCatalog} {t : ShardTable} (h : c.table t.name = .ok t) (key : Value) :
    c.owner t.name key = t.owner key := by
  rw [ShardCatalog.owner, h]
  rfl

theorem shardFor_range {t : ShardTable} (hvalid : t.Valid) {boundaries : List Int}
    {fits : ∀ b ∈ boundaries, InI64 b} (halg : t.algorithm = .range boundaries fits) {key : Value} {id : Int}
    (hkey : key.asI64 = some id) : t.shardFor key = .ok (partitionPoint (· ≤ id) boundaries) := by
  have hnull : key.isNull = false := by
    cases key <;> first | rfl | cases hkey
  unfold ShardTable.shardFor
  rw [hvalid.algorithm]
  change (if key.isNull then _ else _) = _
  rw [hnull, halg]
  simp only [Bool.false_eq_true, if_false, hkey]
  rfl

end Ecat.Shard
