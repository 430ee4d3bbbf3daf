import Ecat.SinkCanonical

/-! The S3 sink over a bucket: a chunk that is there already is not sent again, its manifest always
is, and the verification reads both. A storage call may fail, and a put that fails may have stored
its object all the same. -/

namespace Ecat.Sink.S3

open Json
open Archive (TieringError validateIdent)

structure S3Table where
  name : String
  idCol : String

/-- The root of the keys is empty or ends in a slash. -/
structure S3Sink where
  root : String
  tables : List S3Table
  verifySample : Option Rate

structure Manifest where
  table : String
  partition : String
  chunk : UInt64
  checksum : String
  bytes : UInt64
  rows : UInt64
  sampleStep : UInt64
  sampleChecksum : String
  sampleRows : UInt64
  deriving DecidableEq

/-- `serde_json::to_vec`. -/
def Manifest.toVec (m : Manifest) : ByteArray :=
  let number (n : UInt64) : List Char := (toString n.toNat).toList
  let fields : List (String × List Char) := [("table", stringText m.table), ("partition", stringText m.partition),
    ("chunk", number m.chunk), ("checksum", stringText m.checksum), ("bytes", number m.bytes),
    ("rows", number m.rows), ("sample_step", number m.sampleStep), ("sample_checksum", stringText m.sampleChecksum),
    ("sample_rows", number m.sampleRows)]
  (String.ofList ('\x7b' :: commas (fields.map fieldText) ++ ['\x7d'])).toUTF8

/-! ### The bucket -/

/-- After an error nothing more is done; what has been stored stays. -/
def andThen {S ε α β : Type} (r : Except ε α × S) (f : α → S → Except ε β × S) : Except ε β × S :=
  match r with
  | (.ok a, s) => f a s
  | (.error e, s) => (.error e, s)

abbrev Objects := SortedMap String ByteArray

inductive Op
  | put (key : String)
  | get (key : String)
  | list (keyPrefix : String)
  deriving DecidableEq, Repr

/-- A storage error, and whether the object of a put is stored all the same. -/
structure Fault where
  text : String
  stored : Bool

abbrev Faults := Op → Option Fault

def noFaults : Faults := fun _ => none

/-- The libraries: SHA-256, the order of JSON maps, what reads JSON, and what the storage says of a key
without object. -/
structure Env where
  mapOrder : MapOrder
  sha256Hex : ByteArray → String
  readers : Readers
  fromSlice : ByteArray → Except String Manifest
  notFound : String

def put (faults : Faults) (key : String) (data : ByteArray) (s : Objects) : Except TieringError Unit × Objects :=
  match faults (.put key) with
  | some fault => (.error (.cold s!"s3 put `{key}`: {fault.text}"), if fault.stored then s.insert key data else s)
  | none => (.ok (), s.insert key data)

def get (env : Env) (faults : Faults) (key : String) (s : Objects) : Except TieringError ByteArray :=
  match faults (.get key) with
  | some fault => .error (.cold s!"s3 get `{key}`: {fault.text}")
  | none =>
    match s.get? key with
    | some bytes => .ok bytes
    | none => .error (.cold s!"s3 get `{key}`: {env.notFound}")

def list (keyPrefix : String) (s : Objects) : List String :=
  (s.entries.map (·.1)).filter fun key => keyPrefix.toList.isPrefixOf key.toList

/-- `S3Sink::exists`. -/
def existsKey (faults : Faults) (key : String) (s : Objects) : Except TieringError Bool :=
  match faults (.list key) with
  | some fault => .error (.cold s!"s3 list `{key}`: {fault.text}")
  | none => .ok ((list key s).any (· = key))

/-! ### Writing and verifying -/

def S3Sink.tableSpec (sink : S3Sink) (table : String) : Except TieringError S3Table := do
  validateIdent table
  match sink.tables.find? (·.name = table) with
  | some spec => .ok spec
  | none => .error (.cold s!"table `{table}` is not in the S3 sink whitelist")

def S3Sink.baseKey (sink : S3Sink) (table partition : String) : String := s!"{sink.root}{table}/{partition}"

def S3Sink.chunkKey (sink : S3Sink) (table partition : String) (chunk : UInt64) : String :=
  s!"{sink.baseKey table partition}/{chunk.toNat}.ndjson"

def S3Sink.manifestKey (sink : S3Sink) (table partition : String) (chunk : UInt64) : String :=
  s!"{sink.baseKey table partition}/{chunk.toNat}.manifest.json"

def maxChunkBytes : Nat := 64 * 1024 * 1024

def ensureChunkSize (len : Nat) : Except TieringError Unit :=
  if maxChunkBytes < len then
    .error (.cold s!"chunk is {len} bytes, exceeding the {maxChunkBytes} byte S3 sink limit")
  else .ok ()

def manifestOf (table partition : String) (chunk : UInt64) (object : ChunkObject) : Manifest where
  table := table
  partition := partition
  chunk := chunk
  checksum := object.checksum
  bytes := object.ndjson.size.toUInt64
  rows := object.rows.toUInt64
  sampleStep := object.sampleStep.toUInt64
  sampleChecksum := object.sampleChecksum
  sampleRows := object.sampleRows.toUInt64

/-- The part of `write_chunk` before it calls the storage. -/
def S3Sink.chunkObject (env : Env) (sink : S3Sink) (table partition : String) (rows : List Row) :
    Except TieringError ChunkObject := do
  let spec ← sink.tableSpec table
  validateIdent partition
  let object ← buildChunk env.mapOrder env.sha256Hex rows spec.idCol sink.verifySample
  ensureChunkSize object.ndjson.size
  return object

def S3Sink.writeChunk (env : Env) (sink : S3Sink) (faults : Faults) (table partition : String) (chunk : UInt64)
    (rows : List Row) (s : Objects) : Except TieringError String × Objects :=
  match sink.chunkObject env table partition rows with
  | .error e => (.error e, s)
  | .ok object =>
    let key := sink.chunkKey table partition chunk
    match existsKey faults key s with
    | .error e => (.error e, s)
    | .ok present =>
      let manifest := manifestOf table partition chunk object
      andThen (if present then (.ok (), s) else put faults key object.ndjson s) fun _ s =>
        andThen (put faults (sink.manifestKey table partition chunk) manifest.toVec s) fun _ s =>
          (.ok object.checksum, s)

def S3Sink.verifyChunk (env : Env) (sink : S3Sink) (faults : Faults) (table partition : String) (chunk : UInt64)
    (checksum : String) (s : Objects) : Except TieringError Bool := do
  let spec ← sink.tableSpec table
  validateIdent partition
  let bytes ← get env faults (sink.chunkKey table partition chunk) s
  if env.sha256Hex bytes ≠ checksum then return false
  else if sink.verifySample.isNone then return true
  else
    let manifestKey := sink.manifestKey table partition chunk
    if !(← existsKey faults manifestKey s) then return false
    else
      match env.fromSlice (← get env faults manifestKey s) with
      | .error e => .error (.cold s!"s3 manifest `{manifestKey}`: {e}")
      | .ok manifest =>
        if manifest.table ≠ table ∨ manifest.partition ≠ partition ∨ manifest.chunk ≠ chunk ∨
            manifest.checksum ≠ checksum ∨ manifest.sampleStep = 0 ∨ manifest.bytes ≠ bytes.size.toUInt64 then
          return false
        else
          let keyed ← parseKeyedLines env.readers bytes spec.idCol
          if keyed.length.toUInt64 ≠ manifest.rows then return false
          else
            let picked := pickSample keyed manifest.sampleStep.toNat
            return picked.length.toUInt64 = manifest.sampleRows &&
              env.sha256Hex (joinLines picked).toUTF8 = manifest.sampleChecksum

/-! ### What a write leaves -/

/-- The text of the rows' lines in the order of their ids. -/
def S3Sink.text (order : MapOrder) (sink : S3Sink) (table : String) (rows : List Row) : Option ByteArray :=
  (sink.tables.find? (·.name = table)).map fun spec =>
    let entries := rows.filterMap fun row => (rowId spec.idCol row).map fun id => (id, rowJson order row)
    (joinLines ((sortByKey entries).map (·.2))).toUTF8

variable {env : Env} {sink : S3Sink} {faults : Faults} {table table' partition partition' checksum : String}
  {chunk chunk' : UInt64} {rows : List Row} {s s' : Objects} {object : ChunkObject}

theorem any_list (key : String) (s : Objects) : (list key s).any (· = key) = (s.get? key).isSome := by
  rw [Bool.eq_iff_iff, List.any_eq_true]
  constructor
  · rintro ⟨key', hkey', heq⟩
    obtain rfl := of_decide_eq_true heq
    obtain ⟨e, he, rfl⟩ := List.mem_map.1 (List.mem_filter.1 hkey').1
    exact Option.isSome_iff_exists.2 ⟨e.2, SortedMap.get?_eq_some.2 he⟩
  · intro h
    obtain ⟨v, hv⟩ := Option.isSome_iff_exists.1 h
    have hmem := SortedMap.get?_eq_some.1 hv
    refine ⟨key, List.mem_filter.2 ⟨List.mem_map.2 ⟨_, hmem, rfl⟩, ?_⟩, decide_eq_true rfl⟩
    exact List.isPrefixOf_iff_prefix.2 (List.prefix_refl _)

theorem chunkKey_ne_manifestKey (table partition : String) (chunk : UInt64) (table' partition' : String) (chunk' : UInt64) :
    sink.chunkKey table partition chunk ≠ sink.manifestKey table' partition' chunk' := by
  intro h
  have hchunk : (toString ".ndjson").toList.reverse = ['n', 'o', 's', 'j', 'd', 'n', '.'] := rfl
  have hmanifest : (toString ".manifest.json").toList.reverse =
      ['n', 'o', 's', 'j', '.', 't', 's', 'e', 'f', 'i', 'n', 'a', 'm', '.'] := rfl
  have hends := congrArg (fun key : String => key.toList.reverse.take 5) h
  simp [S3Sink.chunkKey, S3Sink.manifestKey, hchunk, hmanifest] at hends

theorem tableSpec_ok {spec : S3Table} (h : sink.tableSpec table = .ok spec) :
    sink.tables.find? (·.name = table) = some spec := by
  rw [S3Sink.tableSpec, bind_eq_ok] at h
  obtain ⟨_, -, h⟩ := h
  cases hfind : sink.tables.find? (·.name = table) with
  | none =>
    rw [hfind] at h
    cases h
  | some spec' =>
    rw [hfind] at h
    exact congrArg some (Except.ok.inj h)

theorem chunkObject_ok (h : sink.chunkObject env table partition rows = .ok object) :
    ∃ spec, sink.tableSpec table = .ok spec ∧ validateIdent partition = .ok () ∧
      buildChunk env.mapOrder env.sha256Hex rows spec.idCol sink.verifySample = .ok object := by
  simp only [S3Sink.chunkObject, bind_eq_ok] at h
  obtain ⟨spec, hspec, u, hpartition, object', hbuild, -, -, h⟩ := h
  obtain rfl := Except.ok.inj h
  exact ⟨spec, hspec, hpartition, hbuild⟩

theorem chunkObject_text (h : sink.chunkObject env table partition rows = .ok object) :
    sink.text env.mapOrder table rows = some object.ndjson := by
  obtain ⟨spec, hspec, -, hbuild⟩ := chunkObject_ok h
  obtain ⟨entries, hkeyed, hobject⟩ := buildChunk_ok hbuild
  rw [keyed_eq] at hkeyed
  split_ifs at hkeyed
  rw [S3Sink.text, tableSpec_ok hspec, Option.map_some, hobject.ndjson, ← Except.ok.inj hkeyed]

theorem andThen_ok {S ε α β : Type} {r : Except ε α × S} {f : α → S → Except ε β × S} {b : β} {s' : S}
    (h : andThen r f = (.ok b, s')) : ∃ a s, r = (.ok a, s) ∧ f a s = (.ok b, s') := by
  obtain ⟨result, s⟩ := r
  cases result with
  | error e => cases h
  | ok a => exact ⟨a, s, rfl, h⟩

theorem andThen_leaves {S ε α β : Type} (r : Except ε α × S) (f : α → S → Except ε β × S) :
    (andThen r f).2 = r.2 ∨ ∃ a, (andThen r f).2 = (f a r.2).2 := by
  obtain ⟨result, s⟩ := r
  cases result with
  | error e => exact .inl rfl
  | ok a => exact .inr ⟨a, rfl⟩

theorem put_ok {key : String} {data : ByteArray} {u : Unit} (h : put faults key data s = (.ok u, s')) :
    s' = s.insert key data := by
  unfold put at h
  cases hfault : faults (.put key) with
  | some fault =>
    rw [hfault] at h
    cases h
  | none =>
    rw [hfault] at h
    exact (congrArg Prod.snd h).symm

/-- The object may have been stored. -/
def MayStore (key : String) (data : ByteArray) (s s' : Objects) : Prop := s' = s ∨ s' = s.insert key data

theorem MayStore.get? {key key' : String} {data bytes : ByteArray} (h : MayStore key data s s')
    (hget : s'.get? key' = some bytes) : s.get? key' = some bytes ∨ key' = key ∧ bytes = data := by
  rcases h with rfl | rfl
  · exact .inl hget
  · rw [SortedMap.get?_insert] at hget
    split_ifs at hget with hkey
    · exact .inr ⟨hkey, (Option.some.inj hget).symm⟩
    · exact .inl hget

theorem mayStore_put (faults : Faults) (key : String) (data : ByteArray) (s : Objects) :
    MayStore key data s (put faults key data s).2 := by
  unfold put
  cases faults (.put key) with
  | some fault =>
    by_cases h : fault.stored = true
    · exact .inr (if_pos h)
    · exact .inl (if_neg h)
  | none => exact .inr rfl

/-- The chunk of a write: nothing is sent where an object is. -/
def sendChunk (faults : Faults) (key : String) (data : ByteArray) (s : Objects) : Except TieringError Unit × Objects :=
  if (s.get? key).isSome then (.ok (), s) else put faults key data s

/-- A write is an error at once, or sends its chunk and then its manifest. -/
theorem writeChunk_cases (env : Env) (sink : S3Sink) (faults : Faults) (table partition : String) (chunk : UInt64)
    (rows : List Row) (s : Objects) :
    (∃ e, sink.writeChunk env faults table partition chunk rows s = (.error e, s)) ∨
    ∃ object, sink.chunkObject env table partition rows = .ok object ∧
      sink.writeChunk env faults table partition chunk rows s =
        andThen (sendChunk faults (sink.chunkKey table partition chunk) object.ndjson s) fun _ s =>
          andThen (put faults (sink.manifestKey table partition chunk)
              (manifestOf table partition chunk object).toVec s) fun _ s => (.ok object.checksum, s) := by
  unfold S3Sink.writeChunk
  cases hobject : sink.chunkObject env table partition rows with
  | error e => exact .inl ⟨e, rfl⟩
  | ok object =>
    simp only [existsKey]
    cases faults (.list (sink.chunkKey table partition chunk)) with
    | some fault => exact .inl ⟨_, rfl⟩
    | none =>
      simp only [any_list]
      exact .inr ⟨object, rfl, rfl⟩

/-- What a write without an error has done. -/
theorem writeChunk_ok (h : sink.writeChunk env faults table partition chunk rows s = (.ok checksum, s')) :
    ∃ object, sink.chunkObject env table partition rows = .ok object ∧ checksum = object.checksum ∧
      s' = (if (s.get? (sink.chunkKey table partition chunk)).isSome then s
        else s.insert (sink.chunkKey table partition chunk) object.ndjson).insert
          (sink.manifestKey table partition chunk) (manifestOf table partition chunk object).toVec := by
  rcases writeChunk_cases env sink faults table partition chunk rows s with ⟨e, herror⟩ | ⟨object, hobject, hwrite⟩
  · rw [herror] at h
    cases h
  · rw [hwrite] at h
    obtain ⟨u, s₁, hsend, h⟩ := andThen_ok h
    obtain ⟨u', s₂, hput, h⟩ := andThen_ok h
    have hsent : s₁ = if (s.get? (sink.chunkKey table partition chunk)).isSome then s
        else s.insert (sink.chunkKey table partition chunk) object.ndjson := by
      unfold sendChunk at hsend
      split_ifs at hsend ⊢
      · exact (congrArg Prod.snd hsend).symm
      · exact put_ok hsend
    cases h
    refine ⟨object, hobject, rfl, ?_⟩
    rw [← hsent]
    exact put_ok hput

theorem mayStore_sendChunk (faults : Faults) (key : String) (data : ByteArray) (s : Objects) :
    MayStore key data s (sendChunk faults key data s).2 := by
  unfold sendChunk
  split_ifs
  · exact .inl rfl
  · exact mayStore_put faults key data s

/-- Whether or not a write fails, an object was there before, or it is the chunk's or its manifest. -/
theorem writeChunk_leaves {key : String} {bytes : ByteArray}
    (h : (sink.writeChunk env faults table partition chunk rows s).2.get? key = some bytes) :
    s.get? key = some bytes ∨ key = sink.chunkKey table partition chunk ∧ sink.text env.mapOrder table rows = some bytes ∨
      key = sink.manifestKey table partition chunk := by
  rcases writeChunk_cases env sink faults table partition chunk rows s with ⟨e, herror⟩ | ⟨object, hobject, hwrite⟩
  · rw [herror] at h
    exact .inl h
  · rw [hwrite] at h
    have hsent : ∀ {bytes}, (sendChunk faults (sink.chunkKey table partition chunk) object.ndjson s).2.get? key = some bytes →
        s.get? key = some bytes ∨ key = sink.chunkKey table partition chunk ∧ sink.text env.mapOrder table rows = some bytes := by
      intro bytes hget
      rcases (mayStore_sendChunk _ _ _ _).get? hget with hold | ⟨hkey, rfl⟩
      · exact .inl hold
      · exact .inr ⟨hkey, chunkObject_text hobject⟩
    have hmanifest : ∀ {s₁ : Objects}, (put faults (sink.manifestKey table partition chunk)
        (manifestOf table partition chunk object).toVec s₁).2.get? key = some bytes →
        s₁.get? key = some bytes ∨ key = sink.manifestKey table partition chunk := by
      intro s₁ hget
      exact ((mayStore_put _ _ _ _).get? hget).imp_right And.left
    rcases andThen_leaves (sendChunk faults (sink.chunkKey table partition chunk) object.ndjson s) _ with heq | ⟨a, heq⟩
    · rw [heq] at h
      exact (hsent h).imp_right .inl
    · rw [heq] at h
      rcases andThen_leaves (put faults (sink.manifestKey table partition chunk) _ _) _ with heq | ⟨a, heq⟩
      all_goals
        rw [heq] at h
        rcases hmanifest h with hold | hkey
        · exact (hsent hold).imp_right .inl
        · exact .inr (.inr hkey)

/-! ### Verifying -/

theorem get_ok (key : String) {bytes : ByteArray} (h : s.get? key = some bytes) : get env noFaults key s = .ok bytes := by
  simp only [get, noFaults, h]

/-- The chunk that was written is verified when the object under its key has its text. -/
theorem verifyChunk_true (h : sink.chunkObject env table partition rows = .ok object) (hprints : Prints rows)
    (hreads : ∀ spec, sink.tableSpec table = .ok spec → ReadsIds env.mapOrder env.readers spec.idCol rows)
    (hmanifest : env.fromSlice (manifestOf table partition chunk object).toVec = .ok (manifestOf table partition chunk object))
    (hchunk : s.get? (sink.chunkKey table partition chunk) = some object.ndjson)
    (hstored : s.get? (sink.manifestKey table partition chunk) = some (manifestOf table partition chunk object).toVec) :
    sink.verifyChunk env noFaults table partition chunk object.checksum s = .ok true := by
  obtain ⟨spec, hspec, hpartition, hbuild⟩ := chunkObject_ok h
  obtain ⟨entries, -, hparsed, hobject⟩ := parseKeyedLines_buildChunk hbuild hprints (hreads spec hspec)
  have hexists : existsKey noFaults (sink.manifestKey table partition chunk) s = .ok true := by
    simp only [existsKey, noFaults, any_list, hstored, Option.isSome_some]
  simp only [S3Sink.verifyChunk, hspec, hpartition, ok_bind, get_ok _ hchunk, get_ok _ hstored, hobject.checksum,
    hexists, hmanifest]
  cases hsample : sink.verifySample with
  | none => simp
  | some rate =>
    obtain ⟨hstep, hchecksum, hcount⟩ := hobject.sample rate hsample
    have hnat : (manifestOf table partition chunk object).sampleStep.toNat = rate.step := by
      rw [manifestOf, hstep, Nat.toUInt64, UInt64.toNat_ofNat']
      exact Nat.mod_eq_of_lt rate.lt
    have hne : (manifestOf table partition chunk object).sampleStep ≠ 0 := by
      intro hzero
      rw [hzero] at hnat
      exact rate.pos.ne hnat
    have hrows : (sortByKey entries).length.toUInt64 = (manifestOf table partition chunk object).rows := by
      rw [manifestOf, hobject.rows]
    have hpicked : ((pickSample (sortByKey entries) rate.step).length.toUInt64 =
        (manifestOf table partition chunk object).sampleRows) ∧
        env.sha256Hex (joinLines (pickSample (sortByKey entries) rate.step)).toUTF8 =
          (manifestOf table partition chunk object).sampleChecksum := by
      rw [manifestOf, hchecksum, hcount]
      exact ⟨rfl, rfl⟩
    rw [if_neg (not_not.2 rfl), if_neg (by simp), if_neg (by simp), if_neg, hparsed, ok_bind, if_neg (not_not.2 hrows), hnat,
      decide_eq_true hpicked.1, decide_eq_true hpicked.2]
    · rfl
    · simp only [not_or, not_not]
      exact ⟨rfl, rfl, rfl, hobject.checksum, hne, rfl⟩

theorem verifyChunk_sha {bytes : ByteArray} (hchunk : s.get? (sink.chunkKey table partition chunk) = some bytes)
    (h : sink.verifyChunk env noFaults table partition chunk checksum s = .ok true) : env.sha256Hex bytes = checksum := by
  by_contra hne
  simp only [S3Sink.verifyChunk, bind_eq_ok] at h
  obtain ⟨spec, -, u, -, bytes', hget, h⟩ := h
  rw [get_ok _ hchunk] at hget
  obtain rfl := Except.ok.inj hget
  rw [if_pos hne] at h
  cases h

/-! ### Attempts -/

/-- A call of `write_chunk`, with what fails in it. -/
structure Attempt where
  faults : Faults
  table : String
  partition : String
  chunk : UInt64
  rows : List Row

namespace Attempt

def key (sink : S3Sink) (a : Attempt) : String := sink.chunkKey a.table a.partition a.chunk

def run (env : Env) (sink : S3Sink) (a : Attempt) (s : Objects) : Except TieringError String × Objects :=
  sink.writeChunk env a.faults a.table a.partition a.chunk a.rows s

/-- The object under the chunk's key, if there is one, has the text of the attempt's rows. -/
def FindsOwn (env : Env) (sink : S3Sink) (a : Attempt) (s : Objects) : Prop :=
  ∀ bytes, s.get? (a.key sink) = some bytes → sink.text env.mapOrder a.table a.rows = some bytes

/-- The libraries read back what the attempt writes. -/
structure ReadBack (env : Env) (sink : S3Sink) (a : Attempt) : Prop where
  prints : Prints a.rows
  ids : ∀ spec, sink.tableSpec a.table = .ok spec → ReadsIds env.mapOrder env.readers spec.idCol a.rows
  manifest : ∀ object, sink.chunkObject env a.table a.partition a.rows = .ok object →
    env.fromSlice (manifestOf a.table a.partition a.chunk object).toVec =
      .ok (manifestOf a.table a.partition a.chunk object)

/-- What the attempt returns is verified, if it returns a checksum. -/
def Verifies (env : Env) (sink : S3Sink) (a : Attempt) (s : Objects) : Prop :=
  ∀ checksum s', a.run env sink s = (.ok checksum, s') →
    sink.verifyChunk env noFaults a.table a.partition a.chunk checksum s' = .ok true

end Attempt

/-- What is stored after some attempts. -/
def leaves (env : Env) (sink : S3Sink) (attempts : List Attempt) (s : Objects) : Objects :=
  attempts.foldl (fun s a => (a.run env sink s).2) s

variable {a : Attempt} {attempts : List Attempt}

theorem Attempt.stored (h : a.run env sink s = (.ok checksum, s')) : ∃ object,
    sink.chunkObject env a.table a.partition a.rows = .ok object ∧ checksum = object.checksum ∧
      s'.get? (a.key sink) = some ((s.get? (a.key sink)).getD object.ndjson) ∧
      s'.get? (sink.manifestKey a.table a.partition a.chunk) =
        some (manifestOf a.table a.partition a.chunk object).toVec := by
  obtain ⟨object, hobject, hchecksum, rfl⟩ := writeChunk_ok h
  have hne : a.key sink ≠ sink.manifestKey a.table a.partition a.chunk := chunkKey_ne_manifestKey _ _ _ _ _ _
  refine ⟨object, hobject, hchecksum, ?_, ?_⟩
  · rw [SortedMap.get?_insert, if_neg hne]
    cases hold : s.get? (a.key sink) with
    | none =>
      rw [Attempt.key] at hold
      simp [hold, SortedMap.get?_insert, Attempt.key]
    | some bytes =>
      rw [Attempt.key] at hold
      simp [hold, Attempt.key]
  · rw [SortedMap.get?_insert, if_pos rfl]

theorem Attempt.verifies_of_findsOwn (hback : a.ReadBack env sink) (hown : a.FindsOwn env sink s) : a.Verifies env sink s := by
  intro checksum s' h
  obtain ⟨object, hobject, rfl, hchunk, hstored⟩ := a.stored h
  have hdata : (s.get? (a.key sink)).getD object.ndjson = object.ndjson := by
    cases hold : s.get? (a.key sink) with
    | none => rfl
    | some bytes =>
      have htext := (hown bytes hold).symm.trans (chunkObject_text hobject)
      exact Option.some.inj htext
  rw [hdata] at hchunk
  exact verifyChunk_true hobject hback.prints hback.ids (hback.manifest object hobject) hchunk hstored

/-- Attempts that agree about each chunk find only their own objects. -/
theorem findsOwn_leaves (hagree : ∀ a ∈ attempts, ∀ b ∈ attempts, a.key sink = b.key sink →
      sink.text env.mapOrder a.table a.rows = sink.text env.mapOrder b.table b.rows)
    (hstart : ∀ a ∈ attempts, a.FindsOwn env sink s) {done : List Attempt} (hdone : ∀ b ∈ done, b ∈ attempts) :
    ∀ a ∈ attempts, a.FindsOwn env sink (leaves env sink done s) := by
  induction done using List.reverseRecOn with
  | nil => exact hstart
  | append_singleton done b ih =>
    intro a ha bytes hget
    have hb : b ∈ attempts := hdone b (by simp)
    rw [leaves, List.foldl_append] at hget
    rcases writeChunk_leaves hget with hold | ⟨hkey, htext⟩ | hkey
    · exact ih (fun c hc => hdone c (List.mem_append_left _ hc)) a ha bytes hold
    · rw [hagree a ha b hb hkey]
      exact htext
    · exact absurd hkey (chunkKey_ne_manifestKey _ _ _ _ _ _)

def note (text : String) : Row := ⟨["id", "note"], [.ofU64 1, .string text]⟩

def noteLine (text : String) : String := String.ofList (rowJson .sorted (note text) ++ ['\n'])

def notes : List Row := [secondNote, note "y"]

def notesManifest : Manifest :=
  ⟨"notes", "p202601", 0, "08b423d4db9a210c09a877dee5238fd89606c91a50ab578b677fc143689d777a", 43, 2, 2,
    "110e9a58b9f8166593f2f6258045783c18adf67ebf260b35c653ea4995c50041", 1⟩

/-- What the libraries answer about the chunk of both notes and its sample, the second one. -/
def notesEnv : Env where
  mapOrder := .inserted
  sha256Hex bytes :=
    if bytes = (joinLines (notes.reverse.map (rowJson .inserted))).toUTF8 then notesManifest.checksum
    else notesManifest.sampleChecksum
  readers :=
    { fromStr := fun line =>
        match notes.find? fun row => rowJson .inserted row = line with
        | some row => .ok (.object (rowMap .inserted row))
        | none => .error "expected value at line 1 column 1"
      utf8Error := fun _ => "incomplete utf-8 byte sequence from index 0" }
  fromSlice bytes := if bytes = notesManifest.toVec then .ok notesManifest else .error "expected value at line 1 column 1"
  notFound := "object not found"

/-- Every second id is sampled. -/
def notesSink : S3Sink := ⟨"", [⟨"notes", "id"⟩], some ⟨2, by decide, by decide⟩⟩

/-- The bucket has the chunk behind this one. -/
def laterChunk : Objects := SortedMap.empty.insert "notes/p202601/1.ndjson" (noteLine "x").toUTF8

/-- The first attempt loses its manifest. -/
def losesManifest : Attempt where
  faults
    | .put key => if key = "notes/p202601/0.manifest.json" then some ⟨"timeout", false⟩ else none
    | _ => none
  table := "notes"
  partition := "p202601"
  chunk := 0
  rows := notes

def again : Attempt := ⟨noFaults, "notes", "p202601", 0, notes⟩

theorem readBack_notes : again.ReadBack notesEnv notesSink := by
  constructor
  · simp only [Prints, again, notes, secondNote, note, Row.iter, List.zip_cons_cons, List.zip_nil_left, List.forall_mem_cons]
    exact ⟨⟨prints_int _ _ _, prints_string _, by simp⟩, ⟨prints_int _ _ _, prints_string _, by simp⟩, by simp⟩
  · intro spec hspec
    obtain rfl : ⟨"notes", "id"⟩ = spec := Option.some.inj (tableSpec_ok hspec)
    simp only [ReadsIds, again, notes, List.forall_mem_cons]
    exact ⟨⟨_, rfl, rfl⟩, ⟨_, rfl, rfl⟩, by simp⟩
  · intro object hobject
    have hmanifest : (notesSink.chunkObject notesEnv "notes" "p202601" notes).toOption.map
        (manifestOf "notes" "p202601" 0) = some notesManifest := by decide +kernel
    have hobject : notesSink.chunkObject notesEnv "notes" "p202601" notes = .ok object := hobject
    rw [hobject] at hmanifest
    have heq : manifestOf "notes" "p202601" 0 object = notesManifest := Option.some.inj hmanifest
    show notesEnv.fromSlice (manifestOf "notes" "p202601" 0 object).toVec = .ok (manifestOf "notes" "p202601" 0 object)
    have hread : ∀ bytes, notesEnv.fromSlice bytes =
        if bytes = notesManifest.toVec then .ok notesManifest else .error "expected value at line 1 column 1" := fun _ => rfl
    rw [heq, hread, if_pos rfl]

theorem findsOwn_again : again.FindsOwn notesEnv notesSink (leaves notesEnv notesSink [losesManifest] laterChunk) := by
  intro bytes hget
  have htext : (leaves notesEnv notesSink [losesManifest] laterChunk).get? (again.key notesSink) =
      notesSink.text notesEnv.mapOrder "notes" notes := by decide +kernel
  rw [← hget, htext]
  rfl

def noteManifest : Manifest :=
  ⟨"notes", "p202601", 0, "a711b6d2e053c5b0ec32f604fea60f9cf5f079598a176092f55ecc75331083dd", 20, 1, 0, "", 0⟩

/-- What the libraries answer about the chunks of one note, `x` and then `y`. -/
def noteEnv : Env where
  mapOrder := .sorted
  sha256Hex bytes :=
    if bytes = (noteLine "x").toUTF8 then "5a1b5ec20fddf10afc5a8051d4b55d5d05733db9b06fb58c071dadbc9245fea4"
    else "a711b6d2e053c5b0ec32f604fea60f9cf5f079598a176092f55ecc75331083dd"
  readers :=
    { fromStr := fun line =>
        if line = rowJson .sorted (note "y") then .ok (.object (rowMap .sorted (note "y")))
        else .error "expected value at line 1 column 1"
      utf8Error := fun _ => "incomplete utf-8 byte sequence from index 0" }
  fromSlice bytes := if bytes = noteManifest.toVec then .ok noteManifest else .error "expected value at line 1 column 1"
  notFound := "object not found"

def noteSink : S3Sink := ⟨"", [⟨"notes", "id"⟩], none⟩

def attempt (text : String) : Attempt := ⟨noFaults, "notes", "p202601", 0, [note text]⟩

theorem attempt_readBack : (attempt "y").ReadBack noteEnv noteSink := by
  constructor
  · simp only [Prints, attempt, note, Row.iter, List.zip_cons_cons, List.zip_nil_left, List.forall_mem_cons]
    exact ⟨⟨prints_int _ _ _, prints_string _, by simp⟩, by simp⟩
  · intro spec hspec
    obtain rfl : ⟨"notes", "id"⟩ = spec := Option.some.inj (tableSpec_ok hspec)
    simp only [ReadsIds, attempt, List.forall_mem_cons]
    exact ⟨⟨_, rfl, rfl⟩, by simp⟩
  · intro object hobject
    have hmanifest : (noteSink.chunkObject noteEnv "notes" "p202601" [note "y"]).toOption.map
        (manifestOf "notes" "p202601" 0) = some noteManifest := by decide +kernel
    have hobject : noteSink.chunkObject noteEnv "notes" "p202601" [note "y"] = .ok object := hobject
    rw [hobject] at hmanifest
    have heq : manifestOf "notes" "p202601" 0 object = noteManifest := Option.some.inj hmanifest
    show noteEnv.fromSlice (manifestOf "notes" "p202601" 0 object).toVec = .ok (manifestOf "notes" "p202601" 0 object)
    have hread : ∀ bytes, noteEnv.fromSlice bytes =
        if bytes = noteManifest.toVec then .ok noteManifest else .error "expected value at line 1 column 1" := fun _ => rfl
    rw [heq, hread, if_pos rfl]

end Ecat.Sink.S3
