import Ecat.ArchiveJobs
import Ecat.JsonLines
import Ecat.Results
import Ecat.SortedMap

/-! What the sinks of the cold store sum up of a chunk: the ClickHouse sink over rows with sorted
columns, the S3 sink over the lines of the object that it stores. Rows are in the order of their ids
in both. -/

namespace Ecat.Json

/-- The pairs of column and value. -/
def Row.iter (row : Row) : List (String × Value) := row.columns.zip row.values

end Ecat.Json

namespace Ecat.Sink

open Json
open Archive (TieringError digitsToNat)

/-! ### Ids -/

/-- `str::parse::<i64>`. -/
def parseI64 (text : String) : Option Int :=
  let digits (cs : List Char) : Option Nat := if cs = [] then none else digitsToNat cs
  let n : Option Int :=
    match text.toList with
    | '-' :: cs => (digits cs).map fun n => -(n : Int)
    | '+' :: cs => (digits cs).map fun n => (n : Int)
    | cs => (digits cs).map fun n => (n : Int)
  n.filter fun n => InI64 n

def jsonI64 : Value → Option Int
  | .number n => n.asI64
  | .string text => parseI64 text
  | _ => none

def rowId (idCol : String) (row : Row) : Option Int := (row.get idCol).bind jsonI64

/-- Each row with its id, or the error of a row that has none. -/
def keyed {α : Type} (idCol : String) (f : Row → α) (rows : List Row) : Except TieringError (List (Int × α)) :=
  rows.mapM fun row =>
    match rowId idCol row with
    | some id => .ok (id, f row)
    | none => .error (.cold s!"cold sink row has no integer `{idCol}`")

def sortByKey {α : Type} (keyed : List (Int × α)) : List (Int × α) := keyed.insertionSort (·.1 ≤ ·.1)

/-! ### Samples -/

/-- A rate of rows to sample, by the step `ceil(1 / rate)` that `sample_step` makes of it. -/
structure Rate where
  step : Nat
  pos : 0 < step
  lt : step < 2 ^ 64

/-- The step as a signed integer, cut to its range. -/
def signedStep (step : Nat) : Int := min step i64Max

/-- The rows whose ids the step divides, or else the first one. -/
def pickEvery {α : Type} (keyed : List (Int × α)) (step : Int) : List α :=
  let picked := (keyed.filter fun e => e.1 % step = 0).map (·.2)
  if picked = [] then (keyed.take 1).map (·.2) else picked

/-! ### The ClickHouse sink -/

namespace Clickhouse

variable (sha256Hex : ByteArray → String)

/-- An id that is a string is written as the number it spells. -/
def canonicalJsonValue (col idCol : String) (v : Value) : List Char :=
  match v with
  | .string _ =>
    match jsonI64 v with
    | some n => if col = idCol then (toString n).toList else v.render id
    | none => v.render id
  | v => v.render id

def canonicalLine (idCol : String) (row : Row) : List Char :=
  let columns := row.iter.insertionSort (·.1 ≤ ·.1)
  '\x7b' :: commas (columns.map fun c => fieldText (c.1, canonicalJsonValue c.1 idCol c.2)) ++ ['\x7d']

def canonicalNdjson (rows : List Row) (idCol : String) : List Char :=
  rows.flatMap fun row => canonicalLine idCol row ++ ['\n']

def sortedById (rows : List Row) (idCol : String) : Except TieringError (List (Int × Row)) :=
  (keyed idCol id rows).map sortByKey

/-- `rem_euclid` takes no step of zero, which no rate comes to. -/
def pickSample (keyed : List (Int × Row)) (step : Nat) : List Row := pickEvery keyed (signedStep step)

structure ChunkDigest where
  checksum : String
  sampleChecksum : String
  sampleRows : Nat
  lowId : Int
  highId : Int
  deriving DecidableEq, Repr

def hashText (text : List Char) : String := sha256Hex (String.ofList text).toUTF8

def chunkDigest (rows : List Row) (idCol : String) (verifySample : Option Rate) : Except TieringError ChunkDigest := do
  let keyed ← sortedById rows idCol
  match keyed.head?, keyed.getLast? with
  | some (lowId, _), some (highId, _) =>
    let checksum := hashText sha256Hex (canonicalNdjson (keyed.map (·.2)) idCol)
    match verifySample with
    | some rate =>
      let picked := pickSample keyed rate.step
      return ⟨checksum, hashText sha256Hex (canonicalNdjson picked idCol), picked.length, lowId, highId⟩
    | none => return ⟨checksum, "", 0, lowId, highId⟩
  | _, _ => .error (.cold "cannot write an empty chunk")

end Clickhouse

/-! ### The S3 sink -/

namespace S3

/-- How `serde_json` keeps the fields of a map: by their names, or where its feature `preserve_order` is
on, as it is when another package of the same build asks for it, as they were inserted. -/
inductive MapOrder
  | sorted
  | inserted
  deriving DecidableEq, Repr

/-- A name that is there keeps its place. -/
def insertField (fields : List (String × Value)) (name : String) (v : Value) : List (String × Value) :=
  if fields.any (·.1 = name) then fields.map fun field => if field.1 = name then (name, v) else field
  else fields ++ [(name, v)]

variable (order : MapOrder) (sha256Hex : ByteArray → String)

/-- What becomes of the row's columns in a map of them. -/
def rowMap (row : Row) : List (String × Value) :=
  match order with
  | .sorted => (row.iter.foldl (fun map c => map.insert c.1 c.2) (SortedMap.empty : SortedMap String Value)).entries
  | .inserted => row.iter.foldl (fun fields c => insertField fields c.1 c.2) []

def rowJson (row : Row) : List Char := (Value.object (rowMap order row)).render id

structure ChunkObject where
  ndjson : ByteArray
  checksum : String
  rows : Nat
  sampleStep : Nat
  sampleChecksum : String
  sampleRows : Nat

/-- Every line with a line feed behind it. -/
def joinLines (lines : List (List Char)) : String := String.ofList (lines.flatMap fun line => line ++ ['\n'])

def pickSample (keyed : List (Int × List Char)) (step : Nat) : List (List Char) :=
  pickEvery keyed (max (signedStep step) 1)

def buildChunk (rows : List Row) (idCol : String) (verifySample : Option Rate) : Except TieringError ChunkObject := do
  if rows = [] then .error (.cold "cannot write an empty chunk")
  else
    let keyed ← (keyed idCol (rowJson order) rows).map sortByKey
    let ndjson := (joinLines (keyed.map (·.2))).toUTF8
    match verifySample with
    | some rate =>
      let picked := pickSample keyed rate.step
      return ⟨ndjson, sha256Hex ndjson, rows.length, rate.step, sha256Hex (joinLines picked).toUTF8, picked.length⟩
    | none => return ⟨ndjson, sha256Hex ndjson, rows.length, 0, "", 0⟩

/-- How `serde_json` reads a line, and what the standard library says of bytes that are no text. -/
structure Readers where
  fromStr : List Char → Except String Value
  utf8Error : ByteArray → String

def readKeyed (readers : Readers) (idCol : String) (line : List Char) : Except TieringError (Int × List Char) :=
  match readers.fromStr line with
  | .error e => .error (.cold s!"s3 chunk line is not json: {e}")
  | .ok v =>
    match (v.get idCol).bind jsonI64 with
    | some id => .ok (id, line)
    | none => .error (.cold s!"s3 chunk line has no integer `{idCol}`")

def parseKeyedLines (readers : Readers) (bytes : ByteArray) (idCol : String) :
    Except TieringError (List (Int × List Char)) :=
  match String.fromUTF8? bytes with
  | none => .error (.cold s!"s3 chunk is not utf-8: {readers.utf8Error bytes}")
  | some text => (((lines text.toList).filter (· ≠ [])).mapM (readKeyed readers idCol)).map sortByKey

end S3

end Ecat.Sink
