import Ecat.ShardCatalog
import Ecat.SortedList

/-! The migration plan between two catalogs. Range tables are cut at the boundaries of both
catalogs and an interval moves when its owner changes; any other change of a table copies
every old shard to every new one, row by row as the new catalog routes them. -/

namespace Ecat.Shard

open Json

/-- From `low` on and below `high`; an end that is missing is unbounded. -/
structure KeyRange where
  low : Option Int
  high : Option Int
  deriving DecidableEq, Repr

structure ShardMove where
  table : String
  fromShard : String
  toShard : String
  keyRange : Option KeyRange
  deriving DecidableEq, Repr

structure ShardPlan where
  moves : List ShardMove
  deriving DecidableEq, Repr

def sameShardNames (a b : ShardTable) : Bool := a.shardNames = b.shardNames

def fullCopyMoves (old new : ShardTable) : List ShardMove :=
  old.shardNames.flatMap fun source => new.shardNames.map fun target => ⟨old.name, source, target, none⟩

/-- An interval with a key that stands for all its keys. -/
structure Interval where
  range : KeyRange
  representative : Int

def intervals (low : Option Int) : List Int → List Interval
  | [] => [⟨⟨low, none⟩, low.getD 0⟩]
  | b :: bs => (if i64Min < b then [⟨⟨low, some b⟩, b - 1⟩] else []) ++ intervals (some b) bs

def rangeIndex (algorithm : ShardAlgorithm) (key : Int) : Except ShardError Nat :=
  match algorithm with
  | .range boundaries _ => .ok (partitionPoint (· ≤ key) boundaries)
  | .hashMod _ => .error (.config "range_index called on a hash algorithm")

def shardAt (t : ShardTable) (key : Int) : Except ShardError String := do
  t.shardName (← rangeIndex t.algorithm key)

/-- A move next to the last one, between the same shards, makes that one longer. -/
def addMove (moves : List ShardMove) (table source target : String) (range : KeyRange) : List ShardMove :=
  let fresh := moves ++ [⟨table, source, target, some range⟩]
  match moves.getLast? with
  | some last =>
    match last.keyRange with
    | some r =>
      if last.fromShard = source ∧ last.toShard = target ∧ r.high = range.low then
        moves.dropLast ++ [{ last with keyRange := some { r with high := range.high } }]
      else fresh
    | none => fresh
  | none => fresh

def sweep (old new : ShardTable) : List ShardMove → List Interval → Except ShardError (List ShardMove)
  | moves, [] => .ok moves
  | moves, i :: is => do
    let source ← shardAt old i.representative
    let target ← shardAt new i.representative
    if source = target then sweep old new moves is
    else sweep old new (addMove moves old.name source target i.range) is

def rangeMoves (old new : ShardTable) : Except ShardError (List ShardMove) :=
  match old.algorithm, new.algorithm with
  | .range oldBoundaries _, .range newBoundaries _ =>
    let boundaries := dedupBy (fun a b => a = b) ((oldBoundaries ++ newBoundaries).insertionSort (· ≤ ·))
    sweep old new [] (intervals none boundaries)
  | _, _ => .error (.config "range_moves called on a non-range algorithm")

def diffTable (old new : ShardTable) : Except ShardError (List ShardMove) :=
  if old.key ≠ new.key ∨ old.pk ≠ new.pk then
    .error (.config s!"table `{new.name}` changes key/pk; migration is unsupported")
  else
    match old.algorithm, new.algorithm with
    | .range .., .range .. => rangeMoves old new
    | .hashMod _, .hashMod _ => .ok (if sameShardNames old new then [] else fullCopyMoves old new)
    | _, _ => .ok (fullCopyMoves old new)

def diffTables (old : ShardCatalog) : List ShardTable → Except ShardError (List ShardMove)
  | [] => .ok []
  | t :: ts =>
    match old.tables.find? (·.name = t.name) with
    | none => diffTables old ts
    | some t' => do return (← diffTable t' t) ++ (← diffTables old ts)

def ShardPlan.diff (old new : ShardCatalog) : Except ShardError ShardPlan := do
  old.validate
  new.validate
  return ⟨← diffTables old new.tables⟩

/-! ### What a move covers -/

def KeyRange.covers (r : KeyRange) (key : Int) : Bool := r.low.all (· ≤ key) && r.high.all (key < ·)

/-- A ranged move covers the keys in its range; a full copy covers what the new catalog routes
to its target. -/
def ShardMove.covers (mv : ShardMove) (new : ShardTable) (key : Value) : Bool :=
  match mv.keyRange with
  | some r => key.asI64.any r.covers
  | none => new.owner key = .ok mv.toShard

end Ecat.Shard
