import Mathlib

/-! Snowflake ids: `next_id` as the pure part of one turn of its loop, and any number of
threads that load the shared word, read the clock and compare and swap in turn. -/

namespace Ecat.Ids

/-- The errors of `ShardError` that id generation returns. -/
inductive ShardError
  | clockRollback
  | idOutOfRange
  deriving DecidableEq, Repr

/-! ### Machine words -/

def i64Min : Int := -2 ^ 63

def i64Max : Int := 2 ^ 63 - 1

/-- What a build does when the result of a subtraction is not an `i64`. -/
inductive Overflow
  | wraps | panics
  deriving DecidableEq, Repr

def wrapI64 (n : Int) : Int := n.bmod (2 ^ 64)

def subI64 (overflow : Overflow) (a b : Int) : Option Int :=
  if i64Min ≤ a - b ∧ a - b ≤ i64Max then some (a - b)
  else match overflow with
    | .wraps => some (wrapI64 (a - b))
    | .panics => none

def shl64 (n k : Nat) : Nat := n <<< k % 2 ^ 64

/-! ### The generator -/

def workerBits : Nat := 10

def maxWorkerId : Nat := 1 <<< workerBits - 1

def sequenceBits : Nat := 12

def maxSequence : Nat := 1 <<< sequenceBits - 1

def maxTimestamp : Nat := 1 <<< 41 - 1

def stateUnset : Nat := 2 ^ 64 - 1

/-- A generator as `with_clock` leaves it. Its clock is not here: the system supplies the readings. -/
structure Snowflake where
  workerId : Nat
  epochMs : Int
  worker_le : workerId ≤ maxWorkerId
  epoch_ge : i64Min ≤ epochMs
  epoch_le : epochMs ≤ i64Max

/-- The epoch is in nanoseconds from the Unix epoch. -/
def withClock (workerId : Nat) (epoch : Int) : Except ShardError Snowflake :=
  if hw : workerId ≤ maxWorkerId then
    if he : i64Min ≤ epoch / 1000000 ∧ epoch / 1000000 ≤ i64Max then
      .ok ⟨workerId, epoch / 1000000, hw, he.1, he.2⟩
    else .error .idOutOfRange
  else .error .idOutOfRange

def composeId (timestamp workerId sequence : Nat) : Int :=
  wrapI64 ((shl64 timestamp (workerBits + sequenceBits) ||| shl64 workerId sequenceBits ||| sequence : Nat) : Int)

/-- An id with what it was composed from. -/
structure Issue where
  id : Int
  timestamp : Nat
  sequence : Nat
  deriving DecidableEq, Repr

/-- How a turn of the loop ends, given the word it loaded and the clock it read. -/
inductive Turn
  | panic
  | fail (e : ShardError)
  | spin
  | swap (next : Nat) (issue : Issue)
  deriving DecidableEq, Repr

def lastMs (state : Nat) : Option Int :=
  if state = stateUnset then none else some (wrapI64 ((state >>> sequenceBits : Nat) : Int))

def Snowflake.swapTo (g : Snowflake) (now sequence : Nat) : Turn :=
  .swap (shl64 now sequenceBits ||| sequence) ⟨composeId now g.workerId sequence, now, sequence⟩

def Snowflake.nextId (g : Snowflake) (overflow : Overflow) (state : Nat) (reading : Int) : Turn :=
  match subI64 overflow reading g.epochMs with
  | none => .panic
  | some now =>
    if (lastMs state).any (now < ·) then .fail .clockRollback
    else if ¬ (0 ≤ now ∧ now ≤ (maxTimestamp : Int)) then .fail .idOutOfRange
    else if lastMs state = some now then
      if state &&& maxSequence = maxSequence then .spin
      else g.swapTo now.toNat ((state &&& maxSequence) + 1)
    else g.swapTo now.toNat 0

/-! ### Threads -/

inductive Pc
  | idle
  | entered
  | loaded (state : Nat)
  | clocked (state : Nat) (reading : Int)
  deriving DecidableEq, Repr

inductive Outcome
  | ok (issue : Issue)
  | err (e : ShardError)
  | panicked
  deriving DecidableEq, Repr

/-- The shared word and the threads, with the readings of the clock and the ends of the calls
in the order they happened. -/
structure Sys (T : Type) where
  state : Nat
  thread : T → Pc
  readings : List Int
  outcomes : List Outcome

variable {T : Type} [DecidableEq T]

def start : Sys T := ⟨stateUnset, fun _ => .idle, [], []⟩

def Sys.goto (s : Sys T) (t : T) (pc : Pc) : Sys T := { s with thread := Function.update s.thread t pc }

def Sys.finish (s : Sys T) (t : T) (o : Outcome) : Sys T :=
  { s.goto t .idle with outcomes := s.outcomes ++ [o] }

/-- The end of a turn: a call that swaps returns its id, a call whose swap fails goes round again. -/
def Sys.settle (s : Sys T) (t : T) (state : Nat) : Turn → Sys T
  | .panic => s.finish t .panicked
  | .fail e => s.finish t (.err e)
  | .spin => s.goto t .entered
  | .swap next issue =>
    if s.state = state then { s.finish t (.ok issue) with state := next } else s.goto t .entered

inductive Step (g : Snowflake) (overflow : Overflow) : Sys T → Sys T → Prop
  | enter {s : Sys T} (t : T) (at_idle : s.thread t = .idle) : Step g overflow s (s.goto t .entered)
  | load {s : Sys T} (t : T) (at_entered : s.thread t = .entered) :
      Step g overflow s (s.goto t (.loaded s.state))
  | clock {s : Sys T} (t : T) {state : Nat} (at_loaded : s.thread t = .loaded state) (reading : Int)
      (ge : i64Min ≤ reading) (le : reading ≤ i64Max) :
      Step g overflow s { s.goto t (.clocked state reading) with readings := s.readings ++ [reading] }
  | compareExchange {s : Sys T} (t : T) {state : Nat} {reading : Int}
      (at_clocked : s.thread t = .clocked state reading) :
      Step g overflow s (s.settle t state (g.nextId overflow state reading))

inductive Act
  | enter | load | clock (reading : Int) | compareExchange
  deriving DecidableEq, Repr

/-- The steps as a function: an act whose thread is elsewhere does nothing. -/
def Sys.act (g : Snowflake) (overflow : Overflow) (s : Sys T) (t : T) (a : Act) : Sys T :=
  match a, s.thread t with
  | .enter, .idle => s.goto t .entered
  | .load, .entered => s.goto t (.loaded s.state)
  | .clock reading, .loaded state =>
    if i64Min ≤ reading ∧ reading ≤ i64Max then
      { s.goto t (.clocked state reading) with readings := s.readings ++ [reading] }
    else s
  | .compareExchange, .clocked state reading => s.settle t state (g.nextId overflow state reading)
  | _, _ => s

def Sys.run (g : Snowflake) (overflow : Overflow) (s : Sys T) (acts : List (T × Act)) : Sys T :=
  acts.foldl (fun s a => s.act g overflow a.1 a.2) s

abbrev Reach (g : Snowflake) (overflow : Overflow) : Sys T → Sys T → Prop :=
  Relation.ReflTransGen (Step g overflow)

def issues (outcomes : List Outcome) : List Issue :=
  outcomes.filterMap fun
    | .ok issue => some issue
    | _ => none

/-- The fields of an id: timestamp, worker id and sequence. -/
def decode (id : Int) : Nat × Nat × Nat :=
  (id.toNat >>> (workerBits + sequenceBits), id.toNat >>> sequenceBits % 2 ^ workerBits,
    id.toNat % 2 ^ sequenceBits)

end Ecat.Ids
