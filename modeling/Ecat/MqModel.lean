import Ecat.Runs
import Mathlib.Logic.Function.Basic

/-! The in-memory queue: `publish` sends to every subscriber of the topic and then notifies it,
`poll_recv` tries the channel and falls asleep on a stored `notified` future. Publishers and
pollers of different threads take turns at every one of these operations. -/

namespace Ecat.Mq

inductive MqError
  | other (text : String)
  deriving DecidableEq, Repr

abbrev Waker := Nat

/-- An `OwnedNotified`: whether `notify_waiters` has run since it was made, and the waker that
was left with it. -/
structure Notified where
  fired : Bool
  waker : Option Waker
  deriving DecidableEq, Repr

/-- Where a call of `poll_recv` is; the waker is the one of its context. -/
inductive Poll
  | idle
  | empty (waker : Waker)
  | stored (waker : Waker)
  | woken (waker : Waker)
  deriving DecidableEq, Repr

/-- A subscriber: the messages its receiver has not read, the stored future, the poll under way,
and the waker of a poll that returned `Pending`, until that waker is woken. -/
structure InMemoryStream (B : Type) where
  unread : List B
  notified : Option Notified
  poll : Poll
  asleep : Option Waker
  alive : Bool
  returned : List (Option (Except MqError B))

structure Publish (B : Type) where
  data : B
  entries : List Nat
  sent : Bool
  deriving DecidableEq, Repr

structure InMemoryMq (B : Type) where
  senders : String → List Nat
  streams : Nat
  stream : Nat → InMemoryStream B
  publishing : List (Publish B)
  closed : Bool

inductive Act (B : Type)
  | subscribe (topic : String)
  | publish (topic : String) (data : B)
  | advance (publisher : Nat)
  | poll (stream : Nat) (waker : Waker)
  | resume (stream : Nat)
  | dropStream (stream : Nat)
  | dropMq
  deriving DecidableEq, Repr

variable {B : Type}

def capacity : Nat := 256

/-! ### The channel and the notification -/

inductive TryRecv (B : Type)
  | data (data : B)
  | lagged (n : Nat)
  | closed
  | empty
  deriving DecidableEq, Repr

namespace InMemoryStream

def fresh : InMemoryStream B := ⟨[], none, .idle, none, true, []⟩

/-- `broadcast::Receiver::try_recv`; a receiver that is behind by more than the capacity skips
what was overwritten and says so. -/
def tryRecv (closed : Bool) (s : InMemoryStream B) : TryRecv B × InMemoryStream B :=
  if capacity < s.unread.length then
    (.lagged (s.unread.length - capacity), { s with unread := s.unread.drop (s.unread.length - capacity) })
  else match s.unread with
    | data :: rest => (.data data, { s with unread := rest })
    | [] => (if closed then .closed else .empty, s)

def send (s : InMemoryStream B) (data : B) : InMemoryStream B :=
  if s.alive then { s with unread := s.unread ++ [data] } else s

def wake (s : InMemoryStream B) (waker : Waker) : InMemoryStream B :=
  if s.asleep = some waker then { s with asleep := none } else s

/-- `notify_waiters` fires the future made before it and wakes the waker it holds. -/
def notifyWaiters (s : InMemoryStream B) : InMemoryStream B :=
  match s.notified with
  | some ⟨false, some waker⟩ => { s with notified := some ⟨true, none⟩ }.wake waker
  | some ⟨false, none⟩ => { s with notified := some ⟨true, none⟩ }
  | _ => s

/-! ### `poll_recv` -/

def ready (s : InMemoryStream B) (result : Option (Except MqError B)) : InMemoryStream B :=
  { s with poll := .idle, returned := s.returned ++ [result] }

def pending (s : InMemoryStream B) (waker : Waker) : InMemoryStream B :=
  { s with poll := .idle, asleep := some waker }

def lagText (n : Nat) : String := "subscriber lagged: " ++ toString n ++ " messages dropped"

def receive (closed : Bool) (s : InMemoryStream B) (onEmpty : InMemoryStream B) : InMemoryStream B :=
  match s.tryRecv closed with
  | (.data data, s') => s'.ready (some (.ok data))
  | (.lagged n, s') => s'.ready (some (.error (.other (lagText n))))
  | (.closed, s') => s'.ready none
  | (.empty, _) => onEmpty

def pollRecv (closed : Bool) (s : InMemoryStream B) (waker : Waker) : InMemoryStream B :=
  let s := { s with asleep := none }
  s.receive closed { s with poll := .empty waker }

/-- The rest of the poll: store a future, poll it, and once it has fired try the channel again. -/
def resume (closed : Bool) (s : InMemoryStream B) : Option (InMemoryStream B) :=
  match s.poll, s.notified with
  | .idle, _ => none
  | .empty waker, none => some { s with poll := .stored waker, notified := some ⟨false, none⟩ }
  | .empty waker, some _ => some { s with poll := .stored waker }
  | .stored waker, some ⟨false, _⟩ => some ({ s with notified := some ⟨false, some waker⟩ }.pending waker)
  | .stored waker, some ⟨true, _⟩ => some { s with poll := .woken waker, notified := none }
  | .stored _, none => none
  | .woken waker, _ => some (s.receive closed (s.pending waker))

end InMemoryStream

/-! ### The queue -/

namespace InMemoryMq

def new : InMemoryMq B := ⟨fun _ => [], 0, fun _ => .fresh, [], false⟩

def modify (q : InMemoryMq B) (id : Nat) (f : InMemoryStream B → InMemoryStream B) : InMemoryMq B :=
  { q with stream := Function.update q.stream id (f (q.stream id)) }

/-- The next operation of a publisher: the send to the entry at hand, its notification, or the
return that gives the read lock back. -/
def advance (q : InMemoryMq B) (i : Nat) : Option (InMemoryMq B) :=
  match q.publishing[i]? with
  | none => none
  | some ⟨_, [], _⟩ => some { q with publishing := q.publishing.eraseIdx i }
  | some ⟨data, id :: rest, false⟩ =>
    some { q.modify id (·.send data) with publishing := q.publishing.set i ⟨data, id :: rest, true⟩ }
  | some ⟨data, id :: rest, true⟩ =>
    some { q.modify id (·.notifyWaiters) with publishing := q.publishing.set i ⟨data, rest, false⟩ }

def step (q : InMemoryMq B) : Act B → Option (InMemoryMq B)
  | .subscribe topic =>
    if q.publishing = [] ∧ q.closed = false then
      some { q with
        senders := Function.update q.senders topic (q.senders topic ++ [q.streams])
        streams := q.streams + 1
        stream := Function.update q.stream q.streams .fresh }
    else none
  | .publish topic data =>
    if q.closed then none else some { q with publishing := q.publishing ++ [⟨data, q.senders topic, false⟩] }
  | .advance i => q.advance i
  | .poll id waker =>
    if (q.stream id).alive ∧ (q.stream id).poll = .idle ∧ id < q.streams then
      some (q.modify id (·.pollRecv q.closed waker))
    else none
  | .resume id =>
    if (q.stream id).alive then
      ((q.stream id).resume q.closed).map fun s => q.modify id fun _ => s
    else none
  | .dropStream id =>
    if (q.stream id).poll = .idle then
      some (q.modify id fun s => { s with alive := false, notified := none, asleep := none, unread := [] })
    else none
  | .dropMq => if q.publishing = [] then some { q with closed := true } else none

end InMemoryMq

end Ecat.Mq
