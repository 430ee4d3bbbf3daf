import Ecat.Runs
import Mathlib.Data.List.Basic

/-! The event bus in remote mode, for one event type: `subscribe` calls that register a handler and
share one consumer task through the placeholder map, the consumer tasks, and publishes. Handlers
are named by their calls, tasks and messages by their order. -/

namespace Ecat.Events

abbrev CallId := Nat

abbrev TaskId := Nat

abbrev Message := Nat

/-- Where a `subscribe` call is. The number noted at the start of `mq.subscribe` and at the return
is the next message to be published then. -/
inductive Pc
  | registering
  | registered
  | subscribing (since : Message)
  | connected (inbox : List Message)
  | failing
  | spawned (task : TaskId)
  | returned (since : Message)
  | cancelled
  deriving DecidableEq, Repr

/-- A consumer task with its stream: the message it has taken and is about to dispatch, and those
that wait in the stream. -/
structure Task where
  running : Bool
  hand : Option Message
  inbox : List Message
  deriving DecidableEq, Repr

/-- The entry is that of the event type in `consumers`: absent, a placeholder, or a handle. -/
structure Bus where
  handlers : List CallId
  entry : Option (Option TaskId)
  calls : List Pc
  tasks : List Task
  published : Message
  dispatched : List (Message × CallId)
  deriving DecidableEq, Repr

inductive Act
  | subscribe
  | register (call : CallId)
  | check (call : CallId)
  | mqOk (call : CallId) (backlog : List Message)
  | mqErr (call : CallId)
  | spawn (call : CallId)
  | bind (call : CallId)
  | rollback (call : CallId)
  | cancel (call : CallId)
  | publish
  | receive (task : TaskId)
  | receiveErr (task : TaskId)
  | dispatch (task : TaskId)
  | endStream (task : TaskId)
  | panic (task : TaskId) (spawned : Nat)
  deriving DecidableEq, Repr

def remote : Bus := ⟨[], none, [], [], 0, []⟩

def Pc.deliver (m : Message) : Pc → Pc
  | .connected inbox => .connected (inbox ++ [m])
  | pc => pc

def Task.deliver (m : Message) (t : Task) : Task :=
  if t.running then { t with inbox := t.inbox ++ [m] } else t

def Task.stopped (t : Task) : Task := { t with running := false, hand := none, inbox := [] }

namespace Bus

def goto (s : Bus) (c : CallId) (pc : Pc) : Bus := { s with calls := s.calls.set c pc }

def finished (s : Bus) (t : TaskId) : Bool := !((s.tasks[t]?.map Task.running).getD false)

/-- The block under the lock of `consumers`: an entry that is not a finished task ends the call. -/
def check (s : Bus) (c : CallId) : Bus :=
  match s.entry with
  | some none => s.goto c (.returned s.published)
  | some (some t) =>
    if s.finished t then { s.goto c (.subscribing s.published) with entry := some none }
    else s.goto c (.returned s.published)
  | none => { s.goto c (.subscribing s.published) with entry := some none }

/-- Messages published while `mq.subscribe` was under way may be in the stream already. -/
def backlogOk (s : Bus) (since : Message) (backlog : List Message) : Bool :=
  backlog.Nodup ∧ ∀ m ∈ backlog, since ≤ m ∧ m < s.published

def publish (s : Bus) : Bus :=
  { s with
    calls := s.calls.map (Pc.deliver s.published)
    tasks := s.tasks.map (Task.deliver s.published)
    published := s.published + 1 }

def setTask (s : Bus) (t : TaskId) (task : Task) : Bus := { s with tasks := s.tasks.set t task }

def spread (s : Bus) (m : Message) (hs : List CallId) : Bus :=
  { s with dispatched := s.dispatched ++ hs.map fun h => (m, h) }

def callStep (s : Bus) (c : CallId) : Act → Option Pc → Option Bus
  | .register _, some .registering => some { s.goto c .registered with handlers := s.handlers ++ [c] }
  | .check _, some .registered => some (s.check c)
  | .mqOk _ backlog, some (.subscribing since) =>
    if s.backlogOk since backlog then some (s.goto c (.connected backlog)) else none
  | .mqErr _, some (.subscribing _) => some (s.goto c .failing)
  | .spawn _, some (.connected inbox) =>
    some { s.goto c (.spawned s.tasks.length) with tasks := s.tasks ++ [⟨true, none, inbox⟩] }
  | .bind _, some (.spawned t) => some { s.goto c (.returned s.published) with entry := some (some t) }
  | .rollback _, some .failing => some { s.goto c (.returned s.published) with entry := none }
  | .cancel _, some .registering => some (s.goto c .cancelled)
  | .cancel _, some (.subscribing _) => some (s.goto c .cancelled)
  | _, _ => none

/-- A step of a consumer task: its loop, the end of its stream, or a panic of one of the handlers
after some of them were spawned. -/
def taskStep (s : Bus) (t : TaskId) : Act → Option Task → Option Bus
  | .receive _, some ⟨true, none, m :: inbox⟩ => some (s.setTask t ⟨true, some m, inbox⟩)
  | .receiveErr _, some ⟨true, none, _⟩ => some s
  | .dispatch _, some ⟨true, some m, inbox⟩ => some ((s.setTask t ⟨true, none, inbox⟩).spread m s.handlers)
  | .endStream _, some ⟨true, none, inbox⟩ => some (s.setTask t (Task.stopped ⟨true, none, inbox⟩))
  | .panic _ n, some ⟨true, some m, inbox⟩ =>
    some ((s.setTask t (Task.stopped ⟨true, some m, inbox⟩)).spread m (s.handlers.take n))
  | .panic _ _, some ⟨true, none, inbox⟩ => some (s.setTask t (Task.stopped ⟨true, none, inbox⟩))
  | _, _ => none

def step (s : Bus) (a : Act) : Option Bus :=
  match a with
  | .subscribe => some { s with calls := s.calls ++ [.registering] }
  | .publish => some s.publish
  | .register c | .check c | .mqOk c _ | .mqErr c | .spawn c | .bind c | .rollback c | .cancel c =>
    s.callStep c a s.calls[c]?
  | .receive t | .receiveErr t | .dispatch t | .endStream t | .panic t _ => s.taskStep t a s.tasks[t]?

end Bus

end Ecat.Events
