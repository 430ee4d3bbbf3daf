import Ecat.Base64
import Ecat.Follower
import Ecat.RegistryKeys
import Ecat.Runs
import Ecat.ShardCatalog

/-! The shard topology in a remote store. Consul is watched with blocking queries through a channel, etcd
is polled; both hand the last catalog that was in order to whoever holds the receiver. -/

namespace Ecat.Topology

open Json Shard

/-! ### Equal values -/

mutual

def same : Value → Value → Bool
  | .null, .null => true
  | .bool a, .bool b => a == b
  | .number m, .number n => m = n
  | .string s, .string t => s == t
  | .array xs, .array ys => sameItems xs ys
  | .object fs, .object gs => sameFields fs gs
  | _, _ => false

def sameItems : List Value → List Value → Bool
  | [], [] => true
  | x :: xs, y :: ys => same x y && sameItems xs ys
  | _, _ => false

def sameFields : List (String × Value) → List (String × Value) → Bool
  | [], [] => true
  | (k, x) :: fs, (l, y) :: gs => k == l && same x y && sameFields fs gs
  | _, _ => false

end

/-! ### What a snapshot says -/

/-- How JSON texts are read, and catalogs in JSON. -/
structure Reader where
  fromStr : String → Option Value
  fromValue : Value → Except String ShardCatalog

/-- Text that is no JSON is taken as a string. -/
def Reader.valueOf (R : Reader) (text : String) : Value := (R.fromStr text).getD (.string text)

def stripPrefix (keyPrefix key : String) : String :=
  if keyPrefix.toList.isPrefixOf key.toList then String.ofList (key.toList.drop keyPrefix.toList.length) else key

def trimMatches (c : Char) (text : List Char) : List Char :=
  ((text.dropWhile (· = c)).reverse.dropWhile (· = c)).reverse

/-- The key behind the prefix, with points for slashes. -/
def relativeKey (keyPrefix key : String) : String :=
  String.ofList ((trimMatches '/' (stripPrefix keyPrefix key).toList).map fun c => if c = '/' then '.' else c)

/-- A map as the list of what was inserted, the last first. -/
abbrev Map := List (String × Value)

def Map.get (m : Map) (key : String) : Option Value := (m.find? (·.1 = key)).map Prod.snd

def topologyKey : String := "topology"

def topologyValue (m : Map) : Except ShardError Value :=
  match m.get topologyKey with
  | some value => .ok value
  | none => .error (.config "missing `topology` key in remote config")

def parseCatalog (R : Reader) (value : Value) : Except ShardError ShardCatalog :=
  match R.fromValue value with
  | .error e => .error (.config s!"invalid shard topology JSON: {e}")
  | .ok catalog => do
    catalog.validate
    return catalog

/-! ### Consul -/

structure ConsulKvEntry where
  key : String
  value : Option String
  deriving DecidableEq, Repr

def decodeText (text : String) : Option String :=
  (Base64.decode text.toList).bind fun bytes => String.fromUTF8? ⟨⟨bytes⟩⟩

def ConsulKvEntry.decodedValue (e : ConsulKvEntry) : Option String := e.value.bind decodeText

variable (R : Reader) (keyPrefix : String)

def consulMap (entries : List ConsulKvEntry) : Map :=
  entries.foldl (fun m e => match e.decodedValue with
    | some text => (relativeKey keyPrefix e.key, R.valueOf text) :: m
    | none => m) []

/-- The answer to a query: the index and the entries, if the body can be read. -/
inductive ConsulReply
  | failed (e : String)
  | status (body : String)
  | answered (index : Option String) (entries : Except String (List ConsulKvEntry))

def ConsulReply.fetch (index : Option String) : ConsulReply → Except String (Map × Option String)
  | failed e => .error s!"consul kv: {e}"
  | status body => .error s!"consul kv failed: {body}"
  | answered newIndex entries =>
    if index.isSome ∧ newIndex.isNone then .error "consul kv: blocking query response missing X-Consul-Index"
    else match entries with
      | .error e => .error s!"consul parse: {e}"
      | .ok entries => .ok (consulMap R keyPrefix entries, newIndex)

abbrev Item := Except String Map

/-- What the topology task makes of an item. -/
def consulCatalog (item : Item) : Except ShardError ShardCatalog :=
  match item with
  | .error e => .error (.config s!"consul topology: {e}")
  | .ok m => do parseCatalog R (← topologyValue m)

def watchChannelCapacity : Nat := 8

/-- Consul with the two tasks of a watch: `index` and `pending` are the one that queries, with what it is
about to send and the index to go on from, `queue` the channel, `published` what the receiver sees.
`feeding` and `applying` say that the tasks run, `held` that there is a receiver. -/
structure ConsulWatch where
  history : List (List ConsulKvEntry)
  index : Option String
  pending : Option (Item × Option String)
  queue : List Item
  published : ShardCatalog
  feeding : Bool
  applying : Bool
  held : Bool

/-- How a query ends. One that is served may lack the index. -/
inductive Outcome
  | failed (e : String)
  | status (body : String)
  | garbled (header : Bool) (e : String)
  | served (header : Bool)

inductive ConsulAct
  | write (entries : List ConsulKvEntry)
  | fetch (outcome : Outcome)
  | send
  | apply
  | drop

variable (stamp : Nat → String)

/-- The server stamps its answers with the moment of the history it is at. -/
def ConsulWatch.reply (s : ConsulWatch) : Outcome → ConsulReply
  | .failed e => .failed e
  | .status body => .status body
  | .garbled header e => .answered (if header then some (stamp (s.history.length - 1)) else none) (.error e)
  | .served header =>
    .answered (if header then some (stamp (s.history.length - 1)) else none) (.ok (s.history.getLast?.getD []))

/-- A frame without an index is always pushed, one with the index of the last one is not. -/
def ConsulWatch.fetched (s : ConsulWatch) (outcome : Outcome) : ConsulWatch :=
  match (s.reply stamp outcome).fetch R keyPrefix s.index with
  | .ok (m, newIndex) =>
    if s.index ≠ newIndex ∨ s.index = none then { s with pending := some (.ok m, newIndex) }
    else { s with index := newIndex }
  | .error e => { s with pending := some (.error e, s.index) }

/-- A send waits for room, and ends the task if the channel is closed. -/
def ConsulWatch.send (s : ConsulWatch) : Option ConsulWatch :=
  match s.pending with
  | none => none
  | some (item, newIndex) =>
    if ¬ s.applying then some { s with pending := none, feeding := false }
    else if s.queue.length < watchChannelCapacity then
      some { s with pending := none, index := newIndex, queue := s.queue ++ [item] }
    else none

/-- The last known catalog is kept where an item has none, and the task ends without a receiver. -/
def ConsulWatch.apply (s : ConsulWatch) : Option ConsulWatch :=
  match s.queue with
  | [] => none
  | item :: queue =>
    if ¬ s.applying then none
    else match consulCatalog R item with
      | .error _ => some { s with queue }
      | .ok catalog =>
        if s.held then some { s with queue, published := catalog }
        else some { s with queue := [], applying := false }

def ConsulWatch.step (s : ConsulWatch) : ConsulAct → Option ConsulWatch
  | .write entries => some { s with history := s.history ++ [entries] }
  | .fetch outcome => if s.feeding ∧ s.pending = none then some (s.fetched R keyPrefix stamp outcome) else none
  | .send => if s.feeding then s.send else none
  | .apply => s.apply R
  | .drop => some { s with held := false }

/-- What a watch starts from: the topology has to be in order. -/
def consulStart (history : List (List ConsulKvEntry)) : Except ShardError ConsulWatch := do
  let catalog ← consulCatalog R (.ok (consulMap R keyPrefix (history.getLast?.getD [])))
  return ⟨history, none, none, [], catalog, true, true, true⟩

/-! ### etcd -/

structure EtcdKv where
  key : String
  value : String
  deriving DecidableEq, Repr

def etcdMap (kvs : List EtcdKv) : Map :=
  kvs.foldl (fun m kv => match decodeText kv.key, decodeText kv.value with
    | some key, some text => (relativeKey keyPrefix key, R.valueOf text) :: m
    | _, _ => m) []

/-- Bytes that cannot be raised are dropped, and no byte left means all keys. -/
def etcdPrefixEnd (bytes : List UInt8) : List UInt8 := (Hbase.prefixEnd bytes).getD [0]

/-- What the server has, by key. -/
abbrev Store := List (List UInt8 × List UInt8)

/-- The answer to a range: the keys in it, ascending. -/
def rangeOf (first stop : List UInt8) (store : Store) : List EtcdKv :=
  ((store.filter fun kv => Registry.InRange first stop kv.1).mergeSort fun x y => x.1 ≤ y.1).map fun kv =>
    ⟨Registry.b64Bytes kv.1, Registry.b64Bytes kv.2⟩

inductive EtcdReply
  | failed (e : String)
  | status (code body : String)
  | garbled (e : String)
  | answered (kvs : List EtcdKv)

def EtcdReply.fetchFrom (endpoint : String) : EtcdReply → Except String Map
  | failed e => .error s!"etcd kv {endpoint}: {e}"
  | status code body => .error s!"etcd kv {endpoint}: {code}: {body}"
  | garbled e => .error s!"etcd parse {endpoint}: {e}"
  | answered kvs => .ok (etcdMap R keyPrefix kvs)

/-- The first endpoint that answers is believed, and the last error stands if none does. -/
def fetchFirst : List (String × EtcdReply) → Option String → Except String Map
  | [], lastError => .error (lastError.getD "etcd kv: no endpoints")
  | (endpoint, reply) :: rest, _ =>
    match reply.fetchFrom R keyPrefix endpoint with
    | .ok m => .ok m
    | .error e => fetchFirst rest (some e)

def etcdFetch (replies : List (String × EtcdReply)) : Except String Map :=
  if replies = [] then .error "etcd kv: no endpoints configured" else fetchFirst R keyPrefix replies none

/-- etcd with the polling task of a watch, which ends when a catalog finds no receiver. -/
structure EtcdWatch where
  history : List Store
  last : Value
  published : ShardCatalog
  polling : Bool
  held : Bool

inductive EtcdOutcome
  | failed (e : String)
  | status (code body : String)
  | garbled (e : String)
  | served
  deriving DecidableEq, Repr

inductive EtcdAct
  | write (store : Store)
  | poll (outcomes : List (String × EtcdOutcome))
  | drop

def EtcdWatch.reply (s : EtcdWatch) : EtcdOutcome → EtcdReply
  | .failed e => .failed e
  | .status code body => .status code body
  | .garbled e => .garbled e
  | .served => .answered (rangeOf (Registry.utf8 keyPrefix) (etcdPrefixEnd (Registry.utf8 keyPrefix))
      (s.history.getLast?.getD []))

def EtcdWatch.poll (s : EtcdWatch) (outcomes : List (String × EtcdOutcome)) : EtcdWatch :=
  match etcdFetch R keyPrefix (outcomes.map fun o => (o.1, s.reply keyPrefix o.2)) with
  | .error _ => s
  | .ok m =>
    match topologyValue m with
    | .error _ => s
    | .ok value =>
      if same value s.last then s
      else match parseCatalog R value with
        | .error _ => s
        | .ok catalog =>
          if s.held then { s with last := value, published := catalog }
          else { s with last := value, polling := false }

def EtcdWatch.step (s : EtcdWatch) : EtcdAct → Option EtcdWatch
  | .write store => some { s with history := s.history ++ [store] }
  | .poll outcomes => if s.polling then some (s.poll R keyPrefix outcomes) else none
  | .drop => some { s with held := false }

def etcdStart (history : List Store) : Except ShardError EtcdWatch := do
  let value ← topologyValue (etcdMap R keyPrefix (rangeOf (Registry.utf8 keyPrefix)
    (etcdPrefixEnd (Registry.utf8 keyPrefix)) (history.getLast?.getD [])))
  let catalog ← parseCatalog R value
  return ⟨history, value, catalog, true, true⟩

end Ecat.Topology
