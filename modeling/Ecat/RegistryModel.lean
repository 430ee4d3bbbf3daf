import Ecat.Base64
import Ecat.CallTree
import Ecat.Digits
import Ecat.HbaseScan
import Ecat.Utf8Lossy

/-! Services in etcd: each instance is a key below its service, held by a lease that a task keeps
alive. Any number of registries share the server, and their calls interleave at its requests. -/

namespace Ecat.Registry

open Json CallTree

/-! ### Texts and keys -/

abbrev Bytes := List UInt8

def utf8 (s : String) : Bytes := s.toUTF8.data.toList

def b64Bytes (bytes : Bytes) : String := String.ofList (Base64.encode bytes)

def b64 (s : String) : String := b64Bytes (utf8 s)

def decodeB64Str (text : String) : Option String :=
  (Base64.decode text.toList).bind fun bytes => String.fromUTF8? ⟨⟨bytes⟩⟩

/-- The bytes are made a text again; where none can be raised they are taken as they are. -/
def prefixEnd (text : String) : String :=
  Graphql.fromUtf8Lossy ((Hbase.prefixEnd (utf8 text)).getD (utf8 text))

def readInt : List Char → Option Int
  | '-' :: digits => (readDigits digits).map fun n => -Int.ofNat n
  | '+' :: digits => (readDigits digits).map Int.ofNat
  | digits => (readDigits digits).map Int.ofNat

abbrev I64 := {n : Int // InI64 n}

/-- `str::parse::<i64>`. -/
def parseI64 (text : String) : Option I64 :=
  (readInt text.toList).bind fun n => if h : InI64 n then some ⟨n, h⟩ else none

/-! ### Services -/

/-- The metadata is listed in one order, so that equal maps are equal lists. -/
structure ServiceInfo where
  name : String
  version : String
  endpoints : List String
  metadata : List (String × String)
  deriving DecidableEq, Repr

inductive RegistryError
  | notFound (id : String)
  | other (text : String)
  deriving DecidableEq, Repr

/-- A registration without the handle by which it deregisters itself when it is dropped. -/
structure Registration where
  id : String
  service : ServiceInfo
  deriving DecidableEq, Repr

/-- How a service is written as JSON and read. -/
structure Codec where
  toText : ServiceInfo → Except String String
  fromText : String → Option ServiceInfo

def Codec.ReadsBack (C : Codec) : Prop := ∀ s text, C.toText s = .ok text → C.fromText text = some s

variable (C : Codec)

/-- An instance of a service as it is put, with the text of the service. -/
structure Instance where
  keyPrefix : String
  service : ServiceInfo
  uuid : String
  lease : I64
  text : String
  written : C.toText service = .ok text

variable {C}

/-- The id of the service and the instance behind it. -/
def Instance.path (i : Instance C) : String := i.keyPrefix ++ "/" ++ i.service.name ++ "/" ++ i.uuid

def root : String := "/ecat/services/"

def Instance.key (i : Instance C) : String := root ++ i.path

/-! ### The server -/

structure KeyValue where
  key : Bytes
  value : Bytes
  lease : I64
  deriving DecidableEq, Repr

structure Etcd where
  kvs : List KeyValue
  leases : List I64
  deriving DecidableEq, Repr

/-- The requests of the JSON gateway, bytes and integers as texts. -/
inductive Request
  | grant (ttl : String)
  | put (key value lease : String)
  | deleteRange (key rangeEnd : String)
  | range (key rangeEnd : String)
  deriving DecidableEq, Repr

/-- No end is the key alone, and a zero byte is all keys from there on. -/
def InRange (key rangeEnd k : Bytes) : Prop :=
  if rangeEnd = [] then k = key else if rangeEnd = [0] then key ≤ k else key ≤ k ∧ k < rangeEnd

instance (key rangeEnd k : Bytes) : Decidable (InRange key rangeEnd k) := by
  unfold InRange
  infer_instance

def errorBody (message : String) : Value := .object [("error", .string message), ("message", .string message)]

def kvBody (kv : KeyValue) : Value :=
  .object [("key", .string (b64Bytes kv.key)), ("value", .string (b64Bytes kv.value)),
    ("lease", .string (toString kv.lease.val))]

/-- An empty list of keys is left out of the body. -/
def rangeBody (kvs : List KeyValue) : Value :=
  .object (if kvs = [] then [] else [("kvs", .array (kvs.map kvBody))])

def Etcd.put (e : Etcd) (kv : KeyValue) : Etcd := { e with kvs := kv :: e.kvs.filter fun x => x.key ≠ kv.key }

def Etcd.expire (e : Etcd) (lease : I64) : Etcd :=
  ⟨e.kvs.filter fun x => x.lease ≠ lease, e.leases.filter fun l => l ≠ lease⟩

def Etcd.ascending (e : Etcd) (key rangeEnd : Bytes) : List KeyValue :=
  (e.kvs.filter fun x => InRange key rangeEnd x.key).mergeSort fun x y => x.key ≤ y.key

/-- What the server answers and becomes. A lease that it grants is `lease`. -/
def Etcd.serve (e : Etcd) (lease : I64) : Request → Value × Etcd
  | .grant ttl => (.object [("ID", .string (toString lease.val)), ("TTL", .string ttl)], { e with leases := lease :: e.leases })
  | .put key value holder =>
    match Base64.decode key.toList, Base64.decode value.toList, parseI64 holder with
    | some key, some value, some holder =>
      if holder ∈ e.leases then (.object [], e.put ⟨key, value, holder⟩)
      else (errorBody "etcdserver: requested lease not found", e)
    | _, _, _ => (errorBody "illegal base64 data", e)
  | .deleteRange key rangeEnd =>
    match Base64.decode key.toList, Base64.decode rangeEnd.toList with
    | some key, some rangeEnd => (.object [], { e with kvs := e.kvs.filter fun x => ¬ InRange key rangeEnd x.key })
    | _, _ => (errorBody "illegal base64 data", e)
  | .range key rangeEnd =>
    match Base64.decode key.toList, Base64.decode rangeEnd.toList with
    | some key, some rangeEnd => (rangeBody (e.ascending key rangeEnd), e)
    | _, _ => (errorBody "illegal base64 data", e)

/-! ### Calls -/

variable (C) in
inductive Query
  | grantLease (ttl : Nat)
  | put (i : Instance C)
  | deleteRange (id : String)
  | range (path : String)

variable (C) in
inductive Op
  | ask (q : Query C)
  | spawnKeepalive (id : String) (lease : I64)
  | abortKeepalive (id : String)

/-- Sending a request failed, or the body of the answer is no JSON. -/
inductive Fault
  | send (e : String)
  | parse (e : String)

def Res : Op C → Type
  | .ask _ => Except Fault Value
  | .spawnKeepalive .. => Unit
  | .abortKeepalive _ => Unit

/-- All keys below a path, as the two calls ask for them. -/
def below (path : String) : String := root ++ path ++ "/"

def Query.request : Query C → Request
  | .grantLease ttl => .grant (toString ttl)
  | .put i => .put (b64 i.key) (b64 i.text) (toString i.lease.val)
  | .deleteRange id => .deleteRange (b64 (below id)) (b64 (prefixEnd (below id)))
  | .range path => .range (b64 (below path)) (b64 (prefixEnd (below path)))

def ask (q : Query C) : CallTree (Op C) Res (Except Fault Value) := perform (Op.ask q)

def spawnKeepalive (id : String) (lease : I64) : CallTree (Op C) Res Unit := perform (Op.spawnKeepalive id lease)

def abortKeepalive (id : String) : CallTree (Op C) Res Unit := perform (Op.abortKeepalive id)

def createLease (ttl : Nat) : CallTree (Op C) Res (Except String I64) := do
  match ← ask (.grantLease ttl) with
  | .error (.send e) => return .error s!"etcd lease: {e}"
  | .error (.parse e) => return .error s!"etcd parse: {e}"
  | .ok body =>
    match ((body.get "ID").bind Value.asStr).bind parseI64 with
    | some lease => return .ok lease
    | none => return .error "no lease ID"

/-- The status of the answer to a put is not read. -/
def register (keyPrefix : String) (ttl : Nat) (service : ServiceInfo) (uuid : String) :
    CallTree (Op C) Res (Except RegistryError Registration) := do
  match ← createLease ttl with
  | .error e => return .error (.other e)
  | .ok lease =>
    match h : C.toText service with
    | .error e => return .error (.other s!"serialize: {e}")
    | .ok text =>
      match ← ask (.put ⟨keyPrefix, service, uuid, lease, text, h⟩) with
      | .error (.send e) => return .error (.other s!"etcd put: {e}")
      | _ => do
        spawnKeepalive (keyPrefix ++ "/" ++ service.name) lease
        return .ok ⟨keyPrefix ++ "/" ++ service.name, service⟩

def deregister (id : String) : CallTree (Op C) Res (Except RegistryError Unit) := do
  abortKeepalive id
  match ← ask (.deleteRange id) with
  | .error (.send e) => return .error (.other s!"etcd del: {e}")
  | _ => return .ok ()

variable (C) in
def readService (kv : Value) : Option ServiceInfo :=
  (((kv.get "value").bind Value.asStr).bind decodeB64Str).bind C.fromText

variable (C) in
def readServices (result : Value) : List ServiceInfo :=
  match (result.get "kvs").bind Value.asArray with
  | none => []
  | some kvs => kvs.filterMap (readService C)

def discover (keyPrefix name : String) : CallTree (Op C) Res (Except RegistryError (List ServiceInfo)) := do
  match ← ask (.range (keyPrefix ++ "/" ++ name)) with
  | .error (.send e) => return .error (.other s!"etcd range: {e}")
  | .error (.parse e) => return .error (.other s!"etcd parse: {e}")
  | .ok result => return .ok (readServices C result)

def sortDedup (names : List String) : List String := (names.mergeSort fun a b => a ≤ b).destutter (· ≠ ·)

def listServices (keyPrefix : String) : CallTree (Op C) Res (Except RegistryError (List String)) := do
  return (← discover keyPrefix "").map fun services => sortDedup (services.map ServiceInfo.name)

/-! ### Registries over one server -/

/-- What happened at the server. -/
inductive Event (C : Codec)
  | granted (lease : I64)
  | put (i : Instance C)
  | removed (id : String)
  | expired (lease : I64)

/-- `keepalives` has the lease of the task that an id was given last; `running` has those of all tasks. -/
structure World (C : Codec) (P : Type) where
  etcd : Etcd
  keepalives : P → String → Option I64
  running : P → List I64
  log : List (Event C)

/-- How a request fares. One that is refused is answered with an error, of which the status is not read. -/
inductive Fate
  | served
  | refused (message : String)
  | lost (applied : Bool) (e : String)
  | garbled (applied : Bool) (e : String)

structure Choice where
  fate : Fate
  lease : I64

variable {P T : Type} [DecidableEq P]

def Query.event (q : Query C) (c : Choice) (w : World C P) : List (Event C) :=
  match q with
  | .grantLease _ => [.granted c.lease]
  | .put i => if i.lease ∈ w.etcd.leases then [.put i] else []
  | .deleteRange id => [.removed id]
  | .range _ => []

/-- The request reaches the server. -/
def World.apply (w : World C P) (q : Query C) (c : Choice) : World C P :=
  { w with etcd := (w.etcd.serve c.lease q.request).2, log := w.log ++ q.event c w }

def World.send (w : World C P) (q : Query C) (c : Choice) : Except Fault Value × World C P :=
  match c.fate with
  | .served => (.ok (w.etcd.serve c.lease q.request).1, w.apply q c)
  | .refused message => (.ok (errorBody message), w)
  | .lost applied e => (.error (.send e), if applied then w.apply q c else w)
  | .garbled applied e => (.error (.parse e), if applied then w.apply q c else w)

/-- A task that is overwritten is not stopped. -/
def World.spawn (w : World C P) (p : P) (id : String) (lease : I64) : World C P :=
  { w with
    keepalives := Function.update w.keepalives p (Function.update (w.keepalives p) id (some lease))
    running := Function.update w.running p (lease :: w.running p) }

def World.abort (w : World C P) (p : P) (id : String) : World C P :=
  match w.keepalives p id with
  | none => w
  | some lease => { w with
      keepalives := Function.update w.keepalives p (Function.update (w.keepalives p) id none)
      running := Function.update w.running p ((w.running p).erase lease) }

def exec (p : P) : (o : Op C) → Choice → World C P → Res o × World C P
  | .ask q, c, w => w.send q c
  | .spawnKeepalive id lease, _, w => ((), w.spawn p id lease)
  | .abortKeepalive id, _, w => ((), w.abort p id)

/-- A uuid that a registration draws is part of its command. -/
inductive Cmd
  | register (service : ServiceInfo) (uuid : String)
  | deregister (id : String)
  | discover (name : String)
  | listServices

inductive Answer
  | registered (r : Except RegistryError Registration)
  | deregistered (r : Except RegistryError Unit)
  | discovered (r : Except RegistryError (List ServiceInfo))
  | listed (r : Except RegistryError (List String))

structure Settings where
  keyPrefix : String
  leaseTtl : Nat

def prog (settings : Settings) : Cmd → CallTree (Op C) Res Answer
  | .register service uuid => .registered <$> register settings.keyPrefix settings.leaseTtl service uuid
  | .deregister id => .deregistered <$> deregister id
  | .discover name => .discovered <$> discover settings.keyPrefix name
  | .listServices => .listed <$> listServices settings.keyPrefix

/-- A lease that a call is about to put a key with, or to keep alive. -/
def Op.holds (lease : I64) : Op C → Bool
  | .ask (.put i) => i.lease = lease
  | .spawnKeepalive _ l => l = lease
  | _ => false

/-- No task keeps the lease alive and no call is on the way to start one. -/
def World.idle (w : World C P) (next : T → Option (Op C)) (lease : I64) : Prop :=
  (∀ p, lease ∉ w.running p) ∧ ∀ t o, next t = some o → o.holds lease = false

/-- What happens without a call: a lease expires that `may`, or the process of a registry ends. -/
inductive Env (may : World C P → (T → Option (Op C)) → I64 → Prop) (next : T → Option (Op C)) (w : World C P) :
    World C P → Prop
  | expires (lease : I64) (held : lease ∈ w.etcd.leases) (ok : may w next lease) :
      Env may next w { w with etcd := w.etcd.expire lease, log := w.log ++ [.expired lease] }
  | ends (p : P) : Env may next w
      { w with keepalives := Function.update w.keepalives p fun _ => none, running := Function.update w.running p [] }

/-- The calls of all registries. Thread `t` is a call of the registry `proc t`. -/
def host (proc : T → P) (settings : P → Settings) (may : World C P → (T → Option (Op C)) → I64 → Prop) :
    Host T (Op C) Res Answer (World C P) Choice Cmd where
  exec t := exec (proc t)
  prog t := prog (settings (proc t))
  admits _ _ _ := True
  crash w := { w with keepalives := fun _ _ => none, running := fun _ => [] }
  env := Env may

/-- The server grants no lease twice. -/
def Fresh : Op C → Choice → World C P → Prop
  | .ask (.grantLease _), c, w => .granted c.lease ∉ w.log
  | _, _, _ => True

def start : World C P := ⟨⟨[], []⟩, fun _ _ => none, fun _ => [], []⟩

end Ecat.Registry
