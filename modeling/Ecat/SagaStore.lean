import Ecat.Json
import Ecat.OutboxModel
import Ecat.SagaHost
import Ecat.Upserts
import Ecat.Views

/-! The two stores of saga states, which all sagas share: maps in memory, and two SQL tables whose
rows are found by their keys as the database compares keys. What either reads back for a saga is what
that saga alone would have stored. -/

namespace Ecat.Saga

open Json
open Outbox (Dialect)

variable {D W ι : Type}

def SagaStatus.asStr : SagaStatus → String
  | running => "running"
  | compensating => "compensating"
  | completed => "completed"
  | compensated => "compensated"
  | failed => "failed"

def SagaStatus.parse (text : String) : Except SagaError SagaStatus :=
  if text = "running" then .ok running
  else if text = "compensating" then .ok compensating
  else if text = "completed" then .ok completed
  else if text = "compensated" then .ok compensated
  else if text = "failed" then .ok failed
  else .error (.state s!"unknown saga status `{text}`")

def StepStatus.asStr : StepStatus → String
  | pending => "pending"
  | done => "done"
  | compensated => "compensated"
  | failed => "failed"

def StepStatus.parse (text : String) : Except SagaError StepStatus :=
  if text = "pending" then .ok pending
  else if text = "done" then .ok done
  else if text = "compensated" then .ok compensated
  else if text = "failed" then .ok failed
  else .error (.state s!"unknown step status `{text}`")

@[simp] theorem SagaStatus.parse_asStr (status : SagaStatus) : parse status.asStr = .ok status := by
  cases status <;> decide +kernel

@[simp] theorem StepStatus.parse_asStr (status : StepStatus) : parse status.asStr = .ok status := by
  cases status <;> decide +kernel

/-! ### Stores -/

/-- The trait `SagaStateStore`, over what the store keeps. -/
structure SagaStateStore (D W : Type) where
  load : String → W → Except SagaError (Option (SagaState D))
  save : SagaState D → W → Except SagaError W
  stepStatus : String → String → W → Except SagaError StepStatus
  setStep : String → String → StepStatus → W → Except SagaError W

/-- `Inner` of the memory store. -/
structure Inner (D : Type) where
  states : String → Option (SagaState D)
  steps : String × String → Option StepStatus

def memorySagaStateStore (D : Type) : SagaStateStore D (Inner D) where
  load sagaId w := .ok (w.states sagaId)
  save state w := .ok { w with states := Function.update w.states state.sagaId (some state) }
  stepStatus sagaId step w := .ok ((w.steps (sagaId, step)).getD .pending)
  setStep sagaId step status w := .ok { w with steps := Function.update w.steps (sagaId, step) (some status) }

/-! ### The tables -/

structure InstanceRow where
  sagaId : String
  status : String
  currentStep : Int
  bound : InI64 currentStep
  context : String
  deriving Repr

structure StepRow where
  sagaId : String
  stepName : String
  status : String
  deriving DecidableEq, Repr

structure Tables where
  instances : List InstanceRow
  steps : List StepRow
  deriving Repr

def InstanceRow.toRow (r : InstanceRow) : Row :=
  ⟨["saga_id", "status", "current_step", "context"],
    [.string r.sagaId, .string r.status, .ofI64 r.currentStep r.bound, .string r.context]⟩

def StepRow.toRow (r : StepRow) : Row := ⟨["status"], [.string r.status]⟩

def text (row : Row) (column : String) : Except SagaError String :=
  match (row.get column).bind Value.asStr with
  | some text => .ok text
  | none => .error (.state s!"saga row missing text column `{column}`")

def int (row : Row) (column : String) : Except SagaError Int :=
  match (row.get column).bind Value.asI64 with
  | some n => .ok n
  | none => .error (.state s!"saga row missing integer column `{column}`")

/-- The JSON text of a context, and a text read back as one. -/
structure Codec (D : Type) where
  encode : SagaContext D → Except String String
  decode : String → Except String (SagaContext D)

/-- `same` says which texts the database takes for one key. -/
structure SqlSagaStateStore (D : Type) where
  dialect : Dialect
  same : String → String → Bool
  codec : Codec D

namespace SqlSagaStateStore

variable (S : SqlSagaStateStore D)

def supported : Except SagaError Unit :=
  match S.dialect with
  | .mssql => .error (.state "MSSQL saga store is unsupported")
  | _ => .ok ()

def fromRow (row : Row) : Except SagaError (SagaState D) := do
  let currentStep ← int row "current_step"
  if currentStep < 0 then throw (.state "saga current_step out of range")
  let context ← text row "context"
  let sagaId ← text row "saga_id"
  let status ← SagaStatus.parse (← text row "status")
  match S.codec.decode context with
  | .error e => .error (.state s!"saga context is invalid JSON: {e}")
  | .ok context => .ok ⟨sagaId, status, currentStep.toNat, context⟩

def sameSaga (sagaId : String) (r : InstanceRow) : Bool := S.same sagaId r.sagaId

def sameStep (sagaId step : String) (r : StepRow) : Bool := S.same sagaId r.sagaId && S.same step r.stepName

def load (sagaId : String) (t : Tables) : Except SagaError (Option (SagaState D)) := do
  S.supported
  match (t.instances.filter (S.sameSaga sagaId)).map InstanceRow.toRow with
  | [] => return none
  | row :: _ => return some (← S.fromRow row)

/-- `ON CONFLICT(saga_id) DO UPDATE` leaves the key of the row as it is. -/
def save (state : SagaState D) (t : Tables) : Except SagaError Tables := do
  S.supported
  if h : InI64 state.currentStep then
    match S.codec.encode state.context with
    | .error e => .error (.state s!"failed to encode saga context: {e}")
    | .ok context =>
      let row (sagaId : String) : InstanceRow := ⟨sagaId, state.status.asStr, state.currentStep, h, context⟩
      return { t with
        instances := upsertRows (S.sameSaga state.sagaId) (row ·.sagaId) (row state.sagaId) t.instances }
  else .error (.state "saga current_step out of range")

def stepStatus (sagaId step : String) (t : Tables) : Except SagaError StepStatus := do
  S.supported
  match (t.steps.filter (S.sameStep sagaId step)).map StepRow.toRow with
  | [] => return .pending
  | row :: _ => StepStatus.parse (← text row "status")

def setStep (sagaId step : String) (status : StepStatus) (t : Tables) : Except SagaError Tables := do
  S.supported
  let row (r : StepRow) : StepRow := { r with status := status.asStr }
  return { t with steps := upsertRows (S.sameStep sagaId step) row ⟨sagaId, step, status.asStr⟩ t.steps }

def store : SagaStateStore D Tables where
  load := S.load
  save := S.save
  stepStatus := S.stepStatus
  setStep := S.setStep

end SqlSagaStateStore

/-! ### Sagas over a store -/

/-- The sagas that share a store, with their ids and steps. -/
structure Sagas (ι : Type) where
  sagaId : ι → String
  steps : ι → List Name

/-- `log` is a history that no program reads. -/
structure Shared (ι D W : Type) where
  stored : W
  log : ι → List (Event D)

variable [DecidableEq ι]

def Shared.push (w : Shared ι D W) (i : ι) (e : Event D) : Shared ι D W :=
  { w with log := Function.update w.log i (w.log i ++ [e]) }

def served {α : Type} (c : Reply D) (answer : Except SagaError α) (w w' : Shared ι D W) :
    Except SagaError α × Shared ι D W :=
  match c with
  | .lost applied e => (.error e, if applied then w' else w)
  | _ => (answer, w')

def Shared.write (w : Shared ι D W) (i : ι) (e : Event D) (c : Reply D) (written : Except SagaError W) :
    Except SagaError Unit × Shared ι D W :=
  match written with
  | .error error => served c (.error error) w w
  | .ok stored => served c (.ok ()) w (Shared.push { w with stored } i e)

/-- The calls of saga `i`. Those of the store carry the id it was started with. -/
def SagaStateStore.exec (S : SagaStateStore D W) (sagas : Sagas ι) (i : ι) :
    (o : Op D) → Reply D → Shared ι D W → Res o × Shared ι D W
  | .load, c, w => served c (S.load (sagas.sagaId i) w.stored) w w
  | .save state, c, w => w.write i (.saved state) c (S.save state w.stored)
  | .stepStatus step, c, w => served c (S.stepStatus (sagas.sagaId i) step w.stored) w w
  | .setStep step status, c, w =>
    w.write i (.recorded step status) c (S.setStep (sagas.sagaId i) step status w.stored)
  | .execute step ctx, c, w => (c.outcome ctx, w.push i (.executed step ctx (c.outcome ctx).1.isOk))
  | .compensate step ctx, c, w => (c.outcome ctx, w.push i (.compensated step ctx (c.outcome ctx).1.isOk))

/-- All sagas over one store, each run and resumed any number of times, their calls interleaved. -/
def SagaStateStore.host (S : SagaStateStore D W) (sagas : Sagas ι) :
    Host ι (Op D) Res (Except SagaError Unit) (Shared ι D W) (Reply D) (Cmd D) where
  exec := S.exec sagas
  prog i := prog (sagas.steps i) (sagas.sagaId i)
  admits _ _ _ := True
  crash := id
  env _ _ _ := False

end Ecat.Saga
