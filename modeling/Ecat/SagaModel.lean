import Ecat.Safety
import Ecat.Trace

/-! Sagas: the persisted state of one saga and of its steps, and `run`, `resume`,
`forward` and `compensate` as programs over them. Between a save and the next load a
context may be kept as text: `reread` is what it is when it comes back, itself in memory. -/

namespace Ecat.Saga

abbrev Name := String

inductive SagaStatus
  | running | compensating | completed | compensated | failed
  deriving DecidableEq, Repr

inductive StepStatus
  | pending | done | compensated | failed
  deriving DecidableEq, Repr

def SagaStatus.text : SagaStatus → String
  | running => "Running"
  | compensating => "Compensating"
  | completed => "Completed"
  | compensated => "Compensated"
  | failed => "Failed"

inductive SagaError
  | stepFailed (step message : String)
  | compensationFailed (step message : String)
  | notFound (sagaId : String)
  | invalidState (sagaId : String) (status : SagaStatus)
  | state (text : String)
  | context (text : String)
  deriving DecidableEq, Repr

def SagaError.text : SagaError → String
  | stepFailed step message => s!"saga step `{step}` failed: {message}"
  | compensationFailed step message => s!"saga compensation `{step}` failed: {message}"
  | notFound sagaId => s!"saga `{sagaId}` not found"
  | invalidState sagaId status => s!"saga `{sagaId}` is {status.text}; manual intervention required"
  | state text => s!"saga state: {text}"
  | context text => s!"saga context: {text}"

structure SagaContext (D : Type) where
  sagaId : String
  idempotencyKey : String
  data : D
  deriving DecidableEq, Repr

structure SagaState (D : Type) where
  sagaId : String
  status : SagaStatus
  currentStep : Nat
  context : SagaContext D
  deriving DecidableEq, Repr

/-- What `load` gives of the state that was saved. -/
def SagaState.reread {D : Type} (state : SagaState D) (reread : SagaContext D → SagaContext D) : SagaState D :=
  { state with context := reread state.context }

/-- What happened to the saga, in order: calls of steps and writes of the store. -/
inductive Event (D : Type)
  | executed (step : Name) (ctx : SagaContext D) (ok : Bool)
  | compensated (step : Name) (ctx : SagaContext D) (ok : Bool)
  | recorded (step : Name) (status : StepStatus)
  | saved (state : SagaState D)
  deriving DecidableEq, Repr

/-- `log` is a history that no program reads. -/
structure World (D : Type) where
  state : Option (SagaState D)
  step : Name → StepStatus
  log : List (Event D)

inductive Op (D : Type)
  | load
  | save (state : SagaState D)
  | stepStatus (step : Name)
  | setStep (step : Name) (status : StepStatus)
  | execute (step : Name) (ctx : SagaContext D)
  | compensate (step : Name) (ctx : SagaContext D)

/-- A step returns a result and leaves the context it was given changed. -/
abbrev Outcome (D : Type) := Except SagaError Unit × SagaContext D

abbrev Res {D : Type} : Op D → Type
  | .load => Except SagaError (Option (SagaState D))
  | .save _ | .setStep .. => Except SagaError Unit
  | .stepStatus _ => Except SagaError StepStatus
  | .execute .. | .compensate .. => Outcome D

/-- What the surroundings choose at a call: how a step ends, or whether a call of
the store is lost, before or after its effect. -/
inductive Reply (D : Type)
  | ok
  | lost (applied : Bool) (e : SagaError)
  | step (outcome : Outcome D)

variable {D : Type}

def Reply.outcome (ctx : SagaContext D) : Reply D → Outcome D
  | .step outcome => outcome
  | _ => (.ok (), ctx)

def World.push (w : World D) (e : Event D) : World D := { w with log := w.log ++ [e] }

def World.save (w : World D) (state : SagaState D) : World D :=
  { w.push (.saved state) with state := some state }

def World.setStep (w : World D) (step : Name) (status : StepStatus) : World D :=
  { w.push (.recorded step status) with step := fun s => if s = step then status else w.step s }

def attempt {α : Type} (c : Reply D) (answer : α) (w w' : World D) : Except SagaError α × World D :=
  match c with
  | .lost applied e => (.error e, if applied then w' else w)
  | _ => (.ok answer, w')

def exec (reread : SagaContext D → SagaContext D) : (o : Op D) → Reply D → World D → Res o × World D
  | .load, c, w => attempt c (w.state.map (·.reread reread)) w w
  | .save state, c, w => attempt c () w (w.save state)
  | .stepStatus step, c, w => attempt c (w.step step) w w
  | .setStep step status, c, w => attempt c () w (w.setStep step status)
  | .execute step ctx, c, w =>
    (c.outcome ctx, w.push (.executed step ctx (c.outcome ctx).1.isOk))
  | .compensate step ctx, c, w =>
    (c.outcome ctx, w.push (.compensated step ctx (c.outcome ctx).1.isOk))

abbrev Proc (D : Type) := CallTree (Op D) Res

abbrev perform (o : Op D) : Proc D (Res o) := CallTree.perform o

/-- Compensates a step that is done, then goes on with `next`. -/
def compensateStep (step : Name) (state : SagaState D) (ctx : SagaContext D)
    (next : SagaState D → SagaContext D → Proc D (Except SagaError Unit)) :
    Proc D (Except SagaError Unit) := do
  match ← perform (.compensate step ctx) with
  | (.error error, ctx') =>
    match ← perform (.setStep step .failed) with
    | .error e => return .error e
    | .ok _ =>
      match ← perform (.save { state with status := .failed, context := ctx' }) with
      | .error e => return .error e
      | .ok _ => return .error (.compensationFailed step error.text)
  | (.ok _, ctx') =>
    match ← perform (.setStep step .compensated) with
    | .error e => return .error e
    | .ok _ =>
      match ← perform (.save { state with context := ctx' }) with
      | .error e => return .error e
      | .ok _ => next { state with context := ctx' } ctx'

def compensateEach (cause : Option SagaError) : List Name → SagaState D → SagaContext D →
    Proc D (Except SagaError Unit)
  | [], state, ctx => do
    match ← perform (.save { state with status := .compensated, context := ctx }) with
    | .error e => return .error e
    | .ok _ => return (match cause with | some e => .error e | none => .ok ())
  | step :: rest, state, ctx => do
    match ← perform (.stepStatus step) with
    | .error e => return .error e
    | .ok .done => compensateStep step state ctx (compensateEach cause rest)
    | .ok _ => compensateEach cause rest state ctx

def compensate (steps : List Name) (state : SagaState D) (ctx : SagaContext D) (before : Nat)
    (cause : Option SagaError) : Proc D (Except SagaError Unit) :=
  compensateEach cause (steps.take before).reverse state ctx

/-- Executes the step at `index`; goes on with `next`, or compensates the steps before. -/
def executeStep (steps : List Name) (index : Nat) (step : Name) (state : SagaState D)
    (ctx : SagaContext D) (next : SagaState D → SagaContext D → Proc D (Except SagaError Unit)) :
    Proc D (Except SagaError Unit) := do
  match ← perform (.execute step ctx) with
  | (.ok _, ctx') =>
    match ← perform (.setStep step .done) with
    | .error e => return .error e
    | .ok _ =>
      match ← perform (.save { state with currentStep := index + 1, context := ctx' }) with
      | .error e => return .error e
      | .ok _ => next { state with currentStep := index + 1, context := ctx' } ctx'
  | (.error error, ctx') =>
    match ← perform (.setStep step .failed) with
    | .error e => return .error e
    | .ok _ =>
      match ← perform (.save { state with status := .compensating, context := ctx' }) with
      | .error e => return .error e
      | .ok _ =>
        compensate steps { state with status := .compensating, context := ctx' } ctx' index
          (some (.stepFailed step error.text))

def forwardEach (steps : List Name) : Nat → List Name → SagaState D → SagaContext D →
    Proc D (Except SagaError Unit)
  | _, [], state, ctx => perform (.save { state with status := .completed, context := ctx })
  | index, step :: rest, state, ctx => do
    match ← perform (.stepStatus step) with
    | .error e => return .error e
    | .ok .done => forwardEach steps (index + 1) rest state ctx
    | .ok _ => executeStep steps index step state ctx (forwardEach steps (index + 1) rest)

def forward (steps : List Name) (state : SagaState D) (ctx : SagaContext D) :
    Proc D (Except SagaError Unit) :=
  forwardEach steps state.currentStep (steps.drop state.currentStep) state ctx

def continueState (steps : List Name) (state : SagaState D) : Proc D (Except SagaError Unit) :=
  if steps.length < state.currentStep then
    return .error (.state
      s!"saga `{state.sagaId}` current_step {state.currentStep} exceeds {steps.length} steps")
  else
    match state.status with
    | .completed | .compensated => return .ok ()
    | .failed => return .error (.invalidState state.sagaId state.status)
    | .compensating => compensate steps state state.context state.currentStep none
    | .running => forward steps state state.context

def run (steps : List Name) (sagaId : String) (ctx : SagaContext D) : Proc D (Except SagaError Unit) := do
  let ctx := { ctx with sagaId }
  match ← perform .load with
  | .error e => return .error e
  | .ok (some state) => continueState steps state
  | .ok none =>
    match ← perform (.save ⟨sagaId, .running, 0, ctx⟩) with
    | .error e => return .error e
    | .ok _ => forward steps ⟨sagaId, .running, 0, ctx⟩ ctx

def resume (steps : List Name) (sagaId : String) : Proc D (Except SagaError Unit) := do
  match ← perform .load with
  | .error e => return .error e
  | .ok none => return .error (.notFound sagaId)
  | .ok (some state) => continueState steps state

end Ecat.Saga
