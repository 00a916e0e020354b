import BlockIR.Builtin
import BlockIR.Scope

/-! Configurations: where a run stands.

A run has one machine and one scope arena, shared by all its activations. Each
activation, the main program or a call of a function, has its own variables and
its own current scope; an expression is evaluated at a nesting level that starts
from the level of the call it belongs to. Leaving a scope and returning from a
call happen also when what ran inside has failed. -/
namespace BlockIR

/-- The scopes of a run: keyed by block, holding function definitions. -/
abbrev Scopes : Type := ScopeArena BlockId FunctionDefinition

/-- What belongs to one activation. -/
structure Activation where
  scope : ScopeId := 0
  bindings : Variables := ∅
  /-- The nesting level each expression of a statement starts from. -/
  base : Nat := 0
  /-- The nesting level of the expression being evaluated. -/
  level : Nat := 0

/-- The state of a run. -/
structure Config where
  machine : Machine := {}
  scopes : Scopes := .start
  activation : Activation := {}

/-- What does not change during a run. -/
structure Context where
  setting : Setting
  dialect : Dialect
  /-- Where a host has nesting levels counted from, if not from a natural number. -/
  origin : Option Json.Number := none

/-- Whether a nesting level is beyond the limit. Levels that are counted from a number of the host
are numbers as well, each rounded as it is reached. -/
def Context.tooDeep (ctx : Context) (level : Nat) : Bool :=
  0 < ctx.setting.maxNesting &&
    match ctx.origin with
    | none => ctx.setting.maxNesting < level
    | some origin => (Nat.repeat Json.Number.next level origin).exceeds ctx.setting.maxNesting

/-- Why a run ends early: it failed, or it was not given enough depth to finish. -/
inductive Stop where
  | failed (error : Error)
  | outOfDepth

/-- A part of a run. -/
abbrev Exec (α : Type) : Type := Effect Config Stop α

namespace Exec

/-- Fails with an error of the program. -/
def fail {α : Type} (error : Error) : Exec α := Effect.fail (.failed error)

/-- A result that may be an error of the program. -/
def ofExcept {α : Type} : Except Error α → Exec α
  | .ok a => pure a
  | .error e => fail e

/-- An action on the machine as a part of the run. -/
def onMachine {α : Type} (action : Action α) : Exec α := fun ⟨machine, scopes, activation⟩ =>
  match action machine with
  | (.ok a, machine) => (.ok a, ⟨machine, scopes, activation⟩)
  | (.error e, machine) => (.error (.failed e), ⟨machine, scopes, activation⟩)

/-- Changes the current activation. -/
def modifyActivation (f : Activation → Activation) : Exec Unit :=
  Effect.modify fun config => { config with activation := f config.activation }

/-- The current activation. -/
def activation : Exec Activation := Effect.gets Config.activation

/-- Runs a part in another activation and comes back to the current one, however the part ends. -/
def within {α : Type} (inner : Activation) (x : Exec α) : Exec α := do
  let outer ← activation
  modifyActivation fun _ => inner
  x.ensuring (modifyActivation fun _ => outer)

/-! ### Signal -/

/-- The pending signal. -/
def signal : Exec Signal := Effect.gets fun config => config.machine.signal

/-- Sets the pending signal. -/
def setSignal (signal : Signal) : Exec Unit :=
  Effect.modify fun config => { config with machine := { config.machine with signal := signal } }

/-! ### Scopes -/

/-- Makes the scope of a block the current one. -/
def enterScope (block : BlockId) : Exec Unit := do
  let config ← Effect.get
  let (scope, scopes) ← ofExcept (config.scopes.enter config.activation.scope block)
  Effect.modify fun config =>
    { config with scopes := scopes, activation := { config.activation with scope := scope } }

/-- Drops the variables of the current scope and makes the scope around it the current one. -/
def leaveScope : Exec Unit := fun config =>
  match config.scopes.leave config.activation.scope config.activation.bindings with
  | (result, bindings) =>
    let activation := { config.activation with bindings := bindings }
    match result with
    | .ok parent => (.ok (), { config with activation := { activation with scope := parent } })
    | .error e => (.error (.failed e), { config with activation := activation })

/-- Declares a name in the current scope. -/
def declare (name : String) (binding : Binding FunctionDefinition) : Exec Unit := do
  let config ← Effect.get
  let scopes ← ofExcept (config.scopes.declare config.activation.scope name binding)
  Effect.modify fun config => { config with scopes := scopes }

/-- Declares functions in the current scope. -/
def declareFunctions : List FunctionDefinition → Exec Unit
  | [] => pure ()
  | definition :: rest => do
    declare definition.name (.ofFunction definition)
    declareFunctions rest

/-! ### Variables -/

/-- The value of a variable of the current activation. -/
def valueOf (name : String) : Exec Word := do
  let activation ← activation
  match activation.bindings[name]? with
  | some value => pure value
  | none => fail (.unboundIdentifier name)

/-- The values of variables, in order. -/
def valuesOf : List String → Exec (List Word)
  | [] => pure []
  | name :: rest => do
    let value ← valueOf name
    let values ← valuesOf rest
    pure (value :: values)

/-- Gives variables new values, from left to right; each has to be bound. -/
def assign : List (String × Word) → Exec Unit
  | [] => pure ()
  | (name, value) :: rest => do
    let activation ← activation
    if name ∈ activation.bindings then
      modifyActivation fun a => { a with bindings := a.bindings.insert name value }
      assign rest
    else fail (.unboundIdentifier name)

/-- Binds new variables of the current scope, from left to right; none may be bound. -/
def bindNew : List (String × Word) → Exec Unit
  | [] => pure ()
  | (name, value) :: rest => do
    let activation ← activation
    if name ∈ activation.bindings then fail (.redeclaration name)
    else
      modifyActivation fun a => { a with bindings := a.bindings.insert name value }
      declare name .ofVariable
      bindNew rest

/-! ### Nesting level -/

/-- Goes one level deeper. Beyond the limit this leaves a line in the trace and fails. -/
def deepen (ctx : Context) : Exec Unit := do
  modifyActivation fun a => { a with level := a.level + 1 }
  let activation ← activation
  if ctx.tooDeep activation.level then
    onMachine (logLine Machine.nestingLimitLine)
    fail (.nestingLimit (.ofNat ctx.setting.maxNesting))

/-- Goes back to the level that the expressions of a statement start from. -/
def restart : Exec Unit := modifyActivation fun a => { a with level := a.base }

end Exec
end BlockIR
