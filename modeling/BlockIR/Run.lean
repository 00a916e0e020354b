import BlockIR.Execution
import BlockIR.Options
import BlockIR.Validation

/-! Runs: programs executed from the beginning.

A run starts on a fresh machine with the root scope alone. `interpret` executes
a program and gives its variables as they are when its block is done;
`callFunction` calls one of its functions without executing anything else. That
a limit was reached or that a builtin could not act on its arguments is an
outcome, reported with the machine as it was left; any other failure is not. -/
namespace BlockIR

/-- How a run ended. -/
inductive Outcome where
  | ok
  | stepLimit
  | nestingLimit
  | domainError
  deriving DecidableEq, Repr

/-- The name an outcome is reported under. -/
def Outcome.name : Outcome → String
  | ok => "ok"
  | stepLimit => "stepLimit"
  | nestingLimit => "nestingLimit"
  | domainError => "domainError"

/-- The outcome that an error is, if it is one. -/
def Error.outcome? : Error → Option Outcome
  | .stepLimit _ => some .stepLimit
  | .nestingLimit _ => some .nestingLimit
  | .domain _ => some .domainError
  | _ => none

/-- The end of a run: its value, or the error that is its outcome. -/
inductive Ending (α : Type) where
  | finished (value : α)
  | aborted (outcome : Outcome) (error : Error)

/-- What a run leaves behind. -/
structure Report (α : Type) where
  ending : Ending α
  machine : Machine
  warnings : List String

namespace Run

/-- The context that options set up. -/
def context (options : Options) : Context :=
  { setting := options.setting, dialect := options.target.dialect }

/-- Runs a part from the beginning and reports how it ended. -/
def guarded {α : Type} (options : Options) (x : Exec α) : Except Stop (Report α) :=
  match x {} with
  | (.ok value, config) => .ok ⟨.finished value, config.machine, []⟩
  | (.error (.failed error), config) =>
    match error.outcome? with
    | some outcome =>
      let warnings := if options.verbose then ["[Interpreter] Run aborted: " ++ error.message] else []
      .ok ⟨.aborted outcome error, config.machine, warnings⟩
    | none => .error (.failed error)
  | (.error .outOfDepth, _) => .error .outOfDepth

/-- The variables of the current activation. -/
def bindings : Exec Variables := Effect.gets fun config => config.activation.bindings

/-- Executes a program and gives its variables at the end of its block. -/
def program (ctx : Context) (depth : Nat) (block : Block) : Exec Variables :=
  ctx.block (ctx.perform depth) block bindings

/-- Calls a function that a program defines. -/
def call (ctx : Context) (depth : Nat) (block : Block) (name : String) (args : List Word) :
    Exec (List Word) := do
  Exec.enterScope block.id
  Exec.declareFunctions block.functions
  ctx.perform depth (.invoke name args)

/-- Resolves options and goes on with them. -/
def withOptions {α : Type} (doc : Option Json) (f : Options → Except Stop α) : Except Stop α :=
  match Options.resolve doc with
  | .ok options => f options
  | .error error => .error (.failed error)

/-- The first argument that is not a word, as an error. -/
def argumentFault? (position : Nat) : List Int → Option Error
  | [] => none
  | value :: rest =>
    if 0 ≤ value ∧ value < Word.modulus then argumentFault? (position + 1) rest
    else
      some (.validation ("args." ++ toString position) "Argument is not a 256-bit word"
        (some (.string (Numeral.render 10 value))))

end Run

/-- Executes a program, with tasks nested at most `depth` deep. -/
def interpret (depth : Nat) (program : Block) (options : Option Json) : Except Stop (Report Variables) :=
  Run.withOptions options fun options =>
    Run.guarded options (Run.program (Run.context options) depth program)

/-- Calls a function of a program, with tasks nested at most `depth` deep. -/
def callFunction (depth : Nat) (program : Block) (name : String) (args : List Int)
    (options : Option Json) : Except Stop (Report (List Word)) :=
  match Run.argumentFault? 0 args with
  | some error => .error (.failed error)
  | none =>
    Run.withOptions options fun options =>
      Run.guarded options (Run.call (Run.context options) depth program name (args.map Int.toNat))

/-- Loads a program from a document and executes it. -/
def runDocument (depth : Nat) (doc options : Option Json) : Except Stop (Report Variables) :=
  Run.withOptions options fun resolved =>
    match Validation.load resolved.target doc with
    | .ok program => interpret depth program options
    | .error error => .error (.failed error)

end BlockIR
