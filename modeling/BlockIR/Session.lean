import BlockIR.Run

/-! Sessions: a run kept open, to be gone on with piece by piece.

A session stays in the root scope with one table of variables. Blocks and
statements are executed there, and expressions are evaluated by one evaluator
whose nesting level keeps growing over the session; the expressions of
statements start from the level the session began with. A piece that fails
leaves the session as it is then. -/
namespace BlockIR

/-- An open run. -/
structure Session where
  context : Context
  config : Config

namespace Session

/-- A session with its variables and the nesting level that expressions start from. One that is not
natural becomes the origin of the levels. -/
def start (ctx : Context) (base : Json.Number) (bindings : List (String × Word)) : Session :=
  let (origin, level) : Option Json.Number × Nat := match base.toInt? with
    | some (.ofNat level) => (none, level)
    | _ => (some base, 0)
  { context := { ctx with origin := origin }
    config := { activation := {
      bindings := bindings.foldl (fun table v => table.insert v.1 v.2) ∅
      base := level
      level := level } } }

/-- Goes on with a part of the run. -/
def goOn {α : Type} (session : Session) (x : Exec α) : Except Stop α × Session :=
  let (result, config) := x session.config
  (result, { session with config := config })

/-- A part whose expressions do not count for the evaluator of the session. -/
def apart {α : Type} (x : Exec α) : Exec α := do
  let before ← Exec.activation
  x.ensuring (Exec.modifyActivation fun a => { a with level := before.level })

/-- Executes a block and gives the variables at its end. -/
def block (session : Session) (depth : Nat) (b : Block) : Except Stop Variables × Session :=
  session.goOn (apart (Run.program session.context depth b))

/-- Executes a statement. -/
def statement (session : Session) (depth : Nat) (s : Statement) : Except Stop (List Word) × Session :=
  session.goOn (apart (session.context.perform depth (.statement s)))

/-- Evaluates an expression to any number of words. -/
def evaluateAll (session : Session) (depth : Nat) (e : Expr) : Except Stop (List Word) × Session :=
  session.goOn (session.context.perform depth (.expression e))

/-- Evaluates an expression to one word. -/
def evaluate (session : Session) (depth : Nat) (e : Expr) : Except Stop Word × Session :=
  session.goOn (Exec.single (session.context.perform depth (.expression e)))

/-- Calls a function. -/
def invoke (session : Session) (depth : Nat) (name : String) (args : List Word) :
    Except Stop (List Word) × Session :=
  session.goOn (session.context.perform depth (.invoke name args))

/-- The value of a variable. -/
def valueOf (session : Session) (name : String) : Except Stop Word × Session :=
  session.goOn (Exec.valueOf name)

/-- Defines a function. -/
def define (session : Session) (definition : FunctionDefinition) : Except Stop Unit × Session :=
  session.goOn (Exec.declareFunctions [definition])

/-- Sets the pending signal. -/
def signal (session : Session) (signal : Signal) : Except Stop Unit × Session :=
  session.goOn (Exec.setSignal signal)

end Session
end BlockIR
