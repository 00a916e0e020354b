import BlockIR.Execution.Config
import BlockIR.Literal

/-! Evaluation: expressions and calls.

The work of a run is divided into tasks. A task is done with the help of a
`Runner`, which does the tasks that it leads to, so nothing here recurs on its
own: the knot is tied in `BlockIR.Execution`.

A literal, a variable and a call each go one nesting level deeper. Arguments are
evaluated from right to left and handed over in order. A function runs in an
activation of its own, in the scope that declares it; a builtin of the same name
comes first. -/
namespace BlockIR

/-- A piece of work. An expression and a call yield words, the others nothing. -/
inductive Task where
  /-- Evaluate at the current nesting level. -/
  | expression (e : Expr)
  /-- Call a function visible from the current scope. -/
  | invoke (name : String) (args : List Word)
  | statement (s : Statement)
  | block (b : Block)
  /-- Test the condition of a loop and go on with its rounds. -/
  | rounds (l : ForLoop)

/-- A way of doing tasks. -/
abbrev Runner : Type := Task → Exec (List Word)

/-- Does a task that yields nothing. -/
def Runner.run (runner : Runner) (task : Task) : Exec Unit := do
  let _ ← runner task
  pure ()

/-! ### Expressions -/

/-- The value of a part that has to yield exactly one. -/
def Exec.single (x : Exec (List Word)) : Exec Word := do
  let values ← x
  match values with
  | [value] => pure value
  | _ => Exec.fail (.arityMismatch (.ofNat 1) (.ofNat values.length) "single-valued expression")

/-- The value of an argument. One that has to be a literal is not evaluated; 0 stands for it. -/
def Runner.argument (runner : Runner) (literal : Bool) (e : Expr) : Exec Word :=
  if literal then pure 0 else Exec.single (runner (.expression e))

/-- The values of arguments from a position on, the rightmost evaluated first. -/
def Runner.arguments (runner : Runner) (wantsLiteral : Nat → Bool) : Nat → List Expr → Exec (List Word)
  | _, [] => pure []
  | position, e :: rest => do
    let values ← runner.arguments wantsLiteral (position + 1) rest
    let value ← runner.argument (wantsLiteral position) e
    pure (value :: values)

namespace Context
variable (ctx : Context) (runner : Runner)

/-- Calls a builtin of the dialect, or else a function, with values for its arguments. -/
def apply (name : String) (args : List Expr) (values : List Word) : Exec (List Word) :=
  match ctx.dialect.find? name with
  | some builtin => do
    let value ← Exec.onMachine (ctx.dialect.evaluate ctx.setting builtin ⟨values, args.map .expression⟩)
    pure [value]
  | none => runner (.invoke name values)

/-- Evaluates an expression. -/
def expression : Expr → Exec (List Word)
  | .literal literal => do
    Exec.deepen ctx
    let value ← Exec.ofExcept literal.value
    pure [value]
  | .identifier name => do
    let value ← Exec.valueOf name
    Exec.deepen ctx
    pure [value]
  | .call name args => do
    Exec.deepen ctx
    let values ← runner.arguments (ctx.dialect.wantsLiteral name) 0 args
    ctx.apply runner name args values

end Context

/-- The variables that a call of a function starts with: its parameters and its returns, which are zero. -/
def FunctionDefinition.bindings (definition : FunctionDefinition) (args : List Word) : Variables :=
  let params := (definition.params.zip args).foldl (fun table p => table.insert p.1 p.2) ∅
  definition.returns.foldl (fun table name => table.insert name 0) params

/-- Calls a function in an activation of its own, which starts in the scope that declares the function. -/
def Runner.invoke (runner : Runner) (name : String) (args : List Word) : Exec (List Word) := do
  let config ← Effect.get
  let found ← Exec.ofExcept (config.scopes.lookup config.activation.scope name)
  match found with
  | none => Exec.fail (.unknownFunction name)
  | some (scope, definition) =>
    if args.length ≠ definition.params.length then
      Exec.fail (.arityMismatch (.ofNat definition.params.length) (.ofNat args.length) definition.name)
    else
      Exec.setSignal .proceed
      let level := config.activation.level
      Exec.within { scope := scope, bindings := definition.bindings args, base := level, level := level } do
        runner.run (.block definition.body)
        Exec.setSignal .proceed
        Exec.valuesOf definition.returns

end BlockIR
