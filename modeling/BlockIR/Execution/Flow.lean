import BlockIR.Execution.Evaluation

/-! Flow: statements, blocks and loops.

A block has a scope of its own, declares its functions before anything runs,
counts each of its statements as a step and stops at the first signal. A loop
keeps the scope of its init block while its rounds run; what its init block
executes is not counted. `break` and `continue` are spent by the innermost loop,
`leave` goes through loops and ends at the call. -/
namespace BlockIR

/-- Evaluates an expression of a statement. -/
def Runner.evaluateAll (runner : Runner) (e : Expr) : Exec (List Word) := do
  Exec.restart
  runner (.expression e)

/-- Evaluates an expression of a statement that has to yield one word. -/
def Runner.evaluate (runner : Runner) (e : Expr) : Exec Word := Exec.single (runner.evaluateAll e)

/-- The body of the first case whose value is the given word or that has none. -/
def Runner.select (runner : Runner) (value : Word) : List Case → Exec (Option Block)
  | [] => pure none
  | ⟨none, body⟩ :: _ => pure (some body)
  | ⟨some literal, body⟩ :: rest => do
    let candidate ← runner.evaluate (.literal literal)
    if candidate = value then pure (some body) else runner.select value rest

/-- Executes the statements in front of a loop, which are not counted; true if one of them leaves. -/
def Runner.initialise (runner : Runner) : List Statement → Exec Bool
  | [] => pure false
  | s :: rest => do
    runner.run (.statement s)
    let signal ← Exec.signal
    if signal = .leave then pure true else runner.initialise rest

/-- Executes statements in turn, each counted, up to the first signal. -/
def Context.sequence (ctx : Context) (runner : Runner) : List Statement → Exec Unit
  | [] => pure ()
  | s :: rest => do
    Exec.onMachine (countStep ctx.setting)
    runner.run (.statement s)
    let signal ← Exec.signal
    if signal = .proceed then ctx.sequence runner rest else pure ()

/-- The values of a declaration: those of its expression, or zeros. -/
def Runner.declared (runner : Runner) (names : List String) : Option Expr → Exec (List Word)
  | some e => runner.evaluateAll e
  | none => pure (names.map fun _ => 0)

/-- Executes a statement. -/
def Runner.statement (runner : Runner) : Statement → Exec Unit
  | .expression e => do
    let _ ← runner.evaluateAll e
    pure ()
  | .assignment targets e => do
    let values ← runner.evaluateAll e
    if values.length ≠ targets.length then
      Exec.fail (.arityMismatch (.ofNat targets.length) (.ofNat values.length) "assignment")
    else Exec.assign (targets.zip values)
  | .declaration names value => do
    let values ← runner.declared names value
    if values.length ≠ names.length then
      Exec.fail (.arityMismatch (.ofNat names.length) (.ofNat values.length) "variable declaration")
    else Exec.bindNew (names.zip values)
  | .conditional condition body => do
    let value ← runner.evaluate condition
    if value = 0 then pure () else runner.run (.block body)
  | .switch scrutinee cases => do
    let value ← runner.evaluate scrutinee
    let chosen ← runner.select value cases
    match chosen with
    | some body => runner.run (.block body)
    | none => pure ()
  | .function _ => pure ()
  | .loop l => do
    Exec.enterScope l.init.id
    Effect.ensuring
      (do
        let left ← runner.initialise l.init.statements
        if left then pure () else runner.run (.rounds l))
      Exec.leaveScope
  | .breakLoop => Exec.setSignal .breakLoop
  | .continueLoop => Exec.setSignal .continueLoop
  | .leave => Exec.setSignal .leave
  | .block b => runner.run (.block b)

/-- Whether a loop has no statement that would be counted. -/
def ForLoop.spins (loop : ForLoop) : Bool :=
  loop.body.statements.isEmpty && loop.post.statements.isEmpty

/-- At the end of a loop only a pending leave stays. -/
def Exec.settle : Exec Unit := do
  let signal ← Exec.signal
  if signal = .leave then pure () else Exec.setSignal .proceed

/-- After the post block of a round: the next round, unless the function is left. -/
def Runner.afterPost (runner : Runner) (l : ForLoop) : Exec Unit := do
  let signal ← Exec.signal
  if signal = .leave then Exec.settle else runner.run (.rounds l)

/-- After the body of a round: the post block, unless the loop is broken or the function is left. -/
def Runner.afterBody (runner : Runner) (l : ForLoop) : Exec Unit := do
  let signal ← Exec.signal
  if signal = .breakLoop ∨ signal = .leave then Exec.settle
  else
    Exec.setSignal .proceed
    runner.run (.block l.post)
    runner.afterPost l

namespace Context
variable (ctx : Context) (runner : Runner)

/-- Executes a block in its scope, with `exit` at the end, before the scope is left. -/
def block {α : Type} (b : Block) (exit : Exec α) : Exec α := do
  Exec.enterScope b.id
  Effect.ensuring
    (do
      Exec.declareFunctions b.functions
      ctx.sequence runner b.statements
      exit)
    Exec.leaveScope

/-- One round of a loop and what comes after it. A round without a statement counts by itself. -/
def round (l : ForLoop) : Exec Unit := do
  Effect.when l.spins (Exec.onMachine (countStep ctx.setting))
  Exec.setSignal .proceed
  runner.run (.block l.body)
  runner.afterBody l

/-- Tests the condition of a loop and goes on with its rounds. -/
def rounds (l : ForLoop) : Exec Unit := do
  let value ← runner.evaluate l.condition
  if value = 0 then Exec.settle else ctx.round runner l

end Context
end BlockIR
