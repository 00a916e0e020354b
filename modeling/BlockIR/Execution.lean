import BlockIR.Execution.Flow

/-! Execution: doing a task with everything it leads to.

`Context.advance` says how one task is done, given a way to do the tasks that it
leads to; `Context.perform` ties the knot, up to a given depth of tasks within
tasks. A run that needs more depth than it is given stops with `outOfDepth`,
which no program can bring about otherwise; so whatever `advance` keeps for every
way of doing the inner tasks holds of every run, by induction on the depth. -/
namespace BlockIR
namespace Context
variable (ctx : Context) (runner : Runner)

/-- A part that yields nothing as the doing of a task. -/
def yielding (x : Exec Unit) : Exec (List Word) := do
  x
  pure []

/-- Does a task, leaving the tasks that it leads to to `runner`. -/
def advance : Runner
  | .expression e => ctx.expression runner e
  | .invoke name args => runner.invoke name args
  | .statement s => yielding (runner.statement s)
  | .block b => yielding (ctx.block runner b (pure ()))
  | .rounds l => yielding (ctx.rounds runner l)

/-- Does a task with tasks nested at most `depth` deep. -/
def perform : Nat → Runner
  | 0 => fun _ => Effect.fail .outOfDepth
  | depth + 1 => ctx.advance (perform depth)

end Context
end BlockIR
