import BlockIR.Validation

/-! The check as a walk over a program.

`Block.issues` gives the issues of a program as a list, each part handing on what is
visible and where it stands. Here the same check is a walk with one state: the path
to the part that is looked at, onto which steps are pushed and from which they are
popped again, the tables of what is visible, pushed and popped with the blocks, and
the issues found so far. A walk can break down: where a table is needed and none was
pushed, or where a literal fails for a reason that is no error of the program. -/
namespace BlockIR

namespace Validation

/-- Why a walk breaks down. -/
inductive Breakdown where
  /-- A table is needed and there is none. -/
  | noTable
  /-- An error that is not the program's. -/
  | foreign (error : Error)

/-- Where a walk stands, and what it has found. -/
structure Walk where
  path : Place := []
  visible : Visible := {}
  found : List Issue := []

/-- A part of a walk. -/
abbrev Walker (α : Type) : Type := Effect Walk Breakdown α

namespace Walker

/-- Reports a flaw at the current path. -/
def report (flaw : Flaw) : Walker Unit :=
  Effect.modify fun walk => { walk with found := walk.found ++ [⟨walk.path, flaw⟩] }

/-- Reports a flaw at the current path unless the condition holds. -/
def demand (condition : Prop) [Decidable condition] (flaw : Flaw) : Walker Unit :=
  if condition then pure () else report flaw

/-- Pushes steps onto the path. -/
def push (steps : Place) : Walker Unit := Effect.modify fun walk => { walk with path := walk.path ++ steps }

/-- Pops so many steps off the path. -/
def pop (count : Nat) : Walker Unit :=
  Effect.modify fun walk => { walk with path := walk.path.take (walk.path.length - count) }

/-- Walks on further down, and comes back. -/
def inside {α : Type} (steps : Place) (check : Walker α) : Walker α := do
  push steps
  let a ← check
  pop steps.length
  pure a

/-- What is visible. -/
def visible : Walker Visible := Effect.gets Walk.visible

/-- Changes what is visible. -/
def see (change : Visible → Visible) : Walker Unit :=
  Effect.modify fun walk => { walk with visible := change walk.visible }

/-- Makes sure that there is a table to declare variables in. -/
def needTable : Walker Unit := do
  let visible ← visible
  if visible.vars.isEmpty then Effect.fail .noTable

variable (dialect : Dialect)

/-- Whether a name is fresh; reports why if it is not. -/
def fresh (name : String) : Walker Bool := do
  let visible ← visible
  match visible.objection? dialect name with
  | some flaw => do
    report flaw
    pure false
  | none => pure true

/-! ### Expressions -/

/-- The word of a literal; reports if there is none. -/
def literal (l : Literal) : Walker (Option Word) :=
  match l.value with
  | .ok word => pure (some word)
  | .error error =>
    match error with
    | .invalidLiteral text fault => do
      report (.badLiteral text fault)
      pure none
    | _ => Effect.fail (.foreign error)

/-- Reports a number of values that is known and does not fit. -/
def expect (count : Option Nat) (expected : Nat) (flaw : Nat → Flaw) : Walker Unit :=
  match count with
  | some n => demand (n = expected) (flaw n)
  | none => pure ()

mutual
/-- Checks an expression and gives the number of values that it yields, if that is known. -/
def expression : Expr → Walker (Option Nat)
  | .literal l => do
    let _ ← literal l
    pure (some 1)
  | .identifier name => do
    let visible ← visible
    demand (visible.isVariable name) (.undeclared name)
    pure (some 1)
  | .call name args => do
    arguments name 0 args
    match dialect.find? name with
    | some builtin =>
      demand (builtin.arity = .exactly args.length) (.argumentCount name builtin.arity args.length)
      pure (some (if builtin.returnsValue then 1 else 0))
    | none =>
      let visible ← visible
      match visible.function? name with
      | some signature =>
        demand (signature.params = args.length) (.argumentCount name (.exactly signature.params) args.length)
        pure (some signature.returns)
      | none =>
        report (.unknownFunction name)
        pure none

/-- Checks the arguments of a call from a position on. -/
def arguments (callee : String) (position : Nat) : List Expr → Walker Unit
  | [] => pure ()
  | e :: rest => do
    inside [.field "args", .index position]
      (if dialect.wantsLiteral callee position then
        demand e.isLiteral (.literalWanted position callee)
      else do
        let count ← expression e
        expect count 1 (.notSingle .argument))
    arguments callee (position + 1) rest
end

/-- Checks an expression that has to yield one value. -/
def single (role : Role) (e : Expr) : Walker Unit := do
  let count ← expression dialect e
  expect count 1 (.notSingle role)

/-- Checks the value of a statement that has to yield so many values. -/
def valueCount (expected : Nat) (e : Expr) : Walker Unit :=
  inside [.field "value"] do
    let count ← expression dialect e
    expect count expected (.valueCount expected)

/-- Checks the value of a declaration, if it has one. -/
def initialValue (expected : Nat) : Option Expr → Walker Unit
  | some e => valueCount dialect expected e
  | none => pure ()

/-! ### Names -/

/-- Checks the targets of an assignment from a position on, after those already seen. -/
def targets (seen : List String) (position : Nat) : List String → Walker Unit
  | [] => pure ()
  | name :: rest => do
    inside [.field "targets", .index position] do
      demand (name ∉ seen) (.assignedTwice name)
      let visible ← visible
      if (visible.function? name).isSome && !visible.isVariable name then report (.assignedFunction name)
      else demand (visible.isVariable name) (.assignedUndeclared name)
    targets (name :: seen) (position + 1) rest

/-- Puts a name where it belongs if it is fresh. -/
def declare (name : String) (change : Visible → Visible) : Walker Unit := do
  if ← fresh dialect name then see change

/-- Declares variables from a position on, in the innermost table. -/
def names (position : Nat) : List String → Walker Unit
  | [] => pure ()
  | name :: rest => do
    inside [.field "names", .index position] (declare dialect name fun visible => visible.addVariable name)
    names (position + 1) rest

/-- Declares a parameter or return of a function in the table of its own. -/
def newLocal (name : String) : Walker Unit := do
  let visible ← visible
  if visible.isVariable name then report (.duplicateLocal name)
  else declare dialect name fun visible => visible.addVariable name

/-- Declares the parameters and returns of a function. -/
def locals : List String → Walker Unit
  | [] => pure ()
  | name :: rest => do
    newLocal dialect name
    locals rest

/-- Puts a function into the innermost table. -/
def addFunction (definition : FunctionDefinition) (visible : Visible) : Visible :=
  match visible.functions with
  | [] => visible
  | table :: outer => { visible with functions := ((definition.name, definition.signature) :: table) :: outer }

/-- Declares a function in the innermost table. -/
def newFunction (definition : FunctionDefinition) : Walker Unit := do
  let visible ← visible
  match visible.functions with
  | [] => Effect.fail .noTable
  | table :: _ =>
    if (table.lookup definition.name).isSome then report (.duplicateFunction definition.name)
    else declare dialect definition.name (addFunction definition)

/-- Declares the functions of a block from a position on. -/
def functions (position : Nat) : List Statement → Walker Unit
  | [] => pure ()
  | .function definition :: rest => do
    inside [.field "statements", .index position] (newFunction dialect definition)
    functions (position + 1) rest
  | _ :: rest => functions (position + 1) rest

/-! ### Statements -/

/-- Checks the value of a case after those of earlier cases, and gives all of them. -/
def caseValue (isLast : Bool) (seen : List Word) : Option Literal → Walker (List Word)
  | none => do
    demand isLast .defaultNotLast
    pure seen
  | some l => do
    let value ← literal l
    match value with
    | some word => do
      demand (word ∉ seen) (.duplicateCase l.text)
      pure (word :: seen)
    | none => pure seen

mutual
/-- Checks a block, with tables of its own. -/
def block : Block → Walker Unit
  | ⟨_, body⟩ => do
    see fun visible => visible.enterBlock []
    functions dialect 0 body
    statements 0 body
    see fun visible => { visible with functions := visible.functions.tail, vars := visible.vars.tail }

/-- Checks statements from a position on. -/
def statements (position : Nat) : List Statement → Walker Unit
  | [] => pure ()
  | s :: rest => do
    inside [.field "statements", .index position] (statement s)
    statements (position + 1) rest

/-- Checks the statements in front of a loop from a position on. -/
def initial (position : Nat) : List Statement → Walker Unit
  | [] => pure ()
  | .function _ :: rest => do
    inside [.field "statements", .index position] (report .functionInInit)
    initial (position + 1) rest
  | s :: rest => do
    inside [.field "statements", .index position] (statement s)
    initial (position + 1) rest

/-- Checks cases from a position on, after the values of earlier ones. -/
def cases (position : Nat) (seen : List Word) : List Case → Walker Unit
  | [] => pure ()
  | ⟨value, body⟩ :: rest => do
    let seen ← inside [.field "cases", .index position] do
      let seen ← caseValue rest.isEmpty seen value
      inside [.field "body"] (block body)
      pure seen
    cases (position + 1) seen rest

/-- Checks a statement. -/
def statement : Statement → Walker Unit
  | .expression e =>
    inside [.field "expression"] do
      let count ← expression dialect e
      expect count 0 .unusedValues
  | .assignment targetNames e => do
    valueCount dialect targetNames.length e
    targets [] 0 targetNames
  | .declaration newNames value => do
    initialValue dialect newNames.length value
    needTable
    names dialect 0 newNames
  | .conditional condition body => do
    inside [.field "condition"] (single dialect .condition condition)
    inside [.field "body"] (block body)
  | .switch scrutinee branches => do
    inside [.field "expression"] (single dialect .scrutinee scrutinee)
    cases 0 [] branches
  | .function ⟨_, params, returns, body⟩ => do
    let outer ← visible
    see fun visible => visible.enterFunction []
    locals dialect (params ++ returns)
    inside [.field "body"] (block body)
    -- The tables of functions are those of the blocks around, the variables are not.
    see fun visible => { outer with functions := visible.functions }
  | .loop ⟨⟨_, front⟩, condition, post, body⟩ => do
    let outer ← visible
    see Visible.enterLoop
    inside [.field "pre"] (initial 0 front)
    inside [.field "condition"] (single dialect .loopCondition condition)
    see fun visible => { visible with inLoopBody := true }
    inside [.field "body"] (block body)
    see fun visible => { visible with inLoopBody := false }
    inside [.field "post"] (block post)
    see fun visible => { visible with inLoopBody := outer.inLoopBody, vars := visible.vars.tail }
  | .breakLoop => do
    let visible ← visible
    demand visible.inLoopBody (.outsideLoop "break")
  | .continueLoop => do
    let visible ← visible
    demand visible.inLoopBody (.outsideLoop "continue")
  | .leave => do
    let visible ← visible
    demand visible.inFunction .outsideFunction
  | .block body => block body
end

end Walker

/-- Validates a document for a dialect of that name by walking over the program. -/
def walk (dialect : String) (doc : Option Json) : Except Breakdown (Except (List Issue) Block) :=
  match readProgram doc with
  | .error found => .ok (.error found)
  | .ok program => do
    let target ← (Target.ofName dialect).mapError .foreign
    let dialect ← (Dialect.ofBuiltins target.name target.dialect.builtins).mapError .foreign
    match Walker.block dialect program {} with
    | (.error breakdown, _) => .error breakdown
    | (.ok (), walk) => .ok (if walk.found.isEmpty then .ok program else .error walk.found)

end Validation
end BlockIR
