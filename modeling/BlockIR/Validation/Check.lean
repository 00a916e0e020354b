import BlockIR.Literal
import BlockIR.Validation.Visible

/-! Checking: all issues of a program of the right shape.

Each function gives the issues of one kind of node, in the order in which the
program is written, from what is visible there and the place of the node. A
program without issues is well scoped, and its calls and assignments agree on
the number of values. -/
namespace BlockIR

variable (dialect : Dialect)

/-! ### Expressions -/

/-- The issue of a literal that has no value. -/
def Literal.issues (place : Place) (literal : Literal) : List Issue :=
  match literal.read with
  | .ok _ => []
  | .error fault => [⟨place, .badLiteral literal.text fault⟩]

/-- The number of values an expression yields; none if its callee is unknown. -/
def Expr.count? (visible : Visible) : Expr → Option Nat
  | .call name _ =>
    match dialect.find? name with
    | some builtin => some (if builtin.returnsValue then 1 else 0)
    | none => (visible.function? name).map Signature.returns
  | _ => some 1

/-- Whether an expression is written as a literal. -/
def Expr.isLiteral : Expr → Bool
  | .literal _ => true
  | _ => false

/-- The issue of an expression whose number of values is known and does not fit. -/
def Expr.countIssues (visible : Visible) (place : Place) (e : Expr) (expected : Nat)
    (flaw : Nat → Flaw) : List Issue :=
  match e.count? dialect visible with
  | some n => if n = expected then [] else [⟨place, flaw n⟩]
  | none => []

/-- The issue of a call whose callee is unknown or takes another number of arguments. -/
def Expr.calleeIssues (visible : Visible) (place : Place) (name : String) (got : Nat) : List Issue :=
  let expected? : Option Arity := match dialect.find? name with
    | some builtin => some builtin.arity
    | none => (visible.function? name).map fun signature => .exactly signature.params
  match expected? with
  | some expected => if expected = .exactly got then [] else [⟨place, .argumentCount name expected got⟩]
  | none => [⟨place, .unknownFunction name⟩]

mutual
/-- The issues of an expression. -/
def Expr.issues (visible : Visible) (place : Place) : Expr → List Issue
  | .literal l => l.issues place
  | .identifier name => if visible.isVariable name then [] else [⟨place, .undeclared name⟩]
  | .call name args =>
    Expr.argumentIssues visible place name 0 args ++
      Expr.calleeIssues dialect visible place name args.length

/-- The issues of the arguments of a call from a position on. -/
def Expr.argumentIssues (visible : Visible) (place : Place) (callee : String) (position : Nat) :
    List Expr → List Issue
  | [] => []
  | e :: rest =>
    (if dialect.wantsLiteral callee position then
      if e.isLiteral then [] else [⟨place.item "args" position, .literalWanted position callee⟩]
    else
      Expr.issues visible (place.item "args" position) e ++
        Expr.countIssues dialect visible (place.item "args" position) e 1 (.notSingle .argument)) ++
    Expr.argumentIssues visible place callee (position + 1) rest
end

/-- The issues of an expression that has to yield one value. -/
def Expr.singleIssues (visible : Visible) (place : Place) (role : Role) (e : Expr) : List Issue :=
  e.issues dialect visible place ++ e.countIssues dialect visible place 1 (.notSingle role)

/-! ### Names -/

/-- The issues of newly declared variables from a position on. -/
def Visible.declarationIssues (place : Place) : Visible → Nat → List String → List Issue
  | _, _, [] => []
  | visible, position, name :: rest =>
    ((visible.objection? dialect name).map fun flaw => Issue.mk (place.item "names" position) flaw).toList ++
      declarationIssues place (visible.declare dialect name) (position + 1) rest

/-- The issues of assigned variables from a position on, after those that were assigned already. -/
def Visible.targetIssues (visible : Visible) (place : Place) (seen : List String) (position : Nat) :
    List String → List Issue
  | [] => []
  | name :: rest =>
    let here := place.item "targets" position
    (if seen.contains name then [⟨here, .assignedTwice name⟩] else []) ++
    (if visible.isVariable name then []
      else if (visible.function? name).isSome then [⟨here, .assignedFunction name⟩]
      else [⟨here, .assignedUndeclared name⟩]) ++
    visible.targetIssues place (name :: seen) (position + 1) rest

/-- The issues of the parameters and returns of a function, after those that were declared already. -/
def Visible.localIssues (visible : Visible) (place : Place) (locals : List String) :
    List String → List Issue
  | [] => []
  | name :: rest =>
    (if locals.contains name then [⟨place, .duplicateLocal name⟩]
      else (((visible.enterFunction locals).objection? dialect name).map fun flaw =>
        Issue.mk place flaw).toList) ++
    visible.localIssues place (visible.addLocal dialect locals name) rest

/-- The issues of the functions that a block defines, from a position on. -/
def Visible.functionIssues (visible : Visible) (place : Place) (table : FunctionTable) (position : Nat) :
    List Statement → List Issue
  | [] => []
  | .function definition :: rest =>
    let here := place.item "statements" position
    (if (table.lookup definition.name).isSome then [⟨here, .duplicateFunction definition.name⟩]
      else ((visible.objection? dialect definition.name).map fun flaw => Issue.mk here flaw).toList) ++
    visible.functionIssues place (visible.define dialect table definition) (position + 1) rest
  | _ :: rest => visible.functionIssues place table (position + 1) rest

/-! ### Statements -/

/-- The issues of a case value, after the values that earlier cases have. -/
def Case.valueIssues (place : Place) (isLast : Bool) (seen : List Word) : Option Literal → List Issue
  | none => if isLast then [] else [⟨place, .defaultNotLast⟩]
  | some literal =>
    literal.issues place ++
      match literal.read with
      | .ok value => if seen.contains value then [⟨place, .duplicateCase literal.text⟩] else []
      | .error _ => []

/-- The values that cases have, with one more. -/
def Case.addValue (seen : List Word) : Option Literal → List Word
  | none => seen
  | some literal =>
    match literal.read with
    | .ok value => value :: seen
    | .error _ => seen

mutual
/-- The issues of a block. -/
def Block.issues (visible : Visible) (place : Place) : Block → List Issue
  | ⟨_, statements⟩ =>
    visible.functionIssues dialect place [] 0 statements ++
      Statement.listIssues (visible.enterBlock (visible.table dialect statements)) place 0 statements

/-- The issues of statements from a position on. -/
def Statement.listIssues (visible : Visible) (place : Place) (position : Nat) :
    List Statement → List Issue
  | [] => []
  | s :: rest =>
    Statement.issues visible (place.item "statements" position) s ++
      Statement.listIssues (visible.after dialect s) place (position + 1) rest

/-- The issues of the statements in front of a loop from a position on. -/
def Statement.initIssues (visible : Visible) (place : Place) (position : Nat) :
    List Statement → List Issue
  | [] => []
  | .function _ :: rest =>
    ⟨place.item "statements" position, .functionInInit⟩ ::
      Statement.initIssues visible place (position + 1) rest
  | s :: rest =>
    Statement.issues visible (place.item "statements" position) s ++
      Statement.initIssues (visible.after dialect s) place (position + 1) rest

/-- The issues of cases from a position on, after the values that earlier cases have. -/
def Case.listIssues (visible : Visible) (place : Place) (position : Nat) (seen : List Word) :
    List Case → List Issue
  | [] => []
  | ⟨value, body⟩ :: rest =>
    Case.valueIssues (place.item "cases" position) rest.isEmpty seen value ++
      Block.issues visible ((place.item "cases" position).field "body") body ++
      Case.listIssues visible place (position + 1) (Case.addValue seen value) rest

/-- The issues of a statement. -/
def Statement.issues (visible : Visible) (place : Place) : Statement → List Issue
  | .expression e =>
    e.issues dialect visible (place.field "expression") ++
      e.countIssues dialect visible (place.field "expression") 0 .unusedValues
  | .assignment targets e =>
    e.issues dialect visible (place.field "value") ++
      e.countIssues dialect visible (place.field "value") targets.length (.valueCount targets.length) ++
      visible.targetIssues place [] 0 targets
  | .declaration names value =>
    (match value with
      | some e =>
        e.issues dialect visible (place.field "value") ++
          e.countIssues dialect visible (place.field "value") names.length (.valueCount names.length)
      | none => []) ++
      visible.declarationIssues dialect place 0 names
  | .conditional condition body =>
    condition.singleIssues dialect visible (place.field "condition") .condition ++
      Block.issues visible (place.field "body") body
  | .switch scrutinee cases =>
    scrutinee.singleIssues dialect visible (place.field "expression") .scrutinee ++
      Case.listIssues visible place 0 [] cases
  | .function ⟨_, params, returns, body⟩ =>
    visible.localIssues dialect place [] (params ++ returns) ++
      Block.issues (visible.enterFunction (visible.locals dialect (params ++ returns)))
        (place.field "body") body
  | .loop ⟨⟨_, init⟩, condition, post, body⟩ =>
    Statement.initIssues visible.enterLoop (place.field "pre") 0 init ++
      condition.singleIssues dialect (visible.enterLoop.afterAll dialect init) (place.field "condition")
        .loopCondition ++
      Block.issues { visible.enterLoop.afterAll dialect init with inLoopBody := true }
        (place.field "body") body ++
      Block.issues (visible.enterLoop.afterAll dialect init) (place.field "post") post
  | .breakLoop => if visible.inLoopBody then [] else [⟨place, .outsideLoop "break"⟩]
  | .continueLoop => if visible.inLoopBody then [] else [⟨place, .outsideLoop "continue"⟩]
  | .leave => if visible.inFunction then [] else [⟨place, .outsideFunction⟩]
  | .block body => Block.issues visible place body
end

end BlockIR
