import BlockIR.Arity
import BlockIR.Json.Shape
import BlockIR.Error

/-! Issues: what is wrong with a program, and where.

A document is first read; what is wrong then is a fault of its shape. A program
that has the right shape is checked for names, numbers of values and the places
of control statements. An issue points at the node, name or list item that it is
about. -/
namespace BlockIR

/-- What has to yield exactly one value. -/
inductive Role where
  | argument
  | condition
  | scrutinee
  | loopCondition
  deriving DecidableEq, Repr

/-- How a role is called in messages. -/
def Role.title : Role → String
  | argument => "Function argument"
  | condition => "Condition"
  | scrutinee => "Switch expression"
  | loopCondition => "Loop condition"

/-- What can be wrong with a program. -/
inductive Flaw where
  /-- The document does not have the shape of a program. -/
  | shape (fault : ShapeFault)
  /-- A literal without a value. -/
  | badLiteral (text : String) (fault : LiteralFault)
  /-- A variable that is not visible. -/
  | undeclared (name : String)
  /-- A declared name that a builtin has. -/
  | builtinName (name : String)
  /-- A declared name that is visible already. -/
  | takenName (name : String)
  /-- A second function of one name in a block. -/
  | duplicateFunction (name : String)
  /-- A second parameter or return variable of one name. -/
  | duplicateLocal (name : String)
  /-- A number of values other than one. -/
  | notSingle (role : Role) (got : Nat)
  /-- An argument that has to be a literal and is not. -/
  | literalWanted (position : Nat) (callee : String)
  /-- A wrong number of arguments. -/
  | argumentCount (callee : String) (expected : Arity) (got : Nat)
  /-- A callee that is not visible. -/
  | unknownFunction (name : String)
  /-- An expression statement that yields values. -/
  | unusedValues (got : Nat)
  /-- A second assignment to a variable in one statement. -/
  | assignedTwice (name : String)
  /-- An assignment to a function. -/
  | assignedFunction (name : String)
  /-- An assignment to a variable that is not visible. -/
  | assignedUndeclared (name : String)
  /-- A wrong number of values for the variables of a statement. -/
  | valueCount (expected got : Nat)
  /-- A default case with cases after it. -/
  | defaultNotLast
  /-- A case whose value an earlier case has. -/
  | duplicateCase (text : String)
  /-- A break or continue outside the body of a loop. -/
  | outsideLoop (keyword : String)
  /-- A leave outside a function. -/
  | outsideFunction
  /-- A function among the statements in front of a loop. -/
  | functionInInit
  deriving DecidableEq, Repr

/-- The wording of each flaw. -/
def Flaw.message : Flaw → String
  | shape fault => fault.message
  | badLiteral text fault => (Error.invalidLiteral text fault).message
  | undeclared name => "Undeclared identifier: " ++ name
  | builtinName name => "Name collides with a builtin: " ++ name
  | takenName name => "Name already declared: " ++ name
  | duplicateFunction name => "Duplicate function definition: " ++ name
  | duplicateLocal name => "Duplicate parameter or return variable: " ++ name
  | notSingle role got => role.title ++ " must produce exactly one value, got " ++ toString got
  | literalWanted position callee =>
    "Argument " ++ toString position ++ " of " ++ callee ++ " must be a literal"
  | argumentCount callee expected got =>
    callee ++ " expects " ++ expected.number.text ++ " arguments, got " ++ toString got
  | unknownFunction name => "Function not found: " ++ name
  | unusedValues got => "Expression statement must not produce values, got " ++ toString got
  | assignedTwice name => "Variable assigned twice: " ++ name
  | assignedFunction name => "Cannot assign to function: " ++ name
  | assignedUndeclared name => "Assignment to undeclared variable: " ++ name
  | valueCount expected got => "Expected " ++ toString expected ++ " values, got " ++ toString got
  | defaultNotLast => "Default case must be the last case"
  | duplicateCase _ => "Duplicate case value"
  | outsideLoop keyword => Json.quote keyword ++ " is only allowed inside a for-loop body"
  | outsideFunction => "\"leave\" is only allowed inside a function"
  | functionInInit => "Function definitions are not allowed in a for-loop init block"

/-- A flaw and where it stands. -/
structure Issue where
  place : Place
  flaw : Flaw
  deriving DecidableEq, Repr

namespace Issue

/-- The issue that a complaint about the shape of a document is. -/
def ofComplaint (complaint : Complaint) : Issue := ⟨complaint.place, .shape complaint.fault⟩

/-- The text an issue carries with it: that of a repeated case. -/
def value? (issue : Issue) : Option String :=
  match issue.flaw with
  | .duplicateCase text => some text
  | _ => none

/-- The issue as an error. -/
def toError (issue : Issue) : Error :=
  .validation issue.place.text issue.flaw.message (issue.value?.map Json.string)

end Issue
end BlockIR
