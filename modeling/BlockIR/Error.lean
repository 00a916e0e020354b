import BlockIR.Json
import BlockIR.Word.Numeral

/-! Errors: every way in which reading, checking or running a program can fail.

The two limits and the domain errors are outcomes of a run; the rest says that
the program, the options or the host broke a rule. An error carries its cause,
`message` is its wording, `code` the class it is reported under. The errors of
the last group have no class of their own: they are mistakes of the host. An amount
in an error is a number of documents, since a host may state any. -/
namespace BlockIR

/-- Why a builtin cannot act on its arguments. -/
inductive DomainFault where
  /-- The first argument is not written as a string literal. -/
  | notStringLiteral (builtin : String)
  /-- No data object has that name. -/
  | unknownData (name : String)
  /-- A reason given in words. -/
  | stated (reason : String)
  deriving DecidableEq, Repr

/-- The wording of each fault. -/
def DomainFault.message : DomainFault → String
  | notStringLiteral builtin => builtin ++ " expects a string literal argument"
  | unknownData name => "Unknown data object: " ++ name
  | stated reason => reason

/-- A failure. -/
inductive Error where
  /-- The step budget is used up. -/
  | stepLimit (maxSteps : Json.Number)
  /-- Expressions nest deeper than allowed. -/
  | nestingLimit (maxNesting : Json.Number)
  /-- A variable without a value. -/
  | unboundIdentifier (name : String)
  /-- A second declaration of a variable. -/
  | redeclaration (name : String)
  /-- A wrong number of values. -/
  | arityMismatch (expected got : Json.Number) (what : String)
  /-- A call of a function that is not visible. -/
  | unknownFunction (name : String)
  /-- A builtin that the dialect does not have. -/
  | unknownBuiltin (dialect name : String)
  /-- A literal without a value. -/
  | invalidLiteral (text : String) (fault : LiteralFault)
  /-- An attempt to leave the root scope. -/
  | scopeUnderflow
  /-- A builtin given arguments it cannot act on. -/
  | domain (fault : DomainFault)
  /-- A document that is refused. -/
  | validation (path message : String) (value : Option Json)
  /-- A scope id that was never given out. -/
  | unknownScope (id : Json.Number)
  /-- A builtin defined without a body. -/
  | missingBody (dialect name : String)
  /-- A builtin whose literal flags do not number its arguments. -/
  | literalFlags (dialect name : String)
  /-- Two builtins of one name. -/
  | duplicateBuiltin (dialect name : String)
  /-- A value outside the known ones. -/
  | unexpectedValue (text : String)

namespace Error

/-- The class an error is reported under. -/
def code : Error → String
  | stepLimit _ => "StepLimitReached"
  | nestingLimit _ => "ExpressionNestingLimitReached"
  | unboundIdentifier _ => "UnboundIdentifier"
  | redeclaration _ => "Redeclaration"
  | arityMismatch .. => "ArityMismatch"
  | unknownFunction _ => "UnknownFunction"
  | unknownBuiltin .. => "UnknownBuiltin"
  | invalidLiteral .. => "InvalidLiteral"
  | scopeUnderflow => "ScopeUnderflow"
  | domain _ => "DomainError"
  | validation .. => "ValidationError"
  | unknownScope _ | missingBody .. | literalFlags .. | duplicateBuiltin .. | unexpectedValue _ => "Error"

/-- The wording of an error. -/
def message : Error → String
  | stepLimit maxSteps => "Step limit reached after " ++ maxSteps.text ++ " steps"
  | nestingLimit maxNesting => "Expression nesting level exceeded " ++ maxNesting.text
  | unboundIdentifier name => "Unbound identifier: " ++ name
  | redeclaration name => "Variable already declared: " ++ name
  | arityMismatch expected got what =>
    "Arity mismatch: " ++ what ++ " expects " ++ expected.text ++ " values, got " ++ got.text
  | unknownFunction name => "Function not found: " ++ name
  | unknownBuiltin dialect name => "Unknown builtin: " ++ dialect ++ ":" ++ name
  | invalidLiteral text fault => "Invalid literal " ++ Json.quote text ++ ": " ++ fault.message
  | scopeUnderflow => "Cannot leave the root scope"
  | domain fault => fault.message
  | validation path message value =>
    "Validation error at " ++ path ++ ": " ++ message ++
      match value with
      | some value => " (value: " ++ value.compact ++ ")"
      | none => ""
  | unknownScope id => "Unknown scope id: " ++ id.text
  | missingBody dialect name => "Builtin " ++ dialect ++ ":" ++ name ++ " has no implementation"
  | literalFlags dialect name =>
    "Builtin " ++ dialect ++ ":" ++ name ++ " literal flags do not match arity"
  | duplicateBuiltin dialect name => "Duplicate builtin: " ++ dialect ++ ":" ++ name
  | unexpectedValue text => "Unexpected value: " ++ text

/-- Whether an error says that a limit of the run was reached. -/
def isLimit : Error → Bool
  | stepLimit _ | nestingLimit _ => true
  | _ => false

end Error
end BlockIR
