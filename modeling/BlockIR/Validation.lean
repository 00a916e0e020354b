import BlockIR.Syntax.Reading
import BlockIR.Target
import BlockIR.Validation.Check

/-! Validation: from a document to a program that is fit to run.

A document is read, and if it has the shape of a program the program is checked.
The dialect only matters for the check, so an unknown dialect is noticed only
then. -/
namespace BlockIR
namespace Validation

/-- The program in a document, or everything that is wrong with its shape. -/
def readProgram (doc : Option Json) : Except (List Issue) Block :=
  match Block.read? [] doc with
  | .read program [] => .ok program
  | shape => .error (shape.complaints.map Issue.ofComplaint)

/-- All issues of a program. -/
def issues (dialect : Dialect) (program : Block) : List Issue := program.issues dialect {} []

/-- The program in a document if it is fit to run for a target, or its issues. -/
def validate (target : Target) (doc : Option Json) : Except (List Issue) Block := do
  let program ← readProgram doc
  match issues target.dialect program with
  | [] => .ok program
  | found => .error found

/-- Validates for a target given by name. -/
def validateFor (dialect : String) (doc : Option Json) : Except Error (Except (List Issue) Block) :=
  match readProgram doc with
  | .error found => .ok (.error found)
  | .ok _ => (Target.ofName dialect).map fun target => validate target doc

/-- The result of a validation with its first issue as an error. -/
def firstIssue : Except (List Issue) Block → Except Error Block
  | .ok program => .ok program
  | .error (issue :: _) => .error issue.toError
  | .error [] => .error (.validation "$" "no program" none)

/-- The program in a document, or its first issue as an error. -/
def load (target : Target) (doc : Option Json) : Except Error Block := firstIssue (validate target doc)

/-- Loads for a target given by name. -/
def loadFor (dialect : String) (doc : Option Json) : Except Error Block := do
  firstIssue (← validateFor dialect doc)

end Validation
end BlockIR
