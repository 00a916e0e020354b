import BlockIR.Builtin
import BlockIR.Validation.Issue

/-! What is visible at a place of a program.

Functions are visible throughout the block that defines them and in everything
inside it, also in other functions. Variables are visible from their declaration
to the end of their block, but not inside functions. A new name has to be fresh:
no builtin, and nothing that is visible. -/
namespace BlockIR

/-- How many parameters and returns a function has. -/
structure Signature where
  params : Nat
  returns : Nat
  deriving DecidableEq, Repr

/-- The functions of a block by name. -/
abbrev FunctionTable : Type := List (String × Signature)

/-- What is visible: function tables and variables, those of the innermost block
first, and where control statements are allowed. -/
structure Visible where
  functions : List FunctionTable := []
  vars : List (List String) := []
  inLoopBody : Bool := false
  inFunction : Bool := false

/-- The signature of a function. -/
def FunctionDefinition.signature (definition : FunctionDefinition) : Signature :=
  ⟨definition.params.length, definition.returns.length⟩

namespace Visible

/-- The innermost function of that name. -/
def function? (visible : Visible) (name : String) : Option Signature :=
  visible.functions.findSome? fun table => table.lookup name

/-- Whether a variable of that name is visible. -/
def isVariable (visible : Visible) (name : String) : Bool :=
  visible.vars.any fun names => names.contains name

/-- Why a name is not fresh. -/
def objection? (visible : Visible) (dialect : Dialect) (name : String) : Option Flaw :=
  if (dialect.find? name).isSome then some (.builtinName name)
  else if visible.isVariable name || (visible.function? name).isSome then some (.takenName name)
  else none

/-- Adds a variable to the innermost block. -/
def addVariable (visible : Visible) (name : String) : Visible :=
  match visible.vars with
  | [] => { visible with vars := [[name]] }
  | names :: outer => { visible with vars := (name :: names) :: outer }

/-- Declares a variable if its name is fresh. -/
def declare (visible : Visible) (dialect : Dialect) (name : String) : Visible :=
  if (visible.objection? dialect name).isSome then visible else visible.addVariable name

/-- Declares variables from left to right. -/
def declareAll (visible : Visible) (dialect : Dialect) (names : List String) : Visible :=
  names.foldl (fun visible name => visible.declare dialect name) visible

/-- Inside a block that defines the given functions. -/
def enterBlock (visible : Visible) (functions : FunctionTable) : Visible :=
  { visible with functions := functions :: visible.functions, vars := [] :: visible.vars }

/-- In front of a loop. -/
def enterLoop (visible : Visible) : Visible :=
  { visible with vars := [] :: visible.vars, inLoopBody := false }

/-- Inside the body of a function with the given variables. -/
def enterFunction (visible : Visible) (names : List String) : Visible :=
  { visible with vars := [names], inLoopBody := false, inFunction := true }

/-- After a statement: a declaration has declared its variables. -/
def after (visible : Visible) (dialect : Dialect) : Statement → Visible
  | .declaration names _ => visible.declareAll dialect names
  | _ => visible

/-- After statements. -/
def afterAll (visible : Visible) (dialect : Dialect) (statements : List Statement) : Visible :=
  statements.foldl (fun visible s => visible.after dialect s) visible

/-- The table of the functions that a block defines, with one more if its name is new and fresh. -/
def define (visible : Visible) (dialect : Dialect) (table : FunctionTable)
    (definition : FunctionDefinition) : FunctionTable :=
  if (table.lookup definition.name).isSome || (visible.objection? dialect definition.name).isSome then table
  else (definition.name, definition.signature) :: table

/-- The functions that a block of these statements defines. -/
def table (visible : Visible) (dialect : Dialect) (statements : List Statement) : FunctionTable :=
  (Statement.functions statements).foldl (fun table f => visible.define dialect table f) []

/-- The variables that a function starts with, with one more if its name is new and fresh. -/
def addLocal (visible : Visible) (dialect : Dialect) (locals : List String) (name : String) : List String :=
  if locals.contains name || ((visible.enterFunction locals).objection? dialect name).isSome then locals
  else name :: locals

/-- The parameters and returns of a function. -/
def locals (visible : Visible) (dialect : Dialect) (names : List String) : List String :=
  names.foldl (fun locals name => visible.addLocal dialect locals name) []

end Visible
end BlockIR
