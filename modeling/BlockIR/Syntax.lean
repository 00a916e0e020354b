import BlockIR.Place

/-! Programs: a block of statements over word-valued expressions.

Blocks nest, declare variables and functions, and have an identity: two blocks
that look alike are still two blocks, because the scopes of a run belong to
blocks. A program read from a document takes for the identity of each block the
place where the block stands (`BlockId`). -/
namespace BlockIR

/-- How the text of a literal is to be read. -/
inductive LiteralKind where
  | number
  | boolean
  | string
  deriving DecidableEq, Repr

/-- The name of a kind in documents. -/
def LiteralKind.name : LiteralKind → String
  | number => "number"
  | boolean => "boolean"
  | string => "string"

/-- A constant as it is written. -/
structure Literal where
  kind : LiteralKind
  text : String
  deriving DecidableEq, Repr

/-- An expression. A call may yield any number of words. -/
inductive Expr where
  | literal (value : Literal)
  | identifier (name : String)
  | call (name : String) (args : List Expr)
  deriving Inhabited

/-- The identity of a block. -/
abbrev BlockId : Type := Place

mutual
/-- A sequence of statements with a scope of its own. -/
structure Block where
  id : BlockId
  statements : List Statement

/-- A statement. -/
inductive Statement where
  /-- An expression run for its effects. -/
  | expression (value : Expr)
  /-- New values for bound variables. -/
  | assignment (targets : List String) (value : Expr)
  /-- New variables, zero without a value. -/
  | declaration (names : List String) (value : Option Expr)
  /-- A block run when the condition is not zero. -/
  | conditional (condition : Expr) (body : Block)
  /-- The block of the first case that matches. -/
  | switch (scrutinee : Expr) (cases : List Case)
  /-- A function visible throughout the block around it. -/
  | function (definition : FunctionDefinition)
  /-- A loop. -/
  | loop (loop : ForLoop)
  /-- Ends the innermost loop. -/
  | breakLoop
  /-- Ends the current round of the innermost loop. -/
  | continueLoop
  /-- Ends the current function. -/
  | leave
  /-- A nested block. -/
  | block (body : Block)

/-- One case of a switch; without a value it is the default. -/
structure Case where
  value : Option Literal
  body : Block

/-- A named function with its parameters and return variables. -/
structure FunctionDefinition where
  name : String
  params : List String
  returns : List String
  body : Block

/-- A loop: `init` runs once, then `body` and `post` in turn while `condition` is not zero. -/
structure ForLoop where
  init : Block
  condition : Expr
  post : Block
  body : Block
end

instance : Inhabited Block := ⟨⟨[], []⟩⟩

instance : Inhabited Statement := ⟨.leave⟩

/-- The functions defined directly in a list of statements, in order. -/
def Statement.functions (statements : List Statement) : List FunctionDefinition :=
  statements.filterMap fun
    | .function definition => some definition
    | _ => none

/-- The functions defined directly in a block, in order. -/
def Block.functions (block : Block) : List FunctionDefinition :=
  Statement.functions block.statements

end BlockIR
