import BlockIR.Json
import BlockIR.Syntax

/-! Programs as documents.

Every node of a program is an object whose `kind` says which; cases alone have
none. The first part builds these objects from given fields, the second writes a
program with them. The identities of blocks are not written: they are the places
at which the blocks stand. -/
namespace BlockIR
namespace Document

/-- An object of a kind. -/
def node (kind : String) (fields : List (String × Json)) : Json :=
  .object (("kind", .string kind) :: fields)

/-- A field that may be absent. -/
def optional (name : String) (value : Option Json) : List (String × Json) :=
  match value with
  | some value => [(name, value)]
  | none => []

/-- A literal of a kind. -/
def literal (kind : LiteralKind) (value : Json) : Json :=
  node "literal" [("literalKind", .string kind.name), ("value", value)]

/-- A variable as an expression. -/
def identifier (name : Json) : Json := node "identifier" [("name", name)]

/-- A call. -/
def call (name : Json) (args : List Json) : Json := node "call" [("name", name), ("args", .array args)]

/-- A block. -/
def block (statements : List Json) : Json := node "block" [("statements", .array statements)]

/-- A declaration, with or without a value. -/
def declaration (names : Json) (value : Option Json) : Json :=
  node "variableDeclaration" (("names", names) :: optional "value" value)

/-- An assignment. -/
def assignment (targets value : Json) : Json := node "assignment" [("targets", targets), ("value", value)]

/-- An expression as a statement. -/
def expression (value : Json) : Json := node "expression" [("expression", value)]

/-- A conditional block. -/
def conditional (condition body : Json) : Json := node "if" [("condition", condition), ("body", body)]

/-- A switch. -/
def switch (scrutinee : Json) (cases : List Json) : Json :=
  node "switch" [("expression", scrutinee), ("cases", .array cases)]

/-- A case; without a value the default. -/
def case (value : Option Json) (body : Json) : Json := .object (optional "value" value ++ [("body", body)])

/-- A function. -/
def function (name params returns body : Json) : Json :=
  node "functionDefinition" [("name", name), ("params", params), ("returns", returns), ("body", body)]

/-- A loop. -/
def loop (init condition post body : Json) : Json :=
  node "for" [("pre", init), ("condition", condition), ("post", post), ("body", body)]

/-- The end of a loop. -/
def breakLoop : Json := node "break" []

/-- The end of a round. -/
def continueLoop : Json := node "continue" []

/-- The end of a function. -/
def leave : Json := node "leave" []

/-- Names as an array; a single name may stand for itself. -/
def names : Json → Json
  | .string name => .array [.string name]
  | names => names

/-- Names as an array. -/
def ofNames (names : List String) : Json := .array (names.map Json.string)

end Document

/-! ### Writing -/

/-- A literal as a document. -/
def Literal.toJson (literal : Literal) : Json := Document.literal literal.kind (.string literal.text)

mutual
/-- An expression as a document. -/
def Expr.toJson : Expr → Json
  | .literal l => l.toJson
  | .identifier name => Document.identifier (.string name)
  | .call name args => Document.call (.string name) (Expr.listToJson args)

/-- Expressions as documents. -/
def Expr.listToJson : List Expr → List Json
  | [] => []
  | e :: rest => e.toJson :: Expr.listToJson rest
end

mutual
/-- A statement as a document. -/
def Statement.toJson : Statement → Json
  | .expression e => Document.expression e.toJson
  | .assignment targets e => Document.assignment (Document.ofNames targets) e.toJson
  | .declaration names value => Document.declaration (Document.ofNames names) (value.map Expr.toJson)
  | .conditional condition body => Document.conditional condition.toJson body.toJson
  | .switch scrutinee cases => Document.switch scrutinee.toJson (Statement.casesToJson cases)
  | .function ⟨name, params, returns, body⟩ =>
    Document.function (.string name) (Document.ofNames params) (Document.ofNames returns) body.toJson
  | .loop ⟨init, condition, post, body⟩ =>
    Document.loop init.toJson condition.toJson post.toJson body.toJson
  | .breakLoop => Document.breakLoop
  | .continueLoop => Document.continueLoop
  | .leave => Document.leave
  | .block body => body.toJson

/-- A block as a document. -/
def Block.toJson : Block → Json
  | ⟨_, statements⟩ => Document.block (Statement.listToJson statements)

/-- Statements as documents. -/
def Statement.listToJson : List Statement → List Json
  | [] => []
  | s :: rest => s.toJson :: Statement.listToJson rest

/-- Cases as documents. -/
def Statement.casesToJson : List Case → List Json
  | [] => []
  | ⟨value, body⟩ :: rest =>
    Document.case (value.map Literal.toJson) body.toJson :: Statement.casesToJson rest
end

end BlockIR
