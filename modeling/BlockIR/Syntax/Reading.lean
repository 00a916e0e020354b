import BlockIR.Json.Shape
import BlockIR.Syntax

/-! Programs from documents.

Each node is recognised by its `kind`, its fields are read in a fixed order, and
fields that do not belong to it are ignored. Expressions and statements are of
several variants, so what is wrong inside one shows as `Invalid input` at the
outermost of them, unless only names or lists are empty. A block takes the place
it is read at for its identity. -/
namespace BlockIR

/-- The kinds of literals by name. -/
def LiteralKind.options : List (String × LiteralKind) :=
  [LiteralKind.number, .boolean, .string].map fun kind => (kind.name, kind)

/-- Reads a literal. -/
def Literal.read? (place : Place) : Option Json → Shape Literal
  | some (.object members) =>
    (fun _ kind text => ⟨kind, text⟩)
      <$> Shape.marked (place.field "kind") "literal" (Json.member members "kind")
      <*> Shape.oneOf (place.field "literalKind") LiteralKind.options (Json.member members "literalKind")
      <*> Shape.text (place.field "value") (Json.member members "value")
  | doc => Shape.refuse place (.wrongType "object" (Json.typeName doc))

/-- The `kind` of a document, if it is an object that has one. -/
def Json.kind? : Option Json → Option String
  | some (.object members) =>
    match Json.member members "kind" with
    | some (.string kind) => some kind
    | _ => none
  | _ => none

mutual
/-- Reads an expression. -/
def Expr.read? (place : Place) (doc : Option Json) : Shape Expr :=
  match doc with
  | some (.object members) =>
    Shape.asVariant place <|
      match Json.kind? doc with
      | some "literal" => .literal <$> Literal.read? place doc
      | some "identifier" => .identifier <$> Shape.name (place.field "name") (Json.member members "name")
      | some "call" =>
        .call
          <$> Shape.name (place.field "name") (Json.member members "name")
          <*> Expr.readArray (place.field "args") (Json.member members "args")
      | _ => Shape.refuse place .noVariant
  | _ => Shape.refuse place .noVariant
termination_by sizeOf doc
decreasing_by exact Json.sizeOf_member _ _

/-- Reads an array of expressions. -/
def Expr.readArray (place : Place) (doc : Option Json) : Shape (List Expr) :=
  match doc with
  | some (.array items) => Expr.readItems place 0 items
  | doc => Shape.refuse place (.wrongType "array" (Json.typeName doc))
termination_by sizeOf doc
decreasing_by exact Json.sizeOf_items _

/-- Reads the items of an array of expressions from a position on. -/
def Expr.readItems (place : Place) (position : Nat) (items : List Json) : Shape (List Expr) :=
  match items with
  | [] => pure []
  | item :: rest =>
    List.cons <$> Expr.read? (place.index position) (some item) <*> Expr.readItems place (position + 1) rest
termination_by sizeOf items
decreasing_by
  · exact Json.sizeOf_first _ _
  · exact Json.sizeOf_rest _ _
end

/-- Reads an expression that may be absent. -/
def Expr.readOptional (place : Place) (doc : Option Json) : Shape (Option Expr) :=
  if doc.isNone then pure none else some <$> Expr.read? place doc

/-- Reads a literal that may be absent. -/
def Literal.readOptional (place : Place) (doc : Option Json) : Shape (Option Literal) :=
  if doc.isNone then pure none else some <$> Literal.read? place doc

mutual
/-- Reads a block. -/
def Block.read? (place : Place) (doc : Option Json) : Shape Block :=
  match doc with
  | some (.object members) =>
    (fun _ statements => ⟨place, statements⟩)
      <$> Shape.marked (place.field "kind") "block" (Json.member members "kind")
      <*> Statement.readArray (place.field "statements") (Json.member members "statements")
  | doc => Shape.refuse place (.wrongType "object" (Json.typeName doc))
termination_by sizeOf doc
decreasing_by exact Json.sizeOf_member _ _

/-- Reads a statement. -/
def Statement.read? (place : Place) (doc : Option Json) : Shape Statement :=
  match doc with
  | some (.object members) =>
    Shape.asVariant place <|
      match Json.kind? doc with
      | some "expression" =>
        .expression <$> Expr.read? (place.field "expression") (Json.member members "expression")
      | some "assignment" =>
        .assignment
          <$> (Shape.names (place.field "targets") (Json.member members "targets")).nonEmpty (place.field "targets")
          <*> Expr.read? (place.field "value") (Json.member members "value")
      | some "variableDeclaration" =>
        .declaration
          <$> (Shape.names (place.field "names") (Json.member members "names")).nonEmpty (place.field "names")
          <*> Expr.readOptional (place.field "value") (Json.member members "value")
      | some "if" =>
        .conditional
          <$> Expr.read? (place.field "condition") (Json.member members "condition")
          <*> Block.read? (place.field "body") (Json.member members "body")
      | some "switch" =>
        .switch
          <$> Expr.read? (place.field "expression") (Json.member members "expression")
          <*> (Case.readArray (place.field "cases") (Json.member members "cases")).nonEmpty (place.field "cases")
      | some "functionDefinition" =>
        (fun name params returns body => .function ⟨name, params, returns, body⟩)
          <$> Shape.name (place.field "name") (Json.member members "name")
          <*> Shape.names (place.field "params") (Json.member members "params")
          <*> Shape.names (place.field "returns") (Json.member members "returns")
          <*> Block.read? (place.field "body") (Json.member members "body")
      | some "for" =>
        (fun init condition post body => .loop ⟨init, condition, post, body⟩)
          <$> Block.read? (place.field "pre") (Json.member members "pre")
          <*> Expr.read? (place.field "condition") (Json.member members "condition")
          <*> Block.read? (place.field "post") (Json.member members "post")
          <*> Block.read? (place.field "body") (Json.member members "body")
      | some "break" => pure .breakLoop
      | some "continue" => pure .continueLoop
      | some "leave" => pure .leave
      | some "block" =>
        (fun statements => .block ⟨place, statements⟩)
          <$> Statement.readArray (place.field "statements") (Json.member members "statements")
      | _ => Shape.refuse place .noVariant
  | _ => Shape.refuse place .noVariant
termination_by sizeOf doc
decreasing_by all_goals exact Json.sizeOf_member _ _

/-- Reads an array of statements. -/
def Statement.readArray (place : Place) (doc : Option Json) : Shape (List Statement) :=
  match doc with
  | some (.array items) => Statement.readItems place 0 items
  | doc => Shape.refuse place (.wrongType "array" (Json.typeName doc))
termination_by sizeOf doc
decreasing_by exact Json.sizeOf_items _

/-- Reads the items of an array of statements from a position on. -/
def Statement.readItems (place : Place) (position : Nat) (items : List Json) : Shape (List Statement) :=
  match items with
  | [] => pure []
  | item :: rest =>
    List.cons <$> Statement.read? (place.index position) (some item)
      <*> Statement.readItems place (position + 1) rest
termination_by sizeOf items
decreasing_by
  · exact Json.sizeOf_first _ _
  · exact Json.sizeOf_rest _ _

/-- Reads a case. -/
def Case.read? (place : Place) (doc : Option Json) : Shape Case :=
  match doc with
  | some (.object members) =>
    Case.mk
      <$> Literal.readOptional (place.field "value") (Json.member members "value")
      <*> Block.read? (place.field "body") (Json.member members "body")
  | doc => Shape.refuse place (.wrongType "object" (Json.typeName doc))
termination_by sizeOf doc
decreasing_by exact Json.sizeOf_member _ _

/-- Reads an array of cases. -/
def Case.readArray (place : Place) (doc : Option Json) : Shape (List Case) :=
  match doc with
  | some (.array items) => Case.readItems place 0 items
  | doc => Shape.refuse place (.wrongType "array" (Json.typeName doc))
termination_by sizeOf doc
decreasing_by exact Json.sizeOf_items _

/-- Reads the items of an array of cases from a position on. -/
def Case.readItems (place : Place) (position : Nat) (items : List Json) : Shape (List Case) :=
  match items with
  | [] => pure []
  | item :: rest =>
    List.cons <$> Case.read? (place.index position) (some item) <*> Case.readItems place (position + 1) rest
termination_by sizeOf items
decreasing_by
  · exact Json.sizeOf_first _ _
  · exact Json.sizeOf_rest _ _
end

end BlockIR
