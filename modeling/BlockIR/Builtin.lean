import BlockIR.Arity
import BlockIR.Machine
import BlockIR.Syntax

/-! Builtins and dialects.

A builtin is a named operation on words that can read the setting and change the
machine. It has an arity, may demand that some of its arguments are written as
literals, and may return nothing worth having. A dialect is a name and a set of
builtins with different names; it evaluates only builtins of its own.

Two builtins are the same when their dialect, name and origin agree: a builtin
added to a dialect is never taken for a standard one of the same name. -/
namespace BlockIR

/-- An argument as it is written. The calls of a program have expressions; of any other node that a
host hands over, only the kind is known. -/
inductive Argument where
  | expression (e : Expr)
  | node (kind : String)

/-- A call of a builtin: the argument values, and the arguments as written.
A value is 0 where the argument has to be a literal. -/
structure Call where
  args : List Word
  raw : List Argument

/-- The value of an argument. -/
def Call.arg (call : Call) (position : Nat) : Action Word :=
  match call.args[position]? with
  | some value => pure value
  | none => Effect.fail (.arityMismatch (.ofNat (position + 1)) (.ofNat call.args.length) "builtin argument")

/-- The value of an argument at a position that a host states; none stands at one that is not natural. -/
def Call.argAt (call : Call) (position : Json.Number) : Action Word :=
  match position.toInt? with
  | some (.ofNat position) => call.arg position
  | _ => Effect.fail (.arityMismatch position.next (.ofNat call.args.length) "builtin argument")

/-- Where a builtin comes from. -/
inductive Origin where
  | standard
  | added
  deriving DecidableEq, Repr

/-- An operation on words. -/
structure Builtin where
  dialect : String
  name : String
  arity : Arity
  /-- Empty when no argument has to be a literal, else one flag for each argument. -/
  literalArguments : List Bool
  returnsValue : Bool
  origin : Origin
  body : Setting → Call → Action Word

/-- A builtin about to be defined. -/
structure BuiltinSpec where
  dialect : String
  name : String
  arity : Arity := .exactly 0
  literalArguments : List Bool := []
  returnsValue : Bool := true
  origin : Origin := .added
  body : Option (Setting → Call → Action Word) := none

namespace BuiltinSpec

/-- The builtin, if it has a body and its flags number its arguments. -/
def build (spec : BuiltinSpec) : Except Error Builtin :=
  match spec.body with
  | none => .error (.missingBody spec.dialect spec.name)
  | some body =>
    if spec.literalArguments ≠ [] ∧ spec.arity ≠ .exactly spec.literalArguments.length then
      .error (.literalFlags spec.dialect spec.name)
    else
      .ok { dialect := spec.dialect, name := spec.name, arity := spec.arity
            literalArguments := spec.literalArguments, returnsValue := spec.returnsValue
            origin := spec.origin, body := body }

end BuiltinSpec

namespace Builtin

/-- Whether an argument has to be written as a literal. -/
def wantsLiteral (builtin : Builtin) (position : Nat) : Bool :=
  builtin.literalArguments.getD position false

/-- Whether two builtins are the same one. -/
def same (a b : Builtin) : Bool :=
  a.dialect = b.dialect && a.name = b.name && a.origin = b.origin

end Builtin

/-- A name and builtins with different names. -/
structure Dialect where
  name : String
  builtins : List Builtin

namespace Dialect

/-- The builtin of that name. -/
def find? (dialect : Dialect) (name : String) : Option Builtin :=
  dialect.builtins.find? fun builtin => builtin.name = name

/-- Whether an argument of a callee has to be written as a literal. -/
def wantsLiteral (dialect : Dialect) (callee : String) (position : Nat) : Bool :=
  match dialect.find? callee with
  | some builtin => builtin.wantsLiteral position
  | none => false

/-- The first builtin whose name has been seen or belongs to an earlier one. -/
def firstDuplicate (seen : List String) : List Builtin → Option Builtin
  | [] => none
  | builtin :: rest =>
    if builtin.name ∈ seen then some builtin else firstDuplicate (builtin.name :: seen) rest

/-- A dialect of the given builtins, if their names differ. -/
def ofBuiltins (name : String) (builtins : List Builtin) : Except Error Dialect :=
  match firstDuplicate [] builtins with
  | some builtin => .error (.duplicateBuiltin builtin.dialect builtin.name)
  | none => .ok ⟨name, builtins⟩

/-- Whether a builtin is one of the dialect's own. -/
def owns (dialect : Dialect) (builtin : Builtin) : Bool :=
  builtin.dialect = dialect.name && (dialect.find? builtin.name).any builtin.same

/-- Evaluates a call of a builtin. The body is reached only with as many arguments as the arity says. -/
def evaluate (dialect : Dialect) (setting : Setting) (builtin : Builtin) (call : Call) : Action Word :=
  if dialect.owns builtin then
    if builtin.arity = .exactly call.args.length then builtin.body setting call
    else Effect.fail (.arityMismatch builtin.arity.number (.ofNat call.args.length) builtin.name)
  else Effect.fail (.unknownBuiltin dialect.name builtin.name)

end Dialect

/-- Appends the line `NAME(0xA, 0xB)`. -/
def logCall (name : String) (args : List Word) : Action Unit :=
  logLine (name ++ "(" ++ ", ".intercalate (args.map fun (w : Word) => Word.hex w) ++ ")")

end BlockIR
