import BlockIR.Json.Number

/-! Arities: how many arguments an operation takes.

An operation of a program takes a natural number of them. A host may state any
number when it defines a builtin; one that is not natural is met by no list of
arguments, and is kept only to be reported. -/
namespace BlockIR

/-- A number of arguments. -/
inductive Arity where
  | exactly (count : Nat)
  /-- A stated number that no list of arguments has. -/
  | unmet (stated : Json.Number)
  deriving DecidableEq, Repr

namespace Arity

/-- The arity that a number states. -/
def ofNumber (stated : Json.Number) : Arity :=
  match stated.toInt? with
  | some (.ofNat count) => exactly count
  | _ => unmet stated

/-- An arity as a number. -/
def number : Arity → Json.Number
  | exactly count => .ofNat count
  | unmet stated => stated

end Arity
end BlockIR
