import BlockIR.Json
import BlockIR.Place
import BlockIR.Bytes

/-! Shapes: reading a typed value off a document, with everything that is wrong.

A reading gives a value, possibly with complaints that leave it usable, or it is
refused. The faults of the first kind are soft (a text or list that must not be
empty, a number or text outside its range), the others are hard. Readings are
put together so that all complaints are kept, in the order of the document's
fields; a document is accepted when there is no complaint at all. A value that
may be of several variants reports the complaints of the one variant it fits, or
only that it fits none. -/
namespace BlockIR

/-- What can be wrong with the shape of a document. -/
inductive ShapeFault where
  | wrongType (expected : String) (received : String)
  | wrongKind (expected : String)
  | notOneOf (options : List String)
  | noVariant
  | notInteger
  | emptyText
  | emptyList
  | aboveSafe
  | belowSafe
  | negative
  | notHexBytes
  | notNumeral
  deriving DecidableEq, Repr

namespace ShapeFault

/-- The bound `2 ^ 53 - 1`, up to which every integer is a number of documents. -/
def safeBound : Nat := 9007199254740991

/-- The wording of each fault. -/
def message : ShapeFault → String
  | wrongType expected received => "Invalid input: expected " ++ expected ++ ", received " ++ received
  | wrongKind expected => "Invalid input: expected " ++ Json.quote expected
  | notOneOf options => "Invalid option: expected one of " ++ "|".intercalate (options.map Json.quote)
  | noVariant => "Invalid input"
  | notInteger => "Invalid input: expected int, received number"
  | emptyText => "Too small: expected string to have >=1 characters"
  | emptyList => "Too small: expected array to have >=1 items"
  | aboveSafe => "Too big: expected int to be <=" ++ toString safeBound
  | belowSafe => "Too small: expected int to be >=-" ++ toString safeBound
  | negative => "Too small: expected number to be >=0"
  | notHexBytes => "Invalid string: must match pattern /^(0x)?([0-9a-fA-F]\x7b2\x7d)*$/"
  | notNumeral => "Invalid string: must match pattern /^(0x[0-9a-fA-F]+|[0-9]+)$/"

end ShapeFault

/-- A fault and where it stands. -/
structure Complaint where
  place : Place
  fault : ShapeFault
  deriving DecidableEq, Repr

/-- The result of a reading: a usable value with soft complaints, or a refusal. -/
inductive Shape (α : Type) where
  | read (value : α) (complaints : List Complaint)
  | refused (complaints : List Complaint)

namespace Shape
variable {α β : Type}

/-- Everything that is wrong. -/
def complaints : Shape α → List Complaint
  | read _ complaints => complaints
  | refused complaints => complaints

/-- The value, if it is usable. -/
def value? : Shape α → Option α
  | read value _ => some value
  | refused _ => none

/-- Two readings as one: both have to succeed, and the complaints of both are kept. -/
def both (f : Shape (α → β)) (x : Shape α) : Shape β :=
  match f, x with
  | read f before, read value after => read (f value) (before ++ after)
  | f, x => refused (f.complaints ++ x.complaints)

instance : Applicative Shape where
  pure value := read value []
  seq f x := both f (x ())

/-- A refusal for one reason. -/
def refuse (place : Place) (fault : ShapeFault) : Shape α := refused [⟨place, fault⟩]

/-- A value with one complaint about it if `bad`. -/
def noting (place : Place) (fault : ShapeFault) (bad : Bool) (value : α) : Shape α :=
  read value (if bad then [⟨place, fault⟩] else [])

/-- One more complaint about a value, after those there are. -/
def complain (bad : α → Bool) (place : Place) (fault : ShapeFault) : Shape α → Shape α
  | read value complaints => read value (if bad value then complaints ++ [⟨place, fault⟩] else complaints)
  | refused complaints => refused complaints

/-- A variant that is refused is no variant. -/
def asVariant (place : Place) : Shape α → Shape α
  | read value complaints => read value complaints
  | refused _ => refuse place .noVariant

/-- A list that must not be empty. -/
def nonEmpty (place : Place) (list : Shape (List α)) : Shape (List α) :=
  list.complain List.isEmpty place .emptyList

/-! ### Plain values -/

/-- A text. -/
def text (place : Place) : Option Json → Shape String
  | some (.string value) => pure value
  | doc => refuse place (.wrongType "string" (Json.typeName doc))

/-- A text that must not be empty. -/
def name (place : Place) : Option Json → Shape String
  | some (.string value) => noting place .emptyText value.isEmpty value
  | doc => refuse place (.wrongType "string" (Json.typeName doc))

/-- True or false. -/
def boolean (place : Place) : Option Json → Shape Bool
  | some (.bool value) => pure value
  | doc => refuse place (.wrongType "boolean" (Json.typeName doc))

/-- One of a few texts, each standing for a value. -/
def oneOf (place : Place) (options : List (String × α)) : Option Json → Shape α
  | some (.string value) =>
    match options.lookup value with
    | some option => pure option
    | none => refuse place (.notOneOf (options.map Prod.fst))
  | _ => refuse place (.notOneOf (options.map Prod.fst))

/-- The text that marks the kind of an object. -/
def marked (place : Place) (kind : String) : Option Json → Shape Unit
  | some (.string value) => if value = kind then pure () else refuse place (.wrongKind kind)
  | _ => refuse place (.wrongKind kind)

/-- The names in the items of an array. -/
def nameItems (place : Place) : Nat → List Json → Shape (List String)
  | _, [] => pure []
  | position, item :: rest =>
    List.cons <$> name (place.index position) (some item) <*> nameItems place (position + 1) rest

/-- An array of names. -/
def names (place : Place) : Option Json → Shape (List String)
  | some (.array items) => nameItems place 0 items
  | doc => refuse place (.wrongType "array" (Json.typeName doc))

/-- An integer that must not be negative. A fraction is refused, and an infinity is no number. -/
def count (place : Place) : Option Json → Shape Nat
  | some (.number value@(.finite ..)) =>
    match value.toInt? with
    | none => refuse place .notInteger
    | some n =>
      read n.toNat
        ((if (ShapeFault.safeBound : Int) < n then [⟨place, .aboveSafe⟩] else []) ++
          (if n < -(ShapeFault.safeBound : Int) then [⟨place, .belowSafe⟩] else []) ++
          (if n < 0 then [⟨place, .negative⟩] else []))
  | doc => refuse place (.wrongType "number" (Json.typeName doc))

/-- Bytes spelled in hexadecimal. -/
def hexBytes (place : Place) : Option Json → Shape (List UInt8)
  | some (.string value) => noting place .notHexBytes (!Bytes.isSpelling value) (Bytes.ofHex value)
  | doc => refuse place (.wrongType "string" (Json.typeName doc))

/-- The text of a numeral. -/
def numeral (place : Place) : Option Json → Shape String
  | some (.string value) => noting place .notNumeral (Numeral.value? value.toList).isNone value
  | doc => refuse place (.wrongType "string" (Json.typeName doc))

end Shape
end BlockIR
