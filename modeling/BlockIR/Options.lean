import BlockIR.Json.Shape
import BlockIR.Machine
import BlockIR.Target

/-! Options: how a run is set up.

Options are a document whose fields may all be absent. The first thing wrong
with it, in a fixed order of the fields, is reported. Words of the environment
are given as numbers or as numerals; whether a numeral fits into a word is
checked only when all options have the right shape. -/
namespace BlockIR

/-- A word of the environment as it is given. -/
inductive WordOption where
  | number (value : Nat)
  | numeral (text : String)
  deriving DecidableEq, Repr

namespace WordOption

/-- The word that is given. -/
def value : WordOption → Except Error Word
  | number value => .ok value
  | numeral text => (Word.parse text).mapError (.invalidLiteral text)

/-- Reads a number or a numeral. If neither is right, the one that is only out of
range tells what is wrong. -/
def read? (place : Place) (doc : Option Json) : Shape WordOption :=
  match Shape.count place doc, Shape.numeral place doc with
  | .read n [], _ => .read (.number n) []
  | _, .read text [] => .read (.numeral text) []
  | .read n complaints, .refused _ => .read (.number n) complaints
  | .refused _, .read text complaints => .read (.numeral text) complaints
  | _, _ => Shape.refuse place .noVariant

end WordOption

/-- Options of the right shape. -/
structure OptionFields where
  maxSteps : Option Nat
  maxNesting : Option Nat
  target : Option Target
  calldata : Option (List UInt8)
  address : Option WordOption
  caller : Option WordOption
  callvalue : Option WordOption
  dataObjects : Option (List DataObject)
  verbose : Option Bool

/-- Options ready for use. -/
structure Options where
  setting : Setting
  target : Target
  verbose : Bool

namespace Options

/-- Reads a field that may be absent. -/
def field {α : Type} (members : List (String × Json)) (name : String)
    (read? : Place → Option Json → Shape α) : Shape (Option α) :=
  match Json.member members name with
  | none => pure none
  | some value => some <$> read? [.field name] (some value)

/-- Reads a data object. -/
def dataObject (place : Place) : Option Json → Shape DataObject
  | some (.object members) =>
    DataObject.mk
      <$> Shape.name (place.field "name") (Json.member members "name")
      <*> Shape.hexBytes (place.field "data") (Json.member members "data")
  | doc => Shape.refuse place (.wrongType "object" (Json.typeName doc))

/-- Reads data objects from a position on. -/
def dataObjectItems (place : Place) : Nat → List Json → Shape (List DataObject)
  | _, [] => pure []
  | position, item :: rest =>
    List.cons <$> dataObject (place.index position) (some item) <*> dataObjectItems place (position + 1) rest

/-- Reads an array of data objects. -/
def dataObjects (place : Place) : Option Json → Shape (List DataObject)
  | some (.array items) => dataObjectItems place 0 items
  | doc => Shape.refuse place (.wrongType "array" (Json.typeName doc))

/-- The names of the targets. -/
def targets : List (String × Target) := [Target.evm, .wasm].map fun target => (target.name, target)

/-- Reads options. -/
def read? : Json → Shape OptionFields
  | .object members =>
    OptionFields.mk
      <$> field members "maxSteps" Shape.count
      <*> field members "maxExprNesting" Shape.count
      <*> field members "dialect" (fun place => Shape.oneOf place targets)
      <*> field members "calldata" Shape.hexBytes
      <*> field members "address" WordOption.read?
      <*> field members "caller" WordOption.read?
      <*> field members "callvalue" WordOption.read?
      <*> field members "dataObjects" dataObjects
      <*> field members "verbose" Shape.boolean
  | doc => Shape.refuse [] (.wrongType "object" (Json.typeName (some doc)))

/-- A word of the environment, zero if it is not given. -/
def word : Option WordOption → Except Error Word
  | none => .ok 0
  | some given => given.value

/-- Options from fields, with what is not given filled in. -/
def ofFields (fields : OptionFields) : Except Error Options := do
  let address ← word fields.address
  let caller ← word fields.caller
  let callvalue ← word fields.callvalue
  .ok {
    setting := {
      maxSteps := fields.maxSteps.getD 0
      maxNesting := fields.maxNesting.getD 0
      calldata := fields.calldata.getD []
      address := address
      caller := caller
      callvalue := callvalue
      dataObjects := fields.dataObjects.getD [] }
    target := fields.target.getD .evm
    verbose := fields.verbose.getD false }

/-- Options from a document; no document is the same as an empty one. -/
def resolve (doc : Option Json) : Except Error Options :=
  match read? (doc.getD (.object [])) with
  | .read fields [] => ofFields fields
  | shape =>
    match shape.complaints with
    | complaint :: _ => .error (.validation complaint.place.text complaint.fault.message none)
    | [] => .error (.validation "$" "invalid options" none)

end Options
end BlockIR
