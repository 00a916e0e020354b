import BlockIR.Json.Number
import BlockIR.Json.Quoted

/-! Documents: the values that programs and options are given as.

An object is a list of named members, the first of a name being the one that
counts. A member that is absent is `none` and differs from one that is `null`.
`compact` writes a document without blanks, `plain` gives the text of a value in
a message. Every member of an object is smaller than the object
(`sizeOf_member`), which is what reading a document by recursion rests on. -/
namespace BlockIR

/-- A document. -/
inductive Json where
  | null
  | bool (value : Bool)
  | number (value : Json.Number)
  | string (value : String)
  | array (items : List Json)
  | object (members : List (String × Json))
  deriving Inhabited

namespace Json

/-- The name of the kind of a value, absence included. An infinite number is no number: it is
named by its text. -/
def typeName : Option Json → String
  | none => "undefined"
  | some null => "null"
  | some (bool _) => "boolean"
  | some (number (.finite ..)) => "number"
  | some (number (.infinite negative)) => (Number.infinite negative).text
  | some (string _) => "string"
  | some (array _) => "array"
  | some (object _) => "object"

/-- The member of that name, if there is one. -/
def member (members : List (String × Json)) (name : String) : Option Json := members.lookup name

theorem sizeOf_lookup (members : List (String × Json)) (name : String) :
    sizeOf (member members name) < 1 + sizeOf members := by
  induction members with
  | nil => simp only [member, List.lookup_nil, Option.none.sizeOf_spec, List.nil.sizeOf_spec]; omega
  | cons first rest ih =>
    obtain ⟨key, value⟩ := first
    unfold member at ih ⊢
    rw [List.lookup_cons]
    split
    · simp only [Option.some.sizeOf_spec, List.cons.sizeOf_spec, Prod.mk.sizeOf_spec]
      omega
    · simp only [List.cons.sizeOf_spec, Prod.mk.sizeOf_spec]
      omega

/-- A member is smaller than its object. -/
theorem sizeOf_member (members : List (String × Json)) (name : String) :
    sizeOf (member members name) < sizeOf (some (object members)) := by
  have := sizeOf_lookup members name
  simp only [Option.some.sizeOf_spec, object.sizeOf_spec]
  omega

/-- The items of an array are smaller than the array. -/
theorem sizeOf_items (items : List Json) : sizeOf items < sizeOf (some (array items)) := by
  simp only [Option.some.sizeOf_spec, array.sizeOf_spec]
  omega

/-- An item is smaller than the items it is the first of. -/
theorem sizeOf_first (item : Json) (rest : List Json) : sizeOf (some item) < sizeOf (item :: rest) := by
  have : 0 < sizeOf rest := by
    cases rest
    · exact Nat.one_pos
    · simp only [List.cons.sizeOf_spec]
      omega
  simp only [Option.some.sizeOf_spec, List.cons.sizeOf_spec]
  omega

/-- The items after the first are smaller than all of them. -/
theorem sizeOf_rest (item : Json) (rest : List Json) : sizeOf rest < sizeOf (item :: rest) := by
  simp only [List.cons.sizeOf_spec]
  omega

/-! ### Text -/

/-- The place of a member whose name is a plain numeral below `2 ^ 32 - 1`. -/
def ordinal? (name : String) : Option Nat :=
  match name.toList with
  | ['0'] => some 0
  | digits =>
    if digits ≠ [] ∧ digits.all Char.isDigit ∧ digits.head? ≠ some '0' then
      let n := Nat.ofDigitChars 10 digits 0
      if n < 4294967295 then some n else none
    else none

/-- Members in the order they are written: those named by numerals first, in
ascending order, then the others as they stand. -/
def inOrder {α : Type} (members : List (String × α)) : List (String × α) :=
  let numbered := members.filterMap fun m => (ordinal? m.1).map fun n => (n, m)
  (numbered.mergeSort fun a b => a.1 ≤ b.1).map Prod.snd ++
    members.filter fun m => (ordinal? m.1).isNone

mutual
/-- A document without blanks; an infinite number is written `null`. -/
def compact : Json → String
  | null => "null"
  | bool true => "true"
  | bool false => "false"
  | number (.infinite _) => "null"
  | number value => value.text
  | string value => quote value
  | array items => "[" ++ ",".intercalate (compactItems items) ++ "]"
  | object members =>
    "\x7b" ++ ",".intercalate
      ((inOrder (compactMembers members)).map fun m => quote m.1 ++ ":" ++ m.2) ++ "\x7d"

/-- The items of an array, each written compactly. -/
def compactItems : List Json → List String
  | [] => []
  | item :: rest => item.compact :: compactItems rest

/-- The members of an object, each value written compactly. -/
def compactMembers : List (String × Json) → List (String × String)
  | [] => []
  | (name, value) :: rest => (name, value.compact) :: compactMembers rest
end

mutual
/-- A value inside a message: a string is itself, an array its items with commas between. -/
def plain : Json → String
  | null => "null"
  | bool true => "true"
  | bool false => "false"
  | number value => value.text
  | string value => value
  | array items => ",".intercalate (plainItems items)
  | object _ => "[object Object]"

/-- The items of an array inside a message; `null` leaves its place empty. -/
def plainItems : List Json → List String
  | [] => []
  | null :: rest => "" :: plainItems rest
  | item :: rest => item.plain :: plainItems rest
end

end Json
end BlockIR
