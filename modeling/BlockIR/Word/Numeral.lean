import BlockIR.Word

/-! Numerals: the written forms of words.

A numeral is a non-empty run of decimal digits, or `0x` and a non-empty run of
hexadecimal digits of either case; leading zeros are allowed and there is no
limit on the length. `value?` reads one, and `Word.parse` accepts those whose
value is a word. Three renderers write words: plain decimal, `hex` (with its
`0x` and no leading zero) and `hex64` (exactly 64 digits, no `0x`). -/
namespace BlockIR

/-- Why the text of a literal has no value. -/
inductive LiteralFault where
  /-- Neither a decimal nor a hexadecimal numeral. -/
  | notNumeral
  /-- A numeral whose value is `2 ^ 256` or more. -/
  | tooLarge
  /-- A boolean other than `true` and `false`. -/
  | notBoolean
  /-- A string of more than 32 bytes. -/
  | tooLong
  /-- A reason given in words. -/
  | stated (reason : String)
  deriving DecidableEq, Repr

/-- The wording of each fault. -/
def LiteralFault.message : LiteralFault → String
  | notNumeral => "not a decimal or hex number"
  | tooLarge => "does not fit in 256 bits"
  | notBoolean => "not a boolean"
  | tooLong => "string longer than 32 bytes"
  | stated reason => reason

namespace Numeral

/-- The value of a digit in bases up to sixteen, of either case. -/
def digitValue? (c : Char) : Option Nat :=
  if '0' ≤ c ∧ c ≤ '9' then some (c.toNat - '0'.toNat)
  else if 'a' ≤ c ∧ c ≤ 'f' then some (c.toNat - 'a'.toNat + 10)
  else if 'A' ≤ c ∧ c ≤ 'F' then some (c.toNat - 'A'.toNat + 10)
  else none

/-- Whether a character is a digit of the base. -/
def isDigit (base : Nat) (c : Char) : Bool :=
  match digitValue? c with
  | some d => d < base
  | none => false

/-- The number a run of digits spells after `acc`, most significant digit first. -/
def valueFrom (base : Nat) (acc : Nat) : List Char → Nat
  | [] => acc
  | c :: rest => valueFrom base (acc * base + (digitValue? c).getD 0) rest

/-- The value of a non-empty run of digits of one base. -/
def run? (base : Nat) (digits : List Char) : Option Nat :=
  if digits ≠ [] ∧ digits.all (isDigit base) then some (valueFrom base 0 digits) else none

/-- The value of a numeral, as large as it may be. -/
def value? (text : List Char) : Option Nat :=
  match text with
  | '0' :: 'x' :: digits => run? 16 digits
  | digits => run? 10 digits

/-- A number in a base up to sixteen, in lower case and without leading zeros; a minus sign stands first. -/
def render (base : Nat) (v : Int) : String :=
  let digits := String.ofList (Nat.toDigits base v.natAbs)
  if v < 0 then "-" ++ digits else digits

end Numeral

namespace Word

/-- The word a numeral stands for. -/
def parse (text : String) : Except LiteralFault Word :=
  match Numeral.value? text.toList with
  | none => .error .notNumeral
  | some n => if n < modulus then .ok n else .error .tooLarge

/-- Hexadecimal text: `0x` and the digits, without leading zeros. -/
def hex (v : Int) : String := "0x" ++ Numeral.render 16 v

/-- The hexadecimal digits alone, filled up with zeros on the left to 64 characters. -/
def hex64 (v : Int) : String := String.ofList ((Numeral.render 16 v).toList.leftpad (2 * bytes) '0')

end Word
end BlockIR
