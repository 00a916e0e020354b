import BlockIR.Error
import BlockIR.Syntax

/-! Literals: the words that written constants stand for.

A number is a numeral, `true` and `false` are one and zero, and a string is its
UTF-8 bytes placed at the upper end of the word, with zero bytes after them. -/
namespace BlockIR
namespace Literal

/-- The number spelled by bytes, most significant first. -/
def ofBytes (bytes : List UInt8) : Nat :=
  bytes.foldl (fun w b => w * 256 + b.toNat) 0

/-- A text of at most 32 bytes as a word, left-aligned. -/
def stringValue (text : String) : Except LiteralFault Word :=
  let bytes := text.toList.flatMap String.utf8EncodeChar
  if Word.bytes < bytes.length then .error .tooLong
  else .ok (ofBytes (bytes.rightpad Word.bytes 0))

/-- The word a literal stands for, or why there is none. -/
def read (literal : Literal) : Except LiteralFault Word :=
  match literal.kind with
  | .number => Word.parse literal.text
  | .boolean =>
    if literal.text = "true" then .ok 1
    else if literal.text = "false" then .ok 0
    else .error .notBoolean
  | .string => stringValue literal.text

/-- The word a literal stands for. -/
def value (literal : Literal) : Except Error Word :=
  literal.read.mapError (.invalidLiteral literal.text)

/-- A word as a literal, in decimal. -/
def ofWord (w : Word) : Literal := ⟨.number, toString w⟩

end Literal
end BlockIR
