import BlockIR.Word.Numeral

/-! Byte strings spelled in hexadecimal.

A spelling is an optional `0x` and then two digits a byte (`isSpelling`); call
data and data objects are given that way. `ofHex` decodes a spelling. It also
answers on every other text: it drops one leading `0x`, cuts what follows into
pairs, reads in each pair the integer it starts with (`leadingInteger?`) and
takes that modulo 256, nothing readable being zero. Lengths are counted in
16-bit units, so a character beyond the first plane is two places long. -/
namespace BlockIR
namespace Bytes

/-- The text after one leading `0x`, if there is one. -/
def dropMark : List Char → List Char
  | '0' :: 'x' :: rest => rest
  | text => text

/-- Whether a text is an optional `0x` and an even number of hexadecimal digits. -/
def isSpelling (text : String) : Bool :=
  let digits := dropMark text.toList
  digits.all (Numeral.isDigit 16) && digits.length % 2 == 0

/-- A text cut into 16-bit units; both halves of a character beyond the first
plane are shown as that character, which is neither digit, sign nor blank. -/
def units (text : List Char) : List Char :=
  text.flatMap fun c => if c.toNat < 0x10000 then [c] else [c, c]

/-- White space and line ends. -/
def isBlank (c : Char) : Bool :=
  c ∈ ['\t', '\n', '\x0b', '\x0c', '\r', ' ', '\u00a0', '\u1680', '\u2028', '\u2029', '\u202f',
    '\u205f', '\u3000', '\ufeff'] || ('\u2000' ≤ c && c ≤ '\u200a')

/-- The number spelled by the hexadecimal digits that a text starts with, after an optional `0x` of either case. -/
def leadingMagnitude? (text : List Char) : Option Nat :=
  let digits := match text with
    | '0' :: 'x' :: rest => rest
    | '0' :: 'X' :: rest => rest
    | _ => text
  Numeral.run? 16 (digits.takeWhile (Numeral.isDigit 16))

/-- The hexadecimal integer that a text starts with, after white space and an optional sign. -/
def leadingInteger? (text : List Char) : Option Int :=
  match text.dropWhile isBlank with
  | '-' :: rest => (leadingMagnitude? rest).map fun n => -(n : Int)
  | '+' :: rest => (leadingMagnitude? rest).map fun n => (n : Int)
  | rest => (leadingMagnitude? rest).map fun n => (n : Int)

/-- The byte congruent to an integer modulo 256. -/
def ofInt (v : Int) : UInt8 := UInt8.ofNat (v % 256).toNat

/-- One byte for each full pair of units. -/
def pairs : List Char → List UInt8
  | a :: b :: rest => ofInt ((leadingInteger? [a, b]).getD 0) :: pairs rest
  | _ => []

/-- The bytes that a text spells. -/
def ofHex (text : String) : List UInt8 := pairs (units (dropMark text.toList))

end Bytes
end BlockIR
