/-! Numbers of documents: the values of the binary format with 53 significant
bits and exponents from -1074 to 971.

A decimal in a document stands for the nearest such value (`ofDecimal`), a tie
going to the even significand, and a value too large for the format is infinite.
All arithmetic is exact on natural numbers. A value is written with the fewest
digits that read back as it (`shortest`), and those digits are laid out by
`text`: positionally from `1e-6` up to below `1e21`, with an exponent outside
that. Zero has no sign. -/
namespace BlockIR
namespace Json

/-- A number of a document: `significand * 2 ^ exponent`, or an infinity. -/
inductive Number where
  | finite (negative : Bool) (significand : Nat) (exponent : Int)
  | infinite (negative : Bool)
  deriving DecidableEq, Repr

namespace Number

/-- The least exponent of the format. -/
def minExponent : Int := -1074

/-- The greatest exponent of the format. -/
def maxExponent : Int := 971

/-- The number of significant bits. -/
def precision : Nat := 53

/-- The fraction `p / q * b ^ e`, as numerator and denominator. -/
def scale (p q b : Nat) (e : Int) : Nat × Nat :=
  if 0 ≤ e then (p * Nat.pow b e.toNat, q) else (p, q * Nat.pow b (-e).toNat)

/-- The nearest integer to `p / q`, a tie going to the even one. -/
def roundHalfEven (p q : Nat) : Nat :=
  let low := p / q
  let twice := 2 * (p % q)
  if twice < q then low
  else if q < twice then low + 1
  else if low % 2 = 0 then low else low + 1

/-- The largest `e` with `2 ^ e ≤ p / q`, for a positive fraction. -/
def binaryExponent (p q : Nat) : Int :=
  let guess : Int := (p.log2 : Int) - (q.log2 : Int)
  let (num, den) := scale p q 2 (-guess)
  if den ≤ num then guess else guess - 1

/-- The value of the format nearest to `p / q`. -/
def nearest (negative : Bool) (p q : Nat) : Number :=
  if p = 0 then finite false 0 0
  else
    let exponent := max minExponent (binaryExponent p q - (precision - 1))
    let (num, den) := scale p q 2 (-exponent)
    let rounded := roundHalfEven num den
    let (significand, exponent) :=
      if rounded = 1 <<< precision then (1 <<< (precision - 1), exponent + 1) else (rounded, exponent)
    if maxExponent < exponent then infinite negative
    else if significand = 0 then finite false 0 0
    else finite negative significand exponent

/-- The value that the decimal `n * 10 ^ e` stands for. -/
def ofDecimal (n e : Int) : Number :=
  let (p, q) := scale n.natAbs 1 10 e
  nearest (n < 0) p q

/-- A natural number as a number of a document. -/
def ofNat (n : Nat) : Number := ofDecimal n 0

/-- The integer that a value is, if it is one. -/
def toInt? : Number → Option Int
  | infinite _ => none
  | finite negative significand exponent =>
    let (p, q) := scale significand 1 2 exponent
    if p % q = 0 then
      some (if negative then -((p / q : Nat) : Int) else ((p / q : Nat) : Int))
    else none

/-- The integer part of a value, towards zero; zero for the infinities. -/
def truncate : Number → Int
  | infinite _ => 0
  | finite negative significand exponent =>
    let (p, q) := scale significand 1 2 exponent
    if negative then -((p / q : Nat) : Int) else ((p / q : Nat) : Int)

/-- The value one above, rounded to the format. -/
def next : Number → Number
  | infinite negative => infinite negative
  | finite negative significand exponent =>
    let (p, q) := scale significand 1 2 exponent
    let sum : Int := (if negative then -(p : Int) else p) + q
    nearest (sum < 0) sum.natAbs q

/-- Whether a value is greater than a natural number. -/
def exceeds (n : Nat) : Number → Bool
  | infinite negative => !negative
  | finite negative significand exponent =>
    let (p, q) := scale significand 1 2 exponent
    !negative && n * q < p

/-! ### Digits -/

/-- The largest `e` with `10 ^ e ≤ p / q`, for a positive fraction: an estimate from the
binary exponent, which is off by one at most, set right by comparison. -/
def decimalExponent (p q : Nat) : Int :=
  let above (e : Int) : Bool :=
    let (num, den) := scale p q 10 (-e)
    den ≤ num
  let guess : Int := (binaryExponent p q * 30103) / 100000
  if above (guess + 1) then guess + 1 else if above guess then guess else guess - 1

/-- Whether the decimal `d * 10 ^ e` stands for the value. -/
def readsBack (v : Number) (d : Nat) (e : Int) : Bool :=
  ofDecimal (d : Int) e = v

/-- The one or two decimals of `k` digits next to `p / q` that read back as `v`, the nearer one chosen. -/
def withDigits (v : Number) (p q : Nat) (k : Nat) : Option (Nat × Int) :=
  let e : Int := decimalExponent p q - ((k : Int) - 1)
  let (num, den) := scale p q 10 (-e)
  let low := num / den
  let nearer := roundHalfEven num den
  let other := if nearer = low then low + 1 else low
  if readsBack v nearer e then some (nearer, e)
  else if readsBack v other e then some (other, e)
  else none

/-- Drops the zeros at the end of a digit string. -/
def dropZeros : Nat → Nat → Int → Nat × Int
  | 0, d, e => (d, e)
  | fuel + 1, d, e => if d ≠ 0 ∧ d % 10 = 0 then dropZeros fuel (d / 10) (e + 1) else (d, e)

/-- The shortest decimal `d * 10 ^ e` that stands for a positive value, and of those the nearest. -/
def shortest (significand : Nat) (exponent : Int) : Nat × Int :=
  let v := finite false significand exponent
  let (p, q) := scale significand 1 2 exponent
  match (List.range 17).findSome? fun k => withDigits v p q (k + 1) with
  | some (d, e) => dropZeros 20 d e
  | none => (significand, exponent)

/-- Digits laid out as a number: `point` is the place of the decimal point counted from the first digit. -/
def layout (digits : String) (point : Int) : String :=
  let k : Int := digits.length
  let chars := digits.toList
  let zeros (n : Int) : String := String.ofList (List.replicate n.toNat '0')
  if k ≤ point ∧ point ≤ 21 then digits ++ zeros (point - k)
  else if 0 < point ∧ point ≤ 21 then
    String.ofList (chars.take point.toNat) ++ "." ++ String.ofList (chars.drop point.toNat)
  else if -6 < point ∧ point ≤ 0 then "0." ++ zeros (-point) ++ digits
  else
    let power := point - 1
    let sign := if power < 0 then "-" else "+"
    let tail := String.ofList (chars.drop 1)
    String.ofList (chars.take 1) ++ (if tail = "" then "" else "." ++ tail) ++ "e" ++ sign ++ toString power.natAbs

/-- A number as text. -/
def text : Number → String
  | infinite negative => if negative then "-Infinity" else "Infinity"
  | finite negative significand exponent =>
    if significand = 0 then "0"
    else
      let (d, e) := shortest significand exponent
      let digits := String.ofList (Nat.toDigits 10 d)
      (if negative then "-" else "") ++ layout digits (digits.length + e)

end Number
end Json
end BlockIR
