import BlockIR.Word

/-! Arithmetic of words.

The operations return integers; the builtins that use them bring the result back
into range. Division by zero gives zero. Signed operations read their operands in
two's complement and truncate towards zero, shifts by the width of a word or more
give what an endless shift would. Powers are computed by squaring, reducing at
every step. -/
namespace BlockIR
namespace Word

/-- Quotient, zero for a zero divisor. -/
def div (a b : Word) : Word := if b = 0 then 0 else a / b

/-- Remainder, zero for a zero divisor. -/
def mod (a b : Word) : Word := if b = 0 then 0 else a % b

/-- Quotient of the signed readings, truncated towards zero. -/
def sdiv (a b : Word) : Int := if b = 0 then 0 else Int.tdiv (signed a) (signed b)

/-- Remainder of the signed readings, with the sign of the dividend. -/
def smod (a b : Word) : Int := if b = 0 then 0 else Int.tmod (signed a) (signed b)

/-- The sum `(a + b) % m`, zero for a zero modulus. -/
def addmod (a b m : Word) : Word := if m = 0 then 0 else (a + b) % m

/-- The product `(a * b) % m`, zero for a zero modulus. -/
def mulmod (a b m : Word) : Word := if m = 0 then 0 else (a * b) % m

/-- Computes `result * base ^ exponent` modulo `2 ^ 256`, by repeated squaring. -/
def powFrom (result base exponent : Nat) : Nat :=
  if exponent = 0 then result
  else
    powFrom (if exponent % 2 = 1 then result * base % modulus else result) (base * base % modulus)
      (exponent / 2)
termination_by exponent

/-- The power `base ^ exponent` modulo `2 ^ 256`. -/
def exp (base exponent : Word) : Word := powFrom 1 base exponent

/-- The low `position + 1` bytes of a word with their sign bit copied upwards. -/
def signextend (position value : Word) : Word :=
  if 31 ≤ position then value
  else
    let width := 8 * (position + 1)
    let low := value % 1 <<< width
    if low.testBit (width - 1) then low ||| (mask ^^^ (1 <<< width - 1)) else low

/-- The byte at a position counted from the most significant one. -/
def byteAt (position value : Word) : Word :=
  if 32 ≤ position then 0 else (value >>> (8 * (31 - position))) % 256

/-- Shifted left, zeros coming in. -/
def shl (shift value : Word) : Nat := if bits ≤ shift then 0 else value <<< shift

/-- Shifted right, zeros coming in. -/
def shr (shift value : Word) : Word := if bits ≤ shift then 0 else value >>> shift

/-- The signed reading shifted right, its sign coming in. -/
def sar (shift value : Word) : Int :=
  let v := signed value
  if bits ≤ shift then (if v < 0 then -1 else 0) else v >>> shift

end Word
end BlockIR
