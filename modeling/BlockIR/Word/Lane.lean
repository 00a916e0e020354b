import BlockIR.Word

/-! Lanes: the low 64 or 32 bits of a word, as machine integers.

A lane operation takes its operands modulo `2 ^ width`, works on those, and takes
the result modulo `2 ^ width` again, so the bits of a word above the lane never
matter. -/
namespace BlockIR
namespace Word

/-- The low `width` bits of an integer. -/
def low (width : Nat) (v : Int) : Word := (v % (1 <<< width : Nat)).toNat

/-- A two-place operation on lanes. -/
def lane2 (width : Nat) (f : Nat → Nat → Int) (a b : Word) : Word :=
  low width (f (low width a) (low width b))

/-- A one-place operation on lanes. -/
def lane1 (width : Nat) (f : Nat → Int) (a : Word) : Word := low width (f (low width a))

/-- The zero bits above the highest one bit among the low `width` bits, counted from the top. -/
def leadingZeros : Nat → Nat → Nat
  | 0, _ => 0
  | width + 1, a => if a.testBit width then 0 else leadingZeros width a + 1

end Word
end BlockIR
