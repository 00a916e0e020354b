/-! Words: the unsigned 256-bit integers every expression evaluates to.

A word is a natural number. That it lies below `modulus` is an invariant of the
operations that make words (`InRange`) and not part of the type, because the
same functions also read numbers of other widths out of memory and numbers given
from outside. Arithmetic is done on integers and brought back by `ofInt`; the
signed reading of a word is its two's complement (`signed`). -/
namespace BlockIR

/-- An unsigned integer, in a run always below `2 ^ 256`. -/
abbrev Word : Type := Nat

namespace Word

/-- The width of a word in bits. -/
def bits : Nat := 256

/-- The width of a word in bytes. -/
def bytes : Nat := 32

/-- The number of words, `2 ^ 256`. -/
def modulus : Nat := 1 <<< bits

/-- The word with every bit set. -/
def mask : Nat := modulus - 1

/-- The word `2 ^ 255`, from which on the signed reading of a word is negative. -/
def signBound : Nat := 1 <<< (bits - 1)

/-- What every value of a run satisfies. -/
def InRange (w : Word) : Prop := w < modulus

instance (w : Word) : Decidable w.InRange := inferInstanceAs (Decidable (w < modulus))

/-- The word congruent to an integer modulo `2 ^ 256`. -/
def ofInt (v : Int) : Word := (v % (modulus : Int)).toNat

/-- One for true, zero for false. -/
def ofBool (b : Bool) : Word := if b then 1 else 0

/-- The two's complement reading: from `2 ^ 255` on a number stands for itself less `2 ^ 256`. -/
def signed (v : Int) : Int := if signBound ≤ v then v - modulus else v

theorem modulus_pos : 0 < modulus := by decide

theorem mask_eq : mask = modulus - 1 := rfl

theorem ofInt_inRange (v : Int) : (ofInt v).InRange := by
  have hpos : (0 : Int) < (modulus : Int) := by exact_mod_cast modulus_pos
  have hlow := Int.emod_nonneg v (Int.ne_of_gt hpos)
  have hhigh := Int.emod_lt_of_pos v hpos
  exact (Int.toNat_lt hlow).2 hhigh

theorem ofInt_natCast (n : Nat) : ofInt (n : Int) = n % modulus := by
  rw [ofInt, ← Int.natCast_emod, Int.toNat_natCast]

theorem ofInt_of_inRange {w : Word} (h : w.InRange) : ofInt (w : Int) = w := by
  rw [ofInt_natCast, Nat.mod_eq_of_lt h]

theorem ofBool_inRange (b : Bool) : (ofBool b).InRange := by
  cases b <;> decide

end Word
end BlockIR
