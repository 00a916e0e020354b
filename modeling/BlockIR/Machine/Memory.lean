import Std.Data.ExtTreeMap
import BlockIR.Bytes

/-! Memory: bytes by offset, zero until written.

Reads and writes take a region and a byte order; the number in a region is
spelled by its bytes, most significant first or last. A memory remembers how far
it has been accessed (`size`), in whole words: reading grows it as writing does,
looking at a single byte does not. A region of negative size holds no byte, but
its end counts as accessed all the same. -/
namespace BlockIR

/-- Which end of a number comes first in memory. -/
inductive ByteOrder where
  | bigEndian
  | littleEndian
  deriving DecidableEq, Repr

/-- Written bytes by offset, and the number of bytes covered by accesses so far, a multiple of 32. -/
structure Memory where
  cells : Std.ExtTreeMap Nat UInt8 := ∅
  size : Nat := 0

namespace Memory

/-- Bytes in a word of memory. -/
def wordBytes : Nat := 32

/-- The least multiple of a word that is not below `n`. -/
def roundUp (n : Nat) : Nat := (n + wordBytes - 1) / wordBytes * wordBytes

/-- Notes an access to a region; an empty region is no access. -/
def touch (memory : Memory) (offset : Nat) (size : Int) : Memory :=
  if size = 0 then memory
  else { memory with size := max memory.size (roundUp (offset + size).toNat) }

/-- The byte at an offset. -/
def byte (memory : Memory) (offset : Nat) : UInt8 := memory.cells.getD offset 0

/-- Puts a byte in its place. -/
def put (memory : Memory) (offset : Nat) (b : UInt8) : Memory :=
  { memory with cells := memory.cells.insert offset b }

/-- Writes the low byte of an integer. -/
def writeByte (memory : Memory) (offset : Nat) (value : Int) : Memory :=
  (memory.touch offset 1).put offset (Bytes.ofInt value)

/-- The offsets of a region, that of the most significant byte first. -/
def offsets (order : ByteOrder) (offset : Nat) (size : Int) : List Nat :=
  let ascending := (List.range size.toNat).map (offset + ·)
  match order with
  | .bigEndian => ascending
  | .littleEndian => ascending.reverse

/-- The number that the bytes at those offsets spell, most significant first. -/
def spelled (memory : Memory) (places : List Nat) : Nat :=
  places.foldl (fun value offset => value * 256 + (memory.byte offset).toNat) 0

/-- The number in a region. -/
def peek (memory : Memory) (order : ByteOrder) (offset : Nat) (size : Int) : Nat :=
  memory.spelled (offsets order offset size)

/-- Reads the number in a region. -/
def read (memory : Memory) (order : ByteOrder) (offset : Nat) (size : Int) : Nat × Memory :=
  (memory.peek order offset size, memory.touch offset size)

/-- Puts the digits of an integer to base 256 at the offsets in turn, the lowest digit first. -/
def putDigits (memory : Memory) : List Nat → Int → Memory
  | [], _ => memory
  | offset :: rest, value => (memory.put offset (Bytes.ofInt value)).putDigits rest (value / 256)

/-- Writes the low bytes of an integer into a region. -/
def write (memory : Memory) (order : ByteOrder) (offset : Nat) (size value : Int) : Memory :=
  (memory.touch offset size).putDigits (offsets order offset size).reverse value

/-! ### What is in memory afterwards -/

@[simp] theorem byte_empty (offset : Nat) : ({} : Memory).byte offset = 0 := by
  simp [byte]

theorem byte_put (memory : Memory) (offset place : Nat) (b : UInt8) :
    (memory.put offset b).byte place = if offset = place then b else memory.byte place := by
  simp [byte, put, Std.ExtTreeMap.getD_insert]

@[simp] theorem byte_touch (memory : Memory) (offset : Nat) (size : Int) (place : Nat) :
    (memory.touch offset size).byte place = memory.byte place := by
  unfold touch byte
  split <;> rfl

@[simp] theorem size_put (memory : Memory) (offset : Nat) (b : UInt8) :
    (memory.put offset b).size = memory.size := rfl

@[simp] theorem size_putDigits (memory : Memory) (places : List Nat) (value : Int) :
    (memory.putDigits places value).size = memory.size := by
  induction places generalizing memory value with
  | nil => rfl
  | cons offset rest ih => rw [putDigits, ih, size_put]

end Memory
end BlockIR
