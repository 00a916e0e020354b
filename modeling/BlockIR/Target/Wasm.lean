import BlockIR.Builtin
import BlockIR.Word.Lane

/-! The `wasm` dialect: 64- and 32-bit integers and little-endian linear memory.

Every operand is cut to the width of its operation first. Loads and stores take
their address uncut; past `2 ^ 32` a load gives zero and a store leaves only its
line in the trace. -/
namespace BlockIR
namespace Target
namespace Wasm

/-- A standard builtin. -/
def builtin (name : String) (arity : Nat) (returnsValue : Bool) (body : Call → Action Word) : Builtin :=
  { dialect := "wasm", name := name, arity := .exactly arity, literalArguments := []
    returnsValue := returnsValue, origin := .standard, body := fun _ call => body call }

/-- An operation on two lanes. -/
def binary (name : String) (width : Nat) (f : Nat → Nat → Int) : Builtin :=
  builtin name 2 true fun call => do
    let a ← call.arg 0
    let b ← call.arg 1
    pure (Word.lane2 width f a b)

/-- An operation on one lane. -/
def unary (name : String) (width : Nat) (f : Nat → Int) : Builtin :=
  builtin name 1 true fun call => do
    let a ← call.arg 0
    pure (Word.lane1 width f a)

/-- Integer operations. -/
def integer : List Builtin :=
  [ binary "i64.add" 64 fun a b => (a : Int) + b,
    binary "i64.sub" 64 fun a b => (a : Int) - b,
    binary "i64.mul" 64 fun a b => (a : Int) * b,
    binary "i64.div_u" 64 fun a b => if b = 0 then 0 else (a / b : Nat),
    binary "i64.rem_u" 64 fun a b => if b = 0 then 0 else (a % b : Nat),
    binary "i64.and" 64 fun a b => (a &&& b : Nat),
    binary "i64.or" 64 fun a b => (a ||| b : Nat),
    binary "i64.xor" 64 fun a b => (a ^^^ b : Nat),
    binary "i64.shl" 64 fun a b => (a <<< (b % 64) : Nat),
    binary "i64.shr_u" 64 fun a b => (a >>> (b % 64) : Nat),
    binary "i64.eq" 64 fun a b => Word.ofBool (a = b),
    binary "i64.ne" 64 fun a b => Word.ofBool (a ≠ b),
    binary "i64.lt_u" 64 fun a b => Word.ofBool (a < b),
    binary "i64.gt_u" 64 fun a b => Word.ofBool (b < a),
    unary "i64.eqz" 64 fun a => Word.ofBool (a = 0),
    unary "i64.clz" 64 fun a => Word.leadingZeros 64 a,
    binary "i32.add" 32 fun a b => (a : Int) + b,
    binary "i32.sub" 32 fun a b => (a : Int) - b,
    unary "i32.eqz" 32 fun a => Word.ofBool (a = 0),
    unary "i32.wrap_i64" 32 fun a => a,
    unary "i64.extend_i32_u" 32 fun a => a,
    builtin "drop" 1 false fun _ => pure 0 ]

/-- The first address that cannot be accessed. -/
def memoryEnd : Nat := 1 <<< 32

/-- Whether a region lies in memory. -/
def reaches (address size : Nat) : Bool := address + size ≤ memoryEnd

/-- A load of that many bytes. -/
def load (name : String) (size : Nat) : Builtin :=
  builtin name 1 true fun call => do
    let address ← call.arg 0
    if reaches address size then readMemory .littleEndian address size else pure 0

/-- A store of that many bytes. -/
def store (name : String) (size : Nat) : Builtin :=
  builtin name 2 false fun call => do
    let address ← call.arg 0
    let operand ← call.arg 1
    let value := Word.low (8 * size) operand
    logCall name [address, value]
    Effect.when (reaches address size) (writeMemory .littleEndian address size value)
    pure 0

/-- Loads and stores. -/
def memory : List Builtin :=
  [ load "i64.load" 8,
    load "i32.load" 4,
    store "i64.store" 8,
    store "i32.store" 4,
    store "i64.store8" 1 ]

/-- All builtins of the dialect. -/
def builtins : List Builtin := integer ++ memory

end Wasm
end Target
end BlockIR
