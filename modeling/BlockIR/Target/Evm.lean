import BlockIR.Builtin
import BlockIR.Literal
import BlockIR.Word.Arithmetic

/-! The `evm` dialect: 256-bit arithmetic, big-endian memory, word storage, call
data, logs and data objects.

Memory ends at `2 ^ 32`: an access past it reads as zero, writes nothing and
leaves the size of memory alone. Stores and logs leave a line in the trace, a
store also when it is out of range. -/
namespace BlockIR
namespace Target
namespace Evm

/-- A standard builtin that demands no literal. -/
def builtin (name : String) (arity : Nat) (returnsValue : Bool)
    (body : Setting → Call → Action Word) : Builtin :=
  { dialect := "evm", name := name, arity := .exactly arity, literalArguments := []
    returnsValue := returnsValue, origin := .standard, body := body }

/-- A builtin that maps one word to another. -/
def unary (name : String) (f : Word → Int) : Builtin :=
  builtin name 1 true fun _ call => do
    let a ← call.arg 0
    pure (Word.ofInt (f a))

/-- A builtin that maps two words to one. -/
def binary (name : String) (f : Word → Word → Int) : Builtin :=
  builtin name 2 true fun _ call => do
    let a ← call.arg 0
    let b ← call.arg 1
    pure (Word.ofInt (f a b))

/-- A builtin that maps three words to one, the third being a modulus. -/
def modular (name : String) (f : Word → Word → Word → Word) : Builtin :=
  builtin name 3 true fun _ call => do
    let m ← call.arg 2
    let a ← call.arg 0
    let b ← call.arg 1
    pure (f a b m)

/-- A builtin that reads a word off the setting. -/
def constant (name : String) (f : Setting → Word) : Builtin :=
  builtin name 0 true fun setting _ => pure (f setting)

/-! ### Arithmetic, comparison and bits -/

/-- Sums, products, quotients and powers. -/
def arithmetic : List Builtin :=
  [ binary "add" fun a b => (a : Int) + b,
    binary "sub" fun a b => (a : Int) - b,
    binary "mul" fun a b => (a : Int) * b,
    binary "div" fun a b => Word.div a b,
    binary "sdiv" Word.sdiv,
    binary "mod" fun a b => Word.mod a b,
    binary "smod" Word.smod,
    binary "exp" fun a b => Word.exp a b,
    binary "signextend" fun a b => Word.signextend a b,
    modular "addmod" Word.addmod,
    modular "mulmod" Word.mulmod ]

/-- Comparisons, one for true. -/
def comparison : List Builtin :=
  [ binary "lt" fun a b => Word.ofBool (a < b),
    binary "gt" fun a b => Word.ofBool (b < a),
    binary "slt" fun a b => Word.ofBool (Word.signed a < Word.signed b),
    binary "sgt" fun a b => Word.ofBool (Word.signed b < Word.signed a),
    binary "eq" fun a b => Word.ofBool (a = b),
    unary "iszero" fun a => Word.ofBool (a = 0) ]

/-- Operations on bits and bytes. -/
def bitwise : List Builtin :=
  [ binary "and" fun a b => (a &&& b : Nat),
    binary "or" fun a b => (a ||| b : Nat),
    binary "xor" fun a b => (a ^^^ b : Nat),
    unary "not" fun a => (a ^^^ Word.mask : Nat),
    binary "byte" fun a b => Word.byteAt a b,
    binary "shl" fun a b => Word.shl a b,
    binary "shr" fun a b => Word.shr a b,
    binary "sar" Word.sar ]

/-! ### Memory and storage -/

/-- The first offset that cannot be accessed. -/
def memoryEnd : Nat := 1 <<< 32

/-- Whether a region lies in memory. -/
def reaches (offset size : Nat) : Bool := offset + size ≤ memoryEnd

/-- Loads and stores in memory, and its size. -/
def memory : List Builtin :=
  [ builtin "mload" 1 true fun _ call => do
      let offset ← call.arg 0
      if reaches offset Word.bytes then readMemory .bigEndian offset Word.bytes else pure 0,
    builtin "mstore" 2 false fun _ call => do
      let offset ← call.arg 0
      logCall "MSTORE" call.args
      Effect.when (reaches offset Word.bytes) do
        let value ← call.arg 1
        writeMemory .bigEndian offset Word.bytes value
      pure 0,
    builtin "mstore8" 2 false fun _ call => do
      let offset ← call.arg 0
      logCall "MSTORE8" call.args
      Effect.when (reaches offset 1) do
        let value ← call.arg 1
        writeByte offset value
      pure 0,
    builtin "msize" 0 true fun _ _ => Effect.gets fun machine => machine.memory.size ]

/-- Loads and stores in storage. -/
def storage : List Builtin :=
  [ builtin "sload" 1 true fun _ call => do
      let key ← call.arg 0
      Effect.gets fun machine => machine.stored key,
    builtin "sstore" 2 false fun _ call => do
      logCall "SSTORE" call.args
      let key ← call.arg 0
      let value ← call.arg 1
      Effect.modify (Machine.store · key value)
      pure 0 ]

/-! ### Environment and logs -/

/-- The 32 bytes of call data from an offset on as a word, zero bytes standing after its end. -/
def calldataWord (calldata : List UInt8) (start : Nat) : Word :=
  Literal.ofBytes ((List.range Word.bytes).map fun i => calldata.getD (start + i) 0)

/-- A log with the given number of topics: a trace line and nothing else. -/
def logger (name : String) (title : String) (topics : Nat) : Builtin :=
  builtin name (2 + topics) false fun _ call => do
    logCall title call.args
    pure 0

/-- What surrounds the run, and logs. -/
def environment : List Builtin :=
  [ builtin "calldataload" 1 true fun setting call => do
      let start ← call.arg 0
      pure (calldataWord setting.calldata start),
    constant "calldatasize" fun setting => setting.calldata.length,
    constant "address" Setting.address,
    constant "caller" Setting.caller,
    constant "callvalue" Setting.callvalue,
    builtin "pop" 1 false fun _ _ => pure 0,
    logger "log0" "LOG0" 0,
    logger "log1" "LOG1" 1,
    logger "log2" "LOG2" 2 ]

/-! ### Data objects -/

/-- The offset and size of the first data object of that name, the objects lying one after the other. -/
def locate (name : String) : Nat → List DataObject → Option (Nat × Nat)
  | _, [] => none
  | offset, object :: rest =>
    if object.name = name then some (offset, object.data.length)
    else locate name (offset + object.data.length) rest

/-- The place of the data object that the first argument names as a string literal. -/
def dataObject (title : String) (setting : Setting) (call : Call) : Action (Nat × Nat) :=
  match call.raw with
  | .expression (.literal ⟨.string, name⟩) :: _ =>
    match locate name 0 setting.dataObjects with
    | some place => pure place
    | none => Effect.fail (.domain (.unknownData name))
  | _ => Effect.fail (.domain (.notStringLiteral title))

/-- A builtin that answers about a data object. -/
def dataQuery (name : String) (f : Nat × Nat → Word) : Builtin :=
  { builtin name 1 true fun setting call => do
      let place ← dataObject name setting call
      pure (f place) with
    literalArguments := [true] }

/-- Size and offset of data objects. -/
def data : List Builtin :=
  [ dataQuery "datasize" Prod.snd,
    dataQuery "dataoffset" Prod.fst ]

/-- All builtins of the dialect. -/
def builtins : List Builtin :=
  arithmetic ++ comparison ++ bitwise ++ memory ++ storage ++ environment ++ data

end Evm
end Target
end BlockIR
