import BlockIR.Effect
import BlockIR.Error
import BlockIR.Machine.Memory

/-! The machine: what a run changes and what it is given.

A `Machine` holds the observable state that all activations of one run share:
the trace, memory, storage, the number of counted steps and the pending
control-flow signal. A `Setting` holds what stays fixed: the two limits, zero
meaning none, and the environment that builtins can ask for. -/
namespace BlockIR

/-- What the statement last run asks of the statements around it. -/
inductive Signal where
  | proceed
  | breakLoop
  | continueLoop
  | leave
  deriving DecidableEq, Repr

namespace Signal

/-- The name a signal is reported under. -/
def name : Signal → String
  | proceed => "Default"
  | breakLoop => "Break"
  | continueLoop => "Continue"
  | leave => "Leave"

/-- The signal of that name. -/
def ofName? : String → Option Signal
  | "Default" => some proceed
  | "Break" => some breakLoop
  | "Continue" => some continueLoop
  | "Leave" => some leave
  | _ => none

theorem ofName?_name (signal : Signal) : ofName? signal.name = some signal := by
  cases signal <;> rfl

end Signal

/-- Named bytes that a program can ask the size and offset of. -/
structure DataObject where
  name : String
  data : List UInt8
  deriving DecidableEq, Repr

/-- Limits and environment of a run. -/
structure Setting where
  maxSteps : Nat := 0
  maxNesting : Nat := 0
  calldata : List UInt8 := []
  address : Word := 0
  caller : Word := 0
  callvalue : Word := 0
  dataObjects : List DataObject := []
  deriving DecidableEq, Repr

/-- Stored words by key. -/
abbrev Storage : Type := Std.ExtTreeMap Word Word

/-- The state that the activations of a run share. -/
structure Machine where
  trace : Array String := #[]
  memory : Memory := {}
  storage : Storage := ∅
  steps : Nat := 0
  signal : Signal := .proceed

instance : Inhabited Machine := ⟨{}⟩

/-- A computation on the machine. -/
abbrev Action (α : Type) : Type := Effect Machine Error α

namespace Machine

/-- The trace line that a run ends with at the step limit. -/
def stepLimitLine : String := "Interpreter execution step limit reached."

/-- The trace line that a run ends with at the nesting limit. -/
def nestingLimitLine : String := "Maximum expression nesting level reached."

/-- Appends a line to the trace. -/
def log (machine : Machine) (line : String) : Machine :=
  { machine with trace := machine.trace.push line }

/-- The word in a storage slot. -/
def stored (machine : Machine) (key : Word) : Word := machine.storage.getD key 0

/-- Puts a word into a storage slot. -/
def store (machine : Machine) (key value : Word) : Machine :=
  { machine with storage := machine.storage.insert key value }

@[simp] theorem trace_log (machine : Machine) (line : String) :
    (machine.log line).trace.toList = machine.trace.toList ++ [line] := Array.toList_push

theorem stored_store (machine : Machine) (key value slot : Word) :
    (machine.store key value).stored slot = if key = slot then value else machine.stored slot := by
  simp [stored, store, Std.ExtTreeMap.getD_insert]

end Machine

/-- Counts a step. The step that uses up the budget leaves a line in the trace and fails. -/
def countStep (setting : Setting) : Action Unit := do
  Effect.modify fun machine => { machine with steps := machine.steps + 1 }
  let machine ← Effect.get
  if 0 < setting.maxSteps ∧ setting.maxSteps ≤ machine.steps then
    Effect.modify (Machine.log · Machine.stepLimitLine)
    Effect.fail (.stepLimit (.ofNat setting.maxSteps))

/-- Appends a line to the trace. -/
def logLine (line : String) : Action Unit := Effect.modify (Machine.log · line)

/-- Reads a region of memory. -/
def readMemory (order : ByteOrder) (offset : Nat) (size : Int) : Action Nat := fun machine =>
  let (value, memory) := machine.memory.read order offset size
  (.ok value, { machine with memory := memory })

/-- Writes a region of memory. -/
def writeMemory (order : ByteOrder) (offset : Nat) (size value : Int) : Action Unit :=
  Effect.modify fun machine => { machine with memory := machine.memory.write order offset size value }

/-- Writes one byte of memory. -/
def writeByte (offset : Nat) (value : Int) : Action Unit :=
  Effect.modify fun machine => { machine with memory := machine.memory.writeByte offset value }

end BlockIR
