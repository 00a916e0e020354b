import BlockIR.Target.Evm
import BlockIR.Target.Wasm

/-! Targets: the two dialects a program can be checked and run for. -/
namespace BlockIR

/-- A standard dialect. -/
inductive Target where
  | evm
  | wasm
  deriving DecidableEq, Repr

namespace Target

/-- The name of a target in options. -/
def name : Target → String
  | evm => "evm"
  | wasm => "wasm"

/-- The dialect of a target. -/
def dialect : Target → Dialect
  | evm => ⟨"evm", Evm.builtins⟩
  | wasm => ⟨"wasm", Wasm.builtins⟩

/-- The target of that name. -/
def ofName (name : String) : Except Error Target :=
  if name = "evm" then .ok evm
  else if name = "wasm" then .ok wasm
  else .error (.unexpectedValue name)

theorem ofName_name (target : Target) : ofName target.name = .ok target := by
  cases target <;> rfl

theorem name_dialect (target : Target) : target.dialect.name = target.name := by
  cases target <;> rfl

end Target
end BlockIR
