import BlockIR.Proofs.Builtins

/-! Builtins that only compute.

Most builtins make a word of their arguments and do nothing else. What such a
builtin computes is stated of the call that a run makes, by the builtin's name and
with its arguments' values (`Target.Computes`): it succeeds with that word, on
every machine and in every setting, and leaves the machine as it was. -/
namespace BlockIR
namespace Target

/-- A call of a builtin by its name, with the values of its arguments and the arguments as written. -/
def call (target : Target) (setting : Setting) (name : String) (args : List Word) (raw : List Argument) :
    Action Word :=
  match target.dialect.find? name with
  | some builtin => target.dialect.evaluate setting builtin ⟨args, raw⟩
  | none => Effect.fail (.unknownBuiltin target.dialect.name name)

/-- Wherever it is called, the builtin makes that word of its arguments and changes nothing. -/
def Computes (target : Target) (name : String) (args : List Word) (w : Word) : Prop :=
  ∀ setting raw, target.call setting name args raw = pure w

variable {target : Target} {name : String}

/-- With as many arguments as it takes, a builtin that a target finds is run. -/
theorem call_of_find? {builtin : Builtin} (hfind : target.dialect.find? name = some builtin) (setting : Setting)
    {args : List Word} (hcount : builtin.arity = .exactly args.length) (raw : List Argument) :
    target.call setting name args raw = builtin.body setting ⟨args, raw⟩ := by
  unfold call Dialect.evaluate
  simp only [hfind, owns_of_find? target hfind, hcount, if_true]

theorem Evm.computes_binary {f : Word → Word → Int} (hfind : evm.dialect.find? name = some (binary name f))
    (a b : Word) : evm.Computes name [a, b] (Word.ofInt (f a b)) := by
  intro setting raw
  rw [call_of_find? hfind setting rfl]
  rfl

theorem Wasm.computes_unary {width : Nat} {f : Nat → Int}
    (hfind : wasm.dialect.find? name = some (unary name width f)) (a : Word) :
    wasm.Computes name [a] (Word.lane1 width f a) := by
  intro setting raw
  rw [call_of_find? hfind setting rfl]
  rfl

theorem Wasm.computes_binary {width : Nat} {f : Nat → Nat → Int}
    (hfind : wasm.dialect.find? name = some (binary name width f)) (a b : Word) :
    wasm.Computes name [a, b] (Word.lane2 width f a b) := by
  intro setting raw
  rw [call_of_find? hfind setting rfl]
  rfl

end Target
end BlockIR
