import Std.Data.ExtTreeMap
import BlockIR.Effect
import BlockIR.Error

/-! Scopes: the tree in which names are looked up.

A scope belongs to a block and to the scope the block was entered from; entering
the same block from the same scope again finds the same scope. A name declared
in a scope is a variable or a function, whichever was declared last. Functions
are looked up here, from the inside out. The values of variables live in the
table of an activation, and leaving a scope takes its variables out of that
table: the scope only remembers which they are.

The arena is used with any kind of block key `κ` and of function `φ`. -/
namespace BlockIR

/-- The number of a scope in its arena; the root is 0. -/
abbrev ScopeId : Type := Nat

/-- The variables of an activation and their values. -/
abbrev Variables : Type := Std.ExtTreeMap String Word

/-- What a name stands for in a scope. -/
inductive Binding (φ : Type) where
  | ofVariable
  | ofFunction (definition : φ)

/-- Whether a name stands for a variable. -/
def Binding.isVariable {φ : Type} : Binding φ → Bool
  | ofVariable => true
  | ofFunction _ => false

/-- The function a name stands for, if it does. -/
def Binding.function? {φ : Type} : Binding φ → Option φ
  | ofVariable => none
  | ofFunction definition => some definition

/-- Declared names, the scope around this one, and the scopes entered from here by block. -/
structure Scope (κ φ : Type) where
  names : Std.ExtTreeMap String (Binding φ) := ∅
  parent : Option ScopeId
  children : List (κ × ScopeId) := []

/-- The names that are variables of a scope. -/
def Scope.variableNames {κ φ : Type} (scope : Scope κ φ) : List String :=
  (scope.names.toList.filter fun entry => entry.2.isVariable).map Prod.fst

/-- All scopes made so far, by number. -/
structure ScopeArena (κ φ : Type) where
  scopes : Array (Scope κ φ)

namespace ScopeArena
variable {κ φ : Type}

/-- The root scope alone. -/
def start : ScopeArena κ φ := ⟨#[{ parent := none }]⟩

/-- The number of scopes. -/
def size (arena : ScopeArena κ φ) : Nat := arena.scopes.size

/-- The scope of that number. -/
def get (arena : ScopeArena κ φ) (id : ScopeId) : Except Error (Scope κ φ) :=
  match arena.scopes[id]? with
  | some scope => .ok scope
  | none => .error (.unknownScope (.ofNat id))

/-- The scope id that a number is, if it was given out. -/
def known (arena : ScopeArena κ φ) (id : Json.Number) : Except Error ScopeId :=
  match id.toInt? with
  | some n => if 0 ≤ n ∧ n < arena.size then .ok n.toNat else .error (.unknownScope id)
  | none => .error (.unknownScope id)

/-- The scope of a block entered from `current`, made if the block was never entered from there. -/
def enter [BEq κ] (arena : ScopeArena κ φ) (current : ScopeId) (block : κ) :
    Except Error (ScopeId × ScopeArena κ φ) := do
  let scope ← arena.get current
  match scope.children.lookup block with
  | some child => .ok (child, arena)
  | none =>
    let child := arena.size
    let linked := arena.scopes.modify current fun s => { s with children := (block, child) :: s.children }
    .ok (child, ⟨linked.push { parent := some current }⟩)

/-- Takes the variables of a scope out of the table and gives the scope around it. The
root has none around it; its variables are taken out all the same. -/
def leave (arena : ScopeArena κ φ) (current : ScopeId) : Effect Variables Error ScopeId := do
  let scope ← Effect.ofExcept (arena.get current)
  Effect.modify fun table => scope.variableNames.foldl (fun table name => table.erase name) table
  match scope.parent with
  | some parent => pure parent
  | none => Effect.fail .scopeUnderflow

/-- Declares a name in a scope; what it stood for there before is forgotten. -/
def declare (arena : ScopeArena κ φ) (scope : ScopeId) (name : String) (binding : Binding φ) :
    Except Error (ScopeArena κ φ) := do
  let _ ← arena.get scope
  .ok ⟨arena.scopes.modify scope fun s => { s with names := s.names.insert name binding }⟩

/-- Walks outwards through at most `bound` scopes. -/
def lookupWithin (arena : ScopeArena κ φ) (name : String) :
    Nat → ScopeId → Except Error (Option (ScopeId × φ))
  | 0, _ => .ok none
  | bound + 1, current => do
    let scope ← arena.get current
    match scope.names[name]? >>= Binding.function? with
    | some definition => .ok (some (current, definition))
    | none =>
      match scope.parent with
      | some parent => arena.lookupWithin name bound parent
      | none => .ok none

/-- The innermost function of that name visible from a scope, and the scope that declares
it. A scope where the name is a variable is passed over. -/
def lookup (arena : ScopeArena κ φ) (scope : ScopeId) (name : String) :
    Except Error (Option (ScopeId × φ)) :=
  arena.lookupWithin name (arena.size + 1) scope

theorem size_start : (start : ScopeArena κ φ).size = 1 := rfl

theorem get_eq_ok_iff {arena : ScopeArena κ φ} {id : ScopeId} {scope : Scope κ φ} :
    arena.get id = .ok scope ↔ arena.scopes[id]? = some scope := by
  unfold get
  cases arena.scopes[id]? <;> simp

end ScopeArena
end BlockIR
