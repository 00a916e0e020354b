/-! Effects: computations over a state that may fail, and that keep the state they
reached when they do.

A failing run still has a trace, a memory and a step count to report, so a
failure never rolls the state back. `Effect σ ε α` is a function from a state to
a value or a failure together with the state it stopped in. Sequencing stops at
the first failure; `ensuring` is the one form that goes on after a failure, and
it only restores what has to be restored. -/
namespace BlockIR

/-- A computation over states `σ` that ends in a value or a failure, and in both cases in a state. -/
def Effect (σ ε α : Type) : Type := σ → Except ε α × σ

namespace Effect
variable {σ ε α β : Type}

/-- Ends at once with a value and leaves the state alone. -/
protected def pure (a : α) : Effect σ ε α := fun s => (.ok a, s)

/-- Runs `x` and goes on with its value; a failure of `x` is the failure of the whole. -/
protected def bind (x : Effect σ ε α) (f : α → Effect σ ε β) : Effect σ ε β := fun s =>
  match x s with
  | (.ok a, t) => f a t
  | (.error e, t) => (.error e, t)

instance : Monad (Effect σ ε) where
  pure := Effect.pure
  bind := Effect.bind

/-- Fails and leaves the state alone. -/
def fail (e : ε) : Effect σ ε α := fun s => (.error e, s)

/-- The current state. -/
def get : Effect σ ε σ := fun s => (.ok s, s)

/-- A value read off the current state. -/
def gets (f : σ → α) : Effect σ ε α := fun s => (.ok (f s), s)

/-- Changes the state. -/
def modify (f : σ → σ) : Effect σ ε Unit := fun s => (.ok (), f s)

/-- Runs `x` only if the condition holds. -/
def when (condition : Bool) (x : Effect σ ε Unit) : Effect σ ε Unit := if condition then x else pure ()

/-- A plain result as an effect that leaves the state alone. -/
def ofExcept (r : Except ε α) : Effect σ ε α := fun s => (r, s)

/-- Runs `x`, then `restore` however `x` ended. A failure of `x` stays the failure
of the whole; if there is none, the restoring may still fail. -/
def ensuring (x : Effect σ ε α) (restore : Effect σ ε Unit) : Effect σ ε α := fun s =>
  match x s with
  | (.ok a, t) =>
    match restore t with
    | (.ok _, u) => (.ok a, u)
    | (.error e, u) => (.error e, u)
  | (.error e, t) => (.error e, (restore t).2)

/-! ### Laws -/

@[simp] theorem pure_apply (a : α) (s : σ) : (pure a : Effect σ ε α) s = (.ok a, s) := rfl

@[simp] theorem fail_apply (e : ε) (s : σ) : (fail e : Effect σ ε α) s = (.error e, s) := rfl

@[simp] theorem get_apply (s : σ) : (get : Effect σ ε σ) s = (.ok s, s) := rfl

@[simp] theorem gets_apply (f : σ → α) (s : σ) : (gets f : Effect σ ε α) s = (.ok (f s), s) := rfl

@[simp] theorem modify_apply (f : σ → σ) (s : σ) : (modify f : Effect σ ε Unit) s = (.ok (), f s) := rfl

@[simp] theorem ofExcept_apply (r : Except ε α) (s : σ) : (ofExcept r : Effect σ ε α) s = (r, s) := rfl

theorem bind_apply (x : Effect σ ε α) (f : α → Effect σ ε β) (s : σ) :
    (x >>= f) s =
      match x s with
      | (.ok a, t) => f a t
      | (.error e, t) => (.error e, t) := rfl

theorem bind_of_ok {x : Effect σ ε α} {f : α → Effect σ ε β} {s t : σ} {a : α}
    (h : x s = (.ok a, t)) : (x >>= f) s = f a t := by
  rw [bind_apply, h]

theorem bind_of_error {x : Effect σ ε α} {f : α → Effect σ ε β} {s t : σ} {e : ε}
    (h : x s = (.error e, t)) : (x >>= f) s = (.error e, t) := by
  rw [bind_apply, h]

protected theorem id_map (x : Effect σ ε α) : id <$> x = x := by
  funext s
  show (x >>= fun a => pure (id a)) s = x s
  rw [bind_apply]
  rcases x s with ⟨_ | _, _⟩ <;> rfl

protected theorem bind_assoc {γ : Type} (x : Effect σ ε α) (f : α → Effect σ ε β) (g : β → Effect σ ε γ) :
    x >>= f >>= g = x >>= fun a => f a >>= g := by
  funext s
  simp only [bind_apply]
  rcases x s with ⟨_ | _, _⟩ <;> rfl

instance : LawfulMonad (Effect σ ε) :=
  LawfulMonad.mk' _ Effect.id_map (fun _ _ => rfl) Effect.bind_assoc

end Effect
end BlockIR
