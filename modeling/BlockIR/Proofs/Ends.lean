import BlockIR.Execution

/-! What a part of a run comes to.

`Ends x s post` says that `x`, started in the state `s`, comes to a result and a
state that `post` allows. There is one rule for each way of putting parts
together, so that an argument about runs follows the definition of what is run:
a bind hands the state on after a value and stops at a failure, and what
`ensuring` restores is restored after both. -/
namespace BlockIR
namespace Effect
variable {σ ε α β : Type}

/-- The result of `x` from `s` and the state it stops in are as `post` says. -/
def Ends (x : Effect σ ε α) (s : σ) (post : Except ε α → σ → Prop) : Prop := post (x s).1 (x s).2

theorem Ends.mono {x : Effect σ ε α} {s : σ} {mid post : Except ε α → σ → Prop}
    (h : x.Ends s mid) (himp : ∀ r t, mid r t → post r t) : x.Ends s post := himp _ _ h

/-- A part that does what another one does, from another state. -/
theorem Ends.of_eq {x y : Effect σ ε α} {s t : σ} {post : Except ε α → σ → Prop} (hxy : x s = y t)
    (h : y.Ends t post) : x.Ends s post := by
  unfold Ends
  rw [hxy]
  exact h

/-- After a value the rest goes on from there; a failure is the end. -/
theorem Ends.bind {x : Effect σ ε α} {f : α → Effect σ ε β} {s : σ}
    {mid : Except ε α → σ → Prop} {post : Except ε β → σ → Prop} (h : x.Ends s mid)
    (hok : ∀ a t, mid (.ok a) t → (f a).Ends t post)
    (herror : ∀ e t, mid (.error e) t → post (.error e) t) : (x >>= f).Ends s post := by
  unfold Ends at h ⊢
  rw [bind_apply]
  rcases hx : x s with ⟨e | a, t⟩
  · rw [hx] at h
    exact herror e t h
  · rw [hx] at h
    exact hok a t h

/-- A bind has a value only through a value of its first part. -/
theorem bind_eq_ok {x : Effect σ ε α} {f : α → Effect σ ε β} {s u : σ} {b : β}
    (h : (x >>= f) s = (.ok b, u)) : ∃ a t, x s = (.ok a, t) ∧ f a t = (.ok b, u) := by
  rw [bind_apply] at h
  rcases hx : x s with ⟨_ | a, t⟩ <;> rw [hx] at h
  · cases h
  · exact ⟨a, t, rfl, h⟩

theorem ensuring_eq_ok {x : Effect σ ε α} {restore : Effect σ ε Unit} {s u : σ} {a : α}
    (h : x.ensuring restore s = (.ok a, u)) : ∃ t, x s = (.ok a, t) ∧ restore t = (.ok (), u) := by
  rcases hx : x s with ⟨_ | a', t⟩ <;> simp only [Effect.ensuring, hx] at h
  · cases h
  · rcases hr : restore t with ⟨_ | _, u'⟩ <;> rw [hr] at h <;> cases h
    exact ⟨t, rfl, hr⟩

/-- Restoring that succeeds changes the state and not the result. -/
theorem ensuring_apply {x : Effect σ ε α} {restore : Effect σ ε Unit} {s t u : σ}
    {r : Except ε α} (hx : x s = (r, t)) (hu : restore t = (.ok (), u)) :
    x.ensuring restore s = (r, u) := by
  cases r <;> simp only [Effect.ensuring, hx, hu]

/-- A first part that is known to succeed can be done before. -/
theorem ensuring_bind_of_ok {x : Effect σ ε α} {f : α → Effect σ ε β} {restore : Effect σ ε Unit}
    {s t : σ} {a : α} (hx : x s = (.ok a, t)) :
    (x >>= f).ensuring restore s = (f a).ensuring restore t := by
  unfold Effect.ensuring
  rw [bind_of_ok hx]

/-- What restores is done after a value and after a failure. -/
theorem Ends.ensuring {x : Effect σ ε α} {restore : Effect σ ε Unit} {s : σ}
    {mid post : Except ε α → σ → Prop} (h : x.Ends s mid)
    (hrestore : ∀ r t, mid r t → ∃ u, restore t = (.ok (), u) ∧ post r u) :
    (x.ensuring restore).Ends s post := by
  obtain ⟨u, hu, hpost⟩ := hrestore _ _ h
  have hx : x.ensuring restore s = ((x s).1, u) := ensuring_apply rfl hu
  unfold Ends
  rw [hx]
  exact hpost

end Effect

/-- Counting adds a step, and fails if that uses up the budget. -/
theorem countStep_apply (setting : Setting) (m : Machine) :
    countStep setting m =
      if 0 < setting.maxSteps ∧ setting.maxSteps ≤ m.steps + 1 then
        (.error (.stepLimit (.ofNat setting.maxSteps)),
          Machine.log { m with steps := m.steps + 1 } Machine.stepLimitLine)
      else (.ok (), { m with steps := m.steps + 1 }) := by
  by_cases h : 0 < setting.maxSteps ∧ setting.maxSteps ≤ m.steps + 1
  · simp [countStep, Effect.bind_apply, h]
  · simp [countStep, Effect.bind_apply, h]

namespace Exec
variable {α : Type}

/-- Running in another activation and coming back. -/
theorem within_apply (inner : Activation) (x : Exec α) (c : Config) :
    within inner x c =
      ((x { c with activation := inner }).1,
        { (x { c with activation := inner }).2 with activation := c.activation }) := by
  show (x.ensuring (modifyActivation fun _ => c.activation)) { c with activation := inner } = _
  unfold Effect.ensuring
  rcases x { c with activation := inner } with ⟨_ | _, d⟩ <;> rfl

/-- An action on the machine leaves scopes and activation alone. -/
theorem onMachine_apply (action : Action α) (c : Config) :
    onMachine action c =
      ((action c.machine).1.mapError Stop.failed, { c with machine := (action c.machine).2 }) := by
  obtain ⟨machine, scopes, activation⟩ := c
  simp only [onMachine]
  rcases action machine with ⟨_ | _, _⟩ <;> rfl

/-- Going a level deeper leaves a line and fails beyond the limit. -/
theorem deepen_apply (ctx : Context) (c : Config) :
    deepen ctx c =
      let d := { c with activation := { c.activation with level := c.activation.level + 1 } }
      if ctx.tooDeep d.activation.level then
        (.error (.failed (.nestingLimit (.ofNat ctx.setting.maxNesting))),
          { d with machine := c.machine.log Machine.nestingLimitLine })
      else (.ok (), d) := by
  by_cases h : ctx.tooDeep (c.activation.level + 1) = true
  · simp only [h, if_true]
    show (if ctx.tooDeep (c.activation.level + 1) then _ else _ : Exec Unit) _ = _
    rw [if_pos h]
    rfl
  · simp only [h]
    show (if ctx.tooDeep (c.activation.level + 1) then _ else _ : Exec Unit) _ = _
    rw [if_neg h]
    rfl

theorem ofExcept_ok (a : α) (c : Config) : ofExcept (.ok a) c = (.ok a, c) := rfl

theorem valueOf_of_none {name : String} {c : Config} (h : c.activation.bindings[name]? = none) :
    valueOf name c = (.error (.failed (.unboundIdentifier name)), c) := by
  unfold valueOf activation
  rw [Effect.bind_of_ok (Effect.gets_apply Config.activation c), h]
  rfl

theorem single_eq_ok {x : Exec (List Word)} {c d : Config} {value : Word} (h : single x c = (.ok value, d)) :
    x c = (.ok [value], d) := by
  obtain ⟨values, e, hx, hvalue⟩ := Effect.bind_eq_ok h
  rcases values with _ | ⟨first, _ | ⟨second, rest⟩⟩ <;> cases hvalue
  exact hx

/-! ### Calling -/

section Invoke
variable {runner : Runner} {name : String} {args : List Word} {c : Config}

theorem invoke_of_error {e : Error} (h : c.scopes.lookup c.activation.scope name = .error e) :
    runner.invoke name args c = (.error (.failed e), c) := by
  unfold Runner.invoke
  rw [Effect.bind_of_ok (Effect.get_apply c), h]
  rfl

theorem invoke_of_none (h : c.scopes.lookup c.activation.scope name = .ok none) :
    runner.invoke name args c = (.error (.failed (.unknownFunction name)), c) := by
  unfold Runner.invoke
  rw [Effect.bind_of_ok (Effect.get_apply c), h]
  rfl

variable {scope : ScopeId} {definition : FunctionDefinition}
  (hfound : c.scopes.lookup c.activation.scope name = .ok (some (scope, definition)))
include hfound

theorem invoke_of_mismatch (hcount : args.length ≠ definition.params.length) :
    runner.invoke name args c =
      (.error (.failed (.arityMismatch (.ofNat definition.params.length) (.ofNat args.length)
        definition.name)), c) := by
  unfold Runner.invoke
  rw [Effect.bind_of_ok (Effect.get_apply c), hfound, Effect.bind_of_ok (ofExcept_ok _ c)]
  simp only [ne_eq, hcount, not_false_eq_true, if_true]
  rfl

/-- A function that is found is run in an activation of its own, with the signal reset. -/
theorem invoke_of_found (hcount : args.length = definition.params.length) :
    runner.invoke name args c =
      within { scope := scope, bindings := definition.bindings args
               base := c.activation.level, level := c.activation.level }
        (do
          runner.run (.block definition.body)
          setSignal .proceed
          valuesOf definition.returns)
        { c with machine := { c.machine with signal := .proceed } } := by
  unfold Runner.invoke
  rw [Effect.bind_of_ok (Effect.get_apply c), hfound, Effect.bind_of_ok (ofExcept_ok _ c)]
  simp only [hcount, ne_eq, not_true_eq_false, if_false]
  rfl

end Invoke

/-- A call finds a function with as many parameters as there are arguments, or fails at once. -/
theorem invoke_cases (name : String) (args : List Word) (c : Config) :
    (∃ e, ∀ runner : Runner, runner.invoke name args c = (.error (.failed e), c)) ∨
      ∃ scope definition, c.scopes.lookup c.activation.scope name = .ok (some (scope, definition)) ∧
        args.length = definition.params.length := by
  rcases hlookup : c.scopes.lookup c.activation.scope name with e | _ | ⟨scope, definition⟩
  · exact .inl ⟨e, fun _ => invoke_of_error hlookup⟩
  · exact .inl ⟨_, fun _ => invoke_of_none hlookup⟩
  · by_cases hcount : args.length = definition.params.length
    · exact .inr ⟨scope, definition, rfl, hcount⟩
    · exact .inl ⟨_, fun _ => invoke_of_mismatch hlookup hcount⟩

end Exec

/-! ### Tasks that yield nothing -/

theorem Context.yielding_apply (x : Exec Unit) (c : Config) :
    Context.yielding x c = ((x c).1.map fun _ => [], (x c).2) := by
  unfold Context.yielding
  rw [Effect.bind_apply]
  rcases x c with ⟨_ | _, _⟩ <;> rfl

theorem Runner.run_apply (runner : Runner) (t : Task) (c : Config) :
    runner.run t c = ((runner t c).1.map fun _ => (), (runner t c).2) := by
  unfold Runner.run
  rw [Effect.bind_apply]
  rcases runner t c with ⟨_ | _, _⟩ <;> rfl

/-- A block that is a statement is done as it is, one level deeper. -/
theorem Context.perform_nested (ctx : Context) (depth : Nat) (b : Block) (c : Config) :
    ctx.perform (depth + 1) (.statement (.block b)) c = ctx.perform depth (.block b) c := by
  show yielding ((ctx.perform depth).run (.block b)) c = _
  rw [yielding_apply, Runner.run_apply]
  cases depth with
  | zero => rfl
  | succ depth =>
    show _ = yielding (ctx.block (ctx.perform depth) b (pure ())) c
    have hyield : ctx.perform (depth + 1) (.block b) c = yielding (ctx.block (ctx.perform depth) b (pure ())) c := rfl
    rw [hyield, yielding_apply]
    rcases ctx.block (ctx.perform depth) b (pure ()) c with ⟨_ | _, _⟩ <;> rfl

/-- Rounds yield nothing. -/
theorem Context.perform_rounds (ctx : Context) (depth : Nat) (l : ForLoop) (c : Config) :
    (ctx.perform depth (.rounds l) c).1.map (fun _ => []) = (ctx.perform depth (.rounds l) c).1 := by
  cases depth with
  | zero => rfl
  | succ depth =>
    have hyield : ctx.perform (depth + 1) (.rounds l) c = yielding (ctx.rounds (ctx.perform depth) l) c := rfl
    rw [hyield, yielding_apply]
    rcases ctx.rounds (ctx.perform depth) l c with ⟨_ | _, _⟩ <;> rfl

end BlockIR
