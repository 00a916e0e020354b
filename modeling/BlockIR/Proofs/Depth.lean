import BlockIR.Proofs.Congruence

/-! Depth: a run that is given more of it answers the same.

A run is a family of finite approximations, one for each depth. `x.Extends y`
says that `y` answers what `x` answers wherever `x` does not run out of depth;
this is a congruence (`Exec.extends_uniform`), so more depth never changes an
answer (`perform_extends`). A family that grows in
this way settles at a configuration as soon as one member answers there. -/
namespace BlockIR

/-- `y` does what `x` does wherever `x` does not run out of depth. -/
def Exec.Extends {α : Type} (x y : Exec α) : Prop :=
  ∀ c, (x c).1 = .error .outOfDepth ∨ x c = y c

namespace Exec.Extends
variable {α β : Type}

theorem refl (x : Exec α) : x.Extends x := fun _ => .inr rfl

theorem bind {x y : Exec α} {f g : α → Exec β} (h : x.Extends y) (hf : ∀ a, (f a).Extends (g a)) :
    Exec.Extends (x >>= f) (y >>= g) := by
  intro c
  rw [Effect.bind_apply, Effect.bind_apply]
  rcases h c with h | h
  · left
    rcases hx : x c with ⟨_ | _, _⟩ <;> rw [hx] at h <;> cases h
    rfl
  · rw [← h]
    rcases x c with ⟨_ | a, d⟩
    · exact .inr rfl
    · exact hf a d

theorem ensuring {x y : Exec α} (h : x.Extends y) (restore : Exec Unit) :
    Exec.Extends (Effect.ensuring x restore) (Effect.ensuring y restore) := by
  intro c
  unfold Effect.ensuring
  rcases h c with h | h
  · left
    rcases hx : x c with ⟨_ | _, _⟩ <;> rw [hx] at h <;> cases h
    rfl
  · right
    rw [h]

end Exec.Extends

/-! ### More depth -/

/-- To do what another part does wherever that does not run out of depth is a congruence. -/
theorem Exec.extends_uniform (ctx : Context) : ctx.Uniform ctx fun _ x y => Exec.Extends x y :=
  Context.Oblivious.uniform
    { dialect := rfl
      plain := fun _ => Extends.refl _
      bind := Extends.bind
      ensuring := fun h _ => h.ensuring _
      signal := fun _ => Extends.refl _
      count := Extends.refl _
      deepen := Extends.refl _
      builtin := fun _ _ => Extends.refl _ }

theorem perform_extends (ctx : Context) (depth : Nat) (t : Task) :
    (ctx.perform depth t).Extends (ctx.perform (depth + 1) t) := by
  induction depth generalizing t with
  | zero => exact fun _ => .inl rfl
  | succ depth ih => exact (Exec.extends_uniform ctx).advance ih t

/-! ### Parts that need no depth -/

/-- A part that never runs out of depth. -/
def Exec.Shallow {α : Type} (x : Exec α) : Prop := ∀ c, (x c).1 ≠ .error .outOfDepth

namespace Exec
variable {α β : Type}

theorem Plain.shallow {x : Exec α} (h : Plain x) : Shallow x := by
  intro c hout
  obtain ⟨error, hfailed, -⟩ := h.failure c _ hout
  cases hfailed

theorem shallow_pure (a : α) : Shallow (pure a : Exec α) := (plain_pure a).shallow

theorem shallow_fail (e : Error) : Shallow (fail e : Exec α) := fun _ h => nomatch h

theorem shallow_gets (f : Config → α) : Shallow (Effect.gets f : Exec α) := (plain_gets f).shallow

theorem shallow_modify (f : Config → Config) : Shallow (Effect.modify f : Exec Unit) := fun _ h => nomatch h

theorem shallow_ofExcept (r : Except Error α) : Shallow (ofExcept r) := by
  cases r with
  | ok a => exact shallow_pure a
  | error e => exact shallow_fail e

theorem shallow_onMachine (action : Action α) : Shallow (onMachine action) := by
  intro c
  rw [onMachine_apply]
  rcases (action c.machine).1 with _ | _ <;> intro h <;> cases h

theorem Shallow.bind {x : Exec α} {f : α → Exec β} (hx : Shallow x) (hf : ∀ a, Shallow (f a)) :
    Shallow (x >>= f) := by
  intro c
  have h := hx c
  rw [Effect.bind_apply]
  rcases hc : x c with ⟨e | a, d⟩ <;> rw [hc] at h
  · exact fun he => h (congrArg _ (Except.error.inj he))
  · exact hf a d

theorem Shallow.ensuring {x : Exec α} {restore : Exec Unit} (hx : Shallow x) (hrestore : Shallow restore) :
    Shallow (x.ensuring restore) := by
  intro c hout
  have h := hx c
  unfold Effect.ensuring at hout
  rcases hc : x c with ⟨e | a, d⟩ <;> rw [hc] at h hout
  · exact h hout
  · have hd := hrestore d
    rcases hr : restore d with ⟨e | _, _⟩ <;> rw [hr] at hd <;> simp only [hr] at hout
    · exact hd (congrArg _ (Except.error.inj hout))
    · cases hout

theorem shallow_deepen (ctx : Context) : Shallow (deepen ctx) := by
  apply (shallow_modify _).bind
  intro _
  apply (shallow_gets _).bind
  intro activation
  split
  · exact (shallow_onMachine _).bind fun _ => shallow_fail _
  · exact shallow_pure ()

/-- Whatever does not run tasks needs no depth. -/
theorem shallow_uniform (ctx : Context) : ctx.Uniform ctx fun _ x _ => Shallow x :=
  Context.Oblivious.uniform
    { dialect := rfl
      plain := Plain.shallow
      bind := Shallow.bind
      ensuring := fun hx hrestore => hx.ensuring hrestore.shallow
      signal := fun _ => shallow_modify _
      count := shallow_onMachine _
      deepen := shallow_deepen ctx
      builtin := fun _ _ => shallow_onMachine _ }

end Exec

/-! ### Approximations -/

/-- A family of approximations in which each one extends the one before. -/
def Exec.Growing {α : Type} (x : Nat → Exec α) : Prop := ∀ depth, (x depth).Extends (x (depth + 1))

/-- Some approximation answers at `c`. -/
def Exec.Settles {α : Type} (x : Nat → Exec α) (c : Config) : Prop :=
  ∃ depth, (x depth c).1 ≠ .error .outOfDepth

namespace Exec
variable {α β : Type}

theorem growing_const (x : Exec α) : Growing fun _ => x := fun _ => Extends.refl x

theorem perform_growing (ctx : Context) (t : Task) : Growing fun depth => ctx.perform depth t :=
  fun depth => perform_extends ctx depth t

/-- An answer stays the answer at every greater depth. -/
theorem Growing.answer {x : Nat → Exec α} (hx : Growing x) {c : Config} {depth : Nat}
    (h : (x depth c).1 ≠ .error .outOfDepth) (more : Nat) : x (depth + more) c = x depth c := by
  induction more with
  | zero => rfl
  | succ more ih =>
    rcases hx (depth + more) c with hout | hsame
    · rw [ih] at hout
      exact absurd hout h
    · rw [← Nat.add_assoc, ← hsame, ih]

/-- A bind settles if its first part does and the rest does wherever that leads. -/
theorem settles_bind {x : Nat → Exec α} {f : Nat → α → Exec β} {c : Config} (hx : Growing x)
    (hf : ∀ a, Growing fun depth => f depth a) (h : Settles x c)
    (hrest : ∀ depth a d, x depth c = (.ok a, d) → Settles (fun depth => f depth a) d) :
    Settles (fun depth => x depth >>= f depth) c := by
  obtain ⟨n, hn⟩ := h
  rcases hxn : x n c with ⟨e | a, d⟩
  · refine ⟨n, ?_⟩
    rw [hxn] at hn
    show ((x n >>= f n) c).1 ≠ _
    rw [Effect.bind_of_error hxn]
    exact fun he => hn (congrArg _ (Except.error.inj he))
  · obtain ⟨m, hm⟩ := hrest n a d hxn
    -- Both parts answer at the sum of the two depths.
    have hxs : x (n + m) c = (.ok a, d) := by rw [hx.answer hn, hxn]
    have hfs : f (n + m) a d = f m a d := by
      have := (hf a).answer hm n
      rwa [Nat.add_comm m n] at this
    refine ⟨n + m, ?_⟩
    show ((x (n + m) >>= f (n + m)) c).1 ≠ _
    rw [Effect.bind_of_ok hxs, hfs]
    exact hm

/-- Restoring needs no depth, so it does not matter to settling. -/
theorem settles_ensuring {x : Nat → Exec α} {restore : Exec Unit} {c : Config} (h : Settles x c)
    (hrestore : ∀ d, (restore d).1 ≠ .error .outOfDepth) :
    Settles (fun depth => (x depth).ensuring restore) c := by
  obtain ⟨n, hn⟩ := h
  refine ⟨n, fun hout => ?_⟩
  simp only [Effect.ensuring] at hout
  rcases hx : x n c with ⟨e | a, d⟩ <;> rw [hx] at hn hout
  · exact hn hout
  · rcases hr : restore d with ⟨e | _, _⟩ <;> simp only [hr] at hout
    · exact hrestore d (by rw [hr]; exact congrArg _ (Except.error.inj hout))
    · cases hout

end Exec

/-! ### Runs that end -/

/-- From some depth on a run has one and the same answer. -/
def Terminates {α : Type} (run : Nat → Except Stop α) : Prop :=
  ∃ answer, answer ≠ .error .outOfDepth ∧ ∃ depth, ∀ more, run (depth + more) = answer

theorem terminates_const {α : Type} {answer : Except Stop α} (h : answer ≠ .error .outOfDepth) :
    Terminates fun _ => answer := ⟨answer, h, 0, fun _ => rfl⟩

/-- A run from the beginning ends if what it runs settles there. -/
theorem terminates_guarded {α : Type} (options : Options) {x : Nat → Exec α} (hx : Exec.Growing x)
    (h : Exec.Settles x {}) : Terminates fun depth => Run.guarded options (x depth) := by
  obtain ⟨depth, hdepth⟩ := h
  refine ⟨Run.guarded options (x depth), fun hout => ?_, depth, fun more => ?_⟩
  · unfold Run.guarded at hout
    rcases hrun : x depth {} with ⟨(error | _) | value, config⟩ <;> rw [hrun] at hdepth hout
    · simp only at hout
      split at hout <;> cases hout
    · exact hdepth rfl
    · cases hout
  · show Run.guarded options (x (depth + more)) = _
    unfold Run.guarded
    rw [hx.answer hdepth more]

end BlockIR
