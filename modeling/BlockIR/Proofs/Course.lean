import BlockIR.Proofs.Congruence

/-! The course of the machine.

A run changes its machine only by counting steps, by lines about limits, by
builtins and by setting the signal. A preorder on machines that these respect
(`Course`) therefore holds between the machine at the start and at the end of
everything that is done in the run, however it ends (`Course.perform`). -/
namespace BlockIR

/-- A preorder on machines that every basic action of a run respects. -/
structure Context.Course (ctx : Context) (R : Machine → Machine → Prop) : Prop where
  refl : ∀ m, R m m
  trans : ∀ {a b c}, R a b → R b c → R a c
  signal : ∀ m signal, R m { m with signal := signal }
  count : ∀ m, R m (countStep ctx.setting m).2
  deepest : ∀ m, R m (m.log Machine.nestingLimitLine)
  builtin : ∀ {name builtin}, ctx.dialect.find? name = some builtin →
    ∀ call m, R m (ctx.dialect.evaluate ctx.setting builtin call m).2

/-- Whatever `x` does, the machine before and after are related. -/
def Exec.Keeps {α : Type} (R : Machine → Machine → Prop) (x : Exec α) : Prop :=
  ∀ c, R c.machine (x c).2.machine

namespace Exec
variable {α β : Type} {R : Machine → Machine → Prop}

/-- The machine after restoring is the one before, if restoring leaves it alone. -/
theorem machine_ensuring (x : Exec α) {restore : Exec Unit}
    (hrestore : ∀ c, (restore c).2.machine = c.machine) (c : Config) :
    (x.ensuring restore c).2.machine = (x c).2.machine := by
  unfold Effect.ensuring
  rcases x c with ⟨_ | a, d⟩
  · exact hrestore d
  · have hd := hrestore d
    rcases hr : restore d with ⟨_ | _, u⟩ <;> rw [hr] at hd <;> simp only [hr] <;> exact hd

theorem Keeps.ensuring {x : Exec α} {restore : Exec Unit} (hx : Keeps R x)
    (hrestore : ∀ c, (restore c).2.machine = c.machine) : Keeps R (x.ensuring restore) := by
  intro c
  rw [machine_ensuring x hrestore c]
  exact hx c

theorem keeps_onMachine {action : Action α} (h : ∀ m, R m (action m).2) : Keeps R (onMachine action) := by
  intro c
  rw [onMachine_apply]
  exact h c.machine

section Walk
variable {ctx : Context} (course : ctx.Course R)
include course

theorem Plain.keeps {x : Exec α} (h : Plain x) : Keeps R x := by
  intro c
  rw [h.machine c]
  exact course.refl _

theorem Keeps.bind {x : Exec α} {f : α → Exec β} (hx : Keeps R x) (hf : ∀ a, Keeps R (f a)) :
    Keeps R (x >>= f) := by
  intro c
  have h := hx c
  rw [Effect.bind_apply]
  rcases hc : x c with ⟨_ | a, d⟩ <;> rw [hc] at h
  · exact h
  · exact course.trans h (hf a d)

theorem keeps_deepen : Keeps R (deepen ctx) := by
  intro c
  rw [deepen_apply]
  dsimp only
  split
  · exact course.deepest c.machine
  · exact course.refl c.machine

end Walk
end Exec

open Exec

/-- That a course is kept is a congruence. -/
theorem Context.Course.uniform {ctx : Context} {R : Machine → Machine → Prop} (course : ctx.Course R) :
    ctx.Uniform ctx fun _ x _ => Keeps R x :=
  Context.Oblivious.uniform
    { dialect := rfl
      plain := fun h => h.keeps course
      bind := fun hx hf => hx.bind course hf
      ensuring := fun hx hrestore => hx.ensuring hrestore.machine
      signal := fun signal c => course.signal c.machine signal
      count := keeps_onMachine course.count
      deepen := keeps_deepen course
      builtin := fun hfind call => keeps_onMachine (course.builtin hfind call) }

/-! ### Tasks -/

section Inner
variable {ctx : Context} {R : Machine → Machine → Prop} (course : ctx.Course R) {runner : Runner}
  (h : ∀ t, Keeps R (runner t))
include course h

theorem run_keeps (t : Task) : Keeps R (runner.run t) :=
  Keeps.bind course (h t) fun _ => (plain_pure ()).keeps course

theorem arguments_keeps (wants : Nat → Bool) (args : List Expr) (position : Nat) :
    Keeps R (runner.arguments wants position args) :=
  @Context.Evaluates.arguments _ _ _ runner runner course.uniform.toEvaluates wants args position
    fun _ _ => h _

theorem evaluate_keeps (e : Expr) : Keeps R (runner.evaluate e) :=
  @Context.Stepwise.evaluate _ _ _ runner runner course.uniform.toStepwise e (h _)

theorem select_keeps (value : Word) (cases : List Case) : Keeps R (runner.select value cases) :=
  @Context.Stepwise.select _ _ _ runner runner course.uniform.toStepwise value cases fun _ => h _

theorem initialise_keeps (statements : List Statement) : Keeps R (runner.initialise statements) :=
  @Context.Stepwise.initialise _ _ _ runner runner course.uniform.toStepwise statements fun _ _ => h _

theorem sequence_keeps (statements : List Statement) : Keeps R (ctx.sequence runner statements) :=
  @Context.Stepwise.sequence _ _ _ runner runner course.uniform.toStepwise statements fun _ _ => h _

end Inner

/-! ### Runs -/

namespace Context.Course
variable {ctx : Context} {R : Machine → Machine → Prop} (course : ctx.Course R)
include course

/-- The machines before and after a task are related, however it ends. -/
theorem perform (depth : Nat) (t : Task) : Keeps R (ctx.perform depth t) :=
  course.uniform.perform (fun c => course.refl c.machine) depth t

/-- And so are those before and after a run. -/
theorem program (depth : Nat) (program : Block) : Keeps R (Run.program ctx depth program) :=
  course.uniform.program (fun c => course.refl c.machine) depth program

theorem call (depth : Nat) (program : Block) (name : String) (args : List Word) :
    Keeps R (Run.call ctx depth program name args) :=
  course.uniform.call (fun c => course.refl c.machine) depth program name args

end Context.Course
end BlockIR
