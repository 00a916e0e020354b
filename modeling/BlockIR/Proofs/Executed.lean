import BlockIR.Proofs.Course
import BlockIR.Proofs.Moment

/-! The builtin calls that a run makes.

Apart from counting, signals and lines about limits, a machine is changed by the
builtin calls that are executed, and these are found at the moments of a run
(`Run.Makes`). So the two ends of a run can be tied to them: whatever the
machine is at the end of a moment, the run goes on from there (`Moment.keeps`); and
what each executed call respects is respected by the whole run
(`Run.keeps_of_made`). -/
namespace BlockIR

/-! ### Parts of runs that congruences go through -/

/-- A part of a run that is related under any congruence, if its runners are. -/
def Context.Carries {α : Type} (ctx : Context) (x : Runner → Exec α) : Prop :=
  ∀ R : Exec.Relation, ctx.Uniform ctx R → ∀ runner better : Runner,
    (∀ t, R (List Word) (runner t) (better t)) → R α (x runner) (x better)

theorem Context.carries_advance (ctx : Context) (t : Task) : ctx.Carries fun runner => ctx.advance runner t :=
  fun _ cong _ _ h => cong.advance h t

namespace Run

theorem outermost_carries (ctx : Context) (program : Block) : ctx.Carries (outermost ctx program) :=
  fun _ cong _ _ h => cong.block program (cong.gets _) (fun f _ => cong.declareFunction f) fun _ _ => h _

theorem entry_carries (ctx : Context) (program : Block) (name : String) (args : List Word) :
    ctx.Carries (entry program name args) := by
  intro R cong runner better h
  apply cong.bind (cong.enterScope program.id)
  intro _
  apply cong.bind (cong.declareFunctions fun f _ => cong.declareFunction f)
  exact fun _ => h _

end Run

/-! ### From a moment on -/

/-- `y` does what `x` does, unless `x` ends with a machine of `P`. -/
def Exec.AgreesUnless (R : Machine → Machine → Prop) (P : Machine → Prop) : Exec.Relation :=
  fun _ x y => Exec.Keeps R x ∧ ∀ c, y c = x c ∨ P (x c).2.machine

section Onwards
open Exec
variable {ctx : Context} {R : Machine → Machine → Prop} (course : ctx.Course R)
include course

/-- If the course keeps `P`, what comes later does not matter. -/
theorem Context.Course.agreesUnless {P : Machine → Prop} (hP : ∀ {m n}, P m → R m n → P n) :
    ctx.Uniform ctx (AgreesUnless R P) :=
  Context.Oblivious.uniform
    { dialect := rfl
      plain := fun h => ⟨h.keeps course, fun _ => .inl rfl⟩
      bind := by
        rintro α β x y f g ⟨hx, hxy⟩ hfg
        refine ⟨hx.bind course fun a => (hfg a).1, fun c => ?_⟩
        rcases hxy c with heq | hlater
        · rw [Effect.bind_apply, Effect.bind_apply, heq]
          rcases x c with ⟨stop | a, d⟩
          · exact .inl rfl
          · exact (hfg a).2 d
        · right
          rw [Effect.bind_apply]
          rcases hc : x c with ⟨stop | a, d⟩ <;> rw [hc] at hlater
          · exact hlater
          · exact hP hlater ((hfg a).1 d)
      ensuring := by
        rintro α x y restore ⟨hx, hxy⟩ hrestore
        refine ⟨hx.ensuring hrestore.machine, fun c => (hxy c).imp (fun heq => ?_) fun hlater => ?_⟩
        · unfold Effect.ensuring
          rw [heq]
        · rwa [machine_ensuring x hrestore.machine]
      signal := fun signal => ⟨fun c => course.signal c.machine signal, fun _ => .inl rfl⟩
      count := ⟨keeps_onMachine course.count, fun _ => .inl rfl⟩
      deepen := ⟨keeps_deepen course, fun _ => .inl rfl⟩
      builtin := fun hfind call => ⟨keeps_onMachine (course.builtin hfind call), fun _ => .inl rfl⟩ }

/-- A part goes on from where a task ends that it asks for. -/
theorem Asks.keeps {α : Type} {x : Runner → Exec α} (hx : ctx.Carries x) {runner : Runner}
    (hrunner : ∀ t, Keeps R (runner t)) {c d : Config} {u : Task} (h : Asks x runner c u d) :
    R (runner u d).2.machine (x runner c).2.machine := by
  apply Classical.byContradiction
  intro hnot
  -- Otherwise it would make no difference whether the task fails.
  refine h.not_const (r := x runner c) fun stop => ?_
  have cong := course.agreesUnless (P := R (runner u d).2.machine) fun h h' => course.trans h h'
  have hagree := hx _ cong runner (runner.failingAt u d stop) fun t => ⟨hrunner t, fun e => ?_⟩
  · exact (hagree.2 c).resolve_right hnot
  · by_cases hplace : t = u ∧ e = d
    · obtain ⟨rfl, rfl⟩ := hplace
      exact .inr (course.refl _)
    · exact .inl (if_neg hplace)

/-- A run goes on from where each of its moments ends. -/
theorem Moment.keeps {α : Type} {x : Runner → Exec α} (hx : ctx.Carries x) {depth left : Nat} {t : Task}
    {c : Config} (h : Moment ctx x depth left t c) :
    R (ctx.perform left t c).2.machine (x (ctx.perform depth) {}).2.machine := by
  induction h with
  | first hasks => exact hasks.keeps course hx (course.perform depth)
  | next hmoment hasks ih =>
    exact course.trans (hasks.keeps course (ctx.carries_advance _) (course.perform _)) ih

end Onwards

/-! ### Executed calls -/

/-- Goes a level deeper and evaluates the arguments of a call. -/
def Context.reaching (ctx : Context) (runner : Runner) (name : String) (args : List Expr) :
    Exec (List Word) := do
  Exec.deepen ctx
  runner.arguments (ctx.dialect.wantsLiteral name) 0 args

theorem Context.expression_call (ctx : Context) (runner : Runner) (name : String) (args : List Expr) :
    ctx.expression runner (.call name args) = ctx.reaching runner name args >>= ctx.apply runner name args :=
  (bind_assoc ..).symm

/-- The run makes a call of a builtin on a machine: at one of its moments the builtin is called, and its
arguments have values. -/
inductive Run.Makes {α : Type} (ctx : Context) (x : Runner → Exec α) (depth : Nat) :
    String → List Word → List Expr → Machine → Prop
  | intro {left : Nat} {name : String} {args : List Expr} {values : List Word} {c d : Config} :
    Moment ctx x depth (left + 1) (.expression (.call name args)) c → (ctx.dialect.find? name).isSome →
    ctx.reaching (ctx.perform left) name args c = (.ok values, d) → Makes ctx x depth name values args d.machine

/-- What a call of a builtin leaves of a machine. -/
def Context.after (ctx : Context) (name : String) (values : List Word) (args : List Expr) (m : Machine) : Machine :=
  match ctx.dialect.find? name with
  | some builtin => (ctx.dialect.evaluate ctx.setting builtin ⟨values, args.map .expression⟩ m).2
  | none => m

theorem Context.apply_machine {ctx : Context} {name : String} (h : (ctx.dialect.find? name).isSome)
    (runner : Runner) (args : List Expr) (values : List Word) (c : Config) :
    (ctx.apply runner name args values c).2.machine = ctx.after name values args c.machine := by
  obtain ⟨builtin, hfind⟩ := Option.isSome_iff_exists.mp h
  unfold Context.apply Context.after
  rw [hfind]
  dsimp only
  rw [Effect.bind_apply, Exec.onMachine_apply]
  rcases ctx.dialect.evaluate ctx.setting builtin ⟨values, args.map .expression⟩ c.machine with ⟨_ | _, _⟩ <;> rfl

section Executing
open Exec
variable {α : Type} {ctx : Context} {x : Runner → Exec α} {depth : Nat} {name : String} {values : List Word}
  {args : List Expr} {m : Machine}

/-- A run goes on from what an executed call leaves. -/
theorem Run.Makes.keeps {R : Machine → Machine → Prop} (course : ctx.Course R) (hx : ctx.Carries x)
    (h : Makes ctx x depth name values args m) :
    R (ctx.after name values args m) (x (ctx.perform depth) {}).2.machine := by
  cases h with
  | intro hmoment hbuiltin hreach =>
    rename_i left c d
    have hcall : ctx.perform (left + 1) (.expression (.call name args)) c =
        ctx.apply (ctx.perform left) name args values d :=
      (congrFun (ctx.expression_call _ name args) c).trans (Effect.bind_of_ok hreach)
    have hlast := hmoment.keeps course hx
    rwa [hcall, Context.apply_machine hbuiltin] at hlast

/-- A context without builtins. -/
def Context.bare (ctx : Context) : Context := { ctx with dialect := ⟨ctx.dialect.name, []⟩ }

theorem Context.bare_sequence (ctx : Context) (runner : Runner) (statements : List Statement) :
    ctx.bare.sequence runner statements = ctx.sequence runner statements := by
  induction statements with
  | nil => rfl
  | cons s rest ih =>
    unfold Context.sequence
    rw [ih]
    rfl

theorem Context.bare_block (ctx : Context) (runner : Runner) (b : Block) {β : Type} (exit : Exec β) :
    ctx.bare.block runner b exit = ctx.block runner b exit := by
  unfold Context.block
  rw [ctx.bare_sequence]

/-- Builtins matter for calls only. -/
theorem Context.bare_advance (ctx : Context) (runner : Runner) {t : Task}
    (ht : ∀ name args, t ≠ .expression (.call name args)) : ctx.bare.advance runner t = ctx.advance runner t := by
  cases t with
  | expression e =>
    cases e with
    | literal _ => rfl
    | identifier _ => rfl
    | call name args => exact absurd rfl (ht name args)
  | invoke _ _ => rfl
  | statement _ => rfl
  | block b => exact congrArg yielding (ctx.bare_block runner b _)
  | rounds _ => rfl

theorem Run.outermost_bare (ctx : Context) (program : Block) : outermost ctx.bare program = outermost ctx program :=
  funext fun runner => ctx.bare_block runner program bindings

open Classical in
/-- Does only the tasks that `x` asks for from a configuration. -/
noncomputable def Runner.asked (runner : Runner) (x : Runner → Exec α) (c : Config) : Runner := fun u d =>
  if Asks x runner c u d then runner u d else (.error (.failed .scopeUnderflow), d)

theorem AsksAll.asked (hx : AsksAll x) (runner : Runner) (c : Config) : x (runner.asked x c) c = x runner c :=
  hx _ _ c fun _ _ hasks => if_pos hasks

theorem reaching_asksAll (ctx : Context) (name : String) (args : List Expr) :
    AsksAll fun runner => ctx.reaching runner name args :=
  (asksAll_const _).bind fun _ => arguments_asksAll _ _ _

/-- What the arguments of a call ask for, the call asks for. -/
theorem asks_of_reaching {runner : Runner} {c d : Config} {u : Task}
    (h : Asks (fun runner => ctx.reaching runner name args) runner c u d) :
    Asks (fun runner => ctx.advance runner (.expression (.call name args))) runner c u d := by
  have hbind : Asks (fun runner => ctx.reaching runner name args >>= ctx.apply runner name args) runner c u d := h.bind
  simp only [← Context.expression_call] at hbind
  exact hbind

variable {R : Machine → Machine → Prop} (course : ctx.bare.Course R)
include course

theorem Runner.asked_keeps {runner : Runner} {c : Config}
    (h : ∀ u d, Asks x runner c u d → R d.machine (runner u d).2.machine) (u : Task) :
    Keeps R (runner.asked x c u) := by
  intro d
  unfold Runner.asked
  split
  · exact h u d ‹_›
  · exact course.refl _

theorem Runner.reaching_keeps {runner : Runner} (h : ∀ u, Keeps R (runner u)) (name : String) (args : List Expr) :
    Keeps R (ctx.reaching runner name args) := by
  have hdeepen : Keeps R (deepen ctx.bare) := keeps_deepen course
  exact hdeepen.bind course fun _ => arguments_keeps course h _ _ _

/-- What each executed call respects is respected at each moment of the run. -/
theorem Moment.keeps_of_made (hmade : ∀ name values args m, Run.Makes ctx x depth name values args m →
      R m (ctx.after name values args m)) {left : Nat} {t : Task} {c : Config}
    (h : Moment ctx x depth left t c) : R c.machine (ctx.perform left t c).2.machine := by
  induction left generalizing t c with
  | zero => exact course.refl _
  | succ left ih =>
    -- No other tasks are done than those that are moments again.
    have hinner : ∀ u, Keeps R ((ctx.perform left).asked (fun runner => ctx.advance runner t) c u) :=
      Runner.asked_keeps course fun u d hasks => ih (.next h hasks)
    have hsame : ctx.advance ((ctx.perform left).asked (fun runner => ctx.advance runner t) c) t c =
        ctx.perform (left + 1) t c := (advance_asksAll ctx t).asked (ctx.perform left) c
    rw [← hsame]
    generalize hrunner : (ctx.perform left).asked (fun runner => ctx.advance runner t) c = runner at hinner hsame
    by_cases hcall : ∃ name args, t = .expression (.call name args)
    · obtain ⟨name, args, rfl⟩ := hcall
      show R c.machine (ctx.expression runner (.call name args) c).2.machine
      have hreaching := Runner.reaching_keeps course hinner name args c
      rw [ctx.expression_call, Effect.bind_apply]
      rcases hreach : ctx.reaching runner name args c with ⟨stop | values, d⟩ <;> rw [hreach] at hreaching
      · exact hreaching
      · apply course.trans hreaching
        by_cases hbuiltin : (ctx.dialect.find? name).isSome
        · dsimp only
          rw [Context.apply_machine hbuiltin]
          refine hmade name values args d.machine (.intro h hbuiltin ?_)
          rw [← hreach, ← hrunner]
          exact ((reaching_asksAll ctx name args) _ _ c fun u e hasks => if_pos (asks_of_reaching hasks)).symm
        · unfold Context.apply
          rw [Option.not_isSome_iff_eq_none.mp hbuiltin]
          exact hinner _ d
    · rw [← ctx.bare_advance runner fun name args ht => hcall ⟨name, args, ht⟩]
      exact ctx.bare.carries_advance t (fun _ x _ => Keeps R x) course.uniform runner runner hinner c

/-- What each executed call respects is respected by the run. -/
theorem Run.keeps_of_made (hx : ctx.bare.Carries x) (hasks : AsksAll x)
    (hmade : ∀ name values args m, Makes ctx x depth name values args m →
      R m (ctx.after name values args m)) : R {} (x (ctx.perform depth) {}).2.machine := by
  rw [← hasks.asked (ctx.perform depth) {}]
  have hinner : ∀ u, Keeps R ((ctx.perform depth).asked x {} u) :=
    Runner.asked_keeps course fun u d h => (Moment.first h).keeps_of_made course hmade
  exact hx (fun _ x _ => Keeps R x) course.uniform _ ((ctx.perform depth).asked x {}) hinner {}

end Executing
end BlockIR
