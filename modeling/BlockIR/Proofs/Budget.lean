import BlockIR.Proofs.Builtins
import BlockIR.Proofs.Course
import BlockIR.Proofs.Depth

/-! The step budget stops every run.

Not everything counts a step: conditions, arguments, init statements and empty
function bodies do not. But whatever a task leads to is either a smaller part of
the same statement or expression, or it comes after a counted step: a block
counts its first statement before anything in it runs, and a round of a loop
runs a block that has a statement or counts by itself. So the tasks settle by
induction on the budget that is left and, where none is used, on the syntax.
`budget_ends_runs` is the result. -/
namespace BlockIR

/-! ### Settling -/

namespace Exec
variable {α β : Type}

/-- What needs no depth settles. -/
theorem Shallow.settles {x : Exec α} (h : Shallow x) (c : Config) : Settles (fun _ => x) c := ⟨0, h c⟩

/-- A bind after a part that needs no depth settles if the rest does. -/
theorem Shallow.settles_bind {x : Exec α} {f : Nat → α → Exec β} {c : Config} (hx : Shallow x)
    (hf : ∀ a, Growing fun depth => f depth a)
    (hrest : ∀ a d, x c = (.ok a, d) → Settles (fun depth => f depth a) d) :
    Settles (fun depth => x >>= f depth) c :=
  Exec.settles_bind (growing_const x) hf (hx.settles c) fun _ a d h => hrest a d h

/-- Handing a value on does not matter to settling. -/
theorem settles_bind_shallow {x : Nat → Exec α} {f : α → Exec β} {c : Config} (hx : Growing x)
    (h : Settles x c) (hf : ∀ a, Shallow (f a)) : Settles (fun depth => x depth >>= f) c :=
  Exec.settles_bind hx (fun a => growing_const (f a)) h fun _ a d _ => (hf a).settles d

theorem settles_single {x : Nat → Exec (List Word)} {c : Config} (hx : Growing x)
    (h : Settles x c) : Settles (fun depth => single (x depth)) c := by
  refine settles_bind_shallow hx h fun values => ?_
  split
  · exact shallow_pure _
  · exact shallow_fail _

end Exec

open Exec

/-! ### Counting -/

/-- Steps are only ever counted up. -/
theorem steps_course (target : Target) {ctx : Context} (hctx : ctx.dialect = target.dialect) :
    ctx.Course fun m n => m.steps ≤ n.steps where
  refl m := Nat.le_refl _
  trans := Nat.le_trans
  signal _ _ := Nat.le_refl _
  count m := by
    rw [countStep_apply]
    split <;> exact Nat.le_succ _
  deepest _ := Nat.le_refl _
  builtin hfind call m := by
    rw [hctx] at hfind ⊢
    exact Nat.le_of_eq ((target.evaluate_tame hfind ctx.setting call).steps m).symm

/-- The part of the budget that is left. -/
def Context.left (ctx : Context) (c : Config) : Nat := ctx.setting.maxSteps - c.machine.steps

/-- What keeps the count of steps leaves no more of the budget. -/
theorem left_le (ctx : Context) {α : Type} {x : Exec α} (h : Keeps (fun m n => m.steps ≤ n.steps) x)
    {c d : Config} {r : Except Stop α} (hx : x c = (r, d)) : ctx.left d ≤ ctx.left c := by
  have hc := h c
  rw [hx] at hc
  exact Nat.sub_le_sub_left hc _

/-- A counted step leaves less of the budget. -/
theorem left_lt {ctx : Context} (hbudget : 0 < ctx.setting.maxSteps) {c d : Config} {a : Unit}
    (h : onMachine (countStep ctx.setting) c = (.ok a, d)) : ctx.left d < ctx.left c := by
  rw [onMachine_apply, countStep_apply] at h
  split at h
  · cases h
  · rename_i hlow
    obtain ⟨-, rfl⟩ := Prod.mk.inj h
    simp only [Context.left]
    omega

/-! ### Tasks -/

section Affordable
variable {ctx : Context} (hbudget : 0 < ctx.setting.maxSteps)
  (course : ctx.Course fun m n => m.steps ≤ n.steps) {budget : Nat}
  (ih : ∀ t d, ctx.left d < budget → Settles (fun depth => ctx.perform depth t) d)

theorem run_growing (ctx : Context) (t : Task) : Growing fun depth => (ctx.perform depth).run t :=
  fun depth => (extends_uniform ctx).run (perform_extends ctx depth t)

theorem evaluate_growing (ctx : Context) (e : Expr) : Growing fun depth => (ctx.perform depth).evaluate e :=
  fun depth => (extends_uniform ctx).evaluate (perform_extends ctx depth _)

theorem evaluateAll_growing (ctx : Context) (e : Expr) :
    Growing fun depth => (ctx.perform depth).evaluateAll e :=
  fun depth => (extends_uniform ctx).evaluateAll (perform_extends ctx depth _)

theorem arguments_growing (ctx : Context) (wants : Nat → Bool) (position : Nat) (args : List Expr) :
    Growing fun depth => (ctx.perform depth).arguments wants position args :=
  fun depth => (extends_uniform ctx).arguments _ _ _ fun _ _ => perform_extends ctx depth _

theorem sequence_growing (ctx : Context) (statements : List Statement) :
    Growing fun depth => ctx.sequence (ctx.perform depth) statements :=
  fun depth => (extends_uniform ctx).sequence _ fun _ _ => perform_extends ctx depth _

theorem initialise_growing (ctx : Context) (statements : List Statement) :
    Growing fun depth => (ctx.perform depth).initialise statements :=
  fun depth => (extends_uniform ctx).initialise _ fun _ _ => perform_extends ctx depth _

theorem select_growing (ctx : Context) (value : Word) (cases : List Case) :
    Growing fun depth => (ctx.perform depth).select value cases :=
  fun depth => (extends_uniform ctx).select _ _ fun _ => perform_extends ctx depth _

theorem settles_perform {t : Task} {c : Config}
    (h : Settles (fun depth => ctx.advance (ctx.perform depth) t) c) :
    Settles (fun depth => ctx.perform depth t) c := by
  obtain ⟨depth, hdepth⟩ := h
  exact ⟨depth + 1, hdepth⟩

theorem settles_run {t : Task} {c : Config} (h : Settles (fun depth => ctx.perform depth t) c) :
    Settles (fun depth => (ctx.perform depth).run t) c :=
  settles_bind_shallow (perform_growing ctx t) h fun _ => shallow_pure ()

include hbudget course ih

/-- Statements in turn: the first is counted before it runs, so the rest of the budget is smaller. -/
theorem sequence_settles (statements : List Statement) {c : Config} (hc : ctx.left c ≤ budget) :
    Settles (fun depth => ctx.sequence (ctx.perform depth) statements) c := by
  induction statements generalizing c with
  | nil => exact (shallow_pure ()).settles c
  | cons s rest ihrest =>
    have hsignal (signal : Signal) : Growing fun depth =>
        if signal = .proceed then ctx.sequence (ctx.perform depth) rest else pure () := by
      intro depth
      split
      · exact sequence_growing ctx rest depth
      · exact Extends.refl _
    refine (shallow_onMachine _).settles_bind (fun _ depth => ?_) fun a d hd => ?_
    · exact Extends.bind (run_growing ctx _ depth) fun _ =>
        Extends.bind (Extends.refl _) fun signal => hsignal signal depth
    · have hless : ctx.left d < budget := Nat.lt_of_lt_of_le (left_lt hbudget hd) hc
      refine settles_bind (run_growing ctx _) (fun _ depth => ?_) (settles_run (ih _ d hless))
        fun depth a' d' hd' => ?_
      · exact Extends.bind (Extends.refl _) fun signal => hsignal signal depth
      · refine (shallow_gets _).settles_bind (fun signal => hsignal signal) fun signal e he => ?_
        obtain ⟨-, rfl⟩ := Prod.mk.inj he
        have hkeep := left_le ctx (run_keeps course (course.perform depth) _) hd'
        split
        · exact ihrest (by omega)
        · exact (shallow_pure ()).settles _

theorem block_settles {α : Type} (b : Block) {exit : Exec α} (hexit : Shallow exit) {c : Config}
    (hc : ctx.left c ≤ budget) : Settles (fun depth => ctx.block (ctx.perform depth) b exit) c := by
  have hsequence := sequence_growing ctx b.statements
  have hbody : Growing fun depth =>
      declareFunctions b.functions >>= fun _ =>
        ctx.sequence (ctx.perform depth) b.statements >>= fun _ => exit :=
    fun depth => Extends.bind (Extends.refl _) fun _ =>
      Extends.bind (hsequence depth) fun _ => Extends.refl _
  refine (plain_enterScope _).shallow.settles_bind (fun _ depth => Extends.ensuring (hbody depth) _)
    fun a d hd => settles_ensuring ?_ plain_leaveScope.shallow
  have hd' := left_le ctx ((plain_enterScope _).keeps course) hd
  refine (plain_declareFunctions _).shallow.settles_bind (fun _ depth => ?_) fun a' e he => ?_
  · exact Extends.bind (hsequence depth) fun _ => Extends.refl _
  · have he' := left_le ctx ((plain_declareFunctions _).keeps course) he
    exact settles_bind_shallow hsequence
      (sequence_settles hbudget course ih _ (by omega)) fun _ => hexit

theorem blockTask_settles (b : Block) {c : Config} (hc : ctx.left c ≤ budget) :
    Settles (fun depth => ctx.perform depth (.block b)) c :=
  settles_perform <| settles_bind_shallow
    (fun depth => (extends_uniform ctx).block b (Extends.refl _) (fun _ _ => Extends.refl _)
      fun _ _ => perform_extends ctx depth _)
    (block_settles hbudget course ih b (shallow_pure ()) hc) fun _ => shallow_pure _

theorem invoke_settles (name : String) (args : List Word) {c : Config} (hc : ctx.left c ≤ budget) :
    Settles (fun depth => (ctx.perform depth).invoke name args) c := by
  rcases invoke_cases name args c with ⟨e, he⟩ | ⟨scope, definition, hfound, hcount⟩
  · refine ⟨0, ?_⟩
    show ((ctx.perform 0).invoke name args c).1 ≠ _
    rw [he]
    exact nofun
  · let d : Config := { c with
      machine := { c.machine with signal := .proceed }
      activation := { scope := scope, bindings := definition.bindings args
                      base := c.activation.level, level := c.activation.level } }
    obtain ⟨depth, hdepth⟩ : Settles (fun depth => (ctx.perform depth).run (.block definition.body) >>=
        fun _ => setSignal .proceed >>= fun _ => valuesOf definition.returns) d :=
      settles_bind_shallow (run_growing ctx _)
        (settles_run (blockTask_settles hbudget course ih definition.body hc))
        fun _ => (shallow_modify _).bind fun _ => (shallow_uniform ctx).valuesOf _
    refine ⟨depth, ?_⟩
    show ((ctx.perform depth).invoke name args c).1 ≠ _
    rw [invoke_of_found hfound hcount, within_apply]
    exact hdepth

theorem invokeTask_settles (name : String) (args : List Word) {c : Config} (hc : ctx.left c ≤ budget) :
    Settles (fun depth => ctx.perform depth (.invoke name args)) c :=
  settles_perform (invoke_settles hbudget course ih name args hc)

omit hbudget ih in
/-- Arguments settle if each one does, wherever that is no poorer. -/
theorem arguments_settles (wants : Nat → Bool) (args : List Expr) (position : Nat)
    (hargs : ∀ e ∈ args, ∀ d, ctx.left d ≤ budget →
      Settles (fun depth => ctx.perform depth (.expression e)) d)
    {c : Config} (hc : ctx.left c ≤ budget) :
    Settles (fun depth => (ctx.perform depth).arguments wants position args) c := by
  induction args generalizing position c with
  | nil => exact (shallow_pure []).settles c
  | cons e rest ihrest =>
    have hfirst : Growing fun depth => (ctx.perform depth).argument (wants position) e := by
      intro depth
      unfold Runner.argument
      split
      · exact Extends.refl _
      · exact (extends_uniform ctx).single (perform_extends ctx depth _)
    refine settles_bind (arguments_growing ctx wants (position + 1) rest)
      (fun values depth => Extends.bind (hfirst depth) fun _ => Extends.refl _)
      (ihrest (position + 1) (fun e' he' => hargs e' (List.mem_cons_of_mem _ he')) hc)
      fun depth values d hd => ?_
    have hd' := left_le ctx (arguments_keeps course (course.perform depth) _ _ _) hd
    refine settles_bind_shallow hfirst ?_ fun _ => shallow_pure _
    unfold Runner.argument
    split
    · exact (shallow_pure 0).settles d
    · exact settles_single (perform_growing ctx _) (hargs e (List.mem_cons_self ..) d (by omega))

theorem expression_settles (e : Expr) {c : Config} (hc : ctx.left c ≤ budget) :
    Settles (fun depth => ctx.perform depth (.expression e)) c := by
  refine settles_perform ?_
  match e with
  | .literal literal =>
    exact ((shallow_deepen ctx).bind fun _ => (shallow_ofExcept _).bind fun _ =>
      shallow_pure _).settles c
  | .identifier name =>
    exact (((shallow_uniform ctx).valueOf name).bind fun _ => (shallow_deepen ctx).bind fun _ =>
      shallow_pure _).settles c
  | .call name args =>
    have happly (values : List Word) : Growing fun depth => ctx.apply (ctx.perform depth) name args values :=
      fun depth => (extends_uniform ctx).apply _ _ _ (perform_extends ctx depth _)
    have hargs := arguments_growing ctx (ctx.dialect.wantsLiteral name) 0 args
    refine (shallow_deepen ctx).settles_bind
      (fun _ depth => Extends.bind (hargs depth) fun values => happly values depth) fun a d hd => ?_
    have hd' := left_le ctx (keeps_deepen course) hd
    refine settles_bind hargs happly ?_ fun depth values f hf => ?_
    · exact arguments_settles course _ args 0
        (fun e' he' d' hd' => expression_settles e' hd') (by omega)
    · have hf' := left_le ctx (arguments_keeps course (course.perform depth) _ _ _) hf
      unfold Context.apply
      split
      · exact ((shallow_onMachine _).bind fun _ => shallow_pure _).settles f
      · exact invokeTask_settles hbudget course ih _ _ (by omega)
termination_by sizeOf e
decreasing_by
  have := List.sizeOf_lt_of_mem he'
  simp only [Expr.call.sizeOf_spec]
  omega

theorem evaluateAll_settles (e : Expr) {c : Config} (hc : ctx.left c ≤ budget) :
    Settles (fun depth => (ctx.perform depth).evaluateAll e) c :=
  (shallow_modify _).settles_bind (fun _ => perform_growing ctx _) fun a d hd => by
    obtain ⟨-, rfl⟩ := Prod.mk.inj hd
    exact expression_settles hbudget course ih e hc

theorem evaluate_settles (e : Expr) {c : Config} (hc : ctx.left c ≤ budget) :
    Settles (fun depth => (ctx.perform depth).evaluate e) c :=
  settles_single (evaluateAll_growing ctx e)
    (evaluateAll_settles hbudget course ih e hc)

omit ih in
/-- A block with a statement has counted it when it is done. -/
theorem block_left (depth : Nat) {b : Block} (hb : b.statements ≠ []) {c d : Config} {ws : List Word}
    (h : ctx.perform depth (.block b) c = (.ok ws, d)) : ctx.left d < ctx.left c := by
  cases depth with
  | zero => cases h
  | succ depth =>
    obtain ⟨_, d₀, hblock, hd⟩ := Effect.bind_eq_ok h
    obtain ⟨-, rfl⟩ := Prod.mk.inj hd
    obtain ⟨_, c₁, henter, h₁⟩ := Effect.bind_eq_ok hblock
    obtain ⟨d₁, hbody, hleave⟩ := Effect.ensuring_eq_ok h₁
    obtain ⟨_, c₂, hdeclare, h₂⟩ := Effect.bind_eq_ok hbody
    obtain ⟨_, d₂, hsequence, hexit⟩ := Effect.bind_eq_ok h₂
    obtain ⟨-, rfl⟩ := Prod.mk.inj hexit
    obtain ⟨id, statements⟩ := b
    obtain _ | ⟨s, rest⟩ := statements
    · exact absurd rfl hb
    obtain ⟨_, c₃, hcount, h₃⟩ := Effect.bind_eq_ok hsequence
    have hless := left_lt hbudget hcount
    have hrest := left_le ctx (Keeps.bind course (run_keeps course (course.perform depth) _)
      fun _ => Keeps.bind course ((plain_gets _).keeps course) fun signal => by
        split
        · exact sequence_keeps course (course.perform depth) _
        · exact (plain_pure ()).keeps course) h₃
    have h₁ := left_le ctx ((plain_enterScope _).keeps course) henter
    have h₂ := left_le ctx ((plain_declareFunctions _).keeps course) hdeclare
    have h₄ := left_le ctx (plain_leaveScope.keeps course) hleave
    omega

omit hbudget course in
theorem afterPost_settles (l : ForLoop) {c : Config} (hc : ctx.left c < budget) :
    Settles (fun depth => (ctx.perform depth).afterPost l) c := by
  refine (shallow_gets _).settles_bind (fun signal depth => ?_) fun signal d hd => ?_
  · split
    · exact Extends.refl _
    · exact run_growing ctx _ depth
  · obtain ⟨-, rfl⟩ := Prod.mk.inj hd
    split
    · exact (shallow_uniform ctx).settle.settles _
    · exact settles_run (ih _ _ hc)

/-- The next round comes after a counted step: one before, or the first of the post block. -/
theorem afterBody_settles (l : ForLoop) {c : Config} (hc : ctx.left c ≤ budget)
    (hpaid : ctx.left c < budget ∨ l.post.statements ≠ []) :
    Settles (fun depth => (ctx.perform depth).afterBody l) c := by
  have hafter : Growing fun depth => (ctx.perform depth).afterPost l :=
    fun depth => (extends_uniform ctx).afterPost (perform_extends ctx depth _)
  refine (shallow_gets _).settles_bind (fun signal depth => ?_) fun signal d hd => ?_
  · split
    · exact Extends.refl _
    · exact Extends.bind (Extends.refl _) fun _ =>
        Extends.bind (run_growing ctx _ depth) fun _ => hafter depth
  · obtain ⟨-, rfl⟩ := Prod.mk.inj hd
    split
    · exact (shallow_uniform ctx).settle.settles _
    · refine (shallow_modify _).settles_bind (fun _ depth => Extends.bind (run_growing ctx _ depth)
        fun _ => hafter depth) fun _ e he => ?_
      obtain ⟨-, rfl⟩ := Prod.mk.inj he
      refine settles_bind (run_growing ctx _) (fun _ => hafter)
        (settles_run (blockTask_settles hbudget course ih _ hc)) fun depth _ f hf => ?_
      have hle := left_le ctx (run_keeps course (course.perform depth) _) hf
      obtain ⟨ws, _, hpost, hdone⟩ := Effect.bind_eq_ok hf
      obtain ⟨-, rfl⟩ := Prod.mk.inj hdone
      refine afterPost_settles ih l ?_
      rcases hpaid with hless | hpost'
      · exact Nat.lt_of_le_of_lt hle hless
      · exact Nat.lt_of_lt_of_le (block_left hbudget course depth hpost' hpost) hc

omit course ih in
/-- A round without a statement is paid for by the step it counts itself. -/
theorem spins_left {l : ForLoop} {c d : Config} {a : Unit}
    (h : Effect.when l.spins (onMachine (countStep ctx.setting)) c = (.ok a, d)) :
    ctx.left d ≤ ctx.left c ∧
      (ctx.left d < ctx.left c ∨ l.body.statements ≠ [] ∨ l.post.statements ≠ []) := by
  unfold Effect.when at h
  split at h
  · have hless := left_lt hbudget h
    exact ⟨Nat.le_of_lt hless, .inl hless⟩
  · rename_i hspins
    obtain ⟨-, rfl⟩ := Prod.mk.inj h
    refine ⟨Nat.le_refl _, .inr ?_⟩
    by_cases hbody : l.body.statements = []
    · refine .inr fun hpost => hspins ?_
      simp [ForLoop.spins, hbody, hpost]
    · exact .inl hbody

theorem round_settles (l : ForLoop) {c : Config} (hc : ctx.left c ≤ budget) :
    Settles (fun depth => ctx.round (ctx.perform depth) l) c := by
  have hafter : Growing fun depth => (ctx.perform depth).afterBody l :=
    fun depth => (extends_uniform ctx).afterBody (perform_extends ctx depth _) (perform_extends ctx depth _)
  have hbody : Growing fun depth => (ctx.perform depth).run (.block l.body) >>= fun _ =>
      (ctx.perform depth).afterBody l :=
    fun depth => Extends.bind (run_growing ctx _ depth) fun _ => hafter depth
  have hcount : Shallow (Effect.when l.spins (onMachine (countStep ctx.setting))) := by
    unfold Effect.when
    split
    · exact shallow_onMachine _
    · exact shallow_pure ()
  refine hcount.settles_bind (fun _ depth => Extends.bind (Extends.refl _) fun _ => hbody depth)
    fun _ d hd => ?_
  obtain ⟨hle, hpaid⟩ := spins_left hbudget hd
  refine (shallow_modify _).settles_bind (fun _ => hbody) fun _ e he => ?_
  obtain ⟨-, rfl⟩ := Prod.mk.inj he
  refine settles_bind (run_growing ctx _) (fun _ => hafter)
    (settles_run (blockTask_settles hbudget course ih _ (Nat.le_trans hle hc))) fun depth _ f hf => ?_
  have hkeep := left_le ctx (run_keeps course (course.perform depth) _) hf
  obtain ⟨ws, g, hrun, hdone⟩ := Effect.bind_eq_ok hf
  obtain ⟨-, rfl⟩ := Prod.mk.inj hdone
  have hle' : ctx.left g ≤ ctx.left d := hkeep
  refine afterBody_settles hbudget course ih l (by omega) ?_
  rcases hpaid with hless | hfirst | hpost
  · exact .inl (by omega)
  · have hcounted := block_left hbudget course depth hfirst hrun
    have hless : ctx.left g < ctx.left d := hcounted
    exact .inl (by omega)
  · exact .inr hpost

theorem rounds_settles (l : ForLoop) {c : Config} (hc : ctx.left c ≤ budget) :
    Settles (fun depth => ctx.perform depth (.rounds l)) c := by
  have hrounds : Growing fun depth => ctx.rounds (ctx.perform depth) l :=
    fun depth => (extends_uniform ctx).rounds l fun _ _ => perform_extends ctx depth _
  refine settles_perform (settles_bind_shallow hrounds ?_ fun _ => shallow_pure _)
  refine settles_bind (evaluate_growing ctx _) (fun value depth => ?_)
    (evaluate_settles hbudget course ih _ hc) fun depth value d hd => ?_
  · split
    · exact Extends.refl _
    · exact (extends_uniform ctx).round rfl (perform_extends ctx depth _) (perform_extends ctx depth _)
        (perform_extends ctx depth _)
  · have hd' := left_le ctx (evaluate_keeps course (course.perform depth) _) hd
    split
    · exact (shallow_uniform ctx).settle.settles d
    · exact round_settles hbudget course ih l (by omega)

omit hbudget ih in
/-- The statements in front of a loop are not counted; they are smaller than the loop. -/
theorem initialise_settles (statements : List Statement)
    (hstatements : ∀ s ∈ statements, ∀ d, ctx.left d ≤ budget →
      Settles (fun depth => ctx.perform depth (.statement s)) d)
    {c : Config} (hc : ctx.left c ≤ budget) :
    Settles (fun depth => (ctx.perform depth).initialise statements) c := by
  induction statements generalizing c with
  | nil => exact (shallow_pure false).settles c
  | cons s rest ihrest =>
    have hrest (signal : Signal) : Growing fun depth =>
        if signal = .leave then pure true else (ctx.perform depth).initialise rest := by
      intro depth
      split
      · exact Extends.refl _
      · exact initialise_growing ctx rest depth
    refine settles_bind (run_growing ctx _) (fun _ depth => Extends.bind (Extends.refl _) fun signal =>
      hrest signal depth) (settles_run (hstatements s (List.mem_cons_self ..) c hc)) fun depth _ d hd => ?_
    have hle := left_le ctx (run_keeps course (course.perform depth) _) hd
    refine (shallow_gets _).settles_bind (fun signal => hrest signal) fun signal e he => ?_
    obtain ⟨-, rfl⟩ := Prod.mk.inj he
    split
    · exact (shallow_pure true).settles d
    · exact ihrest (fun s' hs' => hstatements s' (List.mem_cons_of_mem _ hs')) (by omega)

theorem select_settles (value : Word) (cases : List Case) {c : Config} (hc : ctx.left c ≤ budget) :
    Settles (fun depth => (ctx.perform depth).select value cases) c := by
  induction cases generalizing c with
  | nil => exact (shallow_pure none).settles c
  | cons first rest ihrest =>
    obtain ⟨_ | literal, body⟩ := first
    · exact (shallow_pure (some body)).settles c
    · refine settles_bind (evaluate_growing ctx _)
        (fun candidate depth => ?_) (evaluate_settles hbudget course ih _ hc) fun depth candidate d hd => ?_
      · split
        · exact Extends.refl _
        · exact select_growing ctx value rest depth
      · have hle := left_le ctx (evaluate_keeps course (course.perform depth) _) hd
        split
        · exact (shallow_pure _).settles d
        · exact ihrest (by omega)

theorem declaration_settles (names : List String) (value : Option Expr) {c : Config}
    (hc : ctx.left c ≤ budget) :
    Settles (fun depth => (ctx.perform depth).statement (.declaration names value)) c := by
  have hrest (values : List Word) : Shallow (
      if values.length ≠ names.length then
        Exec.fail (.arityMismatch (.ofNat names.length) (.ofNat values.length) "variable declaration")
      else bindNew (names.zip values)) := by
    split
    · exact shallow_fail _
    · exact (shallow_uniform ctx).bindNew _
  cases value with
  | none => exact ((shallow_pure _).bind hrest).settles c
  | some e =>
    exact settles_bind_shallow (evaluateAll_growing ctx e)
      (evaluateAll_settles hbudget course ih e hc) hrest

theorem conditional_settles (condition : Expr) (body : Block) {c : Config} (hc : ctx.left c ≤ budget) :
    Settles (fun depth => (ctx.perform depth).statement (.conditional condition body)) c := by
  refine settles_bind (evaluate_growing ctx _) (fun value depth => ?_)
    (evaluate_settles hbudget course ih condition hc) fun depth value d hd => ?_
  · split
    · exact Extends.refl _
    · exact run_growing ctx _ depth
  · have hle := left_le ctx (evaluate_keeps course (course.perform depth) _) hd
    split
    · exact (shallow_pure ()).settles d
    · exact settles_run (blockTask_settles hbudget course ih _ (by omega))

theorem switch_settles (scrutinee : Expr) (cases : List Case) {c : Config} (hc : ctx.left c ≤ budget) :
    Settles (fun depth => (ctx.perform depth).statement (.switch scrutinee cases)) c := by
  have hselect (value : Word) := select_growing ctx value cases
  refine settles_bind (evaluate_growing ctx _)
    (fun value depth => Extends.bind (hselect value depth) fun chosen => ?_)
    (evaluate_settles hbudget course ih scrutinee hc) fun depth value d hd => ?_
  · cases chosen with
    | none => exact Extends.refl _
    | some body => exact run_growing ctx _ depth
  · have hle := left_le ctx (evaluate_keeps course (course.perform depth) _) hd
    refine settles_bind (hselect value) (fun chosen depth => ?_)
      (select_settles hbudget course ih value cases (by omega)) fun depth chosen e he => ?_
    · cases chosen with
      | none => exact Extends.refl _
      | some body => exact run_growing ctx _ depth
    · have hle' := left_le ctx (select_keeps course (course.perform depth) _ _) he
      cases chosen with
      | none => exact (shallow_pure ()).settles e
      | some body => exact settles_run (blockTask_settles hbudget course ih _ (by omega))

theorem loop_settles (l : ForLoop)
    (hstatements : ∀ s ∈ l.init.statements, ∀ d, ctx.left d ≤ budget →
      Settles (fun depth => ctx.perform depth (.statement s)) d)
    {c : Config} (hc : ctx.left c ≤ budget) :
    Settles (fun depth => (ctx.perform depth).statement (.loop l)) c := by
  have hleft (left : Bool) : Growing fun depth =>
      if left then pure () else (ctx.perform depth).run (.rounds l) := by
    intro depth
    split
    · exact Extends.refl _
    · exact run_growing ctx _ depth
  have hinit := initialise_growing ctx l.init.statements
  refine (plain_enterScope _).shallow.settles_bind (fun _ depth => Extends.ensuring
    (Extends.bind (hinit depth) fun left => hleft left depth) _)
    fun _ d hd => settles_ensuring ?_ plain_leaveScope.shallow
  have hle := left_le ctx ((plain_enterScope _).keeps course) hd
  refine settles_bind hinit hleft (initialise_settles course _ hstatements (by omega))
    fun depth left e he => ?_
  have hle' := left_le ctx (initialise_keeps course (course.perform depth) _) he
  split
  · exact (shallow_pure ()).settles e
  · exact settles_run (rounds_settles hbudget course ih l (by omega))

theorem statement_settles (s : Statement) {c : Config} (hc : ctx.left c ≤ budget) :
    Settles (fun depth => ctx.perform depth (.statement s)) c := by
  have hstatement : Growing fun depth => (ctx.perform depth).statement s :=
    fun depth => (extends_uniform ctx).statement s fun _ _ => perform_extends ctx depth _
  refine settles_perform (settles_bind_shallow hstatement ?_ fun _ => shallow_pure _)
  have hgrows := evaluateAll_growing ctx
  match s with
  | .expression e =>
    exact settles_bind_shallow (hgrows e) (evaluateAll_settles hbudget course ih e hc) fun _ => shallow_pure ()
  | .assignment targets e =>
    refine settles_bind_shallow (hgrows e) (evaluateAll_settles hbudget course ih e hc) fun values => ?_
    split
    · exact shallow_fail _
    · exact (shallow_uniform ctx).assign _
  | .declaration names value => exact declaration_settles hbudget course ih names value hc
  | .conditional condition body => exact conditional_settles hbudget course ih condition body hc
  | .switch scrutinee cases => exact switch_settles hbudget course ih scrutinee cases hc
  | .function _ => exact (shallow_pure ()).settles c
  | .loop l =>
    exact loop_settles hbudget course ih l (fun s' hs' d' hd' => statement_settles s' hd') hc
  | .breakLoop => exact (shallow_modify _).settles c
  | .continueLoop => exact (shallow_modify _).settles c
  | .leave => exact (shallow_modify _).settles c
  | .block b => exact settles_run (blockTask_settles hbudget course ih b hc)
termination_by sizeOf s
decreasing_by
  have hmem := List.sizeOf_lt_of_mem hs'
  obtain ⟨⟨id, init⟩, condition, post, body⟩ := l
  simp only [Statement.loop.sizeOf_spec, ForLoop.mk.sizeOf_spec, Block.mk.sizeOf_spec]
  simp only at hmem
  omega

theorem task_settles (t : Task) {c : Config} (hc : ctx.left c ≤ budget) :
    Settles (fun depth => ctx.perform depth t) c := by
  cases t with
  | expression e => exact expression_settles hbudget course ih e hc
  | invoke name args => exact invokeTask_settles hbudget course ih name args hc
  | statement s => exact statement_settles hbudget course ih s hc
  | block b => exact blockTask_settles hbudget course ih b hc
  | rounds l => exact rounds_settles hbudget course ih l hc

end Affordable

/-- With a budget, every task settles wherever it is started. -/
theorem perform_settles {ctx : Context} (hbudget : 0 < ctx.setting.maxSteps)
    (course : ctx.Course fun m n => m.steps ≤ n.steps) (t : Task) (c : Config) :
    Settles (fun depth => ctx.perform depth t) c := by
  suffices h : ∀ budget t c, ctx.left c ≤ budget → Settles (fun depth => ctx.perform depth t) c from
    h _ t c (Nat.le_refl _)
  intro budget
  -- The tasks that come after a counted step have less of the budget left.
  induction budget with
  | zero =>
    intro t c hc
    have ih (t : Task) (d : Config) (hd : ctx.left d < 0) : Settles (fun depth => ctx.perform depth t) d :=
      absurd hd (Nat.not_lt_zero _)
    exact task_settles hbudget course ih t hc
  | succ budget ihb =>
    intro t c hc
    exact task_settles hbudget course (fun t d hd => ihb t d (Nat.lt_succ_iff.mp hd)) t hc

/-! ### Runs -/

section Runs
variable {ctx : Context} (hbudget : 0 < ctx.setting.maxSteps)
  (course : ctx.Course fun m n => m.steps ≤ n.steps)

theorem program_growing (ctx : Context) (program : Block) :
    Growing fun depth => Run.program ctx depth program :=
  fun depth => (extends_uniform ctx).block program (Extends.refl _) (fun _ _ => Extends.refl _)
      fun _ _ => perform_extends ctx depth _

theorem call_growing (ctx : Context) (program : Block) (name : String) (args : List Word) :
    Growing fun depth => Run.call ctx depth program name args :=
  fun depth => Extends.bind (Extends.refl _) fun _ =>
    Extends.bind (Extends.refl _) fun _ => perform_extends ctx depth _

include hbudget course

theorem program_settles (program : Block) (c : Config) :
    Settles (fun depth => Run.program ctx depth program) c :=
  block_settles hbudget course (fun t d _ => perform_settles hbudget course t d) program
    (shallow_gets _) (Nat.le_refl _)

theorem call_settles (program : Block) (name : String) (args : List Word) (c : Config) :
    Settles (fun depth => Run.call ctx depth program name args) c :=
  (plain_enterScope _).shallow.settles_bind (fun _ depth => Extends.bind (Extends.refl _) fun _ =>
      perform_extends ctx depth _) fun _ _ _ =>
    (plain_declareFunctions _).shallow.settles_bind (fun _ => perform_growing ctx _) fun _ d _ =>
      perform_settles hbudget course _ d

end Runs

/-- A step budget ends every run of every program, and every call of every function with whatever
arguments. -/
theorem budget_ends_runs (program : Block) (doc : Option Json) (options : Options)
    (hresolve : Options.resolve doc = .ok options) (hbudget : 0 < options.setting.maxSteps) :
    (Terminates fun depth => interpret depth program doc) ∧
      ∀ name args, Terminates fun depth => callFunction depth program name args doc := by
  have course : (Run.context options).Course fun m n => m.steps ≤ n.steps :=
    steps_course options.target rfl
  refine ⟨?_, fun name args => ?_⟩
  · unfold interpret Run.withOptions
    rw [hresolve]
    exact terminates_guarded options (program_growing _ program) (program_settles hbudget course program {})
  · unfold callFunction Run.withOptions
    rw [hresolve]
    rcases Run.argumentFault? 0 args with _ | error
    · exact terminates_guarded options (call_growing _ program name _)
        (call_settles hbudget course program name _ {})
    · exact terminates_const nofun

/-- A loop without statements whose condition always holds. -/
def spinning : Block :=
  let place : Place := Place.item [] "statements" 0
  ⟨[], [.loop ⟨⟨place.field "pre", []⟩, .literal ⟨.number, "1"⟩, ⟨place.field "post", []⟩,
    ⟨place.field "body", []⟩⟩]⟩

theorem budget_ends_runs_spinning :
    Terminates fun depth => interpret depth spinning (some (.object [("maxSteps", .number (.ofNat 3))])) :=
  (budget_ends_runs spinning _ ⟨{ maxSteps := 3 }, .evm, false⟩ rfl (by decide)).1

end BlockIR
