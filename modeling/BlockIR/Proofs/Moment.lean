import BlockIR.Run

/-! Moments: the tasks of a run, each with the configuration it is begun in.

A part of a run that is given a `Runner` has it do tasks. It asks for a task in a
configuration (`Asks`) when a failure there would be its own failure: failures
are never caught, so a part depends in this way on exactly the tasks it has
done (`advance_asksAll`). The moments of a run are the tasks that its outermost
part asks for, the tasks that these ask for, and so on; nothing else is done in
the run (`run_watched`). -/
namespace BlockIR

/-- `x`, run from `c` with `runner`, has the task `u` done in `d`: whatever failure another runner
has there, and only there, is the failure of `x`. -/
def Asks {α : Type} (x : Runner → Exec α) (runner : Runner) (c : Config) (u : Task) (d : Config) : Prop :=
  ∀ (other : Runner) (stop : Stop), (∀ v e, ¬(v = u ∧ e = d) → other v e = runner v e) →
    (other u d).1 = .error stop → (x other c).1 = .error stop

/-- The failure of a task that is asked for is the failure of the part. -/
theorem Asks.error {α : Type} {x : Runner → Exec α} {runner : Runner} {c d : Config} {u : Task}
    (h : Asks x runner c u d) {stop : Stop} (hfail : (runner u d).1 = .error stop) :
    (x runner c).1 = .error stop := h runner stop (fun _ _ _ => rfl) hfail

open Classical in
/-- Failing in one place, a runner does everything else as before. -/
noncomputable def Runner.failingAt (runner : Runner) (u : Task) (d : Config) (stop : Stop) : Runner :=
  fun v e => if v = u ∧ e = d then (.error stop, e) else runner v e

/-- A part that asks for a task fails when it fails there. -/
theorem Asks.failingAt {α : Type} {x : Runner → Exec α} {runner : Runner} {c d : Config} {u : Task}
    (h : Asks x runner c u d) (stop : Stop) : (x (runner.failingAt u d stop) c).1 = .error stop := by
  refine h _ stop (fun v e hne => if_neg hne) ?_
  simp [Runner.failingAt]

/-- What a part comes to depends on the tasks that it asks for. -/
theorem Asks.not_const {α : Type} {x : Runner → Exec α} {runner : Runner} {c d : Config} {u : Task}
    (h : Asks x runner c u d) {r : Except Stop α × Config} :
    ¬∀ stop, x (runner.failingAt u d stop) c = r := by
  intro hconst
  have hdepth := h.failingAt .outOfDepth
  have hscope := h.failingAt (.failed .scopeUnderflow)
  rw [hconst] at hdepth hscope
  cases hdepth.symm.trans hscope

/-- A part that does the same with every runner that does the same in the places of `P` asks for tasks
in these places only. -/
theorem Asks.only {α : Type} {x : Runner → Exec α} {runner : Runner} {c d : Config} {u : Task}
    {P : Task → Config → Prop}
    (h : ∀ other : Runner, (∀ v e, P v e → other v e = runner v e) → x other c = x runner c)
    (hasks : Asks x runner c u d) : P u d := by
  apply Classical.byContradiction
  intro hnot
  -- Failing at another place would make no difference.
  have hconst (stop : Stop) : x (runner.failingAt u d stop) c = x runner c := by
    refine h (runner.failingAt u d stop) fun v e hv => if_neg ?_
    rintro ⟨rfl, rfl⟩
    exact hnot hv
  exact hasks.not_const hconst

theorem asks_task (runner : Runner) (t : Task) (c : Config) : Asks (fun runner => runner t) runner c t c :=
  fun _ _ _ hfail => hfail

/-- A part asks for everything that it depends on. -/
def AsksAll {α : Type} (x : Runner → Exec α) : Prop :=
  ∀ (runner other : Runner) (c : Config), (∀ u d, Asks x runner c u d → other u d = runner u d) →
    x other c = x runner c

section Parts
variable {α β : Type} {x : Runner → Exec α} {f : Runner → α → Exec β} {runner : Runner} {c d e : Config}
  {u : Task}

theorem Asks.bind (h : Asks x runner c u d) : Asks (fun runner => x runner >>= f runner) runner c u d := by
  intro other stop hsame hfail
  have hx : x other c = (.error stop, (x other c).2) := Prod.ext (h other stop hsame hfail) rfl
  exact congrArg Prod.fst (Effect.bind_of_error hx)

/-- What is asked for after a first part that asks for everything it depends on. -/
theorem AsksAll.then (hx : AsksAll x) {a : α} (hok : x runner c = (.ok a, d))
    (h : Asks (fun runner => f runner a) runner d u e) :
    Asks (fun runner => x runner >>= f runner) runner c u e := by
  intro other stop hsame hfail
  by_cases hasks : Asks x runner c u e
  · exact hasks.bind other stop hsame hfail
  · have hother : x other c = (.ok a, d) := by
      refine (hx runner other c fun v g hv => hsame v g ?_).trans hok
      rintro ⟨rfl, rfl⟩
      exact hasks hv
    exact (congrArg Prod.fst (Effect.bind_of_ok hother)).trans (h other stop hsame hfail)

/-- What is asked for in a sequence is asked for in its first part or after it. -/
theorem AsksAll.of_bind (hx : AsksAll x) (h : Asks (fun runner => x runner >>= f runner) runner c u d) :
    Asks x runner c u d ∨
      ∃ a e, x runner c = (.ok a, e) ∧ Asks (fun runner => f runner a) runner e u d := by
  by_cases hfirst : Asks x runner c u d
  · exact .inl hfirst
  right
  -- What another runner does at that place makes no difference to the first part.
  have hsame {other : Runner} (hother : ∀ v g, ¬(v = u ∧ g = d) → other v g = runner v g) :
      x other c = x runner c := by
    refine hx runner other c fun v g hv => hother v g ?_
    rintro ⟨rfl, rfl⟩
    exact hfirst hv
  rcases hresult : x runner c with ⟨stop | a, e⟩
  · exact absurd (fun _ => Effect.bind_of_error ((hsame fun _ _ hne => if_neg hne).trans hresult)) h.not_const
  · refine ⟨a, e, rfl, fun other stop hother hfail => ?_⟩
    have hwhole : ((x other >>= f other) c).1 = .error stop := h other stop hother hfail
    rwa [Effect.bind_of_ok ((hsame hother).trans hresult)] at hwhole

theorem asksAll_const (x : Exec α) : AsksAll fun _ => x := fun _ _ _ _ => rfl

/-- What is asked for after a first part that runs no task. -/
theorem Asks.after {x : Exec α} (h : Asks (fun runner => x >>= f runner) runner c u d) :
    ∃ a e, x c = (.ok a, e) ∧ Asks (fun runner => f runner a) runner e u d :=
  ((asksAll_const x).of_bind h).resolve_left fun hfirst => hfirst.not_const fun _ => rfl

theorem asksAll_task (t : Task) : AsksAll fun runner => runner t :=
  fun runner _ c h => h t c (asks_task runner t c)

theorem AsksAll.bind (hx : AsksAll x) (hf : ∀ a, AsksAll fun runner => f runner a) :
    AsksAll fun runner => x runner >>= f runner := by
  intro runner other c h
  have hfirst : x other c = x runner c := hx runner other c fun u d hu => h u d hu.bind
  show (x other >>= f other) c = (x runner >>= f runner) c
  rcases hresult : x runner c with ⟨stop | a, d⟩ <;> rw [hresult] at hfirst
  · rw [Effect.bind_of_error hfirst, Effect.bind_of_error hresult]
  · rw [Effect.bind_of_ok hfirst, Effect.bind_of_ok hresult]
    exact hf a runner other d fun u e hu => h u e (hx.then hresult hu)

theorem Asks.ensuring {restore : Exec Unit} (h : Asks x runner c u d) :
    Asks (fun runner => (x runner).ensuring restore) runner c u d := by
  intro other stop hsame hfail
  have hx : x other c = (.error stop, (x other c).2) := Prod.ext (h other stop hsame hfail) rfl
  show ((x other).ensuring restore c).1 = _
  unfold Effect.ensuring
  rw [hx]

theorem AsksAll.ensuring (hx : AsksAll x) (restore : Exec Unit) :
    AsksAll fun runner => (x runner).ensuring restore := by
  intro runner other c h
  have hsame := hx runner other c fun u d hu => h u d hu.ensuring
  show (x other).ensuring restore c = (x runner).ensuring restore c
  unfold Effect.ensuring
  rw [hsame]

theorem AsksAll.ite (condition : Prop) [Decidable condition] {y : Runner → Exec α} (hx : AsksAll x)
    (hy : AsksAll y) : AsksAll fun runner => if condition then x runner else y runner := by
  by_cases h : condition
  · simpa only [if_pos h] using hx
  · simpa only [if_neg h] using hy

end Parts

/-! ### Parts of a run ask for everything they depend on -/

theorem run_asksAll (t : Task) : AsksAll fun runner => runner.run t :=
  (asksAll_task t).bind fun _ => asksAll_const _

theorem single_asksAll {x : Runner → Exec (List Word)} (hx : AsksAll x) :
    AsksAll fun runner => Exec.single (x runner) := hx.bind fun _ => asksAll_const _

theorem arguments_asksAll (wantsLiteral : Nat → Bool) (position : Nat) (args : List Expr) :
    AsksAll fun runner => runner.arguments wantsLiteral position args := by
  induction args generalizing position with
  | nil => exact asksAll_const _
  | cons e rest ih =>
    refine (ih (position + 1)).bind fun values => AsksAll.bind ?_ fun value => asksAll_const _
    exact AsksAll.ite _ (asksAll_const _) (single_asksAll (asksAll_task _))

theorem expression_asksAll (ctx : Context) (e : Expr) : AsksAll fun runner => ctx.expression runner e := by
  cases e with
  | literal l => exact asksAll_const _
  | identifier name => exact asksAll_const _
  | call name args =>
    refine (asksAll_const _).bind fun _ => (arguments_asksAll _ _ _).bind fun values => ?_
    unfold Context.apply
    split
    · exact asksAll_const _
    · exact asksAll_task _

theorem invoke_asksAll (name : String) (args : List Word) : AsksAll fun runner => runner.invoke name args := by
  refine (asksAll_const Effect.get).bind fun config => (asksAll_const _).bind fun found => ?_
  rcases found with _ | ⟨scope, definition⟩
  · exact asksAll_const _
  · refine AsksAll.ite _ (asksAll_const _) ((asksAll_const _).bind fun _ => ?_)
    refine (asksAll_const _).bind fun outer => (asksAll_const _).bind fun _ => AsksAll.ensuring ?_ _
    exact (run_asksAll _).bind fun _ => asksAll_const _

theorem evaluateAll_asksAll (e : Expr) : AsksAll fun runner => runner.evaluateAll e :=
  (asksAll_const _).bind fun _ => asksAll_task _

theorem evaluate_asksAll (e : Expr) : AsksAll fun runner => runner.evaluate e :=
  single_asksAll (evaluateAll_asksAll e)

theorem select_asksAll (value : Word) (cases : List Case) : AsksAll fun runner => runner.select value cases := by
  induction cases with
  | nil => exact asksAll_const _
  | cons first rest ih =>
    obtain ⟨_ | literal, body⟩ := first
    · exact asksAll_const _
    · exact (evaluate_asksAll _).bind fun _ => AsksAll.ite _ (asksAll_const _) ih

theorem initialise_asksAll (statements : List Statement) :
    AsksAll fun runner => runner.initialise statements := by
  induction statements with
  | nil => exact asksAll_const _
  | cons s rest ih =>
    exact (run_asksAll _).bind fun _ => (asksAll_const _).bind fun _ => AsksAll.ite _ (asksAll_const _) ih

theorem sequence_asksAll (ctx : Context) (statements : List Statement) :
    AsksAll fun runner => ctx.sequence runner statements := by
  induction statements with
  | nil => exact asksAll_const _
  | cons s rest ih =>
    refine (asksAll_const _).bind fun _ => (run_asksAll _).bind fun _ => (asksAll_const _).bind fun _ => ?_
    exact AsksAll.ite _ ih (asksAll_const _)

theorem statement_asksAll (s : Statement) : AsksAll fun runner => runner.statement s := by
  cases s with
  | expression e => exact (evaluateAll_asksAll e).bind fun _ => asksAll_const _
  | assignment targets e => exact (evaluateAll_asksAll e).bind fun _ => asksAll_const _
  | declaration names value =>
    refine AsksAll.bind ?_ fun _ => asksAll_const _
    cases value with
    | none => exact asksAll_const _
    | some e => exact evaluateAll_asksAll e
  | conditional condition body =>
    exact (evaluate_asksAll _).bind fun _ => AsksAll.ite _ (asksAll_const _) (run_asksAll _)
  | switch scrutinee cases =>
    refine (evaluate_asksAll _).bind fun value => (select_asksAll _ _).bind fun chosen => ?_
    cases chosen with
    | none => exact asksAll_const _
    | some body => exact run_asksAll _
  | loop l =>
    refine (asksAll_const _).bind fun _ => AsksAll.ensuring ?_ _
    exact (initialise_asksAll _).bind fun _ => AsksAll.ite _ (asksAll_const _) (run_asksAll _)
  | block b => exact run_asksAll _
  | _ => exact asksAll_const _

theorem block_asksAll (ctx : Context) (b : Block) {α : Type} (exit : Exec α) :
    AsksAll fun runner => ctx.block runner b exit := by
  refine (asksAll_const _).bind fun _ => AsksAll.ensuring ?_ _
  exact (asksAll_const _).bind fun _ => (sequence_asksAll ctx _).bind fun _ => asksAll_const _

theorem rounds_asksAll (ctx : Context) (l : ForLoop) : AsksAll fun runner => ctx.rounds runner l := by
  have hpost : AsksAll fun runner => runner.afterPost l :=
    (asksAll_const _).bind fun _ => AsksAll.ite _ (asksAll_const _) (run_asksAll _)
  have hbody : AsksAll fun runner => runner.afterBody l :=
    (asksAll_const _).bind fun _ => AsksAll.ite _ (asksAll_const _)
      ((asksAll_const _).bind fun _ => (run_asksAll _).bind fun _ => hpost)
  refine (evaluate_asksAll _).bind fun _ => AsksAll.ite _ (asksAll_const _) ?_
  exact (asksAll_const _).bind fun _ => (asksAll_const _).bind fun _ => (run_asksAll _).bind fun _ => hbody

/-- Doing a task depends on nothing but the tasks that it asks for. -/
theorem advance_asksAll (ctx : Context) (t : Task) : AsksAll fun runner => ctx.advance runner t := by
  cases t with
  | expression e => exact expression_asksAll ctx e
  | invoke name args => exact invoke_asksAll name args
  | statement s => exact (statement_asksAll s).bind fun _ => asksAll_const _
  | block b => exact (block_asksAll ctx b _).bind fun _ => asksAll_const _
  | rounds l => exact (rounds_asksAll ctx l).bind fun _ => asksAll_const _

/-! ### Moments -/

/-- The moments of `x`, run from the beginning with tasks nested at most `depth` deep. A moment
has `left` levels of them left. -/
inductive Moment {α : Type} (ctx : Context) (x : Runner → Exec α) (depth : Nat) :
    Nat → Task → Config → Prop
  | first {u : Task} {d : Config} : Asks x (ctx.perform depth) {} u d → Moment ctx x depth depth u d
  | next {left : Nat} {t u : Task} {c d : Config} : Moment ctx x depth (left + 1) t c →
    Asks (fun runner => ctx.advance runner t) (ctx.perform left) c u d → Moment ctx x depth left u d

/-- The failure of a moment is the failure of the run. -/
theorem Moment.error {α : Type} {ctx : Context} {x : Runner → Exec α} {depth left : Nat} {t : Task}
    {c : Config} (h : Moment ctx x depth left t c) {stop : Stop}
    (hfail : (ctx.perform left t c).1 = .error stop) : (x (ctx.perform depth) {}).1 = .error stop := by
  induction h with
  | first hasks => exact hasks.error hfail
  | next _ hasks ih => exact ih (hasks.error hfail)

open Classical in
/-- Performs tasks as long as `p` holds where they are begun, and fails where it does not. -/
noncomputable def Context.watched (ctx : Context) (p : Nat → Task → Config → Prop) : Nat → Runner
  | 0 => ctx.perform 0
  | depth + 1 => fun t c =>
    if p (depth + 1) t c then ctx.advance (ctx.watched p depth) t c
    else (.error (.failed .scopeUnderflow), c)

section Watching
variable {α : Type} {ctx : Context} {x : Runner → Exec α} {depth left : Nat}
  {p : Nat → Task → Config → Prop}
  (hp : ∀ left t c, Moment ctx x depth left t c → p left t c)
include hp

theorem Moment.watched {t : Task} {c : Config} (h : Moment ctx x depth left t c) :
    ctx.watched p left t c = ctx.perform left t c := by
  induction left generalizing t c with
  | zero => rfl
  | succ left ih =>
    unfold Context.watched
    rw [if_pos (hp _ _ _ h)]
    exact advance_asksAll ctx t _ _ c fun u d hasks => ih (.next h hasks)

/-- No task of a run is missing among its moments: what holds at all moments can be watched
throughout the run, and makes no difference. -/
theorem run_watched (hx : AsksAll x) : x (ctx.watched p depth) {} = x (ctx.perform depth) {} :=
  hx _ _ {} fun _ _ hasks => Moment.watched hp (.first hasks)

end Watching

namespace Run

/-- The outermost part of executing a program. -/
def outermost (ctx : Context) (program : Block) (runner : Runner) : Exec Variables :=
  ctx.block runner program bindings

/-- The outermost part of calling a function of a program. -/
def entry (program : Block) (name : String) (args : List Word) (runner : Runner) : Exec (List Word) := do
  Exec.enterScope program.id
  Exec.declareFunctions program.functions
  runner (.invoke name args)

theorem outermost_asksAll (ctx : Context) (program : Block) : AsksAll (outermost ctx program) :=
  block_asksAll ctx program bindings

theorem entry_asksAll (program : Block) (name : String) (args : List Word) :
    AsksAll (entry program name args) :=
  (asksAll_const _).bind fun _ => (asksAll_const _).bind fun _ => asksAll_task _

end Run
end BlockIR
