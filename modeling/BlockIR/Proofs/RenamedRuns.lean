import BlockIR.Proofs.Beside
import BlockIR.Proofs.Congruence
import BlockIR.Proofs.RenamedConfigs
import BlockIR.Proofs.RenamedScoping
import BlockIR.Proofs.RoundTrip

/-! Renaming does not change what programs do.

Two parts of runs come to the same up to names (`Exec.Renames`) if, begun in a
configuration and in the renamed one, they end in a result and in the renamed
one (`Renaming.Carries`), again in a configuration and in the renamed one. The
basic parts do, and so does whatever is put together from such parts; tasks and
renamed tasks are led along by induction on the depth (`perform_renames`).

A failure may name a variable or a function, and then does so by its new name
(`Renaming.Fails`). The outcomes of a run name none, so in a program that is run
as it was checked failures are the same (`renamed_programs_run_alike`). -/
namespace BlockIR

/-! ### Results -/

namespace Renaming
variable (ρ : Renaming)

/-- The same error up to the variable or function in it. -/
inductive Fails : Error → Error → Prop
  | same (error : Error) : Fails error error
  | unboundIdentifier (name : String) : Fails (.unboundIdentifier name) (.unboundIdentifier (ρ name))
  | redeclaration (name : String) : Fails (.redeclaration name) (.redeclaration (ρ name))
  | unknownFunction (name : String) : Fails (.unknownFunction name) (.unknownFunction (ρ name))
  | arityMismatch (expected got : Json.Number) (name : String) :
    Fails (.arityMismatch expected got name) (.arityMismatch expected got (ρ name))

/-- The same stop up to names. -/
inductive Stops : Stop → Stop → Prop
  | failed {error error' : Error} : Fails ρ error error' → Stops (.failed error) (.failed error')
  | outOfDepth : Stops .outOfDepth .outOfDepth

variable {α β : Type}

/-- The same result up to names: a value that `f` maps to the other one, or the same stop. -/
inductive Carries (f : α → β) : Except Stop α → Except Stop β → Prop
  | ok (a : α) : Carries f (.ok a) (.ok (f a))
  | error {stop stop' : Stop} : Stops ρ stop stop' → Carries f (.error stop) (.error stop')

variable {ρ}

theorem Fails.outcome?_eq {error error' : Error} (h : ρ.Fails error error') : error'.outcome? = error.outcome? := by
  cases h <;> rfl

/-- An outcome names nothing. -/
theorem Fails.eq_of_outcome {error error' : Error} (h : ρ.Fails error error') {outcome : Outcome}
    (houtcome : error.outcome? = some outcome) : error' = error := by
  cases h with
  | same => rfl
  | _ => cases houtcome

/-- Without a failure the one result is the image of the other. -/
theorem Carries.eq_map {f : α → β} {r : Except Stop α} {r' : Except Stop β} (h : ρ.Carries f r r')
    (hfails : ∀ error, r ≠ .error (.failed error)) : r' = r.map f := by
  cases h with
  | ok a => rfl
  | error hstop =>
    cases hstop with
    | failed _ => exact absurd rfl (hfails _)
    | outOfDepth => rfl

end Renaming

/-! ### Parts -/

namespace Exec
variable (ρ : Renaming) {α β γ δ : Type}

/-- Parts that come to the same up to names wherever they begin in a configuration and in the renamed one. -/
def Renames (f : α → β) (x : Exec α) (y : Exec β) : Prop :=
  ∀ c, ∃ r r' d, x c = (r, d) ∧ y (c.mapNames ρ) = (r', d.mapNames ρ) ∧ ρ.Carries f r r'

namespace Renames
variable {ρ} {f : α → β} {x : Exec α} {y : Exec β}

theorem pure (a : α) : Renames ρ f (Pure.pure a) (Pure.pure (f a)) := fun c => ⟨_, _, c, rfl, rfl, .ok a⟩

theorem fail {error error' : Error} (h : ρ.Fails error error') : Renames ρ f (Exec.fail error) (Exec.fail error') :=
  fun c => ⟨_, _, c, rfl, rfl, .error (.failed h)⟩

/-- The same failure whatever the names are. -/
theorem fails (error : Error) : Renames ρ f (Exec.fail error) (Exec.fail error) := fail (.same error)

theorem bindMap {g : γ → δ} {k : α → Exec γ} {k' : β → Exec δ} (h : Renames ρ f x y)
    (hk : ∀ a, Renames ρ g (k a) (k' (f a))) : Renames ρ g (x >>= k) (y >>= k') := by
  intro c
  obtain ⟨r, r', d, hx, hy, hends⟩ := h c
  cases hends with
  | ok a =>
    rw [Effect.bind_of_ok hx, Effect.bind_of_ok hy]
    exact hk a d
  | error hstop => exact ⟨_, _, d, Effect.bind_of_error hx, Effect.bind_of_error hy, .error hstop⟩

/-- Parts whose values are no names. -/
theorem bind {x y : Exec α} {g : γ → δ} {k : α → Exec γ} {k' : α → Exec δ} (h : Renames ρ id x y)
    (hk : ∀ a, Renames ρ g (k a) (k' a)) : Renames ρ g (x >>= k) (y >>= k') := bindMap h hk

theorem get : Renames ρ (Config.mapNames ρ) Effect.get Effect.get := fun c => ⟨_, _, c, rfl, rfl, .ok c⟩

theorem gets {g : Config → α} {g' : Config → β} (h : ∀ c, g' (c.mapNames ρ) = f (g c)) :
    Renames ρ f (Effect.gets g) (Effect.gets g') := fun c =>
  ⟨_, _, c, rfl, rfl, (h c).symm ▸ .ok (g c)⟩

theorem modify {g g' : Config → Config} (h : ∀ c, g' (c.mapNames ρ) = (g c).mapNames ρ) :
    Renames ρ id (Effect.modify g) (Effect.modify g') := fun c =>
  ⟨_, _, g c, rfl, congrArg _ (h c), .ok ()⟩

theorem activation : Renames ρ (Activation.mapNames ρ) Exec.activation Exec.activation := gets fun _ => rfl

theorem modifyActivation {g g' : Activation → Activation} (h : ∀ a, g' (a.mapNames ρ) = (g a).mapNames ρ) :
    Renames ρ id (Exec.modifyActivation g) (Exec.modifyActivation g') :=
  modify fun c => congrArg (Config.mk c.machine (c.scopes.mapNames ρ)) (h c.activation)

theorem ofExcept_map (r : Except Error α) : Renames ρ f (Exec.ofExcept r) (Exec.ofExcept (r.map f)) := by
  cases r with
  | ok a => exact pure a
  | error e => exact fails e

theorem ofExcept (r : Except Error α) : Renames ρ id (Exec.ofExcept r) (Exec.ofExcept r) := by
  cases r with
  | ok a => exact pure a
  | error e => exact fails e

/-- The machine has no names. -/
theorem onMachine (action : Action α) : Renames ρ id (Exec.onMachine action) (Exec.onMachine action) := by
  intro c
  refine ⟨_, _, _, onMachine_apply action c, onMachine_apply action (c.mapNames ρ), ?_⟩
  show ρ.Carries id ((action c.machine).1.mapError Stop.failed) ((action c.machine).1.mapError Stop.failed)
  rcases (action c.machine).1 with e | a
  · exact .error (.failed (.same e))
  · exact .ok a

theorem ensuring {restore restore' : Exec Unit} (h : Renames ρ f x y) (hrestore : Renames ρ id restore restore') :
    Renames ρ f (x.ensuring restore) (y.ensuring restore') := by
  intro c
  obtain ⟨r, r', d, hx, hy, hends⟩ := h c
  obtain ⟨q, q', e, hlast, hlast', hrestored⟩ := hrestore d
  unfold Effect.ensuring
  rw [hx, hy]
  cases hends with
  | ok a =>
    simp only [hlast, hlast']
    cases hrestored with
    | ok => exact ⟨_, _, e, rfl, rfl, .ok a⟩
    | error hstop => exact ⟨_, _, e, rfl, rfl, .error hstop⟩
  | error hstop =>
    simp only [hlast, hlast']
    exact ⟨_, _, e, rfl, rfl, .error hstop⟩

theorem within (inner : Activation) (h : Renames ρ f x y) :
    Renames ρ f (Exec.within inner x) (Exec.within (inner.mapNames ρ) y) := by
  intro c
  obtain ⟨r, r', d, hx, hy, hends⟩ := h { c with activation := inner }
  refine ⟨r, r', { d with activation := c.activation }, ?_, ?_, hends⟩
  · rw [within_apply, hx]
  · have hy' : y { c.mapNames ρ with activation := inner.mapNames ρ } = (r', d.mapNames ρ) := hy
    rw [within_apply, hy']
    rfl

/-! ### Scopes and variables -/

theorem enterScope (block : BlockId) : Renames ρ id (Exec.enterScope block) (Exec.enterScope block) := by
  refine bindMap get fun c => ?_
  show Renames ρ id _ (Exec.ofExcept ((c.scopes.mapNames ρ).enter c.activation.scope block) >>= _)
  rw [ScopeArena.enter_mapNames]
  exact bindMap (ofExcept_map _) fun _ => modify fun _ => rfl

theorem leaveScope : Renames ρ id Exec.leaveScope Exec.leaveScope := by
  intro c
  have hleave' : (c.mapNames ρ).scopes.leave (c.mapNames ρ).activation.scope (c.mapNames ρ).activation.bindings = _ :=
    ScopeArena.leave_mapNames ρ c.scopes c.activation.scope c.activation.bindings
  unfold Exec.leaveScope
  rw [hleave']
  rcases c.scopes.leave c.activation.scope c.activation.bindings with ⟨e | parent, bindings⟩
  · exact ⟨_, _, { c with activation := { c.activation with bindings := bindings } }, rfl, rfl,
      .error (.failed (.same e))⟩
  · exact ⟨_, _, { c with activation := { c.activation with bindings := bindings, scope := parent } }, rfl, rfl,
      .ok ()⟩

theorem declare (name : String) (binding : Binding FunctionDefinition) :
    Renames ρ id (Exec.declare name binding) (Exec.declare (ρ name) (binding.mapNames ρ)) := by
  refine bindMap get fun c => ?_
  show Renames ρ id _ (Exec.ofExcept ((c.scopes.mapNames ρ).declare c.activation.scope (ρ name) _) >>= _)
  rw [ScopeArena.declare_mapNames]
  exact bindMap (ofExcept_map _) fun _ => modify fun _ => rfl

theorem declareFunctions (functions : List FunctionDefinition) :
    Renames ρ id (Exec.declareFunctions functions)
      (Exec.declareFunctions (functions.map (FunctionDefinition.mapNames ρ))) := by
  induction functions with
  | nil => exact pure ()
  | cons f rest ih => exact bind (declare f.name (.ofFunction f)) fun _ => ih

theorem valueOf (name : String) : Renames ρ id (Exec.valueOf name) (Exec.valueOf (ρ name)) := by
  intro c
  have hbound : (c.mapNames ρ).activation.bindings[ρ name]? = c.activation.bindings[name]? :=
    c.activation.bindings.getElem?_mapNames ρ name
  refine ⟨_, _, c, valueOf_apply name c, valueOf_apply (ρ name) (c.mapNames ρ), ?_⟩
  rw [hbound]
  rcases c.activation.bindings[name]? with _ | value
  · exact .error (.failed (.unboundIdentifier name))
  · exact .ok value

theorem valuesOf (names : List String) : Renames ρ id (Exec.valuesOf names) (Exec.valuesOf (names.map ρ)) := by
  induction names with
  | nil => exact pure []
  | cons name rest ih => exact bind (valueOf name) fun _ => bind ih fun _ => pure _

theorem look (name : String) : Renames ρ id (Exec.look name) (Exec.look (ρ name)) :=
  gets fun c => c.activation.bindings.getElem?_mapNames ρ name

theorem put (name : String) (value : Word) : Renames ρ id (Exec.put name value) (Exec.put (ρ name) value) :=
  modifyActivation fun a =>
    congrArg (fun bindings => { a with bindings := bindings }) (Variables.mapNames_insert ρ a.bindings name value).symm

/-- Variables and their values, with the variables renamed. -/
theorem assign (pairs : List (String × Word)) :
    Renames ρ id (Exec.assign pairs) (Exec.assign (pairs.map (Prod.map ρ id))) := by
  induction pairs with
  | nil => exact pure ()
  | cons p rest ih =>
    obtain ⟨name, value⟩ := p
    rw [List.map_cons, Prod.map_apply, assign_eq, assign_eq]
    refine bind (look name) fun found => ?_
    split
    · exact bind (put name value) fun _ => ih
    · exact fail (.unboundIdentifier name)

theorem bindNew (pairs : List (String × Word)) :
    Renames ρ id (Exec.bindNew pairs) (Exec.bindNew (pairs.map (Prod.map ρ id))) := by
  induction pairs with
  | nil => exact pure ()
  | cons p rest ih =>
    obtain ⟨name, value⟩ := p
    rw [List.map_cons, Prod.map_apply, bindNew_eq, bindNew_eq]
    refine bind (look name) fun found => ?_
    split
    · exact fail (.redeclaration name)
    · exact bind (put name value) fun _ => bind (declare name .ofVariable) fun _ => ih

/-! ### Signals and levels -/

theorem signal : Renames ρ id Exec.signal Exec.signal := gets fun _ => rfl

theorem setSignal (signal : Signal) : Renames ρ id (Exec.setSignal signal) (Exec.setSignal signal) :=
  modify fun _ => rfl

theorem restart : Renames ρ id Exec.restart Exec.restart := modifyActivation fun _ => rfl

theorem deepen (ctx : Context) : Renames ρ id (Exec.deepen ctx) (Exec.deepen ctx) := by
  refine bind (modifyActivation fun _ => rfl) fun _ => bindMap activation fun a => ?_
  show Renames ρ id _ (if ctx.tooDeep a.level then _ else _)
  split
  · exact bind (onMachine _) fun _ => fails _
  · exact pure ()

end Renames
end Exec

/-! ### Builtins -/

/-- A builtin to which names in its arguments as they are written make no difference. -/
def Builtin.IgnoresNames (ρ : Renaming) (builtin : Builtin) : Prop :=
  ∀ (setting : Setting) (values : List Word) (args : List Expr),
    builtin.body setting ⟨values, (args.map (Expr.mapNames ρ)).map .expression⟩ =
      builtin.body setting ⟨values, args.map .expression⟩

/-- A builtin that wants no literals does not see how its arguments are written. -/
theorem Builtin.SeesLiterals.ignoresNames {builtin : Builtin} (h : builtin.SeesLiterals)
    (hnone : builtin.literalArguments = []) (ρ : Renaming) : builtin.IgnoresNames ρ := by
  refine fun setting values args => h setting values _ _ fun position hwants => ?_
  unfold wantsLiteral at hwants
  rw [hnone] at hwants
  cases hwants

namespace Target

/-- A question about a data object sees the text of a string literal. -/
theorem Evm.dataQuery_ignoresNames (ρ : Renaming) (name : String) (f : Nat × Nat → Word) :
    (dataQuery name f).IgnoresNames ρ := by
  intro setting values args
  have hobject : dataObject name setting ⟨values, (args.map (Expr.mapNames ρ)).map .expression⟩ =
      dataObject name setting ⟨values, args.map .expression⟩ := by
    rcases args with _ | ⟨⟨_ | _ | _, text⟩ | _ | _, rest⟩ <;> rfl
  exact congrArg (· >>= fun place => pure (f place)) hobject

theorem Evm.literalArguments_eq_nil : ∀ b ∈ builtins, b.literalArguments = [] ∨ ∃ name f, b = dataQuery name f := by
  refine forall_builtins (fun _ _ => .inl rfl) (fun _ _ => .inl rfl) (fun _ _ => .inl rfl) ?_ ?_ ?_
    fun name f => .inr ⟨name, f, rfl⟩
  · simp [memory, builtin]
  · simp [storage, builtin]
  · simp [environment, constant, logger, builtin]

theorem Wasm.literalArguments_eq_nil : ∀ b ∈ builtins, b.literalArguments = [] :=
  forall_builtins (fun _ _ _ => rfl) (fun _ _ _ => rfl) rfl (by simp [memory, load, store, builtin])

theorem ignoresNames_of_find? (ρ : Renaming) (target : Target) {name : String} {builtin : Builtin}
    (hfind : target.dialect.find? name = some builtin) : builtin.IgnoresNames ρ := by
  refine holds_of_find? (fun b hb => ?_) (fun b hb => ?_) target hfind
  · rcases Evm.literalArguments_eq_nil b hb with hnone | ⟨name, f, rfl⟩
    · exact (Evm.builtins_seesLiterals b hb).ignoresNames hnone ρ
    · exact Evm.dataQuery_ignoresNames ρ name f
  · exact (Wasm.builtins_seesLiterals b hb).ignoresNames (Wasm.literalArguments_eq_nil b hb) ρ

end Target

/-! ### Tasks -/

/-- A task with its names renamed. -/
def Task.mapNames (ρ : Renaming) : Task → Task
  | .expression e => .expression (e.mapNames ρ)
  | .invoke name args => .invoke (ρ name) args
  | .statement s => .statement (s.mapNames ρ)
  | .block b => .block (b.mapNames ρ)
  | .rounds l => .rounds (l.mapNames ρ)

/-- Runners that do a task and the renamed task alike, up to names. -/
def Runner.Renames (ρ : Renaming) (runner runner' : Runner) : Prop :=
  ∀ t, Exec.Renames ρ id (runner t) (runner' (t.mapNames ρ))

namespace Runner.Renames
variable {ρ : Renaming} {runner runner' : Runner} (h : Runner.Renames ρ runner runner')
include h

theorem run (t : Task) : Exec.Renames ρ id (runner.run t) (runner'.run (t.mapNames ρ)) :=
  (h t).bind fun _ => .pure ()

/-! Expressions. -/

omit h in
theorem single {x y : Exec (List Word)} (hxy : Exec.Renames ρ id x y) :
    Exec.Renames ρ id (Exec.single x) (Exec.single y) := by
  refine hxy.bind fun values => ?_
  split
  · exact .pure _
  · exact .fails _

theorem argument (literal : Bool) (e : Expr) :
    Exec.Renames ρ id (runner.argument literal e) (runner'.argument literal (e.mapNames ρ)) := by
  unfold Runner.argument
  split
  · exact .pure 0
  · exact single (h (.expression e))

theorem arguments (wantsLiteral : Nat → Bool) (position : Nat) (args : List Expr) :
    Exec.Renames ρ id (runner.arguments wantsLiteral position args)
      (runner'.arguments wantsLiteral position (args.map (Expr.mapNames ρ))) := by
  induction args generalizing position with
  | nil => exact .pure []
  | cons e rest ih => exact (ih (position + 1)).bind fun _ => (h.argument _ e).bind fun _ => .pure _

theorem apply {ctx : Context} {target : Target} (htarget : ctx.dialect = target.dialect)
    (hkeeps : ρ.Keeps ctx.dialect) (name : String) (args : List Expr) (values : List Word) :
    Exec.Renames ρ id (ctx.apply runner name args values)
      (ctx.apply runner' (ρ name) (args.map (Expr.mapNames ρ)) values) := by
  unfold Context.apply
  rw [hkeeps.find?_map]
  rcases hfind : ctx.dialect.find? name with _ | builtin
  · exact h (.invoke name values)
  · have hsame : ctx.dialect.evaluate ctx.setting builtin ⟨values, (args.map (Expr.mapNames ρ)).map .expression⟩ =
        ctx.dialect.evaluate ctx.setting builtin ⟨values, args.map .expression⟩ := by
      unfold Dialect.evaluate
      rw [Target.ignoresNames_of_find? ρ target (htarget ▸ hfind)]
    dsimp only
    rw [hsame]
    exact (Exec.Renames.onMachine _).bind fun _ => .pure _

theorem expression {ctx : Context} {target : Target} (htarget : ctx.dialect = target.dialect)
    (hkeeps : ρ.Keeps ctx.dialect) (e : Expr) :
    Exec.Renames ρ id (ctx.expression runner e) (ctx.expression runner' (e.mapNames ρ)) := by
  cases e with
  | literal l => exact (Exec.Renames.deepen ctx).bind fun _ => (Exec.Renames.ofExcept l.value).bind fun _ => .pure _
  | identifier name => exact (Exec.Renames.valueOf name).bind fun _ => (Exec.Renames.deepen ctx).bind fun _ => .pure _
  | call name args =>
    rw [Expr.mapNames, Expr.listMapNames_eq, Context.expression, Context.expression, hkeeps.wantsLiteral_map]
    exact (Exec.Renames.deepen ctx).bind fun _ => (h.arguments _ 0 args).bind fun values =>
      h.apply htarget hkeeps name args values

theorem invoke (name : String) (args : List Word) :
    Exec.Renames ρ id (runner.invoke name args) (runner'.invoke (ρ name) args) := by
  refine Exec.Renames.bindMap .get fun c => ?_
  show Exec.Renames ρ id _ (Exec.ofExcept ((c.scopes.mapNames ρ).lookup c.activation.scope (ρ name)) >>= _)
  rw [ScopeArena.lookup_mapNames]
  refine Exec.Renames.bindMap (.ofExcept_map _) fun found => ?_
  rcases found with _ | ⟨scope, f⟩
  · exact .fail (.unknownFunction name)
  · show Exec.Renames ρ id _ (if args.length ≠ (f.mapNames ρ).params.length then _ else _)
    rw [f.length_params_mapNames, f.bindings_mapNames]
    dsimp only
    split
    · exact .fail (.arityMismatch _ _ f.name)
    · refine (Exec.Renames.setSignal _).bind fun _ => .within _ ?_
      exact (h.run (.block f.body)).bind fun _ => (Exec.Renames.setSignal _).bind fun _ => .valuesOf f.returns

/-! Statements. -/

theorem evaluateAll (e : Expr) : Exec.Renames ρ id (runner.evaluateAll e) (runner'.evaluateAll (e.mapNames ρ)) :=
  Exec.Renames.restart.bind fun _ => h (.expression e)

theorem evaluate (e : Expr) : Exec.Renames ρ id (runner.evaluate e) (runner'.evaluate (e.mapNames ρ)) :=
  single (h.evaluateAll e)

theorem select (value : Word) (cases : List Case) :
    Exec.Renames ρ (Option.map (Block.mapNames ρ)) (runner.select value cases)
      (runner'.select value (cases.map (Case.mapNames ρ))) := by
  induction cases with
  | nil => exact .pure none
  | cons c rest ih =>
    obtain ⟨_ | literal, body⟩ := c
    · exact .pure (some body)
    · refine (h.evaluate (.literal literal)).bind fun candidate => ?_
      split
      · exact .pure (some body)
      · exact ih

theorem initialise (statements : List Statement) :
    Exec.Renames ρ id (runner.initialise statements)
      (runner'.initialise (statements.map (Statement.mapNames ρ))) := by
  induction statements with
  | nil => exact .pure false
  | cons s rest ih =>
    refine (h.run (.statement s)).bind fun _ => Exec.Renames.signal.bind fun signal => ?_
    split
    · exact .pure true
    · exact ih

theorem sequence (ctx : Context) (statements : List Statement) :
    Exec.Renames ρ id (ctx.sequence runner statements)
      (ctx.sequence runner' (statements.map (Statement.mapNames ρ))) := by
  induction statements with
  | nil => exact .pure ()
  | cons s rest ih =>
    refine (Exec.Renames.onMachine _).bind fun _ => (h.run (.statement s)).bind fun _ =>
      Exec.Renames.signal.bind fun signal => ?_
    split
    · exact ih
    · exact .pure ()

theorem declared (names : List String) (value : Option Expr) :
    Exec.Renames ρ id (runner.declared names value)
      (runner'.declared (names.map ρ) (value.map (Expr.mapNames ρ))) := by
  cases value with
  | some e => exact h.evaluateAll e
  | none =>
    unfold Runner.declared
    rw [Option.map_none, List.map_map]
    exact .pure _

theorem loop (l : ForLoop) :
    Exec.Renames ρ id (runner.statement (.loop l)) (runner'.statement (.loop (l.mapNames ρ))) := by
  rw [Runner.statement, Runner.statement, ForLoop.mapNames, Block.id_mapNames, Block.statements_mapNames]
  refine (Exec.Renames.enterScope _).bind fun _ => .ensuring ?_ .leaveScope
  refine (h.initialise l.init.statements).bind fun left => ?_
  split
  · exact .pure ()
  · exact h.run (.rounds l)

theorem statement (s : Statement) :
    Exec.Renames ρ id (runner.statement s) (runner'.statement (s.mapNames ρ)) := by
  cases s with
  | expression e => exact (h.evaluateAll e).bind fun _ => .pure ()
  | assignment targets e =>
    refine (h.evaluateAll e).bind fun values => ?_
    rw [List.length_map, List.zip_map_left]
    split
    · exact .fails _
    · exact .assign _
  | declaration names value =>
    refine (h.declared names value).bind fun values => ?_
    rw [List.length_map, List.zip_map_left]
    split
    · exact .fails _
    · exact .bindNew _
  | conditional condition body =>
    refine (h.evaluate condition).bind fun value => ?_
    split
    · exact .pure ()
    · exact h.run (.block body)
  | switch scrutinee cases =>
    rw [Statement.mapNames, Case.listMapNames_eq]
    refine (h.evaluate scrutinee).bind fun value => (h.select value cases).bindMap fun chosen => ?_
    cases chosen with
    | none => exact .pure ()
    | some body => exact h.run (.block body)
  | function f =>
    rw [Statement.mapNames_function]
    exact .pure ()
  | loop l =>
    rw [Statement.mapNames_loop]
    exact h.loop l
  | breakLoop => exact .setSignal _
  | continueLoop => exact .setSignal _
  | leave => exact .setSignal _
  | block b => exact h.run (.block b)

theorem block {α β : Type} {f : α → β} (ctx : Context) (b : Block) {exit : Exec α} {exit' : Exec β}
    (hexit : Exec.Renames ρ f exit exit') :
    Exec.Renames ρ f (ctx.block runner b exit) (ctx.block runner' (b.mapNames ρ) exit') := by
  unfold Context.block
  rw [Block.id_mapNames, Block.functions_mapNames, Block.statements_mapNames]
  refine (Exec.Renames.enterScope _).bind fun _ => .ensuring ?_ .leaveScope
  exact (Exec.Renames.declareFunctions _).bind fun _ => (h.sequence ctx b.statements).bind fun _ => hexit

/-! Loops. -/

omit h in
theorem settle : Exec.Renames ρ id Exec.settle Exec.settle := by
  refine Exec.Renames.signal.bind fun signal => ?_
  split
  · exact .pure ()
  · exact .setSignal _

theorem afterPost (l : ForLoop) : Exec.Renames ρ id (runner.afterPost l) (runner'.afterPost (l.mapNames ρ)) := by
  refine Exec.Renames.signal.bind fun signal => ?_
  split
  · exact settle
  · exact h.run (.rounds l)

theorem afterBody (l : ForLoop) : Exec.Renames ρ id (runner.afterBody l) (runner'.afterBody (l.mapNames ρ)) := by
  refine Exec.Renames.signal.bind fun signal => ?_
  split
  · exact settle
  · exact (Exec.Renames.setSignal _).bind fun _ => (h.run (.block l.post)).bind fun _ => h.afterPost l

theorem rounds (ctx : Context) (l : ForLoop) :
    Exec.Renames ρ id (ctx.rounds runner l) (ctx.rounds runner' (l.mapNames ρ)) := by
  have hspins : (l.mapNames ρ).spins = l.spins := by
    unfold ForLoop.spins ForLoop.mapNames
    rw [Block.statements_mapNames, Block.statements_mapNames, List.isEmpty_map, List.isEmpty_map]
  refine (h.evaluate l.condition).bind fun value => ?_
  split
  · exact settle
  · unfold Context.round
    rw [hspins]
    refine Exec.Renames.bind ?_ fun _ => (Exec.Renames.setSignal _).bind fun _ =>
      (h.run (.block l.body)).bind fun _ => h.afterBody l
    cases l.spins
    · exact .pure ()
    · exact .onMachine _

end Runner.Renames

/-! ### Whole runs -/

namespace Context
variable {ρ : Renaming} {ctx : Context} {target : Target} (htarget : ctx.dialect = target.dialect)
  (hkeeps : ρ.Keeps ctx.dialect)
include htarget hkeeps

/-- A task and the renamed one are done alike if the tasks that they lead to are. -/
theorem advance_renames {runner runner' : Runner} (h : Runner.Renames ρ runner runner') :
    Runner.Renames ρ (ctx.advance runner) (ctx.advance runner') := by
  intro t
  cases t with
  | expression e => exact h.expression htarget hkeeps e
  | invoke name args => exact h.invoke name args
  | statement s => exact (h.statement s).bind fun _ => .pure []
  | block b => exact (h.block ctx b (.pure ())).bind fun _ => .pure []
  | rounds l => exact (h.rounds ctx l).bind fun _ => .pure []

theorem perform_renames (depth : Nat) : Runner.Renames ρ (ctx.perform depth) (ctx.perform depth) := by
  induction depth with
  | zero => exact fun _ c => ⟨_, _, c, rfl, rfl, .error .outOfDepth⟩
  | succ depth ih => exact advance_renames htarget hkeeps ih

end Context

/-- What a run leaves behind, with the names in its value renamed. -/
def Report.mapNames (ρ : Renaming) (report : Report Variables) : Report Variables where
  ending := match report.ending with
    | .finished table => .finished (table.mapNames ρ)
    | .aborted outcome error => .aborted outcome error
  machine := report.machine
  warnings := report.warnings

namespace Run
variable {ρ : Renaming} {options : Options}

/-- Parts that come to the same up to names are reported alike. -/
theorem guarded_renames {x y : Exec Variables} (h : Exec.Renames ρ (Variables.mapNames ρ) x y) (options : Options) :
    ρ.Carries (Report.mapNames ρ) (guarded options x) (guarded options y) := by
  obtain ⟨r, r', d, hx, hy, hends⟩ := h {}
  rw [Config.mapNames_start] at hy
  unfold guarded
  rw [hx, hy]
  cases hends with
  | ok table => exact .ok (Report.mk (.finished table) d.machine [])
  | error hstop =>
    cases hstop with
    | outOfDepth => exact .error .outOfDepth
    | @failed error error' herror =>
      rcases houtcome : error.outcome? with _ | outcome
      · simp only [houtcome, herror.outcome?_eq]
        exact .error (.failed herror)
      · -- A failure that is reported is the same on both sides.
        obtain rfl := herror.eq_of_outcome houtcome
        simp only [houtcome]
        exact .ok _

theorem interpret_renames {opts : Option Json}
    (hkeeps : ∀ options, Options.resolve opts = .ok options → ρ.Keeps options.target.dialect) (depth : Nat)
    (program : Block) :
    ρ.Carries (Report.mapNames ρ) (interpret depth program opts) (interpret depth (program.mapNames ρ) opts) := by
  rcases hoptions : Options.resolve opts with e | options
  · unfold interpret withOptions
    rw [hoptions]
    exact .error (.failed (.same e))
  · rw [interpret_eq hoptions, interpret_eq hoptions]
    have hrunner : Runner.Renames ρ ((context options).perform depth) ((context options).perform depth) :=
      Context.perform_renames rfl (hkeeps options hoptions) depth
    exact guarded_renames (hrunner.block _ program (.gets fun _ => rfl)) options

/-- A program that is run for the target that it was checked for does not fail. -/
theorem interpret_not_failed {target : Target} {doc opts : Option Json} {program : Block}
    (hvalid : Validation.validate target doc = .ok program) (hoptions : Options.resolve opts = .ok options)
    (htarget : options.target = target) (depth : Nat) (error : Error) :
    interpret depth program opts ≠ .error (.failed error) := by
  have hjob : (job target program options True).Valid := job_valid hvalid fun _ => htarget
  have hreports : (∃ report, interpret depth program opts = .ok report) ∨
      interpret depth program opts = .error .outOfDepth := by
    rw [interpret_eq hoptions]
    exact guarded_reports fun error hfail => ((outermost_begins hjob).allowed hjob depth hfail).2 trivial
  rcases hreports with ⟨report, hreport⟩ | hreport <;> rw [hreport] <;> rintro ⟨⟩

end Run

/-- A program is valid for a target just if it is with its names renamed, as long as the builtins of the
target keep theirs. Under options whose dialect keeps its builtins as well, the two end in reports that
agree up to the names in the value, or fail alike, or neither ends. For the target that it was checked
for a valid program does not fail, and so the one run is the other one renamed. -/
theorem renamed_programs_run_alike {target : Target} {doc : Option Json} {program : Block} {ρ : Renaming}
    (hread : Validation.readProgram doc = .ok program) (hkeeps : ρ.Keeps target.dialect) :
    (Validation.validate target (some (program.mapNames ρ).toJson) = .ok (program.mapNames ρ) ↔
        Validation.validate target doc = .ok program) ∧
      (∀ opts, (∀ options, Options.resolve opts = .ok options → ρ.Keeps options.target.dialect) → ∀ depth,
        ρ.Carries (Report.mapNames ρ) (interpret depth program opts) (interpret depth (program.mapNames ρ) opts)) ∧
      (Validation.validate target doc = .ok program →
        ∀ opts, (∀ options, Options.resolve opts = .ok options → options.target = target) → ∀ depth,
          interpret depth (program.mapNames ρ) opts = (interpret depth program opts).map (Report.mapNames ρ)) := by
  have hwritten := Block.writtenAt_mapNames ρ (readProgram_written hread)
  refine ⟨?_, fun opts hopts depth => Run.interpret_renames hopts depth program, fun hvalid opts htarget depth => ?_⟩
  · rw [validate_eq_ok_iff, validate_eq_ok_iff, issues_eq_nil_iff_wellScoped, issues_eq_nil_iff_wellScoped,
      program.wellScoped_mapNames hkeeps, and_iff_right hread,
      and_iff_right (Validation.readProgram_toJson hwritten)]
  · rcases hoptions : Options.resolve opts with e | options
    · unfold interpret Run.withOptions
      rw [hoptions]
      rfl
    · have hopts (options : Options) (hoptions : Options.resolve opts = .ok options) :
          ρ.Keeps options.target.dialect := htarget options hoptions ▸ hkeeps
      exact (Run.interpret_renames hopts depth program).eq_map
        (Run.interpret_not_failed hvalid hoptions (htarget options hoptions) depth)

/-! ### Samples -/

namespace Sample

/-- The function and the variable of a program exchange their names. -/
def exchange : Renaming := .swap "copy" "x" (by decide) (by decide)

theorem exchange_keeps : exchange.Keeps Target.evm.dialect := Renaming.swap_keeps rfl rfl

/-- A function with two parameters and one return, which does nothing, and a call of it. -/
def adding (name : String) : Block :=
  ⟨[], [.function ⟨name, ["a", "b"], ["r"], ⟨Place.field (Place.item [] "statements" 0) "body", []⟩⟩,
    .declaration ["x"] (some (.call name [.literal ⟨.number, "1"⟩, .literal ⟨.number, "2"⟩]))]⟩

/-- A renaming that takes away the name of a builtin of the `evm` dialect. -/
def replacement : Renaming := .swap "add" "plus" (by decide) (by decide)

theorem replacement_keeps : replacement.Keeps Target.wasm.dialect := Renaming.swap_keeps rfl rfl

theorem adding_mapNames : (adding "add").mapNames replacement = adding "plus" := by
  with_unfolding_all rfl

theorem adding_valid : Validation.validate .wasm (some (adding "add").toJson) = .ok (adding "add") := by
  have hread : Validation.readProgram (some (adding "add").toJson) = .ok (adding "add") := by
    with_unfolding_all rfl
  exact validate_eq_ok_iff.mpr ⟨hread, rfl⟩

/-- The value of a variable at the end of a run. -/
def final (name : String) : Except Stop (Report Variables) → Option Word
  | .ok ⟨.finished table, _, _⟩ => table[name]?
  | _ => none

theorem final_mapNames (ρ : Renaming) (name : String) (report : Report Variables) :
    final (ρ name) (.ok (report.mapNames ρ)) = final name (.ok report) := by
  obtain ⟨table | _, machine, warnings⟩ := report
  · exact table.getElem?_mapNames ρ name
  · rfl

end Sample

theorem renamed_programs_run_alike_sample :
    Validation.validate .evm (some (Sample.program.mapNames Sample.exchange).toJson) =
        .ok (Sample.program.mapNames Sample.exchange) ∧
      interpret 20 (Sample.program.mapNames Sample.exchange) none =
        (interpret 20 Sample.program none).map (Report.mapNames Sample.exchange) := by
  have hread := (validate_eq_ok_iff.mp Sample.program_valid).1
  obtain ⟨hvalid, -, hruns⟩ := renamed_programs_run_alike hread Sample.exchange_keeps
  refine ⟨hvalid.mpr Sample.program_valid, hruns Sample.program_valid none (fun options hoptions => ?_) 20⟩
  cases Sample.options_resolved.symm.trans hoptions
  rfl

/-- Without options a program is run for `evm`, whatever it was checked for. A function may then be
taken for a builtin, and is no longer when it is renamed. -/
theorem not_renamed_programs_run_alike :
    ¬∀ (ρ : Renaming) (target : Target) (program : Block), ρ.Keeps target.dialect →
      Validation.validate target (some program.toJson) = .ok program → ∀ opts depth report,
        interpret depth program opts = .ok report →
          ∃ depth', interpret depth' (program.mapNames ρ) opts = .ok (report.mapNames ρ) := by
  intro h
  have hadd : Sample.final "x" (interpret 4 (Sample.adding "add") none) = some 3 := by
    with_unfolding_all rfl
  have hplus : Sample.final "x" (interpret 4 (Sample.adding "plus") none) = some 0 := by
    with_unfolding_all rfl
  rcases hreport : interpret 4 (Sample.adding "add") none with stop | report <;> rw [hreport] at hadd
  · cases hadd
  · obtain ⟨depth, hrenamed⟩ :=
      h Sample.replacement .wasm _ Sample.replacement_keeps Sample.adding_valid none 4 report hreport
    rw [Sample.adding_mapNames] at hrenamed
    have hdepth : interpret 4 (Sample.adding "plus") none ≠ .error .outOfDepth := by
      rintro hout
      rw [hout] at hplus
      cases hplus
    have hsame := (interpret_steady Sample.options_resolved (Sample.adding "plus")).unique hdepth
      (hrenamed.trans_ne nofun)
    have hx : Sample.replacement "x" = "x" := Renaming.swap_apply_of_ne (by decide) (by decide)
    rw [hsame, hrenamed, ← hx, Sample.final_mapNames, hadd] at hplus
    cases hplus

end BlockIR
