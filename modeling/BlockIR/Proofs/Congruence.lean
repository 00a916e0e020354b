import BlockIR.Proofs.Ends
import BlockIR.Run
import Mathlib.Data.List.Forall2

/-! Congruences: relations between runs that hold of whole tasks if they hold of their parts.

A run is put together in few ways: basic parts, a bind, a scope that is left
again and an activation of its own. A relation between parts of runs, possibly
under two contexts, that each of these respects is a congruence: once two
runners are related on the parts of a task, doing the task with the one and with
the other is related as well (`Uniform.advance`), and so are whole runs
(`Uniform.perform`). What is to be proved about all runs is therefore proved
about the basic parts only.

There are five levels. Evaluation needs neither scopes nor signals (`Evaluates`).
What statements do in the scope they stand in needs little more, with assigning
and declaring taken as a whole (`Stepwise`) or variable by variable (`Local`), and
scopes and signals come next (`Congruence`); what calls do, and that functions
are declared, is left open there, so that a relation may depend on the text of a
task. A relation that does not is `Uniform`. -/
namespace BlockIR

/-- `u` is a part of the text of `t`, or a call of the function that the text of `t` names. -/
inductive Task.Part : Task → Task → Prop
  | argument {name : String} {args : List Expr} {e : Expr} : e ∈ args →
    Part (.expression (.call name args)) (.expression e)
  | callee {name : String} {args : List Expr} {values : List Word} :
    Part (.expression (.call name args)) (.invoke name values)
  | value {e : Expr} : Part (.statement (.expression e)) (.expression e)
  | assigned {targets : List String} {e : Expr} : Part (.statement (.assignment targets e)) (.expression e)
  | declared {names : List String} {e : Expr} :
    Part (.statement (.declaration names (some e))) (.expression e)
  | condition {e : Expr} {body : Block} : Part (.statement (.conditional e body)) (.expression e)
  | branch {e : Expr} {body : Block} : Part (.statement (.conditional e body)) (.block body)
  | scrutinee {e : Expr} {cases : List Case} : Part (.statement (.switch e cases)) (.expression e)
  | candidate {e : Expr} {cases : List Case} {literal : Literal} {body : Block} :
    ⟨some literal, body⟩ ∈ cases → Part (.statement (.switch e cases)) (.expression (.literal literal))
  | chosen {e : Expr} {cases : List Case} {c : Case} : c ∈ cases →
    Part (.statement (.switch e cases)) (.block c.body)
  | front {l : ForLoop} {s : Statement} : s ∈ l.init.statements →
    Part (.statement (.loop l)) (.statement s)
  | begin {l : ForLoop} : Part (.statement (.loop l)) (.rounds l)
  | nested {b : Block} : Part (.statement (.block b)) (.block b)
  | item {b : Block} {s : Statement} : s ∈ b.statements → Part (.block b) (.statement s)
  | test {l : ForLoop} : Part (.rounds l) (.expression l.condition)
  | round {l : ForLoop} : Part (.rounds l) (.block l.body)
  | post {l : ForLoop} : Part (.rounds l) (.block l.post)
  | again {l : ForLoop} : Part (.rounds l) (.rounds l)

/-- The signal that a statement is there to raise. -/
def Statement.signal? : Statement → Option Signal
  | .breakLoop => some .breakLoop
  | .continueLoop => some .continueLoop
  | .leave => some .leave
  | _ => none

namespace Exec

/-- Binds a variable of the current activation, whether or not it was bound. -/
def put (name : String) (value : Word) : Exec Unit :=
  modifyActivation fun a => { a with bindings := a.bindings.insert name value }

/-- The value of a variable of the current activation, if it is bound. -/
def look (name : String) : Exec (Option Word) := Effect.gets fun config => config.activation.bindings[name]?

theorem valueOf_apply (name : String) (c : Config) :
    valueOf name c =
      (match c.activation.bindings[name]? with
        | some value => .ok value
        | none => .error (.failed (.unboundIdentifier name)), c) := by
  unfold valueOf activation
  rw [Effect.bind_of_ok (Effect.gets_apply Config.activation c)]
  rcases c.activation.bindings[name]? with _ | value <;> rfl

theorem assign_eq (name : String) (value : Word) (rest : List (String × Word)) :
    assign ((name, value) :: rest) = look name >>= fun found =>
      if found.isSome then put name value >>= fun _ => assign rest else fail (.unboundIdentifier name) := by
  funext c
  show (if name ∈ c.activation.bindings then _ else _ : Exec Unit) c =
    (if c.activation.bindings[name]?.isSome then _ else _ : Exec Unit) c
  rw [if_congr Std.ExtTreeMap.isSome_getElem?_iff_mem rfl rfl]
  rfl

theorem bindNew_eq (name : String) (value : Word) (rest : List (String × Word)) :
    bindNew ((name, value) :: rest) = look name >>= fun found =>
      if found.isSome then fail (.redeclaration name)
      else put name value >>= fun _ => declare name .ofVariable >>= fun _ => bindNew rest := by
  funext c
  show (if name ∈ c.activation.bindings then _ else _ : Exec Unit) c =
    (if c.activation.bindings[name]?.isSome then _ else _ : Exec Unit) c
  rw [if_congr Std.ExtTreeMap.isSome_getElem?_iff_mem rfl rfl]
  rfl

end Exec

/-- A relation between parts of runs. -/
abbrev Exec.Relation : Type 1 := (α : Type) → Exec α → Exec α → Prop

namespace Context

/-- What the evaluation of expressions needs of a relation. -/
structure Evaluates (low high : Context) (R : Exec.Relation) : Prop where
  dialect : high.dialect = low.dialect
  pure : ∀ {α : Type} (a : α), R α (pure a) (pure a)
  fail : ∀ {α : Type} {e : Error}, e.isLimit = false → R α (Exec.fail e) (Exec.fail e)
  valueOf : ∀ name, R Word (Exec.valueOf name) (Exec.valueOf name)
  deepen : R Unit (Exec.deepen low) (Exec.deepen high)
  builtin : ∀ {name : String} {builtin : Builtin}, low.dialect.find? name = some builtin → ∀ call,
    R Word (Exec.onMachine (low.dialect.evaluate low.setting builtin call))
      (Exec.onMachine (low.dialect.evaluate high.setting builtin call))
  bind : ∀ {α β : Type} {x y : Exec α} {f g : α → Exec β}, R α x y → (∀ a, R β (f a) (g a)) →
    R β (x >>= f) (y >>= g)

/-- What statements need of a relation besides, apart from scopes and from the signals they raise. -/
structure Stepwise (low high : Context) (R : Exec.Relation) : Prop extends Evaluates low high R where
  count : R Unit (Exec.onMachine (countStep low.setting)) (Exec.onMachine (countStep high.setting))
  pending : R Signal Exec.signal Exec.signal
  reset : R Unit (Exec.setSignal .proceed) (Exec.setSignal .proceed)
  restart : R Unit Exec.restart Exec.restart
  assign : ∀ pairs, R Unit (Exec.assign pairs) (Exec.assign pairs)
  bindNew : ∀ pairs, R Unit (Exec.bindNew pairs) (Exec.bindNew pairs)

section Variables
variable {low high : Context} {R : Exec.Relation} (cong : low.Evaluates high R)
  (hlook : ∀ name, R (Option Word) (Exec.look name) (Exec.look name))
  (hput : ∀ name value, R Unit (Exec.put name value) (Exec.put name value))
include cong hlook hput

theorem Evaluates.assign (pairs : List (String × Word)) : R Unit (Exec.assign pairs) (Exec.assign pairs) := by
  induction pairs with
  | nil => exact cong.pure ()
  | cons first rest ih =>
    rw [Exec.assign_eq]
    apply cong.bind (hlook _)
    intro found
    split
    · exact cong.bind (hput _ _) fun _ => ih
    · exact cong.fail rfl

theorem Evaluates.bindNew
    (hdeclare : ∀ name, R Unit (Exec.declare name .ofVariable) (Exec.declare name .ofVariable))
    (pairs : List (String × Word)) : R Unit (Exec.bindNew pairs) (Exec.bindNew pairs) := by
  induction pairs with
  | nil => exact cong.pure ()
  | cons first rest ih =>
    rw [Exec.bindNew_eq]
    apply cong.bind (hlook _)
    intro found
    split
    · exact cong.fail rfl
    · exact cong.bind (hput _ _) fun _ => cong.bind (hdeclare _) fun _ => ih

end Variables

/-- The same with what assigning and declaring do with one variable. -/
structure Local (low high : Context) (R : Exec.Relation) : Prop extends Stepwise low high R where
  look : ∀ name, R (Option Word) (Exec.look name) (Exec.look name)
  put : ∀ name value, R Unit (Exec.put name value) (Exec.put name value)
  declareVariable : ∀ name, R Unit (Exec.declare name .ofVariable) (Exec.declare name .ofVariable)
  assign := Evaluates.assign ⟨dialect, pure, fail, valueOf, deepen, builtin, bind⟩ look put
  bindNew := Evaluates.bindNew ⟨dialect, pure, fail, valueOf, deepen, builtin, bind⟩ look put declareVariable

/-- What tasks other than calls need of a relation. -/
structure Congruence (low high : Context) (R : Exec.Relation) : Prop extends Local low high R where
  gets : ∀ {α : Type} (f : Config → α), R α (Effect.gets f) (Effect.gets f)
  signal : ∀ signal, R Unit (Exec.setSignal signal) (Exec.setSignal signal)
  enterScope : ∀ block, R Unit (Exec.enterScope block) (Exec.enterScope block)
  leaving : ∀ {α : Type} {x y : Exec α}, R α x y →
    R α (x.ensuring Exec.leaveScope) (y.ensuring Exec.leaveScope)

/-- What calls and the declaring of functions need besides, if the text does not matter. -/
structure Uniform (low high : Context) (R : Exec.Relation) : Prop extends Congruence low high R where
  declareFunction : ∀ definition : FunctionDefinition,
    R Unit (Exec.declare definition.name (.ofFunction definition))
      (Exec.declare definition.name (.ofFunction definition))
  within : ∀ {α : Type} {inner : Activation} {x y : Exec α}, R α x y →
    R α (Exec.within inner x) (Exec.within inner y)

end Context

/-! ### Failures that are no limits -/

theorem Literal.not_limit_of_value {literal : Literal} {e : Error} (h : literal.value = .error e) :
    e.isLimit = false := by
  unfold Literal.value at h
  cases hread : literal.read <;> rw [hread] at h <;> cases h
  rfl

namespace ScopeArena
variable {κ φ : Type} {arena : ScopeArena κ φ} {e : Error}

theorem not_limit_of_get {id : ScopeId} (h : arena.get id = .error e) : e.isLimit = false := by
  unfold get at h
  split at h <;> cases h
  rfl

theorem not_limit_of_enter [BEq κ] {id : ScopeId} {block : κ} (h : arena.enter id block = .error e) :
    e.isLimit = false := by
  unfold enter at h
  cases hget : arena.get id with
  | error e' =>
    rw [hget] at h
    cases h
    exact not_limit_of_get hget
  | ok scope =>
    simp only [hget, bind, Except.bind] at h
    split at h <;> cases h

theorem not_limit_of_declare {id : ScopeId} {name : String} {binding : Binding φ}
    (h : arena.declare id name binding = .error e) : e.isLimit = false := by
  unfold declare at h
  cases hget : arena.get id with
  | error e' =>
    rw [hget] at h
    cases h
    exact not_limit_of_get hget
  | ok scope =>
    rw [hget] at h
    cases h

theorem not_limit_of_lookupWithin {name : String} {bound : Nat} {id : ScopeId}
    (h : arena.lookupWithin name bound id = .error e) : e.isLimit = false := by
  induction bound generalizing id with
  | zero => cases h
  | succ bound ih =>
    unfold lookupWithin at h
    cases hget : arena.get id with
    | error e' =>
      rw [hget] at h
      cases h
      exact not_limit_of_get hget
    | ok scope =>
      simp only [hget, bind, Except.bind] at h
      split at h
      · cases h
      · split at h
        · exact ih h
        · cases h

theorem not_limit_of_leave {id : ScopeId} {table table' : Variables}
    (h : arena.leave id table = (.error e, table')) : e.isLimit = false := by
  unfold leave at h
  cases hget : arena.get id with
  | error e' =>
    rw [hget, Effect.bind_of_error (Effect.ofExcept_apply _ table)] at h
    cases h
    exact not_limit_of_get hget
  | ok scope =>
    rw [hget, Effect.bind_of_ok (Effect.ofExcept_apply _ table),
      Effect.bind_of_ok (Effect.modify_apply _ table)] at h
    cases hparent : scope.parent <;> rw [hparent] at h <;> cases h
    rfl

end ScopeArena

/-! ### Evaluation -/

namespace Context
variable {low high : Context} {R : Exec.Relation} {runner better : Runner}

namespace Evaluates
variable (cong : low.Evaluates high R)
include cong

theorem ofExcept {α : Type} {r : Except Error α} (h : ∀ e, r = .error e → e.isLimit = false) :
    R α (Exec.ofExcept r) (Exec.ofExcept r) := by
  cases r with
  | ok a => exact cong.pure a
  | error e => exact cong.fail (h e rfl)

theorem valuesOf (names : List String) : R (List Word) (Exec.valuesOf names) (Exec.valuesOf names) := by
  induction names with
  | nil => exact cong.pure []
  | cons name rest ih =>
    exact cong.bind (cong.valueOf name) fun _ => cong.bind ih fun _ => cong.pure _

theorem single {x y : Exec (List Word)} (h : R (List Word) x y) : R Word (Exec.single x) (Exec.single y) := by
  apply cong.bind h
  intro values
  split
  · exact cong.pure _
  · exact cong.fail rfl

/-- Arguments are related if each one is. -/
theorem arguments (wants : Nat → Bool) (args : List Expr) (position : Nat)
    (h : ∀ e ∈ args, R (List Word) (runner (.expression e)) (better (.expression e))) :
    R (List Word) (runner.arguments wants position args) (better.arguments wants position args) := by
  induction args generalizing position with
  | nil => exact cong.pure []
  | cons e rest ih =>
    apply cong.bind (ih (position + 1) fun e' he' => h e' (List.mem_cons_of_mem _ he'))
    intro values
    have hfirst : R Word (runner.argument (wants position) e) (better.argument (wants position) e) := by
      unfold Runner.argument
      split
      · exact cong.pure 0
      · exact cong.single (h e (List.mem_cons_self ..))
    exact cong.bind hfirst fun _ => cong.pure _

theorem apply (name : String) (args : List Expr) (values : List Word)
    (h : R (List Word) (runner (.invoke name values)) (better (.invoke name values))) :
    R (List Word) (low.apply runner name args values) (high.apply better name args values) := by
  unfold Context.apply
  rw [cong.dialect]
  cases hfind : low.dialect.find? name with
  | none => exact h
  | some builtin => exact cong.bind (cong.builtin hfind _) fun _ => cong.pure _

theorem expression (e : Expr)
    (h : ∀ u, Task.Part (.expression e) u → R (List Word) (runner u) (better u)) :
    R (List Word) (low.expression runner e) (high.expression better e) := by
  cases e with
  | literal literal =>
    exact cong.bind cong.deepen fun _ =>
      cong.bind (cong.ofExcept fun _ => Literal.not_limit_of_value) fun _ => cong.pure _
  | identifier name =>
    exact cong.bind (cong.valueOf name) fun _ => cong.bind cong.deepen fun _ => cong.pure _
  | call name args =>
    unfold Context.expression
    rw [cong.dialect]
    apply cong.bind cong.deepen
    intro _
    apply cong.bind (cong.arguments _ args 0 fun e he => h _ (.argument he))
    exact fun values => cong.apply name args values (h _ .callee)

end Evaluates

/-! ### Statements -/

namespace Stepwise
variable (cong : low.Stepwise high R)
include cong

theorem declareFunctions {definitions : List FunctionDefinition}
    (h : ∀ f ∈ definitions,
      R Unit (Exec.declare f.name (.ofFunction f)) (Exec.declare f.name (.ofFunction f))) :
    R Unit (Exec.declareFunctions definitions) (Exec.declareFunctions definitions) := by
  induction definitions with
  | nil => exact cong.pure ()
  | cons first rest ih =>
    obtain ⟨hfirst, hrest⟩ := List.forall_mem_cons.mp h
    exact cong.bind hfirst fun _ => ih hrest

theorem settle : R Unit Exec.settle Exec.settle := by
  apply cong.bind cong.pending
  intro signal
  split
  · exact cong.pure ()
  · exact cong.reset

theorem run {t u : Task} (h : R (List Word) (runner t) (better u)) : R Unit (runner.run t) (better.run u) :=
  cong.bind h fun _ => cong.pure ()

theorem evaluateAll {e : Expr} (h : R (List Word) (runner (.expression e)) (better (.expression e))) :
    R (List Word) (runner.evaluateAll e) (better.evaluateAll e) := cong.bind cong.restart fun _ => h

theorem evaluate {e : Expr} (h : R (List Word) (runner (.expression e)) (better (.expression e))) :
    R Word (runner.evaluate e) (better.evaluate e) := cong.single (cong.evaluateAll h)

/-- Choosing among cases with the same values is related, together with what is done with the choice,
if the evaluation of each candidate is and what is done with each body. -/
theorem selecting {α : Type} {k k' : Option Block → Exec α} (value : Word) {cases cases' : List Case}
    (hnone : R α (k none) (k' none))
    (hcases : List.Forall₂ (fun c d : Case => d.value = c.value ∧
      (∀ literal ∈ c.value,
        R (List Word) (runner (.expression (.literal literal))) (better (.expression (.literal literal)))) ∧
      R α (k (some c.body)) (k' (some d.body))) cases cases') :
    R α (runner.select value cases >>= k) (better.select value cases' >>= k') := by
  induction hcases with
  | nil => exact hnone
  | @cons c d _ _ hfirst _ ih =>
    obtain ⟨hvalue, hcandidate, hbody⟩ := hfirst
    obtain ⟨_ | literal, body⟩ := c <;> obtain ⟨_, body'⟩ := d <;> cases hvalue
    · exact hbody
    · unfold Runner.select
      rw [bind_assoc, bind_assoc]
      apply cong.bind (cong.evaluate (hcandidate literal rfl))
      intro candidate
      split
      · exact hbody
      · exact ih

theorem select (value : Word) (cases : List Case)
    (h : ∀ literal,
      R (List Word) (runner (.expression (.literal literal))) (better (.expression (.literal literal)))) :
    R (Option Block) (runner.select value cases) (better.select value cases) := by
  have hselect : R (Option Block) (runner.select value cases >>= Pure.pure)
      (better.select value cases >>= Pure.pure) :=
    cong.selecting value (cong.pure none) (List.forall₂_same.mpr fun c _ =>
      ⟨rfl, fun literal _ => h literal, cong.pure (some c.body)⟩)
  rwa [bind_pure, bind_pure] at hselect

/-- The statements in front of two loops are related if they are one by one. -/
theorem initialising {ss ts : List Statement}
    (h : List.Forall₂ (fun s t => R (List Word) (runner (.statement s)) (better (.statement t))) ss ts) :
    R Bool (runner.initialise ss) (better.initialise ts) := by
  induction h with
  | nil => exact cong.pure false
  | cons hfirst _ ih =>
    apply cong.bind (cong.run hfirst)
    intro _
    apply cong.bind cong.pending
    intro signal
    split
    · exact cong.pure true
    · exact ih

theorem initialise (statements : List Statement)
    (h : ∀ s ∈ statements, R (List Word) (runner (.statement s)) (better (.statement s))) :
    R Bool (runner.initialise statements) (better.initialise statements) :=
  cong.initialising (List.forall₂_same.mpr h)

/-- Statements in turn are related if they are one by one. -/
theorem sequencing {ss ts : List Statement}
    (h : List.Forall₂ (fun s t => R (List Word) (runner (.statement s)) (better (.statement t))) ss ts) :
    R Unit (low.sequence runner ss) (high.sequence better ts) := by
  induction h with
  | nil => exact cong.pure ()
  | cons hfirst _ ih =>
    apply cong.bind cong.count
    intro _
    apply cong.bind (cong.run hfirst)
    intro _
    apply cong.bind cong.pending
    intro signal
    split
    · exact ih
    · exact cong.pure ()

theorem sequence (statements : List Statement)
    (h : ∀ s ∈ statements, R (List Word) (runner (.statement s)) (better (.statement s))) :
    R Unit (low.sequence runner statements) (high.sequence better statements) :=
  cong.sequencing (List.forall₂_same.mpr h)

theorem afterPost {l m : ForLoop} (h : R (List Word) (runner (.rounds l)) (better (.rounds m))) :
    R Unit (runner.afterPost l) (better.afterPost m) := by
  apply cong.bind cong.pending
  intro signal
  split
  · exact cong.settle
  · exact cong.run h

theorem afterBody {l m : ForLoop} (hpost : R (List Word) (runner (.block l.post)) (better (.block m.post)))
    (h : R (List Word) (runner (.rounds l)) (better (.rounds m))) :
    R Unit (runner.afterBody l) (better.afterBody m) := by
  apply cong.bind cong.pending
  intro signal
  split
  · exact cong.settle
  · apply cong.bind cong.reset
    intro _
    exact cong.bind (cong.run hpost) fun _ => cong.afterPost h

theorem round {l m : ForLoop} (hspins : m.spins = l.spins)
    (hbody : R (List Word) (runner (.block l.body)) (better (.block m.body)))
    (hpost : R (List Word) (runner (.block l.post)) (better (.block m.post)))
    (h : R (List Word) (runner (.rounds l)) (better (.rounds m))) :
    R Unit (low.round runner l) (high.round better m) := by
  have hcount : R Unit (Effect.when l.spins (Exec.onMachine (countStep low.setting)))
      (Effect.when m.spins (Exec.onMachine (countStep high.setting))) := by
    rw [hspins]
    unfold Effect.when
    split
    · exact cong.count
    · exact cong.pure ()
  apply cong.bind hcount
  intro _
  apply cong.bind cong.reset
  intro _
  exact cong.bind (cong.run hbody) fun _ => cong.afterBody hpost h

/-- Rounds of two loops with one condition are related if their bodies, their post blocks and the rounds
that follow are. -/
theorem rounding {l m : ForLoop} (hcondition : m.condition = l.condition) (hspins : m.spins = l.spins)
    (htest : R (List Word) (runner (.expression l.condition)) (better (.expression l.condition)))
    (hbody : R (List Word) (runner (.block l.body)) (better (.block m.body)))
    (hpost : R (List Word) (runner (.block l.post)) (better (.block m.post)))
    (hagain : R (List Word) (runner (.rounds l)) (better (.rounds m))) :
    R Unit (low.rounds runner l) (high.rounds better m) := by
  unfold Context.rounds
  rw [hcondition]
  apply cong.bind (cong.evaluate htest)
  intro value
  split
  · exact cong.settle
  · exact cong.round hspins hbody hpost hagain

theorem rounds (l : ForLoop) (h : ∀ u, Task.Part (.rounds l) u → R (List Word) (runner u) (better u)) :
    R Unit (low.rounds runner l) (high.rounds better l) :=
  cong.rounding rfl rfl (h _ .test) (h _ .round) (h _ .post) (h _ .again)

/-- A loop has to be related as a whole, any other statement is if its parts and its signal are. -/
theorem statement (s : Statement)
    (hsignal : ∀ signal ∈ s.signal?, R Unit (Exec.setSignal signal) (Exec.setSignal signal))
    (hloop : ∀ l, s = .loop l → R Unit (runner.statement (.loop l)) (better.statement (.loop l)))
    (h : (∀ l, s ≠ .loop l) → ∀ u, Task.Part (.statement s) u → R (List Word) (runner u) (better u)) :
    R Unit (runner.statement s) (better.statement s) := by
  cases s with
  | expression e => exact cong.bind (cong.evaluateAll (h nofun _ .value)) fun _ => cong.pure ()
  | assignment targets e =>
    apply cong.bind (cong.evaluateAll (h nofun _ .assigned))
    intro values
    split
    · exact cong.fail rfl
    · exact cong.assign _
  | declaration names value =>
    have hvalues : R (List Word) (runner.declared names value) (better.declared names value) := by
      cases value with
      | none => exact cong.pure _
      | some e => exact cong.evaluateAll (h nofun _ .declared)
    apply cong.bind hvalues
    intro values
    split
    · exact cong.fail rfl
    · exact cong.bindNew _
  | conditional condition body =>
    apply cong.bind (cong.evaluate (h nofun _ .condition))
    intro value
    split
    · exact cong.pure ()
    · exact cong.run (h nofun _ .branch)
  | switch scrutinee cases =>
    apply cong.bind (cong.evaluate (h nofun _ .scrutinee))
    intro value
    refine cong.selecting value (cong.pure ()) (List.forall₂_same.mpr fun c hc => ⟨rfl, ?_, ?_⟩)
    · rintro literal hliteral
      obtain ⟨_, body⟩ := c
      cases hliteral
      exact h nofun _ (.candidate hc)
    · exact cong.run (h nofun _ (.chosen hc))
  | function _ => exact cong.pure ()
  | loop l => exact hloop l rfl
  | breakLoop => exact hsignal _ rfl
  | continueLoop => exact hsignal _ rfl
  | leave => exact hsignal _ rfl
  | block b => exact cong.run (h nofun _ .nested)

end Stepwise

namespace Congruence
variable (cong : low.Congruence high R)
include cong

/-- A block is related if its functions can be declared and its statements are related. -/
theorem block {α : Type} (b : Block) {exit : Exec α} (hexit : R α exit exit)
    (hfunctions : ∀ f ∈ b.functions,
      R Unit (Exec.declare f.name (.ofFunction f)) (Exec.declare f.name (.ofFunction f)))
    (h : ∀ s ∈ b.statements, R (List Word) (runner (.statement s)) (better (.statement s))) :
    R α (low.block runner b exit) (high.block better b exit) := by
  apply cong.bind (cong.enterScope b.id)
  intro _
  apply cong.leaving
  apply cong.bind (cong.declareFunctions hfunctions)
  intro _
  exact cong.bind (cong.sequence b.statements h) fun _ => hexit

theorem loop (l : ForLoop)
    (h : ∀ u, Task.Part (.statement (.loop l)) u → R (List Word) (runner u) (better u)) :
    R Unit (runner.statement (.loop l)) (better.statement (.loop l)) := by
  apply cong.bind (cong.enterScope l.init.id)
  intro _
  apply cong.leaving
  apply cong.bind (cong.initialise l.init.statements fun s hs => h _ (.front hs))
  intro left
  split
  · exact cong.pure ()
  · exact cong.run (h _ .begin)

theorem statement (s : Statement)
    (h : ∀ u, Task.Part (.statement s) u → R (List Word) (runner u) (better u)) :
    R Unit (runner.statement s) (better.statement s) := by
  refine cong.toStepwise.statement s (fun signal _ => cong.signal signal) ?_ fun _ => h
  rintro l rfl
  exact cong.loop l h

/-- A task other than a call is related if its parts are and the functions of a block can be declared. -/
theorem advance (t : Task) (hcall : ∀ name args, t ≠ .invoke name args)
    (hfunctions : ∀ b, t = .block b → ∀ f ∈ b.functions,
      R Unit (Exec.declare f.name (.ofFunction f)) (Exec.declare f.name (.ofFunction f)))
    (h : ∀ u, t.Part u → R (List Word) (runner u) (better u)) :
    R (List Word) (low.advance runner t) (high.advance better t) := by
  cases t with
  | expression e => exact cong.expression e h
  | invoke name args => exact absurd rfl (hcall name args)
  | statement s => exact cong.bind (cong.statement s h) fun _ => cong.pure _
  | block b =>
    have hblock : R Unit (low.block runner b (Pure.pure ())) (high.block better b (Pure.pure ())) :=
      cong.block b (cong.pure ()) (hfunctions b rfl) fun s hs => h _ (.item hs)
    exact cong.bind hblock fun _ => cong.pure _
  | rounds l => exact cong.bind (cong.rounds l h) fun _ => cong.pure _

end Congruence

/-! ### Calls and whole runs -/

namespace Uniform
variable (cong : low.Uniform high R)
include cong

theorem invoke (name : String) (args : List Word)
    (h : ∀ b, R (List Word) (runner (.block b)) (better (.block b))) :
    R (List Word) (runner.invoke name args) (better.invoke name args) := by
  apply cong.bind (cong.gets id)
  intro config
  apply cong.bind (cong.ofExcept fun _ => ScopeArena.not_limit_of_lookupWithin)
  intro found
  split
  · exact cong.fail rfl
  · split
    · exact cong.fail rfl
    · apply cong.bind (cong.signal _)
      intro _
      apply cong.within
      apply cong.bind (cong.run (h _))
      intro _
      exact cong.bind (cong.signal _) fun _ => cong.valuesOf _

/-- Doing a task with related runners is related. -/
theorem advance (h : ∀ t, R (List Word) (runner t) (better t)) (t : Task) :
    R (List Word) (low.advance runner t) (high.advance better t) := by
  by_cases hcall : ∃ name args, t = .invoke name args
  · obtain ⟨name, args, rfl⟩ := hcall
    exact cong.invoke name args fun b => h _
  · exact cong.toCongruence.advance t (fun name args ht => hcall ⟨name, args, ht⟩)
      (fun _ _ f _ => cong.declareFunction f) fun u _ => h u

section Runs
variable (hdepth : R (List Word) (Effect.fail .outOfDepth) (Effect.fail .outOfDepth))
include hdepth

/-- So is doing it with everything it leads to. -/
theorem perform (depth : Nat) (t : Task) : R (List Word) (low.perform depth t) (high.perform depth t) := by
  induction depth generalizing t with
  | zero => exact hdepth
  | succ depth ih => exact cong.advance ih t

theorem program (depth : Nat) (program : Block) :
    R Variables (Run.program low depth program) (Run.program high depth program) :=
  cong.block program (cong.gets _) (fun f _ => cong.declareFunction f) fun _ _ => cong.perform hdepth depth _

theorem call (depth : Nat) (program : Block) (name : String) (args : List Word) :
    R (List Word) (Run.call low depth program name args) (Run.call high depth program name args) := by
  apply cong.bind (cong.enterScope program.id)
  intro _
  apply cong.bind (cong.declareFunctions fun f _ => cong.declareFunction f)
  intro _
  exact cong.perform hdepth depth _

end Runs
end Uniform
end Context

/-! ### Relations that do not look at scopes and variables -/

/-- A part that leaves the machine alone and fails neither at a limit nor for want of depth. -/
structure Exec.Plain {α : Type} (x : Exec α) : Prop where
  machine : ∀ c, (x c).2.machine = c.machine
  failure : ∀ c stop, (x c).1 = .error stop → ∃ error : Error, stop = .failed error ∧ error.isLimit = false

namespace Exec
variable {α β : Type}

/-- A part that always has a value. -/
theorem plain_of_ok {x : Exec α} (hmachine : ∀ c, (x c).2.machine = c.machine)
    (hok : ∀ c, ∃ a, (x c).1 = .ok a) : Plain x where
  machine := hmachine
  failure c stop hstop := by
    obtain ⟨a, ha⟩ := hok c
    rw [ha] at hstop
    cases hstop

theorem plain_pure (a : α) : Plain (pure a : Exec α) := plain_of_ok (fun _ => rfl) fun _ => ⟨a, rfl⟩

theorem plain_gets (f : Config → α) : Plain (Effect.gets f : Exec α) :=
  plain_of_ok (fun _ => rfl) fun c => ⟨f c, rfl⟩

theorem plain_modify {f : Config → Config} (h : ∀ c, (f c).machine = c.machine) :
    Plain (Effect.modify f : Exec Unit) := plain_of_ok h fun _ => ⟨(), rfl⟩

theorem plain_fail {e : Error} (h : e.isLimit = false) : Plain (fail e : Exec α) where
  machine _ := rfl
  failure _ _ hstop := ⟨e, (Except.error.inj hstop).symm, h⟩

theorem plain_ofExcept {r : Except Error α} (h : ∀ e, r = .error e → e.isLimit = false) :
    Plain (ofExcept r) := by
  cases r with
  | ok a => exact plain_pure a
  | error e => exact plain_fail (h e rfl)

theorem Plain.bind {x : Exec α} {f : α → Exec β} (hx : Plain x) (hf : ∀ a, Plain (f a)) :
    Plain (x >>= f) where
  machine c := by
    have h := hx.machine c
    rw [Effect.bind_apply]
    rcases hc : x c with ⟨_ | a, d⟩ <;> rw [hc] at h
    · exact h
    · exact ((hf a).machine d).trans h
  failure c stop hstop := by
    rw [Effect.bind_apply] at hstop
    rcases hc : x c with ⟨e | a, d⟩ <;> rw [hc] at hstop
    · exact hx.failure c stop (by rw [hc]; exact congrArg _ (Except.error.inj hstop))
    · exact (hf a).failure d stop hstop

theorem plain_valueOf (name : String) : Plain (valueOf name) := by
  refine (plain_gets _).bind fun activation => ?_
  split
  · exact plain_pure _
  · exact plain_fail rfl

theorem plain_modifyActivation (f : Activation → Activation) : Plain (modifyActivation f) :=
  plain_modify fun _ => rfl

theorem plain_enterScope (block : BlockId) : Plain (enterScope block) := by
  apply Plain.bind (plain_gets id)
  intro config
  apply Plain.bind (plain_ofExcept fun _ => ScopeArena.not_limit_of_enter)
  exact fun _ => plain_modify fun _ => rfl

theorem plain_declare (name : String) (binding : Binding FunctionDefinition) :
    Plain (declare name binding) := by
  apply Plain.bind (plain_gets id)
  intro config
  apply Plain.bind (plain_ofExcept fun _ => ScopeArena.not_limit_of_declare)
  exact fun _ => plain_modify fun _ => rfl

theorem plain_declareFunctions (definitions : List FunctionDefinition) :
    Plain (declareFunctions definitions) := by
  induction definitions with
  | nil => exact plain_pure ()
  | cons first rest ih => exact (plain_declare _ _).bind fun _ => ih

theorem plain_leaveScope : Plain leaveScope where
  machine c := by
    unfold leaveScope
    rcases c.scopes.leave c.activation.scope c.activation.bindings with ⟨_ | _, _⟩ <;> rfl
  failure c stop hstop := by
    unfold leaveScope at hstop
    rcases hleave : c.scopes.leave c.activation.scope c.activation.bindings with ⟨e | _, _⟩ <;>
      rw [hleave] at hstop <;> cases hstop
    exact ⟨e, rfl, ScopeArena.not_limit_of_leave hleave⟩

end Exec

/-- What a relation needs that takes parts as related to themselves which leave the machine alone. -/
structure Context.Oblivious (low high : Context) (R : Exec.Relation) : Prop where
  dialect : high.dialect = low.dialect
  plain : ∀ {α : Type} {x : Exec α}, x.Plain → R α x x
  bind : ∀ {α β : Type} {x y : Exec α} {f g : α → Exec β}, R α x y → (∀ a, R β (f a) (g a)) →
    R β (x >>= f) (y >>= g)
  ensuring : ∀ {α : Type} {x y : Exec α} {restore : Exec Unit}, R α x y → restore.Plain →
    R α (x.ensuring restore) (y.ensuring restore)
  signal : ∀ signal, R Unit (Exec.setSignal signal) (Exec.setSignal signal)
  count : R Unit (Exec.onMachine (countStep low.setting)) (Exec.onMachine (countStep high.setting))
  deepen : R Unit (Exec.deepen low) (Exec.deepen high)
  builtin : ∀ {name : String} {builtin : Builtin}, low.dialect.find? name = some builtin → ∀ call,
    R Word (Exec.onMachine (low.dialect.evaluate low.setting builtin call))
      (Exec.onMachine (low.dialect.evaluate high.setting builtin call))

open Exec in
theorem Context.Oblivious.uniform {low high : Context} {R : Exec.Relation} (h : low.Oblivious high R) :
    low.Uniform high R where
  dialect := h.dialect
  pure a := h.plain (plain_pure a)
  fail he := h.plain (plain_fail he)
  valueOf _ := h.plain (plain_valueOf _)
  deepen := h.deepen
  builtin := h.builtin
  bind := h.bind
  count := h.count
  look _ := h.plain (plain_gets _)
  pending := h.plain (plain_gets _)
  reset := h.signal _
  gets f := h.plain (plain_gets f)
  signal := h.signal
  restart := h.plain (plain_modifyActivation _)
  put _ _ := h.plain (plain_modifyActivation _)
  declareVariable _ := h.plain (plain_declare _ _)
  enterScope _ := h.plain (plain_enterScope _)
  leaving hx := h.ensuring hx plain_leaveScope
  declareFunction _ := h.plain (plain_declare _ _)
  within hx := by
    apply h.bind (h.plain (plain_gets _))
    intro outer
    apply h.bind (h.plain (plain_modifyActivation _))
    exact fun _ => h.ensuring hx (plain_modifyActivation _)

end BlockIR
