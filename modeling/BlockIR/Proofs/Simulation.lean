import BlockIR.Proofs.Moment
import BlockIR.Proofs.Ends
import BlockIR.Proofs.Pairs

/-! Two runs side by side.

A `Pairing` says what two runs of one context have in common at corresponding
moments: which machines, nesting levels and block identities belong together,
which words may occur, and which texts are executed in place of each other. Two
configurations are `Related` when all that belongs together does, and two parts
of runs are `Parts` when, started in related configurations, they come to the
same failure or to related values, and in related configurations either way.

What a pairing owes is a structure of facts about basic steps (`Keeps`) and
about blocks (`KeepsBlocks`). From these, and from what statements come to, the
two runs are led through every task (`KeepsBlocks.advance`) and so through whole
runs (`KeepsBlocks.perform`). Statements of the same shape come to the same
(`Keeps.statement`), so a pairing of those alone is `Lawful` and owes no more.

A pairing may be `strict`: its texts then raise `break` and `continue` only
inside the bodies of loops, so that every statement begins with no signal
pending, and function definitions are passed over. That matters as soon as
definitions change places. -/
namespace BlockIR

/-! ### Variables -/

namespace Variables

/-- All values of a table are as `P` says. -/
def All (P : Word → Prop) (table : Variables) : Prop := ∀ (name : String) (w : Word), table[name]? = some w → P w

variable {P : Word → Prop} {table : Variables}

theorem all_empty : All P ∅ := fun name w h => by simp at h

theorem All.insert (h : All P table) (name : String) {value : Word} (hvalue : P value) :
    All P (table.insert name value) := by
  intro other w hw
  rw [Std.ExtTreeMap.getElem?_insert] at hw
  split at hw
  · rw [← Option.some.inj hw]
    exact hvalue
  · exact h other w hw

theorem All.insertAll {pairs : List (String × Word)} (hpairs : ∀ q ∈ pairs, P q.2) (h : All P table) :
    All P (pairs.foldl (fun table q => table.insert q.1 q.2) table) := by
  induction pairs generalizing table with
  | nil => exact h
  | cons first rest ih =>
    obtain ⟨hfirst, hrest⟩ := List.forall_mem_cons.mp hpairs
    exact ih hrest (h.insert first.1 hfirst)

/-- Leaving a scope only takes variables away. -/
theorem All.leave {κ φ : Type} (h : All P table) (arena : ScopeArena κ φ) (id : ScopeId) :
    All P (arena.leave id table).2 := by
  obtain ⟨names, hleft⟩ := arena.leave_table id table
  rw [hleft]
  intro name w hw
  rw [ScopeArena.getElem?_without] at hw
  split at hw
  · cases hw
  · exact h name w hw

end Variables

/-- What a call starts with are words if its arguments are. -/
theorem FunctionDefinition.bindings_all {P : Word → Prop} {f : FunctionDefinition} {args : List Word}
    (hzero : P 0) (hargs : ∀ w ∈ args, P w) : Variables.All P (f.bindings args) := by
  have hparams (q : String × Word) (hq : q ∈ f.params.zip args) : P q.2 := hargs q.2 (List.of_mem_zip hq).2
  have hreturns (q : String × Word) (hq : q ∈ f.returns.map fun name => (name, 0)) : P q.2 := by
    obtain ⟨_, -, rfl⟩ := List.mem_map.mp hq
    exact hzero
  have hall := Variables.All.insertAll hreturns (Variables.all_empty.insertAll hparams)
  rw [List.foldl_map] at hall
  exact hall

/-- What belongs together in two runs. The texts are related where a loop can be broken (`true`) and
where it cannot. -/
structure Pairing where
  machine : Machine → Machine → Prop
  level : Nat → Nat → Prop
  word : Word → Prop
  blockId : BlockId → BlockId → Prop
  block : Bool → Block → Block → Prop
  statement : Bool → Statement → Statement → Prop
  strict : Prop

/-- Executing a function definition does nothing. -/
def Runner.Passes (runner : Runner) : Prop :=
  ∀ (f : FunctionDefinition) (c : Config), runner (.statement (.function f)) c = (.ok [], c)

/-- Nothing is done because the depth is used up. -/
def Runner.Spent (runner : Runner) : Prop := ∀ (t : Task) (c : Config), runner t c = (.error .outOfDepth, c)

namespace Pairing
variable (p : Pairing)

/-! ### Texts -/

/-- Functions that can be called in place of each other. -/
structure Functions (f g : FunctionDefinition) : Prop where
  name : g.name = f.name
  params : g.params = f.params
  returns : g.returns = f.returns
  body : p.block false f.body g.body

/-- Loops whose rounds belong together. -/
structure Loops (l m : ForLoop) : Prop where
  condition : m.condition = l.condition
  body : p.block true l.body m.body
  post : p.block false l.post m.post

/-- Statements of the same kind, with the same expressions and names and with blocks that belong together. -/
inductive Shape (loop : Bool) : Statement → Statement → Prop
  | expression (e : Expr) : Shape loop (.expression e) (.expression e)
  | assignment (targets : List String) (e : Expr) :
    Shape loop (.assignment targets e) (.assignment targets e)
  | declaration (names : List String) (value : Option Expr) :
    Shape loop (.declaration names value) (.declaration names value)
  | conditional (condition : Expr) {body body' : Block} : p.block loop body body' →
    Shape loop (.conditional condition body) (.conditional condition body')
  | switch (scrutinee : Expr) {cases cases' : List Case} :
    List.Forall₂ (fun c d => d.value = c.value ∧ p.block loop c.body d.body) cases cases' →
    Shape loop (.switch scrutinee cases) (.switch scrutinee cases')
  | function (f g : FunctionDefinition) : Shape loop (.function f) (.function g)
  | loop {l m : ForLoop} : p.blockId l.init.id m.init.id →
    List.Forall₂ (p.statement false) l.init.statements m.init.statements → p.Loops l m →
    Shape loop (.loop l) (.loop m)
  | breakLoop : (p.strict → loop = true) → Shape loop .breakLoop .breakLoop
  | continueLoop : (p.strict → loop = true) → Shape loop .continueLoop .continueLoop
  | leave : Shape loop .leave .leave
  | block {b b' : Block} : p.block loop b b' → Shape loop (.block b) (.block b')

/-! ### Configurations -/

/-- Activations in the same scope with the same variables. -/
structure Activations (a b : Activation) : Prop where
  scope : b.scope = a.scope
  bindings : b.bindings = a.bindings
  words : Variables.All p.word a.bindings
  base : p.level a.base b.base
  level : p.level a.level b.level

/-- Configurations that belong together. -/
structure Related (c d : Config) : Prop where
  machine : p.machine c.machine d.machine
  scopes : c.scopes.Pairs p.blockId p.Functions d.scopes
  activation : p.Activations c.activation d.activation

/-- The same word, one that may occur. -/
def Same (v w : Word) : Prop := w = v ∧ p.word v

/-- The same words, all of which may occur. -/
def SameAll (vs ws : List Word) : Prop := ws = vs ∧ ∀ v ∈ vs, p.word v

/-- The signal a statement begins with. -/
def Idle (signal : Signal) : Prop := p.strict → signal = .proceed

/-- The signals a statement may end with. -/
def Settled (loop : Bool) (signal : Signal) : Prop :=
  p.strict → loop = true ∨ signal = .proceed ∨ signal = .leave

variable {p} {α β γ δ : Type}

theorem Idle.settled {signal : Signal} (h : p.Idle signal) (loop : Bool) : p.Settled loop signal :=
  fun hstrict => .inr (.inl (h hstrict))

theorem sameAll_cons {v w : Word} {vs ws : List Word} (h : p.Same v w) (hrest : p.SameAll vs ws) :
    p.SameAll (v :: vs) (w :: ws) :=
  ⟨by rw [h.1, hrest.1], List.forall_mem_cons.mpr ⟨h.2, hrest.2⟩⟩

theorem sameAll_nil : p.SameAll [] [] := ⟨rfl, nofun⟩

/-! ### Parts -/

variable (p) in
/-- The same failure or related values, in configurations that belong together; after a value the
signal is as `after` says. -/
inductive Outcome (after : Signal → Prop) (V : α → β → Prop) :
    Except Stop α × Config → Except Stop β × Config → Prop
  | error (stop : Stop) {c d : Config} : p.Related c d → Outcome after V (.error stop, c) (.error stop, d)
  | ok {a : α} {b : β} {c d : Config} : p.Related c d → V a b → after c.machine.signal →
    Outcome after V (.ok a, c) (.ok b, d)

variable (p) in
/-- Parts that come to the same wherever they are started together. -/
def Parts (before after : Signal → Prop) (V : α → β → Prop) (x : Exec α) (y : Exec β) : Prop :=
  ∀ c d, p.Related c d → before c.machine.signal → p.Outcome after V (x c) (y d)

/-- No condition on values. -/
abbrev Free : Unit → Unit → Prop := fun _ _ => True

namespace Parts
variable {S T U : Signal → Prop} {V : α → β → Prop} {W : γ → δ → Prop} {x : Exec α} {y : Exec β}

theorem mono {S' T' : Signal → Prop} {V' : α → β → Prop} (h : p.Parts S T V x y)
    (hbefore : ∀ s, S' s → S s) (hafter : ∀ s, T s → T' s) (hvalue : ∀ a b, V a b → V' a b) :
    p.Parts S' T' V' x y := by
  intro c d hcd hs
  have hout := h c d hcd (hbefore _ hs)
  generalize x c = r at hout
  generalize y d = r' at hout
  cases hout with
  | error stop hcd => exact .error stop hcd
  | ok hcd hV hT => exact .ok hcd (hvalue _ _ hV) (hafter _ hT)

theorem before {S' : Signal → Prop} (h : p.Parts S T V x y) (hbefore : ∀ s, S' s → S s) :
    p.Parts S' T V x y := h.mono hbefore (fun _ => id) fun _ _ => id

theorem after {T' : Signal → Prop} (h : p.Parts S T V x y) (hafter : ∀ s, T s → T' s) :
    p.Parts S T' V x y := h.mono (fun _ => id) hafter fun _ _ => id

theorem bind {f : α → Exec γ} {g : β → Exec δ} (h : p.Parts S T V x y)
    (hf : ∀ a b, V a b → p.Parts T U W (f a) (g b)) : p.Parts S U W (x >>= f) (y >>= g) := by
  intro c d hcd hs
  have hout := h c d hcd hs
  rw [Effect.bind_apply, Effect.bind_apply]
  generalize x c = r at hout
  generalize y d = r' at hout
  cases hout with
  | error stop hcd => exact .error stop hcd
  | ok hcd hV hT => exact hf _ _ hV _ _ hcd hT

/-- What restores is done on both sides, after values and after failures. -/
theorem ensuring {restore restore' : Exec Unit} (h : p.Parts S T V x y)
    (hrestore : ∀ R : Signal → Prop, p.Parts R R Free restore restore') :
    p.Parts S T V (x.ensuring restore) (y.ensuring restore') := by
  intro c d hcd hs
  have hout := h c d hcd hs
  unfold Effect.ensuring
  generalize x c = r at hout
  generalize y d = r' at hout
  cases hout with
  | @error stop c d hcd =>
    have hlast := hrestore (fun _ => True) c d hcd trivial
    dsimp only
    generalize restore c = q at hlast
    generalize restore' d = q' at hlast
    cases hlast with
    | error _ hcd => exact .error stop hcd
    | ok hcd => exact .error stop hcd
  | @ok a b c d hcd hV hT =>
    have hlast := hrestore T c d hcd hT
    dsimp only
    generalize restore c = q at hlast
    generalize restore' d = q' at hlast
    cases hlast with
    | error stop hcd => exact .error stop hcd
    | ok hcd _ hT => exact .ok hcd hV hT

end Parts

section Basic
variable {S T : Signal → Prop} {V : α → β → Prop}

theorem parts_pure {a : α} {b : β} (h : V a b) : p.Parts S S V (pure a) (pure b) :=
  fun _ _ hcd hs => .ok hcd h hs

theorem parts_fail (error : Error) : p.Parts S T V (Exec.fail error) (Exec.fail error) :=
  fun _ _ hcd _ => .error _ hcd

theorem parts_ofExcept {r : Except Error α} {r' : Except Error β} (h : Results V r r') :
    p.Parts S S V (Exec.ofExcept r) (Exec.ofExcept r') := by
  cases h with
  | error e => exact parts_fail e
  | ok hab => exact parts_pure hab

theorem parts_get : p.Parts S S p.Related Effect.get Effect.get :=
  fun _ _ hcd hs => .ok hcd hcd hs

theorem parts_activation : p.Parts S S p.Activations Exec.activation Exec.activation :=
  fun _ _ hcd hs => .ok hcd hcd.activation hs

theorem parts_modifyActivation {f g : Activation → Activation}
    (h : ∀ a b, p.Activations a b → p.Activations (f a) (g b)) :
    p.Parts S S Free (Exec.modifyActivation f) (Exec.modifyActivation g) :=
  fun _ _ hcd hs => .ok ⟨hcd.machine, hcd.scopes, h _ _ hcd.activation⟩ trivial hs

/-- Running in activations that belong together, and coming back. -/
theorem parts_within {x : Exec α} {y : Exec β} {inner inner' : Activation}
    (hinner : p.Activations inner inner') (h : p.Parts S T V x y) :
    p.Parts S T V (Exec.within inner x) (Exec.within inner' y) := by
  intro c d hcd hs
  have hout := h { c with activation := inner } { d with activation := inner' }
    ⟨hcd.machine, hcd.scopes, hinner⟩ hs
  rw [Exec.within_apply, Exec.within_apply]
  generalize x { c with activation := inner } = r at hout
  generalize y { d with activation := inner' } = r' at hout
  cases hout with
  | error stop h => exact .error stop ⟨h.machine, h.scopes, hcd.activation⟩
  | ok h hV hT => exact .ok ⟨h.machine, h.scopes, hcd.activation⟩ hV hT

variable (p) in
/-- Actions that come to the same on machines that belong together, and leave the signal alone. -/
def Actions (V : α → β → Prop) (x : Action α) (y : Action β) : Prop :=
  ∀ m n, p.machine m n →
    Results V (x m).1 (y n).1 ∧ p.machine (x m).2 (y n).2 ∧ (x m).2.signal = m.signal

theorem parts_onMachine {x : Action α} {y : Action β} (h : p.Actions V x y) :
    p.Parts S S V (Exec.onMachine x) (Exec.onMachine y) := by
  intro c d hcd hs
  obtain ⟨hresult, hmachine, hsignal⟩ := h _ _ hcd.machine
  rw [Exec.onMachine_apply, Exec.onMachine_apply]
  generalize (x c.machine).1 = r at hresult
  generalize (y d.machine).1 = r' at hresult
  cases hresult with
  | error e => exact .error _ ⟨hmachine, hcd.scopes, hcd.activation⟩
  | ok hab => exact .ok ⟨hmachine, hcd.scopes, hcd.activation⟩ hab (hsignal ▸ hs)

end Basic

/-! ### Scopes and variables -/

section Variables
variable {S : Signal → Prop}

theorem parts_declare {x y : Binding FunctionDefinition} (name : String) (h : x.Pairs p.Functions y) :
    p.Parts S S Free (Exec.declare name x) (Exec.declare name y) := by
  refine parts_get.bind fun c d hcd => ?_
  rw [hcd.activation.scope]
  refine (parts_ofExcept (hcd.scopes.declare c.activation.scope name h)).bind fun a b hab => ?_
  exact fun _ _ hcd hs => .ok ⟨hcd.machine, hab, hcd.activation⟩ trivial hs

theorem parts_declareFunctions {fs gs : List FunctionDefinition} (h : List.Forall₂ p.Functions fs gs) :
    p.Parts S S Free (Exec.declareFunctions fs) (Exec.declareFunctions gs) := by
  induction h with
  | nil => exact parts_pure trivial
  | @cons f g _ _ hfirst _ ih =>
    unfold Exec.declareFunctions
    rw [hfirst.name]
    exact (parts_declare f.name (.ofFunction hfirst)).bind fun _ _ _ => ih

theorem parts_leaveScope : p.Parts S S Free Exec.leaveScope Exec.leaveScope := by
  intro c d hcd hs
  have hactivation := hcd.activation
  unfold Exec.leaveScope
  rw [hactivation.scope, hactivation.bindings, hcd.scopes.leave]
  have hwords := hactivation.words.leave c.scopes c.activation.scope
  rcases hleave : c.scopes.leave c.activation.scope c.activation.bindings with ⟨result, table⟩
  rw [hleave] at hwords
  cases result with
  | error e =>
    exact .error _ ⟨hcd.machine, hcd.scopes, hactivation.scope, rfl, hwords, hactivation.base, hactivation.level⟩
  | ok parent => exact .ok ⟨hcd.machine, hcd.scopes, rfl, rfl, hwords, hactivation.base, hactivation.level⟩ trivial hs

theorem parts_valueOf (name : String) : p.Parts S S p.Same (Exec.valueOf name) (Exec.valueOf name) := by
  refine parts_activation.bind fun a b hab => ?_
  rw [hab.bindings]
  rcases hvalue : a.bindings[name]? with _ | value
  · exact parts_fail _
  · exact parts_pure ⟨rfl, hab.words name value hvalue⟩

theorem parts_valuesOf (names : List String) : p.Parts S S p.SameAll (Exec.valuesOf names) (Exec.valuesOf names) := by
  induction names with
  | nil => exact parts_pure sameAll_nil
  | cons name rest ih =>
    refine (parts_valueOf name).bind fun v w hvw => ih.bind fun vs ws hrest => ?_
    exact parts_pure (sameAll_cons hvw hrest)

theorem parts_put (name : String) {value : Word} (hvalue : p.word value) :
    p.Parts S S Free (Exec.modifyActivation fun a => { a with bindings := a.bindings.insert name value })
      (Exec.modifyActivation fun a => { a with bindings := a.bindings.insert name value }) := by
  refine parts_modifyActivation fun a b hab => ⟨hab.scope, ?_, hab.words.insert name hvalue, hab.base, hab.level⟩
  show b.bindings.insert name value = a.bindings.insert name value
  rw [hab.bindings]

theorem parts_assign {pairs : List (String × Word)} (h : ∀ q ∈ pairs, p.word q.2) :
    p.Parts S S Free (Exec.assign pairs) (Exec.assign pairs) := by
  induction pairs with
  | nil => exact parts_pure trivial
  | cons first rest ih =>
    obtain ⟨hfirst, hrest⟩ := List.forall_mem_cons.mp h
    refine parts_activation.bind fun a b hab => ?_
    rw [hab.bindings]
    split
    · exact (parts_put first.1 hfirst).bind fun _ _ _ => ih hrest
    · exact parts_fail _

theorem parts_bindNew {pairs : List (String × Word)} (h : ∀ q ∈ pairs, p.word q.2) :
    p.Parts S S Free (Exec.bindNew pairs) (Exec.bindNew pairs) := by
  induction pairs with
  | nil => exact parts_pure trivial
  | cons first rest ih =>
    obtain ⟨hfirst, hrest⟩ := List.forall_mem_cons.mp h
    refine parts_activation.bind fun a b hab => ?_
    rw [hab.bindings]
    split
    · exact parts_fail _
    · refine (parts_put first.1 hfirst).bind fun _ _ _ => ?_
      exact (parts_declare first.1 .ofVariable).bind fun _ _ _ => ih hrest

theorem parts_restart : p.Parts S S Free Exec.restart Exec.restart :=
  parts_modifyActivation fun _ _ hab => ⟨hab.scope, hab.bindings, hab.words, hab.base, hab.base⟩

end Variables

/-! ### What basic steps owe -/

variable (p) in
/-- What a pairing owes about machines, levels and words. -/
structure Keeps (ctx : Context) : Prop where
  signal : ∀ {m n : Machine}, p.machine m n → n.signal = m.signal
  setSignal : ∀ {m n : Machine} (signal : Signal), p.machine m n →
    p.machine { m with signal := signal } { n with signal := signal }
  count : p.Actions Free (countStep ctx.setting) (countStep ctx.setting)
  builtin : ∀ {name : String} {builtin : Builtin}, ctx.dialect.find? name = some builtin →
    ∀ call : Call, (∀ w ∈ call.args, p.word w) →
      p.Actions p.Same (ctx.dialect.evaluate ctx.setting builtin call)
        (ctx.dialect.evaluate ctx.setting builtin call)
  log : ∀ {m n : Machine}, p.machine m n → p.machine (m.log Machine.nestingLimitLine) (n.log Machine.nestingLimitLine)
  deepen : ∀ {i j : Nat}, p.level i j → p.level (i + 1) (j + 1) ∧ ctx.tooDeep (j + 1) = ctx.tooDeep (i + 1)
  zero : p.word 0
  literal : ∀ {literal : Literal} {w : Word}, literal.value = .ok w → p.word w
  oneToOne : OneToOne p.blockId

namespace Keeps
variable {ctx : Context} {S T : Signal → Prop} {V : α → β → Prop} (keeps : p.Keeps ctx)

include keeps

theorem setSignal_parts (signal : Signal) :
    p.Parts S (fun s => s = signal) Free (Exec.setSignal signal) (Exec.setSignal signal) :=
  fun _ _ hcd _ => .ok ⟨keeps.setSignal signal hcd.machine, hcd.scopes, hcd.activation⟩ trivial rfl

/-- The pending signal is the same on both sides. -/
theorem readSignal {f : Signal → Exec α} {g : Signal → Exec β}
    (h : ∀ s, S s → p.Parts (fun t => t = s) T V (f s) (g s)) :
    p.Parts S T V (Exec.signal >>= f) (Exec.signal >>= g) := by
  intro c d hcd hs
  have hsame : d.machine.signal = c.machine.signal := keeps.signal hcd.machine
  show p.Outcome T V (f c.machine.signal c) (g d.machine.signal d)
  rw [hsame]
  exact h _ hs c d hcd rfl

/-- After a loop no `break` or `continue` is pending. -/
theorem settle : p.Parts S (p.Settled false) Free Exec.settle Exec.settle := by
  refine keeps.readSignal fun s _ => ?_
  split
  · rename_i hleave
    refine (parts_pure trivial).after fun t ht _ => .inr (.inr (ht.trans hleave))
  · exact (keeps.setSignal_parts .proceed).after fun t ht _ => .inr (.inl ht)

theorem enterScope {b b' : BlockId} (h : p.blockId b b') :
    p.Parts S S Free (Exec.enterScope b) (Exec.enterScope b') := by
  refine parts_get.bind fun c d hcd => ?_
  rw [hcd.activation.scope]
  refine (parts_ofExcept (hcd.scopes.enter keeps.oneToOne c.activation.scope h)).bind ?_
  rintro ⟨scope, scopes⟩ ⟨scope', scopes'⟩ ⟨rfl, hscopes⟩
  refine fun _ _ hcd hs => .ok ⟨hcd.machine, hscopes, ?_⟩ trivial hs
  exact ⟨rfl, hcd.activation.bindings, hcd.activation.words, hcd.activation.base, hcd.activation.level⟩

theorem deeper : p.Parts S S Free (Exec.deepen ctx) (Exec.deepen ctx) := by
  intro c d hcd hs
  obtain ⟨hlevel, hdeep⟩ := keeps.deepen hcd.activation.level
  have hactivation : p.Activations { c.activation with level := c.activation.level + 1 }
      { d.activation with level := d.activation.level + 1 } :=
    ⟨hcd.activation.scope, hcd.activation.bindings, hcd.activation.words, hcd.activation.base, hlevel⟩
  rw [Exec.deepen_apply, Exec.deepen_apply]
  dsimp only
  rw [hdeep]
  split
  · exact .error _ ⟨keeps.log hcd.machine, hcd.scopes, hactivation⟩
  · exact .ok ⟨hcd.machine, hcd.scopes, hactivation⟩ trivial hs

end Keeps

/-! ### Tasks -/

variable (p) in
/-- Tasks that belong together, and the signals they may end with. -/
inductive Tasks : Task → Task → (Signal → Prop) → Prop
  | expression (e : Expr) : Tasks (.expression e) (.expression e) p.Idle
  | invoke (name : String) {args : List Word} : (∀ w ∈ args, p.word w) →
    Tasks (.invoke name args) (.invoke name args) p.Idle
  | statement {loop : Bool} {s s' : Statement} : p.statement loop s s' →
    Tasks (.statement s) (.statement s') (p.Settled loop)
  | block {loop : Bool} {b b' : Block} : p.block loop b b' → Tasks (.block b) (.block b') (p.Settled loop)
  | rounds {l m : ForLoop} : p.Loops l m → Tasks (.rounds l) (.rounds m) (p.Settled false)

variable (p) in
/-- Runners that come to the same on tasks that belong together. In a strict pairing function definitions
have no partner; executing one does nothing, unless no depth is left for anything. -/
structure Runs (runner better : Runner) : Prop where
  together : ∀ t t' after, p.Tasks t t' after → p.Parts p.Idle after p.SameAll (runner t) (better t')
  alone : p.strict → runner.Passes ∧ better.Passes ∨ runner.Spent ∧ better.Spent

variable (p) in
/-- What a pairing owes about blocks besides. -/
structure KeepsBlocks (ctx : Context) : Prop extends p.Keeps ctx where
  entered : ∀ {loop : Bool} {b b' : Block}, p.block loop b b' → p.blockId b.id b'.id
  declared : ∀ {loop : Bool} {b b' : Block}, p.block loop b b' → ∀ S : Signal → Prop,
    p.Parts S S Free (Exec.declareFunctions b.functions) (Exec.declareFunctions b'.functions)
  sequence : ∀ {loop : Bool} {b b' : Block} {runner better : Runner}, p.block loop b b' →
    p.Runs runner better → p.Parts p.Idle (p.Settled loop) Free (ctx.sequence runner b.statements)
      (ctx.sequence better b'.statements)
  empty : ∀ {loop : Bool} {b b' : Block}, p.block loop b b' → b'.statements.isEmpty = b.statements.isEmpty

variable (p) in
/-- What a pairing owes, its texts included. -/
structure Lawful (ctx : Context) : Prop extends p.KeepsBlocks ctx where
  shape : ∀ {loop : Bool} {s s' : Statement}, p.statement loop s s' → p.Shape loop s s'

variable (p) in
/-- Runners with which statements that belong together come to the same. -/
def Executes (runner better : Runner) : Prop :=
  ∀ {loop : Bool} {s s' : Statement}, p.statement loop s s' →
    p.Parts p.Idle (p.Settled loop) Free (runner.statement s) (better.statement s')

section Evaluating
variable {runner better : Runner} {ctx : Context} {S T : Signal → Prop}

theorem Runs.run (h : p.Runs runner better) {t t' : Task} {after : Signal → Prop} (ht : p.Tasks t t' after) :
    p.Parts p.Idle after Free (runner.run t) (better.run t') :=
  (h.together t t' after ht).bind fun _ _ _ => parts_pure trivial

theorem single {x y : Exec (List Word)} (h : p.Parts S T p.SameAll x y) :
    p.Parts S T p.Same (Exec.single x) (Exec.single y) := by
  refine h.bind ?_
  rintro _ vs ⟨rfl, hvs⟩
  split
  · exact parts_pure ⟨rfl, hvs _ (List.mem_singleton_self _)⟩
  · exact parts_fail _

theorem Runs.evaluateAll (h : p.Runs runner better) (e : Expr) :
    p.Parts p.Idle p.Idle p.SameAll (runner.evaluateAll e) (better.evaluateAll e) :=
  parts_restart.bind fun _ _ _ => h.together _ _ _ (.expression e)

theorem Runs.evaluate (h : p.Runs runner better) (e : Expr) :
    p.Parts p.Idle p.Idle p.Same (runner.evaluate e) (better.evaluate e) := single (h.evaluateAll e)

theorem Runs.select (hruns : p.Runs runner better) {loop : Bool} (value : Word) {cases cases' : List Case}
    (h : List.Forall₂ (fun c d => d.value = c.value ∧ p.block loop c.body d.body) cases cases') :
    p.Parts p.Idle p.Idle (Option.Rel (p.block loop)) (runner.select value cases)
      (better.select value cases') := by
  induction h with
  | nil => exact parts_pure .none
  | @cons c d _ _ hfirst _ ih =>
    obtain ⟨written, body⟩ := c
    obtain ⟨written', body'⟩ := d
    obtain ⟨rfl, hbody⟩ := hfirst
    rcases written' with _ | literal
    · exact parts_pure (.some hbody)
    · refine (hruns.evaluate (.literal literal)).bind ?_
      rintro _ candidate ⟨rfl, -⟩
      split
      · exact parts_pure (.some hbody)
      · exact ih

variable (keeps : p.Keeps ctx) (hruns : p.Runs runner better)
include keeps hruns

theorem Keeps.arguments (wants : Nat → Bool) (args : List Expr) (position : Nat) :
    p.Parts p.Idle p.Idle p.SameAll (runner.arguments wants position args)
      (better.arguments wants position args) := by
  induction args generalizing position with
  | nil => exact parts_pure sameAll_nil
  | cons e rest ih =>
    have hfirst : p.Parts p.Idle p.Idle p.Same (runner.argument (wants position) e)
        (better.argument (wants position) e) := by
      unfold Runner.argument
      split
      · exact parts_pure ⟨rfl, keeps.zero⟩
      · exact single (hruns.together _ _ _ (.expression e))
    refine (ih (position + 1)).bind fun vs ws hrest => hfirst.bind fun v w hvw => ?_
    exact parts_pure (sameAll_cons hvw hrest)

/-- Evaluating an expression. -/
theorem Keeps.expression (e : Expr) :
    p.Parts p.Idle p.Idle p.SameAll (ctx.expression runner e) (ctx.expression better e) := by
  cases e with
  | literal literal =>
    refine keeps.deeper.bind fun _ _ _ => ?_
    rcases hvalue : literal.value with error | value
    · exact parts_fail error
    · exact parts_pure (sameAll_cons ⟨rfl, keeps.literal hvalue⟩ sameAll_nil)
  | identifier name =>
    refine (parts_valueOf name).bind fun v w hvw => keeps.deeper.bind fun _ _ _ => ?_
    exact parts_pure (sameAll_cons hvw sameAll_nil)
  | call name args =>
    refine keeps.deeper.bind fun _ _ _ => (keeps.arguments hruns _ args 0).bind ?_
    rintro _ values ⟨rfl, hvalues⟩
    unfold Context.apply
    rcases hfind : ctx.dialect.find? name with _ | builtin
    · exact hruns.together _ _ _ (.invoke name hvalues)
    · refine (parts_onMachine (keeps.builtin hfind ⟨values, _⟩ hvalues)).bind fun v w hvw => ?_
      exact parts_pure (sameAll_cons hvw sameAll_nil)

/-- Calling a function. -/
theorem Keeps.invoke (name : String) {args : List Word} (hargs : ∀ w ∈ args, p.word w) :
    p.Parts p.Idle p.Idle p.SameAll (runner.invoke name args) (better.invoke name args) := by
  refine parts_get.bind fun c d hcd => ?_
  rw [hcd.activation.scope]
  refine (parts_ofExcept (hcd.scopes.lookup c.activation.scope name)).bind fun found found' hfound => ?_
  cases hfound with
  | none => exact parts_fail _
  | @some x y hxy =>
    obtain ⟨scope, f⟩ := x
    obtain ⟨scope', g⟩ := y
    obtain ⟨rfl, hfg⟩ := hxy
    dsimp only
    rw [hfg.params, hfg.name]
    split
    · exact parts_fail _
    · refine (keeps.setSignal_parts .proceed).bind fun _ _ _ => ?_
      have hbindings : g.bindings args = f.bindings args := by
        unfold FunctionDefinition.bindings
        rw [hfg.params, hfg.returns]
      refine parts_within ⟨rfl, hbindings, f.bindings_all keeps.zero hargs, hcd.activation.level,
        hcd.activation.level⟩ ?_
      refine ((hruns.run (.block hfg.body)).before fun s hs _ => hs).bind fun _ _ _ => ?_
      refine (keeps.setSignal_parts .proceed).bind fun _ _ _ => ?_
      rw [hfg.returns]
      exact (parts_valuesOf f.returns).after fun s hs _ => hs

end Evaluating

section Executing
variable {runner better : Runner} {ctx : Context} {S T : Signal → Prop} {V : α → β → Prop}

/-- Statements in front of a loop, with what comes after them. -/
theorem Keeps.initialise (keeps : p.Keeps ctx) (hruns : p.Runs runner better) {ss ss' : List Statement}
    (h : List.Forall₂ (p.statement false) ss ss') {k : Bool → Exec α} {k' : Bool → Exec β}
    (hleft : p.Parts (p.Settled false) T V (k true) (k' true))
    (hrest : p.Parts p.Idle T V (k false) (k' false)) :
    p.Parts p.Idle T V (runner.initialise ss >>= k) (better.initialise ss' >>= k') := by
  induction h with
  | nil => exact hrest
  | @cons s s' _ _ hfirst _ ih =>
    unfold Runner.initialise
    simp only [bind_assoc]
    refine (hruns.run (.statement hfirst)).bind fun _ _ _ => keeps.readSignal fun signal hsettled => ?_
    split
    · refine hleft.before ?_
      rintro _ rfl
      exact hsettled
    · rename_i hleave
      refine ih.before ?_
      rintro _ rfl hstrict
      exact (hsettled hstrict).elim nofun fun h => h.resolve_right hleave

/-- One statement, counted, and those after it. -/
theorem Keeps.sequence_cons (keeps : p.Keeps ctx) (hruns : p.Runs runner better) {loop : Bool}
    {s s' : Statement} {ss ss' : List Statement} (hfirst : p.statement loop s s')
    (hrest : p.Parts p.Idle (p.Settled loop) Free (ctx.sequence runner ss) (ctx.sequence better ss')) :
    p.Parts p.Idle (p.Settled loop) Free (ctx.sequence runner (s :: ss)) (ctx.sequence better (s' :: ss')) := by
  refine (parts_onMachine keeps.count).bind fun _ _ _ => ?_
  refine (hruns.run (.statement hfirst)).bind fun _ _ _ => keeps.readSignal fun signal hsettled => ?_
  split
  · rename_i hproceed
    refine hrest.before ?_
    rintro _ rfl _
    exact hproceed
  · refine (parts_pure trivial).after ?_
    rintro _ rfl
    exact hsettled

/-- Statements in turn, each counted. -/
theorem Keeps.statements (keeps : p.Keeps ctx) (hruns : p.Runs runner better) {loop : Bool}
    {ss ss' : List Statement} (h : List.Forall₂ (p.statement loop) ss ss') :
    p.Parts p.Idle (p.Settled loop) Free (ctx.sequence runner ss) (ctx.sequence better ss') := by
  induction h with
  | nil => exact (parts_pure trivial).after fun _ hs => hs.settled loop
  | cons hfirst _ ih => exact keeps.sequence_cons hruns hfirst ih

/-- Statements of the same shape. -/
theorem Keeps.statement (keeps : p.Keeps ctx) (hruns : p.Runs runner better) {loop : Bool} {s s' : Statement}
    (h : p.Shape loop s s') :
    p.Parts p.Idle (p.Settled loop) Free (runner.statement s) (better.statement s') := by
  have settled {x y : Exec Unit} (h : p.Parts p.Idle p.Idle Free x y) :
      p.Parts p.Idle (p.Settled loop) Free x y := h.after fun _ hs => hs.settled loop
  cases h with
  | expression e => exact settled ((hruns.evaluateAll e).bind fun _ _ _ => parts_pure trivial)
  | assignment targets e =>
    refine settled ((hruns.evaluateAll e).bind ?_)
    rintro _ values ⟨rfl, hvalues⟩
    split
    · exact parts_fail _
    · exact parts_assign fun q hq => hvalues q.2 (List.of_mem_zip hq).2
  | declaration names value =>
    have hdeclared : p.Parts p.Idle p.Idle p.SameAll (runner.declared names value)
        (better.declared names value) := by
      cases value with
      | none =>
        refine parts_pure ⟨rfl, fun v hv => ?_⟩
        obtain ⟨_, -, rfl⟩ := List.mem_map.mp hv
        exact keeps.zero
      | some e => exact hruns.evaluateAll e
    refine settled (hdeclared.bind ?_)
    rintro _ values ⟨rfl, hvalues⟩
    split
    · exact parts_fail _
    · exact parts_bindNew fun q hq => hvalues q.2 (List.of_mem_zip hq).2
  | conditional condition hbody =>
    refine (hruns.evaluate condition).bind ?_
    rintro _ value ⟨rfl, -⟩
    split
    · exact settled (parts_pure trivial)
    · exact hruns.run (.block hbody)
  | switch scrutinee hcases =>
    refine (hruns.evaluate scrutinee).bind ?_
    rintro _ value ⟨rfl, -⟩
    refine (hruns.select value hcases).bind fun chosen chosen' hchosen => ?_
    cases hchosen with
    | none => exact settled (parts_pure trivial)
    | some hbody => exact hruns.run (.block hbody)
  | function f g => exact settled (parts_pure trivial)
  | loop hid hinit hloops =>
    refine (keeps.enterScope hid).bind fun _ _ _ => Parts.ensuring ?_ fun _ => parts_leaveScope
    have weaken {s : Signal} (hs : p.Settled false s) : p.Settled loop s :=
      fun hstrict => (hs hstrict).elim nofun .inr
    refine keeps.initialise hruns hinit ?_ ?_
    · exact (parts_pure trivial).after fun _ => weaken
    · exact (hruns.run (.rounds hloops)).after fun _ => weaken
  | breakLoop hloop => exact (keeps.setSignal_parts _).after fun _ _ hstrict => .inl (hloop hstrict)
  | continueLoop hloop => exact (keeps.setSignal_parts _).after fun _ _ hstrict => .inl (hloop hstrict)
  | leave => exact (keeps.setSignal_parts _).after fun _ hs _ => .inr (.inr hs)
  | block hblock => exact hruns.run (.block hblock)

theorem Lawful.executes (lawful : p.Lawful ctx) (hruns : p.Runs runner better) : p.Executes runner better :=
  fun h => lawful.toKeeps.statement hruns (lawful.shape h)

variable (keeps : p.KeepsBlocks ctx) (hruns : p.Runs runner better)
include keeps hruns

/-- A block, with what comes at its end. -/
theorem KeepsBlocks.block {loop : Bool} {b b' : Block} (h : p.block loop b b')
    {exit : Exec α} {exit' : Exec β} (hexit : p.Parts (p.Settled loop) T V exit exit') :
    p.Parts p.Idle T V (ctx.block runner b exit) (ctx.block better b' exit') := by
  refine (keeps.enterScope (keeps.entered h)).bind fun _ _ _ => Parts.ensuring ?_ fun _ => parts_leaveScope
  refine (keeps.declared h _).bind fun _ _ _ => ?_
  exact (keeps.sequence h hruns).bind fun _ _ _ => hexit

theorem KeepsBlocks.rounds {l m : ForLoop} (h : p.Loops l m) :
    p.Parts p.Idle (p.Settled false) Free (ctx.rounds runner l) (ctx.rounds better m) := by
  have hpost : p.Parts (p.Settled false) (p.Settled false) Free (runner.afterPost l) (better.afterPost m) := by
    refine keeps.readSignal fun signal hsettled => ?_
    split
    · exact keeps.settle
    · rename_i hleave
      refine (hruns.run (.rounds h)).before ?_
      rintro _ rfl hstrict
      exact (hsettled hstrict).elim nofun fun h => h.resolve_right hleave
  have hbody : p.Parts (p.Settled true) (p.Settled false) Free (runner.afterBody l) (better.afterBody m) := by
    refine keeps.readSignal fun signal _ => ?_
    split
    · exact keeps.settle
    · refine (keeps.setSignal_parts .proceed).bind fun _ _ _ => ?_
      exact ((hruns.run (.block h.post)).before fun _ hs _ => hs).bind fun _ _ _ => hpost
  have hspins : m.spins = l.spins := by
    unfold ForLoop.spins
    rw [keeps.empty h.body, keeps.empty h.post]
  have hcount : p.Parts p.Idle p.Idle Free (Effect.when l.spins (Exec.onMachine (countStep ctx.setting)))
      (Effect.when m.spins (Exec.onMachine (countStep ctx.setting))) := by
    unfold Effect.when
    rw [hspins]
    split
    · exact parts_onMachine keeps.count
    · exact parts_pure trivial
  unfold Context.rounds
  rw [h.condition]
  refine (hruns.evaluate l.condition).bind ?_
  rintro _ value ⟨rfl, -⟩
  split
  · exact keeps.settle
  · refine hcount.bind fun _ _ _ => (keeps.setSignal_parts .proceed).bind fun _ _ _ => ?_
    exact ((hruns.run (.block h.body)).before fun _ hs _ => hs).bind fun _ _ _ => hbody

/-- Runners that come to the same on tasks that belong together do so one step on, if they do on statements. -/
theorem KeepsBlocks.advance (hexecutes : p.Executes runner better) :
    p.Runs (ctx.advance runner) (ctx.advance better) := by
  have yields {x y : Exec Unit} {after : Signal → Prop} (h : p.Parts p.Idle after Free x y) :
      p.Parts p.Idle after p.SameAll (Context.yielding x) (Context.yielding y) :=
    h.bind fun _ _ _ => parts_pure sameAll_nil
  refine ⟨fun t t' after ht => ?_, fun _ => .inl ⟨fun _ _ => rfl, fun _ _ => rfl⟩⟩
  cases ht with
  | expression e => exact keeps.expression hruns e
  | invoke name hargs => exact keeps.invoke hruns name hargs
  | statement h => exact yields (hexecutes h)
  | block h => exact yields (keeps.block hruns h (parts_pure trivial))
  | rounds h => exact yields (keeps.rounds hruns h)

omit keeps in
theorem Lawful.advance (lawful : p.Lawful ctx) : p.Runs (ctx.advance runner) (ctx.advance better) :=
  lawful.toKeepsBlocks.advance hruns (lawful.executes hruns)

end Executing

/-- At every depth the two runs come to the same on tasks that belong together, if they do on statements. -/
theorem KeepsBlocks.perform {ctx : Context} (keeps : p.KeepsBlocks ctx)
    (hexecutes : ∀ depth, p.Runs (ctx.perform depth) (ctx.perform depth) →
      p.Executes (ctx.perform depth) (ctx.perform depth)) (depth : Nat) :
    p.Runs (ctx.perform depth) (ctx.perform depth) := by
  induction depth with
  | zero => exact ⟨fun t t' after _ c d hcd _ => .error _ hcd, fun _ => .inr ⟨fun _ _ => rfl, fun _ _ => rfl⟩⟩
  | succ depth ih => exact keeps.advance ih (hexecutes depth ih)

theorem Lawful.perform {ctx : Context} (lawful : p.Lawful ctx) (depth : Nat) :
    p.Runs (ctx.perform depth) (ctx.perform depth) :=
  lawful.toKeepsBlocks.perform (fun _ hruns => lawful.executes hruns) depth

/-! ### Whole runs -/

/-- Runs begin together if their machines and levels do. -/
theorem related_start (hmachine : p.machine {} {}) (hlevel : p.level 0 0) : p.Related {} {} where
  machine := hmachine
  scopes := .start
  activation := ⟨rfl, rfl, Variables.all_empty, hlevel, hlevel⟩

variable (p) in
/-- The same variables, with words that may occur. -/
def SameTable (a b : Variables) : Prop := b = a ∧ Variables.All p.word a

section Runs
variable {ctx : Context} (keeps : p.KeepsBlocks ctx) {runner better : Runner} (hruns : p.Runs runner better)
  {loop : Bool} {b b' : Block} (h : p.block loop b b')
include keeps hruns h

/-- Executing programs. -/
theorem KeepsBlocks.outermost :
    p.Parts p.Idle (p.Settled loop) p.SameTable (Run.outermost ctx b runner) (Run.outermost ctx b' better) := by
  refine keeps.block hruns h fun c d hcd hs => ?_
  exact .ok hcd ⟨hcd.activation.bindings, hcd.activation.words⟩ hs

/-- Calling functions of programs. -/
theorem KeepsBlocks.entry (name : String) {args : List Word} (hargs : ∀ w ∈ args, p.word w) :
    p.Parts p.Idle p.Idle p.SameAll (Run.entry b name args runner) (Run.entry b' name args better) := by
  refine (keeps.enterScope (keeps.entered h)).bind fun _ _ _ => (keeps.declared h _).bind fun _ _ _ => ?_
  exact hruns.together _ _ _ (.invoke name hargs)

end Runs

theorem Outcome.related {T : Signal → Prop} {V : α → β → Prop} {r : Except Stop α × Config}
    {r' : Except Stop β × Config} (h : p.Outcome T V r r') : p.Related r.2 r'.2 := by
  cases h <;> assumption

theorem Outcome.results {T : Signal → Prop} {V : α → β → Prop} {r : Except Stop α × Config}
    {r' : Except Stop β × Config} (h : p.Outcome T V r r') : Results V r.1 r'.1 := by
  cases h with
  | error stop _ => exact .error stop
  | ok _ hV _ => exact .ok hV

/-! ### Moments -/

section Moments
variable {x : Runner → Exec α} {runner : Runner} {S T : Signal → Prop} {V : α → α → Prop}
  {c d e : Config} {u : Task}

theorem Outcome.error_of_right {r : Except Stop α × Config} {r' : Except Stop β × Config} {W : α → β → Prop}
    (h : p.Outcome T W r r') {stop : Stop} (herror : r'.1 = .error stop) : r.1 = .error stop := by
  cases h with
  | error _ _ => exact congrArg _ (Except.error.inj herror)
  | ok _ _ _ => cases herror

/-- What a part asks for is asked for where the two runs are together. -/
theorem Runs.asks {x : Exec α} {y : Runner → Exec β} {V : α → β → Prop} (hloose : ¬p.strict)
    (hruns : p.Runs runner runner) (hparts : ∀ other, p.Runs runner other → p.Parts S T V x (y other))
    (hcd : p.Related c d) (hs : S c.machine.signal) (hasks : Asks y runner d u e) :
    ∃ c' t after, p.Tasks t u after ∧ p.Related c' e ∧ p.Idle c'.machine.signal := by
  apply Classical.byContradiction
  intro hnot
  have hfails (stop : Stop) : (x c).1 = .error stop := by
    -- A failure that no pair of tasks meets makes no difference.
    have hother : p.Runs runner (runner.failingAt u e stop) := by
      refine ⟨fun t t' after ht c' d' hcd' hidle => ?_, fun hstrict => absurd hstrict hloose⟩
      have hsame : runner.failingAt u e stop t' d' = runner t' d' := by
        refine if_neg ?_
        rintro ⟨rfl, rfl⟩
        exact hnot ⟨c', t, after, ht, hcd', hidle⟩
      rw [hsame]
      exact hruns.together t t' after ht c' d' hcd' hidle
    exact (hparts _ hother c d hcd hs).error_of_right (hasks.failingAt stop)
  cases (hfails .outOfDepth).symm.trans (hfails (.failed .scopeUnderflow))

/-- At every moment the two runs are together. -/
theorem Lawful.moment {ctx : Context} (lawful : p.Lawful ctx) (hloose : ¬p.strict)
    (hparts : ∀ runner other, p.Runs runner other → p.Parts p.Idle T V (x runner) (x other))
    (hstart : p.Related {} {}) {depth left : Nat} (h : Moment ctx x depth left u e) :
    ∃ c t after, p.Tasks t u after ∧ p.Related c e ∧ p.Idle c.machine.signal := by
  induction h with
  | first hasks => exact (lawful.perform depth).asks hloose (fun other => hparts _ other) hstart (fun _ => rfl) hasks
  | next _ hasks ih =>
    obtain ⟨c, t, after, ht, hcd, hidle⟩ := ih
    exact (lawful.perform _).asks hloose
      (fun other hother => (lawful.advance hother).together t _ after ht) hcd hidle hasks

end Moments
/-! ### Runs of one text -/

/-- Pairs runs of the same text. -/
def same (machine : Machine → Machine → Prop) (level : Nat → Nat → Prop) (word : Word → Prop) : Pairing where
  machine := machine
  level := level
  word := word
  blockId a b := b = a
  block _ b b' := b' = b
  statement _ s s' := s' = s
  strict := False

section Same
variable {machine : Machine → Machine → Prop} {level : Nat → Nat → Prop} {word : Word → Prop} {ctx : Context}

theorem same_functions (f : FunctionDefinition) : (same machine level word).Functions f f := ⟨rfl, rfl, rfl, rfl⟩

theorem same_shape (loop : Bool) (s : Statement) : (same machine level word).Shape loop s s := by
  cases s with
  | expression e => exact .expression e
  | assignment targets e => exact .assignment targets e
  | declaration names value => exact .declaration names value
  | conditional condition body => exact .conditional condition rfl
  | switch scrutinee cases => exact .switch scrutinee (List.forall₂_same.mpr fun _ _ => ⟨rfl, rfl⟩)
  | function f => exact .function f f
  | loop l => exact .loop rfl (List.forall₂_same.mpr fun _ _ => rfl) ⟨rfl, rfl, rfl⟩
  | breakLoop => exact .breakLoop False.elim
  | continueLoop => exact .continueLoop False.elim
  | leave => exact .leave
  | block b => exact .block rfl

theorem oneToOne_same : OneToOne (same machine level word).blockId := by
  rintro a a' _ _ rfl rfl
  exact Iff.rfl

/-- With the same texts a pairing owes nothing about them. -/
theorem Keeps.lawful (keeps : (same machine level word).Keeps ctx) : (same machine level word).Lawful ctx where
  toKeeps := keeps
  shape {loop s _} h := by
    cases h
    exact same_shape loop s
  entered h := congrArg Block.id h
  declared h S := by
    cases h
    exact parts_declareFunctions (List.forall₂_same.mpr fun f _ => same_functions f)
  sequence h hruns := by
    cases h
    exact keeps.statements hruns (List.forall₂_same.mpr fun _ _ => rfl)
  empty h := by
    cases h
    rfl

end Same
end Pairing
end BlockIR
