import BlockIR.Proofs.Calling
import BlockIR.Proofs.Level
import BlockIR.Proofs.Scoping
import BlockIR.Proofs.Standing

/-! Watching a variable while a block is run.

The scopes that a block goes through itself are those on a path that begins with
it and that no call is on (`Watch.Own`); bodies of functions are told from other
blocks by a mark (`Task.Marked`). While a variable is bound in them, nothing that
is run there declares it again, and what a call declares goes into scopes of
other paths. So if none of them remembers the variable at first, none does
later, and it stays bound (`Watch.Holds`, `perform_upholds`).

All of this is said of parts of a run that come back to the scope they started
in (`Exec.Upholds`), whether they end in a value or in a failure. -/
namespace BlockIR

/-! ### Bodies of functions -/

mutual
/-- Among the blocks inside a block, those that are bodies of functions are the marked ones. Of the block itself
this says nothing. -/
def Block.Marked (body : BlockId → Prop) : Block → Prop
  | ⟨_, statements⟩ => Statement.ListMarked body statements

/-- Among the blocks in statements, those that are bodies of functions are the marked ones. -/
def Statement.ListMarked (body : BlockId → Prop) : List Statement → Prop
  | [] => True
  | s :: rest => Statement.Marked body s ∧ Statement.ListMarked body rest

/-- Among the blocks in cases, those that are bodies of functions are the marked ones. -/
def Case.ListMarked (body : BlockId → Prop) : List Case → Prop
  | [] => True
  | ⟨_, b⟩ :: rest => (¬body b.id ∧ Block.Marked body b) ∧ Case.ListMarked body rest

/-- Among the blocks in a statement, those that are bodies of functions are the marked ones. -/
def Statement.Marked (body : BlockId → Prop) : Statement → Prop
  | .conditional _ b => ¬body b.id ∧ Block.Marked body b
  | .switch _ cases => Case.ListMarked body cases
  | .function ⟨_, _, _, b⟩ => body b.id ∧ Block.Marked body b
  | .loop ⟨init, _, post, b⟩ =>
    (¬body init.id ∧ Block.Marked body init) ∧ (¬body post.id ∧ Block.Marked body post) ∧
      ¬body b.id ∧ Block.Marked body b
  | .block b => ¬body b.id ∧ Block.Marked body b
  | .expression _ | .assignment _ _ | .declaration _ _ | .breakLoop | .continueLoop | .leave => True
end

/-- Among the blocks in the text of a task, those that are bodies of functions are the marked ones; a block that
is a task is none of them. -/
def Task.Marked (body : BlockId → Prop) : Task → Prop
  | .expression _ | .invoke _ _ => True
  | .statement s => s.Marked body
  | .block b => ¬body b.id ∧ b.Marked body
  | .rounds l => (¬body l.post.id ∧ l.post.Marked body) ∧ ¬body l.body.id ∧ l.body.Marked body

section Marked
variable {body : BlockId → Prop}

theorem Statement.ListMarked.mem {statements : List Statement} (h : Statement.ListMarked body statements)
    {s : Statement} (hs : s ∈ statements) : s.Marked body := by
  induction statements with
  | nil => cases hs
  | cons first rest ih =>
    rcases List.mem_cons.mp hs with rfl | hs
    · exact h.1
    · exact ih h.2 hs

theorem Case.ListMarked.mem {cases : List Case} (h : Case.ListMarked body cases) {c : Case} (hc : c ∈ cases) :
    ¬body c.body.id ∧ c.body.Marked body := by
  induction cases with
  | nil => cases hc
  | cons first rest ih =>
    obtain ⟨_, b⟩ := first
    rcases List.mem_cons.mp hc with rfl | hc
    · exact h.1
    · exact ih h.2 hc

theorem Block.Marked.statement {b : Block} (h : b.Marked body) {s : Statement} (hs : s ∈ b.statements) :
    s.Marked body := by
  obtain ⟨_, statements⟩ := b
  exact Statement.ListMarked.mem h hs

theorem Block.Marked.function {b : Block} (h : b.Marked body) {f : FunctionDefinition} (hf : f ∈ b.functions) :
    body f.body.id ∧ f.body.Marked body := by
  have hstatement := h.statement (Statement.mem_functions.mp hf)
  obtain ⟨name, params, returns, inner⟩ := f
  exact hstatement

theorem Task.Marked.part {t u : Task} (h : t.Marked body) (hu : t.Part u) : u.Marked body := by
  cases hu with
  | branch | nested => exact h
  | chosen hc => exact Case.ListMarked.mem h hc
  | @front l s hs =>
    obtain ⟨init, condition, post, b⟩ := l
    exact Block.Marked.statement h.1.2 hs
  | @begin l =>
    obtain ⟨init, condition, post, b⟩ := l
    exact h.2
  | item hs => exact Block.Marked.statement h.2 hs
  | round => exact h.2
  | post => exact h.1
  | again => exact h
  | _ => trivial

end Marked

/-! ### Scopes that stay where they are -/

namespace ScopeArena
variable {κ φ : Type} {arena later last : ScopeArena κ φ} {id : ScopeId} {scope : Scope κ φ}

/-- A later state of an arena, with every scope where it was. It need not remember all of its variables:
a function of the same name may have taken the place of one. -/
structure Continues (arena later : ScopeArena κ φ) : Prop where
  sound : later.Sound
  parent : ∀ {id : ScopeId} {scope : Scope κ φ}, arena.scopes[id]? = some scope →
    ∃ new, later.scopes[id]? = some new ∧ new.parent = scope.parent
  path : ∀ {id : ScopeId} {scope : Scope κ φ}, arena.scopes[id]? = some scope →
    ∀ path, later.At id path ↔ arena.At id path

theorem Continues.refl (sound : arena.Sound) : arena.Continues arena where
  sound := sound
  parent h := ⟨_, h, rfl⟩
  path _ _ := .rfl

theorem Continues.trans (h : arena.Continues later) (h' : later.Continues last) : arena.Continues last where
  sound := h'.sound
  parent hscope := by
    obtain ⟨new, hnew, hparent⟩ := h.parent hscope
    obtain ⟨newer, hnewer, hparent'⟩ := h'.parent hnew
    exact ⟨newer, hnewer, hparent'.trans hparent⟩
  path hscope path := by
    obtain ⟨new, hnew, -⟩ := h.parent hscope
    exact (h'.path hnew path).trans (h.path hscope path)

theorem continues_link (sound : arena.Sound) (h : arena.scopes[id]? = some scope) (block : κ) :
    arena.Continues (arena.link id block) where
  sound := sound_link sound h block
  parent hscope := by
    obtain ⟨new, hnew, hparent, -⟩ := eq_some_link id block hscope
    exact ⟨new, hnew, hparent⟩
  path hscope _ := ⟨fun hat => hat.of_link (Nat.ne_of_lt (lt_size hscope)), fun hat => hat.grows grows_link⟩

theorem continues_rename (sound : arena.Sound) (id : ScopeId)
    (f : Std.ExtTreeMap String (Binding φ) → Std.ExtTreeMap String (Binding φ)) :
    arena.Continues (arena.rename id f) where
  sound := sound_rename sound
  parent hscope := by
    obtain ⟨new, hnew, hparent, -⟩ := eq_some_rename id f hscope
    exact ⟨new, hnew, hparent⟩
  path _ _ := ⟨At.of_rename, at_rename⟩

/-- Entering a block leads to a child, and nothing is remembered that was not before. -/
theorem enter_continues [BEq κ] [LawfulBEq κ] (sound : arena.Sound) (h : arena.scopes[id]? = some scope)
    (block : κ) :
    ∃ child later, arena.enter id block = .ok (child, later) ∧ arena.Continues later ∧
      (∃ new, later.scopes[id]? = some new ∧ (block, child) ∈ new.children) ∧
      ∀ other name, later.Remembers other name → arena.Remembers other name := by
  rcases enter_cases h block with ⟨child, hchild, henter⟩ | ⟨-, henter⟩
  · exact ⟨child, arena, henter, .refl sound, ⟨scope, h, hchild⟩, fun _ _ hremembers => hremembers⟩
  · obtain ⟨new, hnew, -, -, hchildren⟩ := eq_some_link id block h
    refine ⟨_, _, henter, continues_link sound h block, ⟨new, hnew, ?_⟩, ?_⟩
    · rw [hchildren, if_pos rfl]
      exact List.mem_cons_self ..
    · rintro other name ⟨entered, hentered, hname⟩
      rcases link_eq_some hentered with ⟨-, rfl⟩ | ⟨old, hold, -, hnames, -⟩
      · simp [Scope.mem_variableNames] at hname
      · rw [Scope.mem_variableNames, hnames, ← Scope.mem_variableNames] at hname
        exact ⟨old, hold, hname⟩

/-- After a declaration nothing is remembered but that variable, in that scope, and what was before. -/
theorem remembers_declare {name : String} {binding : Binding φ} {other : ScopeId} {remembered : String}
    (h : (arena.rename id fun names => names.insert name binding).Remembers other remembered) :
    arena.Remembers other remembered ∨ other = id ∧ remembered = name ∧ binding = .ofVariable := by
  obtain ⟨new, hnew, hmem⟩ := h
  obtain ⟨old, hold, -, -, hnames⟩ := rename_eq_some hnew
  rw [Scope.mem_variableNames, hnames] at hmem
  have hkeep (hold' : old.names[remembered]? = some .ofVariable) : arena.Remembers other remembered :=
    ⟨old, hold, Scope.mem_variableNames.mpr hold'⟩
  split at hmem
  · rename_i hid
    rw [Std.ExtTreeMap.getElem?_insert] at hmem
    split at hmem
    · rename_i hname
      exact .inr ⟨hid.symm, (Std.LawfulEqCmp.eq_of_compare hname).symm, Option.some.inj hmem⟩
    · exact .inl (hkeep hmem)
  · exact .inl (hkeep hmem)

end ScopeArena

/-! ### The scopes of a block -/

/-- A block that is run, known by its key, and a variable that is watched meanwhile. The bodies of functions are
marked. -/
structure Watch where
  body : BlockId → Prop
  key : BlockId
  name : String

namespace Watch
variable {watch : Watch} {scopes later : Scopes}

/-- The block goes through the scope itself: the path there begins with the block, and no call is on it. -/
def Own (watch : Watch) (scopes : Scopes) (id : ScopeId) : Prop :=
  ∃ path, scopes.At id path ∧ path.getLast? = some watch.key ∧ ∀ block ∈ path, ¬watch.body block

/-- No own scope remembers the variable. -/
def Clean (watch : Watch) (scopes : Scopes) : Prop :=
  ∀ id, watch.Own scopes id → ¬scopes.Remembers id watch.name

theorem own_iff (h : scopes.Continues later) {id : ScopeId} {scope : Scope BlockId FunctionDefinition}
    (hscope : scopes.scopes[id]? = some scope) : watch.Own later id ↔ watch.Own scopes id :=
  exists_congr fun path => and_congr_left fun _ => h.path hscope path

/-- A child is an own scope if it is entered from one, or from the root, and by no call. -/
theorem own_child (sound : scopes.Sound) {outer id : ScopeId} {scope : Scope BlockId FunctionDefinition}
    {block : BlockId} (hscope : scopes.scopes[outer]? = some scope) (hmem : (block, id) ∈ scope.children) :
    watch.Own scopes id ↔
      ¬watch.body block ∧ (watch.Own scopes outer ∨ outer = 0 ∧ block = watch.key) := by
  constructor
  · rintro ⟨path, hat, hlast, hplain⟩
    obtain ⟨-, inner, hinner, hparent⟩ := sound.child hscope hmem
    cases hat with
    | root => cases hlast
    | @child _ _ rest _ _ houter hscope' hmem' =>
      obtain ⟨-, inner', hinner', hparent'⟩ := sound.child hscope' hmem'
      obtain rfl := Option.some.inj (hinner.symm.trans hinner')
      obtain rfl := Option.some.inj (hparent.symm.trans hparent')
      obtain rfl := Option.some.inj (hscope.symm.trans hscope')
      obtain rfl := sound.apart hscope hmem hmem'
      obtain ⟨hblock, hrest⟩ := List.forall_mem_cons.mp hplain
      refine ⟨hblock, ?_⟩
      cases rest with
      | nil =>
        cases houter
        exact .inr ⟨rfl, Option.some.inj hlast⟩
      | cons first rest => exact .inl ⟨first :: rest, houter, hlast, hrest⟩
  · rintro ⟨hblock, ⟨path, hat, hlast, hplain⟩ | ⟨rfl, rfl⟩⟩
    · refine ⟨block :: path, .child hat hscope hmem, ?_, List.forall_mem_cons.mpr ⟨hblock, hplain⟩⟩
      rw [List.getLast?_cons, hlast]
      rfl
    · exact ⟨[watch.key], .child .root hscope hmem, rfl, List.forall_mem_singleton.mpr hblock⟩

theorem Clean.continues (h : watch.Clean scopes) (hlater : scopes.Continues later)
    (hremembers : ∀ id, watch.Own later id → later.Remembers id watch.name → scopes.Remembers id watch.name) :
    watch.Clean later := by
  intro id hown hlast
  obtain ⟨scope, hscope, hname⟩ := hremembers id hown hlast
  exact h id ((own_iff hlater hscope).mp hown) ⟨scope, hscope, hname⟩

end Watch

/-! ### Parts of a run -/

/-- The run is in a scope that there is, and the functions that can be called are marked. -/
structure Config.Tracked (body : BlockId → Prop) (c : Config) : Prop where
  sound : c.scopes.Sound
  functions : c.scopes.Functions fun f => body f.body.id ∧ f.body.Marked body
  valid : ∃ scope, c.scopes.scopes[c.activation.scope]? = some scope

/-- From `c` the run comes to `d`, back in the same scope. -/
structure Config.Comes (body : BlockId → Prop) (c d : Config) : Prop where
  scopes : c.scopes.Continues d.scopes
  functions : d.scopes.Functions fun f => body f.body.id ∧ f.body.Marked body
  scope : d.activation.scope = c.activation.scope

/-- From `c` to `d` nothing happens to the scopes, and no variable is unbound. -/
structure Config.Rests (c d : Config) : Prop where
  scopes : d.scopes = c.scopes
  scope : d.activation.scope = c.activation.scope
  bound : ∀ name ∈ c.activation.bindings, name ∈ d.activation.bindings

/-- Inside a block, no own scope remembers the variable, and it is bound in them. -/
structure Watch.Holds (watch : Watch) (c : Config) : Prop where
  inside : c.activation.scope ≠ 0
  clean : watch.Clean c.scopes
  bound : watch.Own c.scopes c.activation.scope → watch.name ∈ c.activation.bindings

/-- However the part ends, it comes back to its scope, and `P` holds again if it did before. -/
def Exec.Upholds {α : Type} (watch : Watch) (P : Config → Prop) (x : Exec α) : Prop :=
  ∀ c : Config, c.Tracked watch.body → c.Comes watch.body (x c).2 ∧ (P c → P (x c).2)

section Tracking
variable {body : BlockId → Prop} {watch : Watch} {c d e : Config}

theorem Config.Comes.trans (h : c.Comes body d) (h' : d.Comes body e) : c.Comes body e where
  scopes := h.scopes.trans h'.scopes
  functions := h'.functions
  scope := h'.scope.trans h.scope

namespace Config.Tracked
variable (h : c.Tracked body)
include h

theorem comes (hcomes : c.Comes body d) : d.Tracked body where
  sound := hcomes.scopes.sound
  functions := hcomes.functions
  valid := by
    obtain ⟨scope, hscope⟩ := h.valid
    obtain ⟨new, hnew, -⟩ := hcomes.scopes.parent hscope
    rw [hcomes.scope]
    exact ⟨new, hnew⟩

theorem rests (hrests : c.Rests d) : c.Comes body d where
  scopes := by
    rw [hrests.scopes]
    exact .refl h.sound
  functions := hrests.scopes ▸ h.functions
  scope := hrests.scope

/-- Declaring a variable, or a function that is marked, in the current scope. -/
theorem declared {name : String} {binding : Binding FunctionDefinition}
    (hscopes : d.scopes = c.scopes.rename c.activation.scope fun names => names.insert name binding)
    (hscope : d.activation.scope = c.activation.scope)
    (hbinding : ∀ f, binding = .ofFunction f → body f.body.id ∧ f.body.Marked body) : c.Comes body d where
  scopes := hscopes ▸ ScopeArena.continues_rename h.sound _ _
  functions := by
    obtain ⟨scope, hvalid⟩ := h.valid
    rw [hscopes]
    exact h.functions.declare hbinding (ScopeArena.declare_eq hvalid)
  scope := hscope

end Config.Tracked

theorem Watch.Holds.rests (h : watch.Holds c) (hrests : c.Rests d) : watch.Holds d where
  inside := hrests.scope ▸ h.inside
  clean := hrests.scopes ▸ h.clean
  bound hown := by
    rw [hrests.scopes, hrests.scope] at hown
    exact hrests.bound _ (h.bound hown)

namespace Exec
variable {α β : Type} {P : Config → Prop}

theorem Upholds.bind {x : Exec α} {f : α → Exec β} (hx : Upholds watch P x) (hf : ∀ a, Upholds watch P (f a)) :
    Upholds watch P (x >>= f) := by
  intro c hc
  obtain ⟨hcomes, hkept⟩ := hx c hc
  rw [Effect.bind_apply]
  rcases hresult : x c with ⟨stop | a, d⟩ <;> rw [hresult] at hcomes hkept
  · exact ⟨hcomes, hkept⟩
  · obtain ⟨hcomes', hkept'⟩ := hf a d (hc.comes hcomes)
    exact ⟨hcomes.trans hcomes', fun h => hkept' (hkept h)⟩

section Resting
variable (hP : ∀ c d : Config, c.Rests d → P c → P d)
include hP

theorem upholds_of_rests {x : Exec α} (hx : ∀ c : Config, c.Rests (x c).2) : Upholds watch P x :=
  fun c hc => ⟨hc.rests (hx c), hP _ _ (hx c)⟩

theorem upholds_of_eq {x : Exec α} (hx : ∀ c, (x c).2 = c) : Upholds watch P x := by
  apply upholds_of_rests hP
  intro c
  rw [hx]
  exact ⟨rfl, rfl, fun _ h => h⟩

theorem upholds_onMachine (action : Action α) : Upholds watch P (onMachine action) := by
  apply upholds_of_rests hP
  intro c
  rw [onMachine_apply]
  exact ⟨rfl, rfl, fun _ h => h⟩

theorem upholds_setSignal (signal : Signal) : Upholds watch P (setSignal signal) :=
  upholds_of_rests hP fun _ => ⟨rfl, rfl, fun _ h => h⟩

/-- Evaluating changes no scope. -/
theorem upholds_evaluates (watch : Watch) (ctx : Context) : ctx.Evaluates ctx fun _ x _ => Upholds watch P x where
  dialect := rfl
  pure _ := upholds_of_eq hP fun _ => rfl
  fail _ := upholds_of_eq hP fun _ => rfl
  valueOf name := upholds_of_eq hP fun c => by rw [valueOf_apply]
  deepen := by
    apply upholds_of_rests hP
    intro c
    rw [deepen_apply]
    dsimp only
    split <;> exact ⟨rfl, rfl, fun _ h => h⟩
  builtin _ _ := upholds_onMachine hP _
  bind := Upholds.bind

end Resting

/-- A new variable is not the one that is watched, in a scope where that is bound. -/
theorem upholds_bindNew (pairs : List (String × Word)) : Upholds watch watch.Holds (bindNew pairs) := by
  induction pairs with
  | nil => exact upholds_of_eq (fun _ _ hrests h => h.rests hrests) fun _ => rfl
  | cons first rest ih =>
    obtain ⟨name, value⟩ := first
    intro c hc
    by_cases hname : name ∈ c.activation.bindings
    · have hfails : bindNew ((name, value) :: rest) c = (.error (.failed (.redeclaration name)), c) := by
        show (if name ∈ c.activation.bindings then _ else _ : Exec Unit) c = _
        rw [if_pos hname]
        rfl
      rw [hfails]
      exact ⟨hc.rests ⟨rfl, rfl, fun _ h => h⟩, id⟩
    · obtain ⟨scope, hscope⟩ := hc.valid
      rw [bindNew_cons hscope hname]
      have hcomes : c.Comes watch.body { c with
          scopes := c.scopes.rename c.activation.scope fun names => names.insert name .ofVariable
          activation := { c.activation with bindings := c.activation.bindings.insert name value } } :=
        hc.declared rfl rfl nofun
      obtain ⟨hcomes', hkept⟩ := ih _ (hc.comes hcomes)
      refine ⟨hcomes.trans hcomes', fun h => hkept ⟨h.inside, ?_, fun hown => ?_⟩⟩
      · refine h.clean.continues hcomes.scopes fun id hown hremembers => ?_
        rcases ScopeArena.remembers_declare hremembers with hold | ⟨rfl, hsame, -⟩
        · exact hold
        · have hbound := h.bound ((Watch.own_iff hcomes.scopes hscope).mp hown)
          exact absurd (hsame ▸ hbound) hname
      · have hbound := h.bound ((Watch.own_iff hcomes.scopes hscope).mp hown)
        exact Std.ExtTreeMap.mem_insert.mpr (.inr hbound)

/-- What statements do in the scope they stand in. -/
theorem upholds_stepwise (watch : Watch) (ctx : Context) :
    ctx.Stepwise ctx fun _ x _ => Upholds watch watch.Holds x := by
  have hrests (c d : Config) (hrests : c.Rests d) (h : watch.Holds c) : watch.Holds d := h.rests hrests
  have cong := upholds_evaluates hrests watch ctx
  exact {
    toEvaluates := cong
    count := upholds_onMachine hrests _
    pending := upholds_of_eq hrests fun _ => rfl
    reset := upholds_setSignal hrests _
    restart := upholds_of_rests hrests fun _ => ⟨rfl, rfl, fun _ h => h⟩
    assign := cong.assign (fun _ => upholds_of_eq hrests fun _ => rfl) fun _ _ =>
      upholds_of_rests hrests fun _ => ⟨rfl, rfl, fun _ h => Std.ExtTreeMap.mem_insert.mpr (.inr h)⟩
    bindNew := upholds_bindNew }

theorem upholds_declare {f : FunctionDefinition} (hf : watch.body f.body.id ∧ f.body.Marked watch.body) :
    Upholds watch watch.Holds (declare f.name (.ofFunction f)) := by
  intro c hc
  obtain ⟨scope, hscope⟩ := hc.valid
  rw [declare_apply (ScopeArena.declare_eq hscope)]
  have hcomes : c.Comes watch.body { c with
      scopes := c.scopes.rename c.activation.scope fun names => names.insert f.name (.ofFunction f) } :=
    hc.declared rfl rfl fun g hg => by cases hg; exact hf
  refine ⟨hcomes, fun h => ⟨h.inside, ?_, fun hown => h.bound ((Watch.own_iff hcomes.scopes hscope).mp hown)⟩⟩
  refine h.clean.continues hcomes.scopes fun id _ hremembers => ?_
  rcases ScopeArena.remembers_declare hremembers with hold | ⟨-, -, hvariable⟩
  · exact hold
  · cases hvariable

end Exec

/-! ### Entering and leaving -/

/-- Entering the block leads to an own scope. -/
def Watch.Enters (watch : Watch) (c : Config) (block : BlockId) : Prop :=
  ¬watch.body block ∧ (watch.Own c.scopes c.activation.scope ∨ c.activation.scope = 0 ∧ block = watch.key)

/-- From `c` the run has entered a block, and is in its scope in `d`. -/
structure Watch.Entered (watch : Watch) (c : Config) (block : BlockId) (d : Config) : Prop where
  tracked : d.Tracked watch.body
  enter : c.scopes.enter c.activation.scope block = .ok (d.activation.scope, d.scopes)
  scopes : c.scopes.Continues d.scopes
  bindings : d.activation.bindings = c.activation.bindings
  inside : d.activation.scope ≠ 0
  parent : ∃ scope, d.scopes.scopes[d.activation.scope]? = some scope ∧ scope.parent = some c.activation.scope
  own : watch.Own d.scopes d.activation.scope ↔ watch.Enters c block
  clean : watch.Clean c.scopes → watch.Clean d.scopes

theorem Config.Tracked.enters (h : c.Tracked watch.body) (block : BlockId) :
    ∃ d, Exec.enterScope block c = (.ok (), d) ∧ watch.Entered c block d := by
  obtain ⟨scope, hscope⟩ := h.valid
  obtain ⟨child, later, henter, hscopes, ⟨new, hnew, hchild⟩, hremembers⟩ :=
    ScopeArena.enter_continues h.sound hscope block
  obtain ⟨hless, inner, hinner, hparent⟩ := hscopes.sound.child hnew hchild
  refine ⟨_, Exec.enterScope_apply henter, ⟨hscopes.sound, h.functions.enter henter, inner, hinner⟩, henter,
    hscopes, rfl, Nat.ne_of_gt (Nat.zero_lt_of_lt hless), ⟨inner, hinner, hparent⟩, ?_, fun hclean => ?_⟩
  · exact (Watch.own_child hscopes.sound hnew hchild).trans
      (and_congr_right fun _ => or_congr_left (Watch.own_iff hscopes hscope))
  · exact hclean.continues hscopes fun id _ => hremembers id watch.name

/-- Leaving a scope unbinds just what the scope remembers. -/
theorem Exec.leaveScope_drops {scope : Scope BlockId FunctionDefinition} {outer : ScopeId}
    (hscope : c.scopes.scopes[c.activation.scope]? = some scope) (hparent : scope.parent = some outer) :
    ∃ d, leaveScope c = (.ok (), d) ∧ d.scopes = c.scopes ∧ d.activation.scope = outer ∧
      ∀ name, name ∈ d.activation.bindings ↔
        name ∈ c.activation.bindings ∧ ¬c.scopes.Remembers c.activation.scope name := by
  refine ⟨_, leaveScope_apply hscope hparent, rfl, rfl, fun name => ?_⟩
  have hremembers : c.scopes.Remembers c.activation.scope name ↔ name ∈ scope.variableNames := by
    constructor
    · rintro ⟨other, hother, hmem⟩
      obtain rfl := Option.some.inj (hscope.symm.trans hother)
      exact hmem
    · exact fun hmem => ⟨scope, hscope, hmem⟩
  rw [hremembers, ← Std.ExtTreeMap.isSome_getElem?_iff_mem, ← Std.ExtTreeMap.isSome_getElem?_iff_mem,
    ScopeArena.getElem?_without]
  split <;> simp [*]

namespace Exec
variable {α : Type} {x : Exec α} {block : BlockId}

/-- What is run in the scope of a block, between entering and leaving it. -/
theorem region_leaves (hx : Upholds watch watch.Holds x) (hc : c.Tracked watch.body)
    (hd : ((enterScope block >>= fun _ => x.ensuring leaveScope) c).2 = d) :
    ∃ entered, watch.Entered c block entered ∧ entered.Comes watch.body (x entered).2 ∧
      d.scopes = (x entered).2.scopes ∧ d.activation.scope = c.activation.scope ∧
      ∀ name, name ∈ d.activation.bindings ↔
        name ∈ (x entered).2.activation.bindings ∧ ¬d.scopes.Remembers entered.activation.scope name := by
  obtain ⟨entered, henter, hentered⟩ := hc.enters block
  obtain ⟨hcomes, -⟩ := hx entered hentered.tracked
  obtain ⟨scope, hscope, hparent⟩ := hentered.parent
  obtain ⟨new, hnew, hparent'⟩ := hcomes.scopes.parent hscope
  have hthere : (x entered).2.scopes.scopes[(x entered).2.activation.scope]? = some new := hcomes.scope ▸ hnew
  obtain ⟨left, hleave, hscopes, hback, hbound⟩ := leaveScope_drops hthere (hparent'.trans hparent)
  have hclosed : x.ensuring leaveScope entered = ((x entered).1, left) := Effect.ensuring_apply rfl hleave
  rw [Effect.bind_of_ok henter, hclosed] at hd
  subst hd
  refine ⟨entered, hentered, hcomes, hscopes, hback, fun name => ?_⟩
  rw [hbound name, hscopes, hcomes.scope]

/-- The variable outlasts the scope of a block if it is bound where the scope is an own one. -/
theorem region_runs (hx : Upholds watch watch.Holds x) (hc : c.Tracked watch.body)
    (hd : ((enterScope block >>= fun _ => x.ensuring leaveScope) c).2 = d) :
    c.Comes watch.body d ∧ (watch.Clean c.scopes → (watch.Enters c block → watch.name ∈ c.activation.bindings) →
      watch.Clean d.scopes ∧ (watch.Enters c block → watch.name ∈ d.activation.bindings)) := by
  obtain ⟨entered, hentered, hcomes, hscopes, hback, hbound⟩ := region_leaves hx hc hd
  refine ⟨⟨?_, ?_, hback⟩, fun hclean hname => ?_⟩
  · exact hscopes ▸ hentered.scopes.trans hcomes.scopes
  · exact hscopes ▸ hcomes.functions
  · have hholds : watch.Holds (x entered).2 := by
      refine (hx entered hentered.tracked).2 ⟨hentered.inside, hentered.clean hclean, fun hown => ?_⟩
      rw [hentered.bindings]
      exact hname (hentered.own.mp hown)
    refine ⟨hscopes ▸ hholds.clean, fun henters => ?_⟩
    obtain ⟨scope, hscope, -⟩ := hentered.parent
    have hown : watch.Own (x entered).2.scopes entered.activation.scope :=
      (Watch.own_iff hcomes.scopes hscope).mpr (hentered.own.mpr henters)
    have hforgotten : ¬d.scopes.Remembers entered.activation.scope watch.name := hscopes ▸ hholds.clean _ hown
    refine (hbound watch.name).mpr ⟨hholds.bound ?_, hforgotten⟩
    rwa [hcomes.scope]

/-- Inside a block, a scope that no call enters. -/
theorem upholds_region (hblock : ¬watch.body block) (hx : Upholds watch watch.Holds x) :
    Upholds watch watch.Holds (enterScope block >>= fun _ => x.ensuring leaveScope) := by
  intro c hc
  obtain ⟨hcomes, hkept⟩ := region_runs hx hc rfl
  refine ⟨hcomes, fun h => ?_⟩
  have henters : watch.Enters c block ↔ watch.Own c.scopes c.activation.scope :=
    (and_iff_right hblock).trans (or_iff_left fun hroot => h.inside hroot.1)
  obtain ⟨hclean, hbound⟩ := hkept h.clean fun hown => h.bound (henters.mp hown)
  obtain ⟨scope, hscope⟩ := hc.valid
  refine ⟨hcomes.scope ▸ h.inside, hclean, fun hown => hbound (henters.mpr ?_)⟩
  rw [hcomes.scope] at hown
  exact (Watch.own_iff hcomes.scopes hscope).mp hown

/-- The scope of a body of a function is never an own one. -/
theorem upholds_body (hblock : watch.body block) (hx : Upholds watch watch.Holds x) :
    Upholds watch (fun c => watch.Clean c.scopes) (enterScope block >>= fun _ => x.ensuring leaveScope) := by
  intro c hc
  obtain ⟨hcomes, hkept⟩ := region_runs hx hc rfl
  exact ⟨hcomes, fun hclean => (hkept hclean fun henters => absurd hblock henters.1).1⟩

end Exec

/-! ### Tasks -/

section Tasks
open Exec
variable {ctx : Context} {runner : Runner}
  (hrunner : ∀ u, u.Marked watch.body → Upholds watch watch.Holds (runner u))
include hrunner

/-- What is done in the scope of a block. -/
theorem inner_upholds (ctx : Context) {α : Type} {b : Block} (hb : b.Marked watch.body) {exit : Exec α}
    (hexit : Upholds watch watch.Holds exit) :
    Upholds watch watch.Holds (do
      declareFunctions b.functions
      ctx.sequence runner b.statements
      exit) := by
  have cong := upholds_stepwise watch ctx
  refine Upholds.bind ?_ fun _ => Upholds.bind ?_ fun _ => hexit
  · exact cong.declareFunctions fun f hf => upholds_declare (hb.function hf)
  · exact @Context.Stepwise.sequence _ _ _ runner runner cong _ fun s hs => hrunner (.statement s) (hb.statement hs)

theorem loop_upholds (ctx : Context) {l : ForLoop} (hl : Task.Marked watch.body (.statement (.loop l))) :
    Upholds watch watch.Holds (runner.statement (.loop l)) := by
  have hpart {u : Task} (hu : Task.Part (.statement (.loop l)) u) : Upholds watch watch.Holds (runner u) :=
    hrunner u (hl.part hu)
  have hinit : ¬watch.body l.init.id := by
    obtain ⟨init, condition, post, body⟩ := l
    exact hl.1.1
  have cong := upholds_stepwise watch ctx
  refine upholds_region hinit (Upholds.bind ?_ fun left => ?_)
  · exact @Context.Stepwise.initialise _ _ _ runner runner cong _ fun s hs => hpart (.front hs)
  · split
    · exact cong.pure ()
    · exact (hpart .begin).bind fun _ => cong.pure ()

variable (hbody : ∀ b : Block, watch.body b.id → b.Marked watch.body →
  Upholds watch (fun c => watch.Clean c.scopes) (runner (.block b)))

omit hrunner in
include hbody in
/-- What a call declares goes into no own scope, and the caller has its variables back. -/
theorem invoke_upholds (ctx : Context) (name : String) (args : List Word) :
    Upholds watch watch.Holds (runner.invoke name args) := by
  intro c hc
  rcases invoke_cases name args c with ⟨e, he⟩ | ⟨scope, f, hfound, hcount⟩
  · rw [he]
    exact ⟨hc.rests ⟨rfl, rfl, fun _ h => h⟩, id⟩
  · obtain ⟨hmarked, hinside⟩ := hc.functions.lookup hfound
    obtain ⟨found, hvalid, -⟩ := ScopeArena.lookup_eq_some hfound
    have hrests (c d : Config) (hrests : c.Rests d) (h : watch.Clean c.scopes) : watch.Clean d.scopes :=
      hrests.scopes ▸ h
    have hcall : Upholds watch (fun c => watch.Clean c.scopes)
        (runner.run (.block f.body) >>= fun _ => setSignal .proceed >>= fun _ => valuesOf f.returns) := by
      have cong := upholds_evaluates hrests watch ctx
      exact ((hbody f.body hmarked hinside).bind fun _ => cong.pure ()).bind fun _ =>
        (upholds_setSignal hrests _).bind fun _ => cong.valuesOf f.returns
    obtain ⟨hcomes, hkept⟩ := hcall (c.callee scope f args) ⟨hc.sound, hc.functions, found, hvalid⟩
    rw [invoke_of_found hfound hcount, within_apply]
    refine ⟨⟨hcomes.scopes, hcomes.functions, rfl⟩, fun h => ⟨h.inside, hkept h.clean, fun hown => ?_⟩⟩
    obtain ⟨current, hcurrent⟩ := hc.valid
    exact h.bound ((Watch.own_iff hcomes.scopes hcurrent).mp hown)

include hbody

theorem advance_upholds (ctx : Context) {t : Task} (ht : t.Marked watch.body) :
    Upholds watch watch.Holds (ctx.advance runner t) := by
  have cong := upholds_stepwise watch ctx
  have hpart {u : Task} (hu : t.Part u) : Upholds watch watch.Holds (runner u) := hrunner u (ht.part hu)
  cases t with
  | expression e => exact @Context.Evaluates.expression _ _ _ runner runner cong.toEvaluates e fun u => hpart
  | invoke name args => exact invoke_upholds hbody ctx name args
  | statement s =>
    refine Upholds.bind ?_ fun _ => cong.pure _
    refine @Context.Stepwise.statement _ _ _ runner runner cong s (fun signal _ => ?_) ?_ fun _ u => hpart
    · exact upholds_setSignal (fun _ _ hrests h => h.rests hrests) signal
    · rintro l rfl
      exact loop_upholds hrunner ctx ht
  | block b =>
    refine Upholds.bind ?_ fun _ => cong.pure _
    exact upholds_region ht.1 (inner_upholds hrunner ctx ht.2 (cong.pure ()))
  | rounds l =>
    refine Upholds.bind ?_ fun _ => cong.pure _
    exact @Context.Stepwise.rounds _ _ _ runner runner cong l fun u => hpart

omit hbody in
/-- The body of a function, as a call runs it. -/
theorem advance_body (ctx : Context) {b : Block} (hb : watch.body b.id) (hmarked : b.Marked watch.body) :
    Upholds watch (fun c => watch.Clean c.scopes) (ctx.advance runner (.block b)) := by
  have hinner := inner_upholds hrunner ctx hmarked ((upholds_stepwise watch ctx).pure ())
  have hrests (c d : Config) (hrests : c.Rests d) (h : watch.Clean c.scopes) : watch.Clean d.scopes :=
    hrests.scopes ▸ h
  exact (upholds_body hb hinner).bind fun _ => (upholds_evaluates hrests watch ctx).pure _

omit hrunner hbody in
theorem perform_upholds (watch : Watch) (ctx : Context) (depth : Nat) :
    (∀ u, u.Marked watch.body → Upholds watch watch.Holds (ctx.perform depth u)) ∧
    ∀ b : Block, watch.body b.id → b.Marked watch.body →
      Upholds watch (fun c => watch.Clean c.scopes) (ctx.perform depth (.block b)) := by
  induction depth with
  | zero =>
    refine ⟨fun u _ => ?_, fun b _ _ => ?_⟩
    · exact upholds_of_eq (fun _ _ hrests h => h.rests hrests) fun _ => rfl
    · exact upholds_of_eq (fun _ _ hrests h => hrests.scopes ▸ h) fun _ => rfl
  | succ depth ih =>
    exact ⟨fun u hu => advance_upholds ih.1 ih.2 ctx hu, fun b hb hmarked => advance_body ih.1 ctx hb hmarked⟩

end Tasks
end Tracking

end BlockIR
