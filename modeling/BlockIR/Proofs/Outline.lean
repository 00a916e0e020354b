import BlockIR.Proofs.Congruence
import BlockIR.Proofs.Lexical
import BlockIR.Proofs.Tree
import Mathlib.Data.List.FinRange
import Mathlib.Data.List.Perm.Subperm

/-! The arena as an outline of the program.

Whatever a program executes, checked or not, and however that ends, a block is
entered from the scope of the block around it: statements run in the scope of
their block, and a function that is found belongs to the block in whose scope it
was found. So every scope has the path of a lexical chain (`Outlined`), and what
is done in a chain comes back to its scope (`Exec.Stays`). If all blocks are
distinct, the scopes but the root correspond to blocks of the program, one to
one, and parents to the blocks around (`Outlines`). -/
namespace BlockIR

/-! ### Arenas -/

/-- The scope is that of the block: it was made when the block was entered. -/
def ScopeArena.Belongs {κ φ : Type} (arena : ScopeArena κ φ) (id : ScopeId) (block : κ) : Prop :=
  ∃ (outer : ScopeId) (scope : Scope κ φ), arena.scopes[outer]? = some scope ∧ (block, id) ∈ scope.children

/-- The paths of an arena are still there in a later one. -/
def ScopeArena.Extends {κ φ : Type} (arena later : ScopeArena κ φ) : Prop :=
  ∀ id path, arena.At id path → later.At id path

theorem ScopeArena.Extends.trans {κ φ : Type} {arena later last : ScopeArena κ φ} (h : arena.Extends later)
    (h' : later.Extends last) : arena.Extends last := fun id path hat => h' id path (h id path hat)

/-- Every scope has the path of a lexical chain, and no functions but those of its innermost region; a
block entered again from the same scope has the same scope. -/
structure Outlined (program : Block) (scopes : Scopes) : Prop where
  sound : scopes.Sound
  keyed : ∀ {outer : ScopeId} {scope : Scope BlockId FunctionDefinition} {block : BlockId} {i j : ScopeId},
    scopes.scopes[outer]? = some scope → (block, i) ∈ scope.children → (block, j) ∈ scope.children → i = j
  path : ∀ {id : ScopeId} {scope : Scope BlockId FunctionDefinition}, scopes.scopes[id]? = some scope →
    ∃ chain : Chain, chain.In program ∧ scopes.At id chain.ids
  functions : ∀ {id : ScopeId} {scope : Scope BlockId FunctionDefinition} {name : String}
    {f : FunctionDefinition}, scopes.scopes[id]? = some scope → scope.names[name]? = some (.ofFunction f) →
      ∃ chain : Chain, chain.In program ∧ scopes.At id chain.ids ∧ f ∈ chain.functions

theorem outlined_start (program : Block) : Outlined program .start where
  sound := ScopeArena.sound_start
  keyed {outer scope block i j} hscope hi _ := by
    match outer with
    | 0 =>
      cases hscope
      cases hi
    | _ + 1 => cases hscope
  path {id scope} hscope := by
    match id with
    | 0 => exact ⟨[], trivial, .root⟩
    | _ + 1 => cases hscope
  functions {id scope name f} hscope hname := by
    match id with
    | 0 =>
      cases hscope
      cases Std.ExtTreeMap.getElem?_empty.symm.trans hname
    | _ + 1 => cases hscope

namespace Outlined
variable {program : Block} {scopes : Scopes} (h : Outlined program scopes) {chain : Chain}
  {current : ScopeId}
include h

/-- A path leads to one scope. -/
theorem at_unique {i j : ScopeId} {path : List BlockId} (hi : scopes.At i path) (hj : scopes.At j path) :
    i = j := by
  induction hi generalizing j with
  | root =>
    cases hj
    rfl
  | child houter hscope hmem ih =>
    cases hj with
    | child houter' hscope' hmem' =>
      obtain rfl := ih houter'
      obtain rfl := Option.some.inj (hscope.symm.trans hscope')
      exact h.keyed hscope hmem hmem'

/-- Other names in the scope of a chain, with functions of its innermost region. -/
theorem rename {f : Std.ExtTreeMap String (Binding FunctionDefinition) →
      Std.ExtTreeMap String (Binding FunctionDefinition)} (hchain : chain.In program)
    (hat : scopes.At current chain.ids)
    (hnames : ∀ (names : Std.ExtTreeMap String (Binding FunctionDefinition)) (name : String)
      (g : FunctionDefinition), (f names)[name]? = some (Binding.ofFunction g) →
        names[name]? = some (Binding.ofFunction g) ∨ g ∈ chain.functions) :
    Outlined program (scopes.rename current f) where
  sound := ScopeArena.sound_rename h.sound
  keyed {outer scope block i j} hscope hi hj := by
    obtain ⟨old, hold, -, hchildren, -⟩ := ScopeArena.rename_eq_some hscope
    exact h.keyed hold (hchildren ▸ hi) (hchildren ▸ hj)
  path {id scope} hscope := by
    obtain ⟨old, hold, -⟩ := ScopeArena.rename_eq_some hscope
    obtain ⟨chain', hin, hat'⟩ := h.path hold
    exact ⟨chain', hin, ScopeArena.at_rename hat'⟩
  functions {id scope name g} hscope hname := by
    obtain ⟨old, hold, -, -, hnew⟩ := ScopeArena.rename_eq_some hscope
    rw [hnew] at hname
    have hold' (hg : old.names[name]? = some (.ofFunction g)) :
        ∃ chain : Chain, chain.In program ∧ (scopes.rename current f).At id chain.ids ∧
          g ∈ chain.functions := by
      obtain ⟨chain', hin, hat', hmem⟩ := h.functions hold hg
      exact ⟨chain', hin, ScopeArena.at_rename hat', hmem⟩
    split at hname
    · rename_i hsame
      subst hsame
      rcases hnames _ name g hname with hg | hg
      · exact hold' hg
      · exact ⟨chain, hchain, ScopeArena.at_rename hat, hg⟩
    · exact hold' hname

/-- A scope for a block that stands directly in a chain, made from the scope of the chain. -/
theorem link {region : Region} (hchain : Chain.In program (region :: chain))
    (hat : scopes.At current chain.ids) {scope : Scope BlockId FunctionDefinition}
    (hscope : scopes.scopes[current]? = some scope) (hnew : ∀ i, (region.id, i) ∉ scope.children) :
    Outlined program (scopes.link current region.id) where
  sound := ScopeArena.sound_link h.sound hscope region.id
  keyed {outer new block i j} hnew' hi hj := by
    rcases ScopeArena.child_link hnew' hi with ⟨rfl, rfl, rfl⟩ | ⟨old, hold, hi'⟩ <;>
      rcases ScopeArena.child_link hnew' hj with ⟨hcurrent, hblock, rfl⟩ | ⟨old', hold', hj'⟩
    · rfl
    · obtain rfl := Option.some.inj (hscope.symm.trans hold')
      exact absurd hj' (hnew j)
    · subst hcurrent hblock
      obtain rfl := Option.some.inj (hscope.symm.trans hold)
      exact absurd hi' (hnew i)
    · obtain rfl := Option.some.inj (hold.symm.trans hold')
      exact h.keyed hold hi' hj'
  path {id new} hnew' := by
    rcases ScopeArena.link_eq_some hnew' with ⟨rfl, -⟩ | ⟨old, hold, -⟩
    · exact ⟨region :: chain, hchain, ScopeArena.at_link hat hscope⟩
    · obtain ⟨chain', hin, hat'⟩ := h.path hold
      exact ⟨chain', hin, hat'.grows ScopeArena.grows_link⟩
  functions {id new name f} hnew' hname := by
    rcases ScopeArena.link_eq_some hnew' with ⟨-, rfl⟩ | ⟨old, hold, -, hnames, -⟩
    · cases Std.ExtTreeMap.getElem?_empty.symm.trans hname
    · obtain ⟨chain', hin, hat', hmem⟩ := h.functions hold (hnames ▸ hname)
      exact ⟨chain', hin, hat'.grows ScopeArena.grows_link, hmem⟩

/-- Entering a block from the scope of the chain that it stands in. -/
theorem enter {region : Region} (hchain : Chain.In program (region :: chain))
    (hat : scopes.At current chain.ids) :
    ∃ id later, scopes.enter current region.id = .ok (id, later) ∧ Outlined program later ∧
      scopes.Extends later ∧ later.At id (Chain.ids (region :: chain)) := by
  obtain ⟨scope, hscope⟩ := hat.valid h.sound
  rcases ScopeArena.enter_cases hscope region.id with ⟨child, hchild, henter⟩ | ⟨hnew, henter⟩
  · exact ⟨child, scopes, henter, h, fun _ _ hold => hold, .child hat hscope hchild⟩
  · exact ⟨_, _, henter, h.link hchain hat hscope hnew, fun _ _ hold => hold.grows ScopeArena.grows_link,
      ScopeArena.at_link hat hscope⟩

/-- Declaring a variable, or a function of the innermost region, in the scope of a chain. -/
theorem declare (hchain : chain.In program) (hat : scopes.At current chain.ids) (name : String)
    {binding : Binding FunctionDefinition} (hbinding : ∀ f, binding = .ofFunction f → f ∈ chain.functions) :
    ∃ later, scopes.declare current name binding = .ok later ∧ Outlined program later ∧
      scopes.Extends later := by
  obtain ⟨scope, hscope⟩ := hat.valid h.sound
  refine ⟨_, ScopeArena.declare_eq hscope, h.rename hchain hat fun names other g hg => ?_,
    fun _ _ hold => ScopeArena.at_rename hold⟩
  rw [Std.ExtTreeMap.getElem?_insert] at hg
  split at hg
  · exact .inr (hbinding g (Option.some.inj hg))
  · exact .inl hg

/-- A function that is found stands in the block in whose scope it is found. -/
theorem lookup {id found : ScopeId} {name : String} {f : FunctionDefinition}
    (hlookup : scopes.lookup id name = .ok (some (found, f))) :
    ∃ chain : Chain, Chain.In program (.block f.body :: chain) ∧ scopes.At found chain.ids := by
  obtain ⟨scope, hscope, hname⟩ := ScopeArena.lookup_eq_some hlookup
  obtain ⟨chain, hin, hat, hmem⟩ := h.functions hscope hname
  refine ⟨chain, ⟨?_, hin⟩, hat⟩
  cases chain with
  | nil => cases hmem
  | cons region outer => exact Region.mem_inner (Region.function_mem hmem) (List.mem_singleton_self _)

end Outlined

/-! ### Runs in a chain -/

/-- The run is in the scope of a chain of the program. -/
structure Config.Inside (program : Block) (chain : Chain) (c : Config) : Prop where
  within : chain.In program
  outlined : Outlined program c.scopes
  scope : c.scopes.At c.activation.scope chain.ids

/-- From `c` to `d` the arena has at most grown, and the scope is the same. -/
structure Config.Returns (program : Block) (c d : Config) : Prop where
  outlined : Outlined program d.scopes
  paths : c.scopes.Extends d.scopes
  scope : d.activation.scope = c.activation.scope

/-- In a chain `y` does what `x` does and, however that ends, comes back to the scope of the chain. -/
def Exec.Stays {α : Type} (program : Block) (chain : Chain) (x y : Exec α) : Prop :=
  ∀ c : Config, c.Inside program chain → y c = x c ∧ c.Returns program (x c).2

namespace Config
variable {program : Block} {chain : Chain} {c d e : Config}

theorem Returns.trans (h : c.Returns program d) (h' : d.Returns program e) : c.Returns program e where
  outlined := h'.outlined
  paths := h.paths.trans h'.paths
  scope := h'.scope.trans h.scope

theorem Inside.of_returns (h : c.Inside program chain) (hreturns : c.Returns program d) :
    d.Inside program chain where
  within := h.within
  outlined := hreturns.outlined
  scope := by
    rw [hreturns.scope]
    exact hreturns.paths _ _ h.scope

/-- What changes neither the arena nor the scope. -/
theorem Inside.returns_of_eq (h : c.Inside program chain) (hscopes : d.scopes = c.scopes)
    (hscope : d.activation.scope = c.activation.scope) : c.Returns program d where
  outlined := hscopes ▸ h.outlined
  paths _ _ hat := hscopes ▸ hat
  scope := hscope

/-- Entering a region that stands directly in the chain. -/
theorem Inside.enters (h : c.Inside program chain) {region : Region}
    (hregion : region ∈ chain.inner program) :
    ∃ d, Exec.enterScope region.id c = (.ok (), d) ∧ d.Inside program (region :: chain) ∧
      c.scopes.Extends d.scopes := by
  have hchain : Chain.In program (region :: chain) := ⟨hregion, h.within⟩
  obtain ⟨id, later, henter, houtlined, hpaths, hat⟩ := h.outlined.enter hchain h.scope
  exact ⟨_, Exec.enterScope_apply henter, ⟨hchain, houtlined, hat⟩, hpaths⟩

/-- Leaving a region goes to the scope of the chain around it. -/
theorem Inside.leaves {region : Region} (h : d.Inside program (region :: chain)) {outer : ScopeId}
    (houter : d.scopes.At outer chain.ids) :
    ∃ e, Exec.leaveScope d = (.ok (), e) ∧ e.scopes = d.scopes ∧ e.activation.scope = outer := by
  obtain ⟨scope, parent, hscope, hparent, hat⟩ := ScopeArena.At.outer h.scope h.outlined.sound
  obtain rfl := h.outlined.at_unique hat houter
  exact ⟨_, Exec.leaveScope_apply hscope hparent, rfl, rfl⟩

end Config

namespace Exec
variable {α β : Type} {program : Block} {chain : Chain}

theorem stays_of_still {x : Exec α} (hscopes : ∀ c, (x c).2.scopes = c.scopes)
    (hscope : ∀ c, (x c).2.activation.scope = c.activation.scope) : Stays program chain x x :=
  fun c hc => ⟨rfl, hc.returns_of_eq (hscopes c) (hscope c)⟩

theorem Stays.bind {x y : Exec α} {f g : α → Exec β} (hx : Stays program chain x y)
    (hf : ∀ a, Stays program chain (f a) (g a)) : Stays program chain (x >>= f) (y >>= g) := by
  intro c hc
  obtain ⟨heq, hreturns⟩ := hx c hc
  rw [Effect.bind_apply, Effect.bind_apply, heq]
  rcases hresult : x c with ⟨stop | a, d⟩ <;> rw [hresult] at hreturns
  · exact ⟨rfl, hreturns⟩
  · obtain ⟨heq', hreturns'⟩ := hf a d (hc.of_returns hreturns)
    exact ⟨heq', hreturns.trans hreturns'⟩

theorem stays_declare (name : String) {binding : Binding FunctionDefinition}
    (hbinding : ∀ f, binding = .ofFunction f → f ∈ chain.functions) :
    Stays program chain (declare name binding) (declare name binding) := by
  intro c hc
  obtain ⟨later, hdeclare, houtlined, hextends⟩ := hc.outlined.declare hc.within hc.scope name hbinding
  rw [declare_apply hdeclare]
  exact ⟨rfl, houtlined, hextends, rfl⟩

theorem stays_declareFunctions {definitions : List FunctionDefinition}
    (hmem : ∀ f ∈ definitions, f ∈ chain.functions) :
    Stays program chain (declareFunctions definitions) (declareFunctions definitions) := by
  induction definitions with
  | nil => exact stays_of_still (fun _ => rfl) fun _ => rfl
  | cons first rest ih =>
    obtain ⟨hfirst, hrest⟩ := List.forall_mem_cons.mp hmem
    refine (stays_declare first.name fun f hf => ?_).bind fun _ => ih hrest
    cases hf
    exact hfirst

/-- What is done in the scope of a region comes back to the scope of the chain around the region. -/
theorem stays_region {x y : Exec α} {region : Region} (hregion : region ∈ chain.inner program)
    (hx : Stays program (region :: chain) x y) :
    Stays program chain (enterScope region.id >>= fun _ => x.ensuring leaveScope)
      (enterScope region.id >>= fun _ => y.ensuring leaveScope) := by
  intro c hc
  obtain ⟨entered, henter, hinside, hpaths⟩ := hc.enters hregion
  obtain ⟨heq, hreturns⟩ := hx entered hinside
  obtain ⟨left, hleave, hscopes, hscope⟩ := (hinside.of_returns hreturns).leaves
    (hreturns.paths _ _ (hpaths _ _ hc.scope))
  have hclosed : x.ensuring leaveScope entered = ((x entered).1, left) := Effect.ensuring_apply rfl hleave
  rw [Effect.bind_of_ok henter, Effect.bind_of_ok henter, hclosed]
  refine ⟨Effect.ensuring_apply heq hleave, ?_, fun id path hat => ?_, hscope⟩
  · exact hscopes ▸ hreturns.outlined
  · exact hscopes ▸ hreturns.paths id path (hpaths id path hat)

/-- An activation of its own, in the scope of another chain. -/
theorem stays_within {x y : Exec α} {inner : Activation} {c : Config}
    (h : Config.Inside program chain { c with activation := inner }) (hx : Stays program chain x y) :
    within inner y c = within inner x c ∧ c.Returns program (within inner x c).2 := by
  obtain ⟨heq, hreturns⟩ := hx _ h
  rw [within_apply, within_apply, heq]
  exact ⟨rfl, hreturns.outlined, hreturns.paths, rfl⟩

end Exec

/-! ### Tasks -/

/-- Where a task may be done: a statement and the rounds of a loop in the chain of their block, a block
in a chain that it stands in. -/
def Task.Placed (program : Block) (chain : Chain) : Task → Prop
  | .expression _ | .invoke _ _ => True
  | .statement s => ∃ region outer, chain = region :: outer ∧ s ∈ region.statements
  | .block b => .block b ∈ chain.inner program
  | .rounds l => ∃ outer, chain = .loop l :: outer

section Tasks
open Exec
variable {ctx : Context} {program : Block} {chain : Chain} {runner other : Runner}

/-- What a statement does in its own scope comes back to it. -/
theorem stays_local (ctx : Context) (program : Block) (chain : Chain) :
    ctx.Local ctx fun _ x y => Stays program chain x y where
  dialect := rfl
  pure _ := stays_of_still (fun _ => rfl) fun _ => rfl
  fail _ := stays_of_still (fun _ => rfl) fun _ => rfl
  valueOf name := stays_of_still (fun c => by rw [valueOf_apply]) fun c => by rw [valueOf_apply]
  deepen := by
    refine stays_of_still (fun c => ?_) fun c => ?_ <;> rw [deepen_apply] <;> dsimp only <;> split <;> rfl
  builtin _ _ := stays_of_still (fun c => by rw [onMachine_apply]) fun c => by rw [onMachine_apply]
  bind hx hf := hx.bind hf
  count := stays_of_still (fun c => by rw [onMachine_apply]) fun c => by rw [onMachine_apply]
  look _ := stays_of_still (fun _ => rfl) fun _ => rfl
  pending := stays_of_still (fun _ => rfl) fun _ => rfl
  reset := stays_of_still (fun _ => rfl) fun _ => rfl
  restart := stays_of_still (fun _ => rfl) fun _ => rfl
  put _ _ := stays_of_still (fun _ => rfl) fun _ => rfl
  declareVariable name := stays_declare name nofun

variable (hrunner : ∀ u inner, u.Placed program inner → Stays program inner (runner u) (other u))
include hrunner

/-- A block that stands in the chain, with what is done at its end. -/
theorem block_stays {α : Type} {b : Block} {exit : Exec α} (hblock : .block b ∈ chain.inner program)
    (hexit : Stays program (.block b :: chain) exit exit) :
    Stays program chain (ctx.block runner b exit) (ctx.block other b exit) := by
  refine stays_region hblock ((stays_declareFunctions fun f hf => hf).bind fun _ => ?_)
  refine ((stays_local ctx program _).sequence b.statements fun s hs => ?_).bind fun _ => hexit
  exact hrunner (.statement s) _ ⟨_, _, rfl, hs⟩

theorem loop_stays (ctx : Context) {l : ForLoop} (hloop : .loop l ∈ chain.inner program) :
    Stays program chain (runner.statement (.loop l)) (other.statement (.loop l)) := by
  have cong := stays_local ctx program (.loop l :: chain)
  refine stays_region hloop ((cong.initialise l.init.statements fun s hs => ?_).bind fun left => ?_)
  · exact hrunner (.statement s) _ ⟨_, _, rfl, hs⟩
  · split
    · exact cong.pure ()
    · exact cong.run (hrunner (.rounds l) _ ⟨_, rfl⟩)

/-- A call is done in the chain of the function that is found, and comes back to its own. -/
theorem invoke_stays (ctx : Context) (name : String) (args : List Word) :
    Stays program chain (runner.invoke name args) (other.invoke name args) := by
  intro c hc
  rcases invoke_cases name args c with ⟨e, he⟩ | ⟨scope, f, hfound, hcount⟩
  · rw [he, he]
    exact ⟨rfl, hc.returns_of_eq rfl rfl⟩
  · obtain ⟨found, hchain, hat⟩ := hc.outlined.lookup hfound
    have cong := stays_local ctx program found
    have hbody : Stays program found
        (runner.run (.block f.body) >>= fun _ => setSignal .proceed >>= fun _ => valuesOf f.returns)
        (other.run (.block f.body) >>= fun _ => setSignal .proceed >>= fun _ => valuesOf f.returns) :=
      (cong.run (hrunner (.block f.body) found hchain.1)).bind fun _ =>
        cong.reset.bind fun _ => cong.valuesOf f.returns
    rw [invoke_of_found hfound hcount, invoke_of_found hfound hcount]
    have hcallee : (c.callee scope f args).Inside program found := ⟨hchain.2, hc.outlined, hat⟩
    obtain ⟨heq, hreturns⟩ := stays_within (c := { c with machine := { c.machine with signal := .proceed } })
      hcallee hbody
    exact ⟨heq, hreturns.outlined, hreturns.paths, hreturns.scope⟩

/-- A task comes back to the scope of its chain if those that it leads to do. -/
theorem advance_stays {t : Task} (ht : t.Placed program chain) :
    Stays program chain (ctx.advance runner t) (ctx.advance other t) := by
  have cong := stays_local ctx program chain
  cases t with
  | expression e =>
    refine cong.expression e fun u hu => ?_
    cases hu <;> exact hrunner _ _ trivial
  | invoke name args => exact invoke_stays hrunner ctx name args
  | statement s =>
    obtain ⟨region, outer, rfl, hs⟩ := ht
    have hinner {b : Block} (hb : .block b ∈ s.regions) : Task.Placed program (region :: outer) (.block b) :=
      Region.mem_inner hs hb
    refine (cong.statement s (fun _ _ => stays_of_still (fun _ => rfl) fun _ => rfl) ?_
      fun hother u hu => ?_).bind fun _ => cong.pure _
    · rintro l rfl
      exact loop_stays hrunner ctx (Region.mem_inner hs (List.mem_singleton_self _))
    · cases hu with
      | branch => exact hrunner _ _ (hinner (List.mem_singleton_self _))
      | nested => exact hrunner _ _ (hinner (List.mem_singleton_self _))
      | chosen hc => exact hrunner _ _ (hinner (List.mem_map.mpr ⟨_, hc, rfl⟩))
      | front => exact absurd rfl (hother _)
      | begin => exact absurd rfl (hother _)
      | _ => exact hrunner _ _ trivial
  | block b =>
    refine (block_stays hrunner ht ?_).bind fun _ => cong.pure _
    exact (stays_local ctx program _).pure ()
  | rounds l =>
    obtain ⟨outer, rfl⟩ := ht
    refine (cong.rounds l fun u hu => ?_).bind fun _ => cong.pure _
    cases hu with
    | test => exact hrunner _ _ trivial
    | round => exact hrunner _ _ (List.mem_append_right _ (List.mem_cons_self ..))
    | post => exact hrunner _ _ (List.mem_append_right _ (List.mem_cons_of_mem _ (List.mem_singleton_self _)))
    | again => exact hrunner _ _ ⟨outer, rfl⟩

omit hrunner in
theorem perform_stays (depth : Nat) {t : Task} (ht : t.Placed program chain) :
    Stays program chain (ctx.perform depth t) (ctx.perform depth t) := by
  induction depth generalizing t chain with
  | zero => exact stays_of_still (fun _ => rfl) fun _ => rfl
  | succ depth ih => exact advance_stays (fun u inner hu => ih hu) ht

end Tasks

/-! ### Moments -/

section Moments
variable {ctx : Context} {program : Block}

/-- What comes back to the scope of its chain asks for tasks where they are placed. -/
theorem Asks.placed {α : Type} {x : Runner → Exec α} {chain : Chain} {left : Nat} {c d : Config} {u : Task}
    (hx : ∀ runner other : Runner, (∀ v inner, v.Placed program inner →
      Exec.Stays program inner (runner v) (other v)) → Exec.Stays program chain (x runner) (x other))
    (hc : c.Inside program chain) (hasks : Asks x (ctx.perform left) c u d) :
    ∃ inner : Chain, u.Placed program inner ∧ d.Inside program inner := by
  refine hasks.only (P := fun v e => ∃ inner : Chain, v.Placed program inner ∧ e.Inside program inner)
    fun other hother => (hx _ _ (fun v inner hv e he => ?_) c hc).1
  obtain ⟨-, hreturns⟩ := perform_stays left hv e he
  exact ⟨hother v e ⟨inner, hv, he⟩, hreturns⟩

theorem Config.inside_start (program : Block) : Config.Inside program [] {} where
  within := trivial
  outlined := outlined_start program
  scope := ScopeArena.At.root

/-- The outermost part of a run comes back to the root. -/
theorem Run.outermost_stays (runner other : Runner)
    (hrunner : ∀ v inner, v.Placed program inner → Exec.Stays program inner (runner v) (other v)) :
    Exec.Stays program [] (outermost ctx program runner) (outermost ctx program other) :=
  block_stays hrunner (List.mem_singleton_self _) (Exec.stays_of_still (fun _ => rfl) fun _ => rfl)

/-- Every task of a run is begun in the scope of a chain in which it may be done. -/
theorem Moment.placed {depth left : Nat} {t : Task} {c : Config}
    (h : Moment ctx (Run.outermost ctx program) depth left t c) :
    ∃ chain : Chain, t.Placed program chain ∧ c.Inside program chain := by
  induction h with
  | first hasks => exact hasks.placed Run.outermost_stays (Config.inside_start program)
  | next _ hasks ih =>
    obtain ⟨chain, hplaced, hinside⟩ := ih
    exact hasks.placed (fun _ _ hrunner => advance_stays hrunner hplaced) hinside

end Moments

/-! ### Distinct blocks -/

/-- The scopes of an arena mirror the tree of the blocks of a program. -/
structure Outlines (program : Block) (scopes : Scopes) : Prop where
  /-- Scope 0 is there, and is the only one without a parent. -/
  root : 0 < scopes.size ∧ ∀ (id : ScopeId) (scope : Scope BlockId FunctionDefinition),
    scopes.scopes[id]? = some scope → (scope.parent = none ↔ id = 0)
  /-- Every other scope belongs to exactly one block of the program. -/
  block : ∀ id, 0 < id → id < scopes.size →
    ∃ block ∈ program.ids, scopes.Belongs id block ∧ ∀ other, scopes.Belongs id other → other = block
  /-- No block has two scopes. -/
  single : ∀ block i j, scopes.Belongs i block → scopes.Belongs j block → i = j
  /-- The parent of the scope of a block is the scope of the block directly around it, or the root, and was
  made before. -/
  parent : ∀ (id outer : ScopeId) (scope : Scope BlockId FunctionDefinition) (block : BlockId),
    scopes.scopes[id]? = some scope → scope.parent = some outer → scopes.Belongs id block →
      outer < id ∧ ∃ around, (around, block) ∈ program.edges none ∧
        match around with
        | none => outer = 0
        | some around => scopes.Belongs outer around
  /-- There are no more scopes than blocks, and the root. -/
  size : scopes.size ≤ 1 + program.ids.length

namespace Outlined
variable {program : Block} {scopes : Scopes} (h : Outlined program scopes)
include h

/-- The scope of a block is reached by a chain with that block innermost. -/
theorem reaches {id : ScopeId} {block : BlockId} (hid : scopes.Belongs id block) :
    ∃ region outer, Chain.In program (region :: outer) ∧ region.id = block ∧
      scopes.At id (Chain.ids (region :: outer)) := by
  obtain ⟨around, scope, hscope, hmem⟩ := hid
  obtain ⟨-, inner, hinner, -⟩ := h.sound.child hscope hmem
  obtain ⟨chain, -, hat⟩ := h.path hscope
  obtain ⟨chain', hin, hat'⟩ := h.path hinner
  have hids := hat'.unique (.child hat hscope hmem) h.sound
  cases chain' with
  | nil => cases hids
  | cons region outer =>
    obtain ⟨hblock, -⟩ := List.cons.inj hids
    exact ⟨region, outer, hin, hblock, hat'⟩

/-- A scope belongs to one block. -/
theorem belongs_unique {id : ScopeId} {a b : BlockId} (ha : scopes.Belongs id a) (hb : scopes.Belongs id b) :
    a = b := by
  obtain ⟨region, outer, -, rfl, hat⟩ := h.reaches ha
  obtain ⟨region', outer', -, rfl, hat'⟩ := h.reaches hb
  exact (List.cons.inj (hat.unique hat' h.sound)).1

/-- A distinct block has one scope. -/
theorem single (hdistinct : program.ids.Nodup) {i j : ScopeId} {block : BlockId}
    (hi : scopes.Belongs i block) (hj : scopes.Belongs j block) : i = j := by
  obtain ⟨region, outer, hin, hid, hat⟩ := h.reaches hi
  obtain ⟨region', outer', hin', hid', hat'⟩ := h.reaches hj
  have hids := Chain.ids_unique hdistinct hin hin' (congrArg some (hid.trans hid'.symm))
  rw [hids] at hat
  exact h.at_unique hat hat'

/-- The scope of a block has a parent, which is that of the block around it or the root. -/
theorem parent {id outer : ScopeId} {scope : Scope BlockId FunctionDefinition} {block : BlockId}
    (hscope : scopes.scopes[id]? = some scope) (hparent : scope.parent = some outer)
    (hid : scopes.Belongs id block) :
    outer < id ∧ ∃ around, (around, block) ∈ program.edges none ∧
      match around with
      | none => outer = 0
      | some around => scopes.Belongs outer around := by
  obtain ⟨region, chain, hin, rfl, hat⟩ := h.reaches hid
  obtain ⟨scope', outer', hscope', hparent', houter⟩ := ScopeArena.At.outer hat h.sound
  obtain rfl := Option.some.inj (hscope.symm.trans hscope')
  obtain rfl := Option.some.inj (hparent.symm.trans hparent')
  refine ⟨?_, Chain.innermost chain, Chain.edge hin, ?_⟩
  · obtain ⟨around, scope', haround, hmem⟩ := hid
    obtain ⟨hless, inner, hinner, hparent'⟩ := h.sound.child haround hmem
    obtain rfl := Option.some.inj (hscope.symm.trans hinner)
    obtain rfl := Option.some.inj (hparent.symm.trans hparent')
    exact hless
  · cases chain with
    | nil =>
      cases houter
      rfl
    | cons region' chain' =>
      cases houter with
      | child _ haround hmem => exact ⟨_, _, haround, hmem⟩

/-- Every scope but the root belongs to a block of the program. -/
theorem exists_block {id : ScopeId} (hpos : 0 < id) (hsize : id < scopes.size) :
    ∃ block ∈ program.ids, scopes.Belongs id block := by
  obtain ⟨scope, hscope⟩ : ∃ scope, scopes.scopes[id]? = some scope :=
    ⟨_, Array.getElem?_eq_getElem hsize⟩
  obtain ⟨chain, hin, hat⟩ := h.path hscope
  cases chain with
  | nil =>
    cases hat
    exact absurd hpos (Nat.lt_irrefl 0)
  | cons region outer =>
    refine ⟨region.id, ?_, ?_⟩
    · rw [← program.map_edges none]
      exact List.mem_map.mpr ⟨_, Chain.edge hin, rfl⟩
    · cases hat with
      | child _ haround hmem => exact ⟨_, _, haround, hmem⟩

/-- Different scopes belong to different blocks, so there are no more of them. -/
theorem size_le (hdistinct : program.ids.Nodup) : scopes.size ≤ 1 + program.ids.length := by
  have hblock (i : Fin (scopes.size - 1)) : ∃ block ∈ program.ids, scopes.Belongs (i.val + 1) block := by
    have hsize : i.val + 1 < scopes.size := Nat.add_lt_of_lt_sub i.isLt
    exact h.exists_block (Nat.succ_pos _) hsize
  choose block hmem hbelongs using hblock
  have hinjective : Function.Injective block := by
    intro i j hsame
    have hsucc := h.single hdistinct (hbelongs i) (hsame ▸ hbelongs j)
    exact Fin.ext (Nat.succ.inj hsucc)
  have hsub : List.ofFn block ⊆ program.ids := by
    intro id hid
    obtain ⟨i, rfl⟩ := List.mem_ofFn.mp hid
    exact hmem i
  have hlength := ((List.nodup_ofFn.mpr hinjective).subperm hsub).length_le
  rw [List.length_ofFn] at hlength
  omega

theorem outlines (hdistinct : program.ids.Nodup) : Outlines program scopes where
  root := by
    obtain ⟨root, hroot, hnone⟩ := h.sound.root
    refine ⟨ScopeArena.lt_size hroot, fun id scope hscope => ⟨fun horphan => ?_, ?_⟩⟩
    · by_contra hid
      obtain ⟨block, -, hbelongs⟩ := h.exists_block (Nat.pos_of_ne_zero hid) (ScopeArena.lt_size hscope)
      obtain ⟨region, chain, -, -, hat⟩ := h.reaches hbelongs
      obtain ⟨scope', outer, hscope', hparent, -⟩ := ScopeArena.At.outer hat h.sound
      obtain rfl := Option.some.inj (hscope.symm.trans hscope')
      cases horphan.symm.trans hparent
    · rintro rfl
      obtain rfl := Option.some.inj (hroot.symm.trans hscope)
      exact hnone
  block id hpos hsize := by
    obtain ⟨block, hmem, hbelongs⟩ := h.exists_block hpos hsize
    exact ⟨block, hmem, hbelongs, fun other hother => h.belongs_unique hother hbelongs⟩
  single _ _ _ hi hj := h.single hdistinct hi hj
  parent _ _ _ _ hscope hparent hid := h.parent hscope hparent hid
  size := h.size_le hdistinct

end Outlined

/-- Whatever a program with distinct blocks executes, at every moment the scopes mirror the tree of its
blocks; and every task, whether it returns or fails, comes back to the scope it was begun in. -/
theorem scopes_mirror_blocks {program : Block} (hdistinct : program.ids.Nodup) (options : Options)
    (depth : Nat) :
    let ctx := Run.context options
    (∀ left t c, Moment ctx (Run.outermost ctx program) depth left t c →
      Outlines program c.scopes ∧ Outlines program (ctx.perform left t c).2.scopes ∧
        (ctx.perform left t c).2.activation.scope = c.activation.scope) ∧
    Outlines program (Run.program ctx depth program {}).2.scopes ∧
    (Run.program ctx depth program {}).2.activation.scope = 0 := by
  intro ctx
  refine ⟨fun left t c hmoment => ?_, ?_⟩
  · obtain ⟨chain, hplaced, hinside⟩ := hmoment.placed
    obtain ⟨-, hreturns⟩ := perform_stays left hplaced c hinside
    exact ⟨hinside.outlined.outlines hdistinct, hreturns.outlined.outlines hdistinct, hreturns.scope⟩
  · have hstays : Exec.Stays program [] (Run.program ctx depth program) (Run.program ctx depth program) :=
      Run.outermost_stays _ _ fun v inner hv => perform_stays depth hv
    obtain ⟨-, hreturns⟩ := hstays {} (Config.inside_start program)
    exact ⟨hreturns.outlined.outlines hdistinct, hreturns.scope⟩

theorem scopes_mirror_blocks_sample :
    Sample.program.ids.Nodup ∧
      Outlines Sample.program (Run.program (Run.context Sample.options) 20 Sample.program {}).2.scopes := by
  have hdistinct : Sample.program.ids.Nodup := by decide
  exact ⟨hdistinct, (scopes_mirror_blocks hdistinct Sample.options 20).2.1⟩

end BlockIR
