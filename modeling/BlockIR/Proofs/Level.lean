import BlockIR.Proofs.Arena
import BlockIR.Proofs.Depth
import BlockIR.Proofs.Lexical
import BlockIR.Proofs.Limit

/-! The nesting level of an activation.

An activation starts at the level of the call that it belongs to. Each of its
statements evaluates from there, and every literal, variable and call that is
evaluated goes one level deeper, never beyond the bound. So while an activation
lasts its base stays what it is and its level is between the base and the bound
(`Config.Held`); only a call of a function is a task with another base, that of
the level it is made at (`Task.Stands.asks`).

The functions that can be called at all are those that stand in the text that is
run, so a property of texts that is inherited by their parts (`Task.Hereditary`)
holds of the bodies as well. -/
namespace BlockIR

/-- A property of tasks that the parts of their texts inherit, and the bodies of functions. -/
structure Task.Hereditary (Good : Task → Prop) : Prop where
  part : ∀ {t u : Task}, Good t → t.Part u → Good u
  body : ∀ {b : Block} {f : FunctionDefinition}, Good (.block b) → f ∈ b.functions → Good (.block f.body)

/-! ### Functions of an arena -/

namespace ScopeArena
variable {κ φ : Type} {P : φ → Prop} {arena later : ScopeArena κ φ} {id : ScopeId}

/-- Every function that is declared in the arena has the property. -/
def Functions (P : φ → Prop) (arena : ScopeArena κ φ) : Prop :=
  ∀ (id : ScopeId) (scope : Scope κ φ) (name : String) (f : φ), arena.scopes[id]? = some scope →
    scope.names[name]? = some (.ofFunction f) → P f

theorem functions_start : (start : ScopeArena κ φ).Functions P := by
  intro id scope name f hscope hname
  match id with
  | 0 =>
    cases hscope
    have hnone : (∅ : Std.ExtTreeMap String (Binding φ))[name]? = none := Std.ExtTreeMap.getElem?_empty
    cases hnone.symm.trans hname
  | _ + 1 => cases hscope

theorem Functions.enter [BEq κ] [LawfulBEq κ] {block : κ} {child : ScopeId} (h : arena.Functions P)
    (henter : arena.enter id block = .ok (child, later)) : later.Functions P := by
  rcases hscope : arena.scopes[id]? with _ | scope
  · unfold ScopeArena.enter at henter
    rw [get_eq_error hscope] at henter
    cases henter
  · rcases enter_cases hscope block with ⟨_, -, heq⟩ | ⟨-, heq⟩
    · cases heq.symm.trans henter
      exact h
    · cases heq.symm.trans henter
      intro other inner name f hinner hname
      rcases link_eq_some hinner with ⟨-, rfl⟩ | ⟨old, hold, -, hnames, -⟩
      · simp at hname
      · exact h other old name f hold (hnames ▸ hname)

theorem Functions.declare {name : String} {binding : Binding φ} (h : arena.Functions P)
    (hbinding : ∀ f, binding = .ofFunction f → P f)
    (hdeclare : arena.declare id name binding = .ok later) : later.Functions P := by
  rcases hscope : arena.scopes[id]? with _ | scope
  · unfold ScopeArena.declare at hdeclare
    rw [get_eq_error hscope] at hdeclare
    cases hdeclare
  · cases (declare_eq hscope).symm.trans hdeclare
    intro other inner name' f hinner hname'
    obtain ⟨old, hold, -, -, hnames⟩ := rename_eq_some hinner
    rw [hnames] at hname'
    split at hname'
    · rw [Std.ExtTreeMap.getElem?_insert] at hname'
      split at hname'
      · exact hbinding f (Option.some.inj hname')
      · exact h other old name' f hold hname'
    · exact h other old name' f hold hname'

theorem Functions.lookup {name : String} {found : ScopeId × φ} (h : arena.Functions P)
    (hlookup : arena.lookup id name = .ok (some found)) : P found.2 := by
  obtain ⟨scope, hscope, hname⟩ := lookup_eq_some hlookup
  exact h found.1 scope name found.2 hscope hname

end ScopeArena

/-! ### What is kept while an activation lasts -/

/-- Where the configuration is as `I` says, `y` does what `x` does, and after a value `I` holds again. -/
def Exec.Preserves {α : Type} (I : Config → Prop) (x y : Exec α) : Prop :=
  ∀ c, I c → y c = x c ∧ ∀ a, (x c).1 = .ok a → I (x c).2

namespace Exec
variable {α β : Type} {I : Config → Prop}

theorem preserves_of_ok {x : Exec α} (h : ∀ c a d, I c → x c = (.ok a, d) → I d) : Preserves I x x :=
  fun c hc => ⟨rfl, fun a ha => h c a _ hc (Prod.ext ha rfl)⟩

theorem preserves_of_eq {x : Exec α} (h : ∀ c, (x c).2 = c) : Preserves I x x := by
  apply preserves_of_ok
  intro c a d hc hx
  have hd : d = c := by
    rw [← h c, hx]
  rw [hd]
  exact hc

theorem Preserves.bind {x y : Exec α} {f g : α → Exec β} (hx : Preserves I x y)
    (hf : ∀ a, Preserves I (f a) (g a)) : Preserves I (x >>= f) (y >>= g) := by
  intro c hc
  obtain ⟨heq, hkept⟩ := hx c hc
  rw [Effect.bind_apply, Effect.bind_apply, heq]
  rcases hresult : x c with ⟨stop | a, d⟩ <;> rw [hresult] at hkept
  · exact ⟨rfl, nofun⟩
  · exact hf a d (hkept a rfl)

theorem Preserves.ensuring {x y : Exec α} {restore : Exec Unit} (hx : Preserves I x y)
    (hrestore : Preserves I restore restore) : Preserves I (x.ensuring restore) (y.ensuring restore) := by
  intro c hc
  obtain ⟨heq, hkept⟩ := hx c hc
  refine ⟨?_, fun a ha => ?_⟩
  · unfold Effect.ensuring
    rw [heq]
  · obtain ⟨d, hd, hr⟩ := Effect.ensuring_eq_ok (Prod.ext ha rfl : x.ensuring restore c = (.ok a, _))
    rw [hd] at hkept
    have hlast := (hrestore d (hkept a rfl)).2 ()
    rw [hr] at hlast
    exact hlast rfl

end Exec

/-- The current activation has this base and is at this level or deeper, within the bound, and all
functions are good. -/
structure Config.Held (Good : Task → Prop) (bound base low : Nat) (c : Config) : Prop where
  base : c.activation.base = base
  low : low ≤ c.activation.level
  high : c.activation.level ≤ bound
  functions : c.scopes.Functions fun f => Good (.block f.body)

namespace Config.Held
variable {Good : Task → Prop} {bound base low : Nat} {c d : Config}

/-- Scopes, base and level are all that matters. -/
theorem of_eq (h : c.Held Good bound base low) (hscopes : d.scopes = c.scopes)
    (hbase : d.activation.base = c.activation.base) (hlevel : d.activation.level = c.activation.level) :
    d.Held Good bound base low where
  base := hbase.trans h.base
  low := hlevel ▸ h.low
  high := hlevel ▸ h.high
  functions := hscopes ▸ h.functions

end Config.Held

section Holding
open Exec
variable {Good : Task → Prop} {options : Options} {base low : Nat}

/-- Going deeper within the bound. -/
theorem deepen_held (hbound : 0 < options.setting.maxNesting) {c d : Config} {a : Unit}
    (h : c.Held Good options.setting.maxNesting base low)
    (hok : deepen (Run.context options) c = (.ok a, d)) :
    d.Held Good options.setting.maxNesting base (low + 1) := by
  rw [deepen_apply] at hok
  dsimp only at hok
  split at hok
  · cases hok
  · rename_i hshallow
    rw [Run.tooDeep_iff] at hshallow
    cases hok
    exact ⟨h.base, Nat.succ_le_succ h.low, by dsimp only; omega, h.functions⟩

/-- Evaluating keeps the base and goes no level up. -/
theorem held_evaluates (hbound : 0 < options.setting.maxNesting) :
    (Run.context options).Evaluates (Run.context options)
      fun _ x y => Preserves (Config.Held Good options.setting.maxNesting base low) x y where
  dialect := rfl
  pure _ := preserves_of_eq fun _ => rfl
  fail _ := preserves_of_eq fun _ => rfl
  valueOf name := preserves_of_eq fun c => by rw [valueOf_apply]
  deepen := by
    apply preserves_of_ok
    intro c a d hc hok
    have h := deepen_held hbound hc hok
    exact ⟨h.base, Nat.le_of_succ_le h.low, h.high, h.functions⟩
  builtin _ _ := by
    apply preserves_of_ok
    intro c a d hc hok
    rw [onMachine_apply] at hok
    obtain ⟨-, rfl⟩ := Prod.mk.inj hok
    exact hc.of_eq rfl rfl rfl
  bind := Preserves.bind

theorem held_modify {f : Config → Config} (hscopes : ∀ c, (f c).scopes = c.scopes)
    (hbase : ∀ c, (f c).activation.base = c.activation.base)
    (hlevel : ∀ c, (f c).activation.level = c.activation.level) :
    Preserves (Config.Held Good options.setting.maxNesting base low) (Effect.modify f) (Effect.modify f) := by
  apply preserves_of_ok
  intro c a d hc hok
  cases hok
  exact hc.of_eq (hscopes c) (hbase c) (hlevel c)

theorem held_enterScope (block : BlockId) :
    Preserves (Config.Held Good options.setting.maxNesting base low) (enterScope block)
      (enterScope block) := by
  apply preserves_of_ok
  intro c a d hc hok
  obtain ⟨_, _, hget, hrest⟩ := Effect.bind_eq_ok hok
  cases hget
  obtain ⟨⟨child, later⟩, _, henter, hmodify⟩ := Effect.bind_eq_ok hrest
  rcases hresult : c.scopes.enter c.activation.scope block with _ | _ <;>
    rw [hresult] at henter <;> cases henter
  cases hmodify
  exact ⟨hc.base, hc.low, hc.high, hc.functions.enter hresult⟩

theorem held_declare {name : String} {binding : Binding FunctionDefinition}
    (hbinding : ∀ f, binding = .ofFunction f → Good (.block f.body)) :
    Preserves (Config.Held Good options.setting.maxNesting base low) (declare name binding)
      (declare name binding) := by
  apply preserves_of_ok
  intro c a d hc hok
  obtain ⟨_, _, hget, hrest⟩ := Effect.bind_eq_ok hok
  cases hget
  obtain ⟨later, _, hdeclare, hmodify⟩ := Effect.bind_eq_ok hrest
  rcases hresult : c.scopes.declare c.activation.scope name binding with _ | _ <;>
    rw [hresult] at hdeclare <;> cases hdeclare
  cases hmodify
  exact ⟨hc.base, hc.low, hc.high, hc.functions.declare hbinding hresult⟩

theorem held_leaveScope :
    Preserves (Config.Held Good options.setting.maxNesting base low) leaveScope leaveScope := by
  apply preserves_of_ok
  intro c a d hc hok
  unfold leaveScope at hok
  rcases hleave : c.scopes.leave c.activation.scope c.activation.bindings with ⟨_ | _, _⟩ <;>
    rw [hleave] at hok <;> cases hok
  exact hc.of_eq rfl rfl rfl

/-- Statements start again from the base. -/
theorem held_congruence (hbound : 0 < options.setting.maxNesting) :
    (Run.context options).Congruence (Run.context options)
      fun _ x y => Preserves (Config.Held Good options.setting.maxNesting base base) x y where
  toEvaluates := held_evaluates hbound
  count := by
    apply preserves_of_ok
    intro c a d hc hok
    rw [onMachine_apply] at hok
    obtain ⟨-, rfl⟩ := Prod.mk.inj hok
    exact hc.of_eq rfl rfl rfl
  look _ := preserves_of_eq fun _ => rfl
  pending := preserves_of_eq fun _ => rfl
  reset := held_modify (fun _ => rfl) (fun _ => rfl) fun _ => rfl
  gets _ := preserves_of_eq fun _ => rfl
  signal _ := held_modify (fun _ => rfl) (fun _ => rfl) fun _ => rfl
  restart := by
    apply preserves_of_ok
    intro c a d hc hok
    cases hok
    have hhigh : c.activation.base ≤ options.setting.maxNesting := by
      rw [hc.base]
      exact Nat.le_trans hc.low hc.high
    exact ⟨hc.base, Nat.le_of_eq hc.base.symm, hhigh, hc.functions⟩
  put _ _ := held_modify (fun _ => rfl) (fun _ => rfl) fun _ => rfl
  declareVariable _ := held_declare nofun
  enterScope _ := held_enterScope _
  leaving hx := hx.ensuring held_leaveScope

end Holding

/-! ### Tasks -/

/-- The activations that a task opens itself. -/
def Task.calls : Task → Nat
  | .invoke _ _ => 1
  | _ => 0

namespace Task

/-- An expression or a call; the level is not set back by these. -/
def Evaluation : Task → Prop
  | .expression _ | .invoke _ _ => True
  | _ => False

theorem Part.evaluation {e : Expr} {u : Task} (h : Part (.expression e) u) : u.Evaluation := by
  cases h <;> trivial

end Task

section Performing
open Exec
variable {Good : Task → Prop} (hgood : Task.Hereditary Good) {options : Options}

include hgood in
/-- Declaring the functions of a good block. -/
theorem held_functions {b : Block} (hb : Good (.block b)) {base low : Nat} : ∀ f ∈ b.functions,
    Preserves (Config.Held Good options.setting.maxNesting base low) (declare f.name (.ofFunction f))
      (declare f.name (.ofFunction f)) := by
  intro f hf
  apply held_declare
  intro g hg
  cases hg
  exact hgood.body hb hf

variable (hbound : 0 < options.setting.maxNesting)
include hbound

/-- A call comes back to the activation it was made in. -/
theorem invoke_preserves {runner : Runner} (base low : Nat)
    (hrunner : ∀ b level, Good (.block b) →
      Preserves (Config.Held Good options.setting.maxNesting level level) (runner (.block b))
        (runner (.block b)))
    (name : String) (args : List Word) :
    Preserves (Config.Held Good options.setting.maxNesting base low) (runner.invoke name args)
      (runner.invoke name args) := by
  apply preserves_of_ok
  intro c a d hc hok
  rcases invoke_cases name args c with ⟨e, he⟩ | ⟨scope, f, hfound, hcount⟩
  · rw [he] at hok
    cases hok
  · rw [invoke_of_found hfound hcount, within_apply] at hok
    obtain ⟨hvalue, rfl⟩ := Prod.mk.inj hok
    have cong : (Run.context options).Congruence (Run.context options) fun _ x y =>
        Preserves (Config.Held Good options.setting.maxNesting c.activation.level c.activation.level) x y :=
      held_congruence hbound
    have hbody := cong.bind (cong.run (hrunner f.body c.activation.level (hc.functions.lookup hfound)))
      fun _ => cong.bind (cong.signal .proceed) fun _ => cong.valuesOf f.returns
    have hinner := (hbody (c.callee scope f args) ⟨rfl, Nat.le_refl _, hc.high, hc.functions⟩).2 a hvalue
    exact ⟨hc.base, hc.low, hc.high, hinner.functions⟩

include hgood

/-- Doing a task keeps the base and, if it evaluates, goes no level up. -/
theorem perform_preserves (depth : Nat) {t : Task} (ht : Good t) {base low : Nat}
    (hlow : t.Evaluation ∨ low = base) :
    Preserves (Config.Held Good options.setting.maxNesting base low)
      ((Run.context options).perform depth t) ((Run.context options).perform depth t) := by
  induction depth generalizing t base low with
  | zero => exact preserves_of_ok fun _ _ _ _ hok => nomatch hok
  | succ depth ih =>
    have hcalls (name : String) (args : List Word) (hcall : t = .invoke name args) :
        Preserves (Config.Held Good options.setting.maxNesting base low)
          ((Run.context options).perform (depth + 1) t) ((Run.context options).perform (depth + 1) t) := by
      subst hcall
      exact invoke_preserves hbound base low (fun b level hb => ih hb (.inr rfl)) name args
    have hothers (hsame : low = base) (hcall : ∀ name args, t ≠ .invoke name args) :
        Preserves (Config.Held Good options.setting.maxNesting base low)
          ((Run.context options).perform (depth + 1) t) ((Run.context options).perform (depth + 1) t) := by
      subst hsame
      refine (held_congruence hbound).advance t hcall ?_ fun u hu => ih (hgood.part ht hu) (.inr rfl)
      rintro b rfl
      exact held_functions hgood ht
    cases t with
    | expression e =>
      exact (held_evaluates hbound).expression e fun u hu => ih (hgood.part ht hu) (.inl hu.evaluation)
    | invoke name args => exact hcalls name args rfl
    | statement s => exact hothers (hlow.resolve_left id) nofun
    | block b => exact hothers (hlow.resolve_left id) nofun
    | rounds l => exact hothers (hlow.resolve_left id) nofun

end Performing

/-! ### What is asked for -/

section Asking
variable {α : Type} {runner : Runner} {c d : Config} {u : Task}

/-- A part that keeps `I`, as long as the tasks of `T` do, asks for these only, and where `I` holds. -/
theorem Asks.confined {x : Runner → Exec α} {I : Config → Prop} {T : Task → Prop}
    (hrunner : ∀ v, T v → Exec.Preserves I (runner v) (runner v))
    (h : ∀ other : Runner, (∀ v, T v → Exec.Preserves I (runner v) (other v)) →
      Exec.Preserves I (x runner) (x other))
    (hc : I c) (hasks : Asks x runner c u d) : T u ∧ I d := by
  refine hasks.only (P := fun v e => T v ∧ I e) fun other hother => ?_
  exact (h other (fun v hv e he => ⟨hother v e ⟨hv, he⟩, (hrunner v hv e he).2⟩) c hc).1

variable {Good : Task → Prop} (hgood : Task.Hereditary Good) {options : Options}
  (hbound : 0 < options.setting.maxNesting)
include hgood hbound

/-- An expression asks for its arguments and for its call, each at a deeper level. -/
theorem asks_deeper {depth base low : Nat} {e : Expr} (he : Good (.expression e))
    (hc : c.Held Good options.setting.maxNesting base low)
    (hasks : Asks (fun runner => (Run.context options).advance runner (.expression e))
      ((Run.context options).perform depth) c u d) :
    Task.Part (.expression e) u ∧ d.Held Good options.setting.maxNesting base (low + 1) := by
  cases e with
  | literal literal => exact absurd (fun _ => rfl) hasks.not_const
  | identifier name => exact absurd (fun _ => rfl) hasks.not_const
  | call name args =>
    have hcall : Asks (fun runner => Exec.deepen (Run.context options) >>= fun _ =>
        runner.arguments ((Run.context options).dialect.wantsLiteral name) 0 args >>= fun values =>
          (Run.context options).apply runner name args values)
        ((Run.context options).perform depth) c u d := hasks
    obtain ⟨_, deepened, hdeepen, hrest⟩ := hcall.after
    have cong : (Run.context options).Evaluates (Run.context options) fun _ x y =>
        Exec.Preserves (Config.Held Good options.setting.maxNesting base (low + 1)) x y := held_evaluates hbound
    refine hrest.confined (fun v hv => perform_preserves hgood hbound depth (hgood.part he hv)
      (.inl hv.evaluation)) (fun other hother => ?_) (deepen_held hbound hc hdeepen)
    exact cong.bind (cong.arguments _ args 0 fun _ harg => hother _ (.argument harg)) fun values =>
      cong.apply name args values (hother _ .callee)

/-- Any other task but a call asks for parts of it, with the base it has itself. -/
theorem asks_part {depth base : Nat} {t : Task} (ht : Good t) (hcall : ∀ name args, t ≠ .invoke name args)
    (hc : c.Held Good options.setting.maxNesting base base)
    (hasks : Asks (fun runner => (Run.context options).advance runner t)
      ((Run.context options).perform depth) c u d) :
    t.Part u ∧ d.Held Good options.setting.maxNesting base base := by
  refine hasks.confined (fun v hv => perform_preserves hgood hbound depth (hgood.part ht hv) (.inr rfl))
    (fun other hother => (held_congruence hbound).advance t hcall ?_ hother) hc
  rintro b rfl
  exact held_functions hgood ht

end Asking

/-! ### From a task to the next -/

/-- The level from which the expressions of an activation start: the current one, or the one that a call
is about to open. -/
def Task.reach : Task → Config → Nat
  | .invoke _ _, c => c.activation.level
  | _, c => c.activation.base

/-- A good task, begun in an activation whose level is between its base and the bound. -/
structure Task.Stands (Good : Task → Prop) (bound : Nat) (t : Task) (c : Config) : Prop where
  good : Good t
  held : c.Held Good bound c.activation.base c.activation.base

namespace Task.Stands
variable {Good : Task → Prop} {bound : Nat} {t u : Task} {c d : Config}

theorem reach_le (h : t.Stands Good bound c) : t.reach c ≤ bound := by
  have hbase := Nat.le_trans h.held.low h.held.high
  cases t <;> first | exact h.held.high | exact hbase

/-- What a task asks for stands as well, and reaches deeper if it is a call. Only a call asks for what is
no part of it, which is the body of a function. -/
theorem asks (hgood : Task.Hereditary Good) {options : Options} (hbound : 0 < options.setting.maxNesting)
    {left : Nat} (h : t.Stands Good options.setting.maxNesting c)
    (hasks : Asks (fun runner => (Run.context options).advance runner t)
      ((Run.context options).perform left) c u d) :
    u.Stands Good options.setting.maxNesting d ∧ t.reach c + u.calls ≤ u.reach d ∧
      (t.Part u ∨ t.calls = 1 ∧ ∃ b, u = .block b) := by
  by_cases hcall : ∃ name args, t = .invoke name args
  · obtain ⟨name, args, rfl⟩ := hcall
    rcases Exec.invoke_cases name args c with ⟨e, he⟩ | ⟨scope, f, hfound, hcount⟩
    · exact absurd (fun _ => he _) hasks.not_const
    · obtain ⟨rfl, rfl⟩ := (invoke_asks_iff hfound hcount).mp hasks
      have hbody : Good (.block f.body) := h.held.functions.lookup hfound
      exact ⟨⟨hbody, rfl, Nat.le_refl _, h.held.high, h.held.functions⟩, Nat.le_refl _, .inr ⟨rfl, _, rfl⟩⟩
  · have hcall : ∀ name args, t ≠ .invoke name args := fun name args ht => hcall ⟨name, args, ht⟩
    obtain ⟨hpart, hheld⟩ := asks_part hgood hbound h.good hcall h.held hasks
    have hstands : u.Stands Good options.setting.maxNesting d :=
      ⟨hgood.part h.good hpart, hheld.base ▸ hheld⟩
    have hreach : t.reach c = c.activation.base := by
      cases t <;> first | rfl | exact absurd rfl (hcall _ _)
    refine ⟨hstands, ?_, .inl hpart⟩
    rw [hreach, ← hheld.base]
    cases hpart with
    | callee =>
      obtain ⟨-, hdeeper⟩ := asks_deeper hgood hbound h.good h.held hasks
      have hlow := hdeeper.low
      rwa [← hheld.base] at hlow
    | _ => exact Nat.le_refl _

end Task.Stands
end BlockIR
