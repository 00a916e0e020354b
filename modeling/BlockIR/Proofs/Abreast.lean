import BlockIR.Proofs.Beside
import BlockIR.Proofs.Congruence

/-! Runs of different texts abreast.

Two runs of one context go on abreast although their texts, their scopes and the
depths they need differ: their machines agree but for the count, the same
variables have the same values, and expressions start from the same level if
levels are limited (`Config.Abreast`). Some names may be hidden; these are
variables of the second run alone.

Since the runs need different depths, one of them may answer where the other does
not. So a statement about both is made for the case that a given side answers
(`Side.Answers`); it says that the other side answers as well, and the same
(`Exec.Tallies`). A run that fails as no run of a checked program does has gone
astray, and nothing is said about it. -/
namespace BlockIR

/-- One of two runs. -/
inductive Side where
  | left
  | right

/-- The run on that side has come to a result. -/
def Side.Answers {α β : Type} : Side → Except Stop α → Except Stop β → Prop
  | left, r, _ => r ≠ .error .outOfDepth
  | right, _, r => r ≠ .error .outOfDepth

/-- The current scope has been made. -/
def Config.Seated (c : Config) : Prop := ∃ scope, c.scopes.scopes[c.activation.scope]? = some scope

/-- Names can be declared in the current scope. -/
theorem Config.Seated.declare {c : Config} (h : c.Seated) (name : String) (binding : Binding FunctionDefinition) :
    ∃ later, c.scopes.declare c.activation.scope name binding = .ok later ∧
      Config.Seated { c with scopes := later } := by
  obtain ⟨scope, hscope⟩ := h
  obtain ⟨new, hnew, -⟩ := ScopeArena.eq_some_rename c.activation.scope
    (fun names => names.insert name binding) hscope
  exact ⟨_, ScopeArena.declare_eq hscope, new, hnew⟩

/-- Two runs stand abreast: what their programs can see is the same, apart from hidden variables of the
second one. -/
structure Config.Abreast (ctx : Context) (hidden : String → Prop) (c d : Config) : Prop where
  machine : c.machine.Beside (fun _ _ => True) d.machine
  bindings : ∀ name, ¬hidden name → d.activation.bindings[name]? = c.activation.bindings[name]?
  unbound : ∀ name, hidden name → c.activation.bindings[name]? = none
  levels : ctx.setting.maxNesting = 0 ∨
    d.activation.base = c.activation.base ∧ d.activation.level = c.activation.level
  seated : c.Seated
  seated' : d.Seated

/-- More may be hidden if it is not bound on the left. -/
theorem Config.Abreast.hiding {ctx : Context} {hidden hidden' : String → Prop} {c d : Config}
    (h : c.Abreast ctx hidden d) (hmore : ∀ name, hidden name → hidden' name)
    (hunbound : ∀ name, hidden' name → c.activation.bindings[name]? = none) : c.Abreast ctx hidden' d where
  machine := h.machine
  bindings name hname := h.bindings name (mt (hmore name) hname)
  unbound := hunbound
  levels := h.levels
  seated := h.seated
  seated' := h.seated'

/-- How far the second run has counted does not matter. -/
theorem Config.Abreast.recount {ctx : Context} {hidden : String → Prop} {c d : Config} (h : c.Abreast ctx hidden d)
    (steps : Nat) : c.Abreast ctx hidden (d.recount steps) where
  machine := by
    refine ⟨?_, trivial⟩
    show d.machine.recount steps = _
    rw [h.machine.1]
    rfl
  bindings := h.bindings
  unbound := h.unbound
  levels := h.levels
  seated := h.seated
  seated' := h.seated'

/-- What two runs have come to: the same failure, or values and configurations as `Q` says. Nothing is
said if one of them has failed as it could not have. -/
inductive Tally {α β : Type} (agree : Prop) (Q : α → β → Config → Config → Prop) :
    Except Stop α × Config → Except Stop β × Config → Prop
  | strayLeft {stop : Stop} {c : Config} {r : Except Stop β × Config} : ¬stop.Allowed agree →
    Tally agree Q (.error stop, c) r
  | strayRight {stop : Stop} {d : Config} {r : Except Stop α × Config} : ¬stop.Allowed agree →
    Tally agree Q r (.error stop, d)
  | error (stop : Stop) {c d : Config} : c.machine.Beside (fun _ _ => True) d.machine →
    Tally agree Q (.error stop, c) (.error stop, d)
  | ok {a : α} {b : β} {c d : Config} : Q a b c d → Tally agree Q (.ok a, c) (.ok b, d)

theorem Tally.mono {α β : Type} {agree : Prop} {Q Q' : α → β → Config → Config → Prop}
    {r : Except Stop α × Config} {r' : Except Stop β × Config} (h : Tally agree Q r r')
    (himp : ∀ a b c d, Q a b c d → Q' a b c d) : Tally agree Q' r r' := by
  cases h with
  | strayLeft hstray => exact .strayLeft hstray
  | strayRight hstray => exact .strayRight hstray
  | error stop hmachine => exact .error stop hmachine
  | ok h => exact .ok (himp _ _ _ _ h)

namespace Exec
variable {α β γ δ : Type} {side : Side} {agree : Prop} {ctx : Context} {hidden : String → Prop}
  {S S' : Config → Config → Prop}

/-- Started as `S` says, and if that side answers, the parts come to the same, as `Q` says. -/
def Tallies (side : Side) (agree : Prop) (S : Config → Config → Prop) (Q : α → β → Config → Config → Prop)
    (x : Exec α) (y : Exec β) : Prop :=
  ∀ c d, S c d → side.Answers (x c).1 (y d).1 → Tally agree Q (x c) (y d)

namespace Tallies
variable {Q Q' : α → β → Config → Config → Prop} {x : Exec α} {y : Exec β}

theorem mono (h : Tallies side agree S Q x y) (hS : ∀ c d, S' c d → S c d)
    (hQ : ∀ a b c d, Q a b c d → Q' a b c d) : Tallies side agree S' Q' x y :=
  fun c d hcd hanswers => (h c d (hS c d hcd) hanswers).mono hQ

/-- A bind that answers has a first part that does. -/
theorem bind {f : α → Exec γ} {g : β → Exec δ} {R : γ → δ → Config → Config → Prop}
    (h : Tallies side agree S Q x y) (hf : ∀ a b, Tallies side agree (Q a b) R (f a) (g b)) :
    Tallies side agree S R (x >>= f) (y >>= g) := by
  intro c d hcd hanswers
  have hfirst : side.Answers (x c).1 (y d).1 := by
    cases side with
    | left => exact fun hspent => hanswers (congrArg Prod.fst (Effect.bind_of_error (Prod.ext hspent rfl)))
    | right => exact fun hspent => hanswers (congrArg Prod.fst (Effect.bind_of_error (Prod.ext hspent rfl)))
  have htally := h c d hcd hfirst
  rw [Effect.bind_apply, Effect.bind_apply] at hanswers ⊢
  generalize x c = r at htally hanswers
  generalize y d = r' at htally hanswers
  cases htally with
  | strayLeft hstray => exact .strayLeft hstray
  | strayRight hstray => exact .strayRight hstray
  | error stop hmachine => exact .error stop hmachine
  | ok hQ => exact hf _ _ _ _ hQ hanswers

/-- What the first run does alone. -/
theorem step_left {x : Exec γ} {f : γ → Exec α} {a : γ} (hx : ∀ c d, S c d → ∃ c', x c = (.ok a, c') ∧ S' c' d)
    (h : Tallies side agree S' Q (f a) y) : Tallies side agree S Q (x >>= f) y := by
  intro c d hcd
  obtain ⟨c', hrun, hcd'⟩ := hx c d hcd
  rw [Effect.bind_of_ok hrun]
  exact h c' d hcd'

/-- What the second run does alone. -/
theorem step_right {z : Exec δ} {g : δ → Exec β} {b : δ} (hz : ∀ c d, S c d → ∃ d', z d = (.ok b, d') ∧ S' c d')
    (h : Tallies side agree S' Q x (g b)) : Tallies side agree S Q x (z >>= g) := by
  intro c d hcd
  obtain ⟨d', hrun, hcd'⟩ := hz c d hcd
  rw [Effect.bind_of_ok hrun]
  exact h c d' hcd'

/-- The second run may come to another value. -/
theorem ignoring {P : α → Config → Config → Prop} (h : Tallies side agree S (fun a _ c d => P a c d) x y) (b : γ) :
    Tallies side agree S (fun a _ c d => P a c d) x (y >>= fun _ => pure b) := by
  rw [← bind_pure x]
  exact h.bind fun _ _ _ _ hcd _ => .ok hcd

/-- What else is known of the parts when they end in values. -/
theorem knowing (h : Tallies side agree S Q x y) (himp : ∀ c d, S c d → ∀ a b c' d',
    x c = (.ok a, c') → y d = (.ok b, d') → Q a b c' d' → Q' a b c' d') : Tallies side agree S Q' x y := by
  intro c d hcd hanswers
  have htally := h c d hcd hanswers
  have himp' := himp c d hcd
  generalize x c = r at htally himp' ⊢
  generalize y d = r' at htally himp' ⊢
  cases htally with
  | strayLeft hstray => exact .strayLeft hstray
  | strayRight hstray => exact .strayRight hstray
  | error stop hmachine => exact .error stop hmachine
  | ok hQ => exact .ok (himp' _ _ _ _ rfl rfl hQ)

end Tallies

/-- Parts that keep two runs abreast and come to the same value. -/
def Walks (side : Side) (agree : Prop) (ctx : Context) (hidden : String → Prop) : Exec.Relation := fun _ x y =>
  Tallies side agree (Config.Abreast ctx hidden) (fun a b c d => b = a ∧ c.Abreast ctx hidden d) x y

/-! ### Basic parts -/

theorem walks_of_ok {x : Exec α} (h : ∀ c d, c.Abreast ctx hidden d →
    ∃ a c' d', x c = (.ok a, c') ∧ x d = (.ok a, d') ∧ c'.Abreast ctx hidden d') :
    Walks side agree ctx hidden α x x := by
  intro c d hcd _
  obtain ⟨a, c', d', hc, hd, hcd'⟩ := h c d hcd
  rw [hc, hd]
  exact .ok ⟨rfl, hcd'⟩

theorem walks_onMachine {action : Action α} (h : action.Uncounted) :
    Walks side agree ctx hidden α (onMachine action) (onMachine action) := by
  intro c d hcd _
  rw [onMachine_apply, onMachine_apply, hcd.machine.1, h]
  rcases haction : action c.machine with ⟨error | a, m⟩
  · exact .error _ ⟨rfl, trivial⟩
  · exact .ok ⟨rfl, ⟨rfl, trivial⟩, hcd.bindings, hcd.unbound, hcd.levels, hcd.seated, hcd.seated'⟩

theorem walks_setSignal (signal : Signal) :
    Walks side agree ctx hidden Unit (setSignal signal) (setSignal signal) :=
  walks_of_ok fun c d hcd => by
    refine ⟨(), _, _, rfl, rfl, ⟨?_, trivial⟩, hcd.bindings, hcd.unbound, hcd.levels, hcd.seated, hcd.seated'⟩
    show { d.machine with signal := signal } = ({ c.machine with signal := signal } : Machine).recount d.machine.steps
    rw [hcd.machine.1]
    rfl

theorem walks_deepen : Walks side agree ctx hidden Unit (deepen ctx) (deepen ctx) := by
  intro c d hcd _
  rw [deepen_apply, deepen_apply]
  have hmachine : (c.machine.log Machine.nestingLimitLine).Beside (fun _ _ => True)
      (d.machine.log Machine.nestingLimitLine) := by
    rw [hcd.machine.1]
    exact ⟨rfl, trivial⟩
  have htoo : ctx.tooDeep (d.activation.level + 1) = ctx.tooDeep (c.activation.level + 1) := by
    rcases hcd.levels with hnone | ⟨-, hlevel⟩
    · rw [Context.not_tooDeep hnone, Context.not_tooDeep hnone]
    · rw [hlevel]
  dsimp only
  rw [htoo]
  split
  · exact .error _ hmachine
  · refine .ok ⟨rfl, hcd.machine, hcd.bindings, hcd.unbound, ?_, hcd.seated, hcd.seated'⟩
    exact hcd.levels.imp_right fun h => ⟨h.1, congrArg (· + 1) h.2⟩

/-- A hidden variable is not bound on the left, where no run looks for it that was checked. -/
theorem walks_valueOf (hhidden : ∀ name, hidden name → agree) (name : String) :
    Walks side agree ctx hidden Word (valueOf name) (valueOf name) := by
  intro c d hcd _
  rw [valueOf_apply, valueOf_apply]
  by_cases hname : hidden name
  · rw [hcd.unbound name hname]
    exact .strayLeft fun hallowed => absurd (hallowed.2 (hhidden name hname)) Bool.false_ne_true
  · rw [hcd.bindings name hname]
    rcases c.activation.bindings[name]? with _ | value
    · exact .error _ hcd.machine
    · exact .ok ⟨rfl, hcd⟩

theorem walks_look {name : String} (hname : ¬hidden name) :
    Walks side agree ctx hidden (Option Word) (look name) (look name) :=
  walks_of_ok fun c d hcd => by
    refine ⟨_, c, d, rfl, ?_, hcd⟩
    show (Except.ok d.activation.bindings[name]?, d) = _
    rw [hcd.bindings name hname]

theorem walks_put {name : String} (hname : ¬hidden name) (value : Word) :
    Walks side agree ctx hidden Unit (put name value) (put name value) :=
  walks_of_ok fun c d hcd => by
    refine ⟨(), _, _, rfl, rfl, hcd.machine, fun x hx => ?_, fun x hx => ?_, hcd.levels, hcd.seated, hcd.seated'⟩
    · show (d.activation.bindings.insert name value)[x]? = (c.activation.bindings.insert name value)[x]?
      rw [Std.ExtTreeMap.getElem?_insert, Std.ExtTreeMap.getElem?_insert, hcd.bindings x hx]
    · have hother : compare name x ≠ .eq := fun heq => hname (Std.LawfulEqCmp.eq_of_compare heq ▸ hx)
      show (c.activation.bindings.insert name value)[x]? = none
      rw [Std.ExtTreeMap.getElem?_insert, if_neg hother, hcd.unbound x hx]

end Exec

namespace Context
variable {ctx : Context} {side : Side} {agree : Prop} {hidden : String → Prop}
  (htarget : ∃ target : Target, ctx.dialect = target.dialect)
include htarget

open Exec

/-- Evaluating expressions keeps two runs abreast. -/
theorem walks_evaluates (hhidden : ∀ name, hidden name → agree) :
    ctx.Evaluates ctx (Walks side agree ctx hidden) where
  dialect := rfl
  pure a := walks_of_ok fun c d hcd => ⟨a, c, d, rfl, rfl, hcd⟩
  fail _ := fun _ _ hcd _ => .error _ hcd.machine
  valueOf := walks_valueOf hhidden
  deepen := walks_deepen
  builtin hfind call := by
    obtain ⟨target, htarget⟩ := htarget
    rw [htarget] at hfind ⊢
    exact walks_onMachine (target.evaluate_uncounted hfind ctx.setting call)
  bind hx hf := by
    refine Tallies.bind hx fun a b => ?_
    rintro c d ⟨rfl, hcd⟩
    exact hf b c d hcd

/-- Assignments keep two runs abreast: a hidden variable cannot be assigned to on the left. -/
theorem walks_assign (hhidden : ∀ name, hidden name → agree) (pairs : List (String × Word)) :
    Walks side agree ctx hidden Unit (assign pairs) (assign pairs) := by
  have cong : ctx.Evaluates ctx (Walks side agree ctx hidden) := walks_evaluates htarget hhidden
  induction pairs with
  | nil => exact cong.pure ()
  | cons first rest ih =>
    rw [assign_eq]
    by_cases hname : hidden first.1
    · intro c d hcd _
      have hlook : look first.1 c = (.ok none, c) := congrArg (fun found => (Except.ok found, c)) (hcd.unbound _ hname)
      rw [Effect.bind_of_ok hlook]
      exact .strayLeft fun hallowed => absurd (hallowed.2 (hhidden _ hname)) Bool.false_ne_true
    · refine cong.bind (walks_look hname) fun found => ?_
      split
      · exact cong.bind (walks_put hname _) fun _ => ih
      · exact cong.fail rfl

/-- What statements do in the scope they stand in keeps two runs abreast if nothing is hidden. -/
theorem walks_local (hsteps : ctx.setting.maxSteps = 0) :
    ctx.Local ctx (Walks side agree ctx fun _ => False) where
  toEvaluates := walks_evaluates htarget nofun
  count := walks_of_ok fun c d hcd => by
    refine ⟨(), _, _, count_unlimited hsteps c, count_unlimited hsteps d, ⟨?_, trivial⟩, hcd.bindings,
      hcd.unbound, hcd.levels, hcd.seated, hcd.seated'⟩
    show d.machine.recount _ = _
    rw [hcd.machine.1]
    rfl
  look _ := walks_look id
  pending := walks_of_ok fun c d hcd => by
    refine ⟨_, c, d, rfl, ?_, hcd⟩
    show (Except.ok d.machine.signal, d) = _
    rw [hcd.machine.1]
    rfl
  reset := walks_setSignal .proceed
  restart := walks_of_ok fun c d hcd => ⟨(), _, _, rfl, rfl, hcd.machine, hcd.bindings, hcd.unbound,
    hcd.levels.imp_right fun h => ⟨h.1, h.1⟩, hcd.seated, hcd.seated'⟩
  put _ value := walks_put id value
  declareVariable name := walks_of_ok fun c d hcd => by
    obtain ⟨later, hdeclare, hseated⟩ := hcd.seated.declare name .ofVariable
    obtain ⟨later', hdeclare', hseated'⟩ := hcd.seated'.declare name .ofVariable
    exact ⟨(), _, _, declare_apply hdeclare, declare_apply hdeclare', hcd.machine, hcd.bindings, hcd.unbound,
      hcd.levels, hseated, hseated'⟩

end Context
end BlockIR
