import BlockIR.Proofs.Calling
import BlockIR.Proofs.Cutoff

/-! The size of an expression is the number of levels that it is evaluated in.

Each literal, variable and call goes one nesting level deeper and nothing brings
the level back but the end of an activation, so an evaluated expression leaves it
deeper by its size, whatever the functions did that it called (`Exec.Deepens`). An
expression of builtins therefore fits within the limits if and only if there is room
for its size (`Exec.Fits`). -/
namespace BlockIR

/-! ### Sizes -/

mutual
/-- The literals, variables and calls of an expression, without the arguments that have to be literals. -/
def Expr.size (dialect : Dialect) : Expr → Nat
  | .literal _ => 1
  | .identifier _ => 1
  | .call name args => 1 + Expr.argumentsSize dialect (dialect.wantsLiteral name) 0 args

/-- Those of the arguments of a call from a position on. -/
def Expr.argumentsSize (dialect : Dialect) (wants : Nat → Bool) : Nat → List Expr → Nat
  | _, [] => 0
  | position, e :: rest =>
    (if wants position then 0 else e.size dialect) + Expr.argumentsSize dialect wants (position + 1) rest
end

mutual
/-- Whether an expression calls nothing but builtins. -/
def Expr.plain (dialect : Dialect) : Expr → Bool
  | .literal _ => true
  | .identifier _ => true
  | .call name args =>
    (dialect.find? name).isSome && Expr.argumentsPlain dialect (dialect.wantsLiteral name) 0 args

/-- Whether the arguments of a call from a position on do. -/
def Expr.argumentsPlain (dialect : Dialect) (wants : Nat → Bool) : Nat → List Expr → Bool
  | _, [] => true
  | position, e :: rest =>
    (wants position || e.plain dialect) && Expr.argumentsPlain dialect wants (position + 1) rest
end

theorem Expr.size_pos (dialect : Dialect) (e : Expr) : 0 < e.size dialect := by
  cases e <;> rw [size] <;> omega

/-! ### Going deeper -/

namespace Exec
variable {α β : Type} {x : Exec α} {f : α → Exec β} {m n : Nat}

/-- Where it succeeds, a part ends so many levels deeper, above the same base. -/
def Deepens (n : Nat) (x : Exec α) : Prop :=
  ∀ c a d, x c = (.ok a, d) →
    d.activation.level = c.activation.level + n ∧ d.activation.base = c.activation.base

theorem deepens_fail (n : Nat) (e : Error) : Deepens n (fail e : Exec α) := nofun

theorem deepens_pure (a : α) : Deepens 0 (pure a : Exec α) := by
  rintro c _ _ ⟨⟩
  exact ⟨rfl, rfl⟩

theorem deepens_ofExcept (r : Except Error α) : Deepens 0 (ofExcept r) := by
  cases r with
  | ok a => exact deepens_pure a
  | error e => exact deepens_fail 0 e

theorem Deepens.bind (hx : Deepens m x) (hf : ∀ a, Deepens n (f a)) : Deepens (m + n) (x >>= f) := by
  intro c b e h
  obtain ⟨a, d, hfirst, hthen⟩ := Effect.bind_eq_ok h
  obtain ⟨hlevel, hbase⟩ := hx c a d hfirst
  obtain ⟨hlevel', hbase'⟩ := hf a d b e hthen
  exact ⟨by rw [hlevel', hlevel, Nat.add_assoc], hbase'.trans hbase⟩

theorem Deepens.single {x : Exec (List Word)} (hx : Deepens n x) : Deepens n (Exec.single x) := by
  refine Deepens.bind (n := 0) hx fun values => ?_
  split
  · exact deepens_pure _
  · exact deepens_fail 0 _

theorem deepens_onMachine (action : Action α) : Deepens 0 (onMachine action) := by
  intro c a d h
  rw [onMachine_apply] at h
  rw [← (Prod.mk.inj h).2]
  exact ⟨rfl, rfl⟩

theorem deepens_valueOf (name : String) : Deepens 0 (valueOf name) := by
  intro c a d h
  rw [valueOf_apply] at h
  rw [← (Prod.mk.inj h).2]
  exact ⟨rfl, rfl⟩

theorem deepens_deepen (ctx : Context) : Deepens 1 (deepen ctx) := by
  intro c a d h
  rw [(deepen_eq_ok h).2]
  exact ⟨rfl, rfl⟩

/-- A call goes on from its own level, whatever the function does. -/
theorem deepens_invoke (runner : Runner) (name : String) (args : List Word) : Deepens 0 (runner.invoke name args) := by
  intro c values d h
  rcases invoke_cases name args c with ⟨e, herror⟩ | ⟨scope, definition, hfound, hcount⟩
  · rw [herror] at h
    cases h
  · rw [invoke_of_found hfound hcount, within_apply] at h
    rw [← (Prod.mk.inj h).2]
    exact ⟨rfl, rfl⟩

end Exec

namespace Context
open Exec
variable {ctx : Context} {runner : Runner}

theorem arguments_deepens (h : ∀ e, Deepens (e.size ctx.dialect) (runner (.expression e))) (wants : Nat → Bool)
    (position : Nat) (args : List Expr) :
    Deepens (Expr.argumentsSize ctx.dialect wants position args) (runner.arguments wants position args) := by
  induction args generalizing position with
  | nil => exact deepens_pure _
  | cons e rest ih =>
    have hargument : Deepens (if wants position then 0 else e.size ctx.dialect)
        (runner.argument (wants position) e) := by
      unfold Runner.argument
      split
      · exact deepens_pure _
      · exact (h e).single
    rw [Expr.argumentsSize, Nat.add_comm]
    exact (ih (position + 1)).bind fun values => Deepens.bind (n := 0) hargument fun value => deepens_pure _

theorem expression_deepens (h : ∀ e, Deepens (e.size ctx.dialect) (runner (.expression e)))
    (hinvoke : ∀ name args, Deepens 0 (runner (.invoke name args))) (e : Expr) :
    Deepens (e.size ctx.dialect) (ctx.expression runner e) := by
  cases e with
  | literal l =>
    rw [Expr.size]
    exact (deepens_deepen ctx).bind fun _ => (deepens_ofExcept l.value).bind fun _ => deepens_pure _
  | identifier name =>
    rw [Expr.size]
    exact (deepens_valueOf name).bind fun _ => (deepens_deepen ctx).bind fun _ => deepens_pure _
  | call name args =>
    rw [Expr.size]
    refine (deepens_deepen ctx).bind fun _ => Deepens.bind (n := 0) (arguments_deepens h _ 0 args) fun values => ?_
    unfold Context.apply
    split
    · exact (deepens_onMachine _).bind fun _ => deepens_pure _
    · exact hinvoke name values

theorem perform_deepens (ctx : Context) (depth : Nat) (e : Expr) :
    Deepens (e.size ctx.dialect) (ctx.perform depth (.expression e)) := by
  induction depth generalizing e with
  | zero => exact nofun
  | succ depth ih =>
    refine expression_deepens ih (fun name args => ?_) e
    cases depth with
    | zero => exact nofun
    | succ depth => exact deepens_invoke _ name args

end Context

/-! ### Room -/

namespace Context

/-- The context without a limit on nesting. -/
def unlimited (ctx : Context) : Context := { ctx with setting := Limit.nesting.rebound 0 ctx.setting }

/-- None of so many levels after a level is too deep. -/
def Room (ctx : Context) (level n : Nat) : Prop := ∀ deeper, level < deeper → deeper ≤ level + n → ctx.tooDeep deeper = false

variable {ctx : Context} {level m n : Nat}

theorem room_zero (ctx : Context) (level : Nat) : ctx.Room level 0 :=
  fun _ habove hbelow => absurd (Nat.lt_of_lt_of_le habove hbelow) (Nat.lt_irrefl level)

theorem room_one : ctx.Room level 1 ↔ ctx.tooDeep (level + 1) = false := by
  constructor
  · exact fun h => h (level + 1) (Nat.lt_succ_self level) (Nat.le_refl _)
  · intro h deeper habove hbelow
    rwa [Nat.le_antisymm hbelow habove]

theorem room_add : ctx.Room level (m + n) ↔ ctx.Room level m ∧ ctx.Room (level + m) n := by
  constructor
  · exact fun h => ⟨fun deeper _ _ => h deeper (by omega) (by omega), fun deeper _ _ => h deeper (by omega) (by omega)⟩
  · rintro ⟨hfirst, hthen⟩ deeper habove hbelow
    by_cases hnear : deeper ≤ level + m
    · exact hfirst deeper habove hnear
    · exact hthen deeper (by omega) (by omega)

/-- Counted from a natural number, there is room up to the bound. -/
theorem room_iff (horigin : ctx.origin = none) (hlimited : 0 < ctx.setting.maxNesting) (hn : 0 < n) :
    ctx.Room level n ↔ level + n ≤ ctx.setting.maxNesting := by
  have hdeep (deeper : Nat) : ctx.tooDeep deeper = false ↔ deeper ≤ ctx.setting.maxNesting := by
    unfold tooDeep
    rw [horigin]
    simp [hlimited]
  constructor
  · exact fun h => (hdeep _).mp (h (level + n) (by omega) (Nat.le_refl _))
  · exact fun h deeper _ hbelow => (hdeep deeper).mpr (Nat.le_trans hbelow h)

end Context

/-! ### Fitting within the limits -/

namespace Exec
variable {α β : Type} {ctx : Context} {x y : Exec α} {f g : α → Exec β} {m n : Nat}

/-- From whatever level, `y` does what `x` does in so many levels if there is room for them, and otherwise reaches the
limit. -/
def Fits (ctx : Context) (n : Nat) (x y : Exec α) : Prop :=
  ∀ c a d, x c = (.ok a, d) → ∀ level,
    (ctx.Room level n → y (c.atLevel level) = (.ok a, d.atLevel (level + n))) ∧
    (¬ctx.Room level n →
      ∃ e, y (c.atLevel level) = (.error (.failed (.nestingLimit (.ofNat ctx.setting.maxNesting))), e))

theorem fits_of_eq (h : ∀ (c : Config) (level : Nat), y (c.atLevel level) = ((x c).1, (x c).2.atLevel level)) :
    Fits ctx 0 x y := by
  intro c a d hx level
  refine ⟨fun _ => ?_, fun hroom => absurd (ctx.room_zero level) hroom⟩
  rw [h, hx]
  rfl

theorem fits_pure (ctx : Context) (a : α) : Fits ctx 0 (pure a) (pure a) := fits_of_eq fun _ _ => rfl

theorem fits_ofExcept (ctx : Context) (r : Except Error α) : Fits ctx 0 (ofExcept r) (ofExcept r) :=
  fits_of_eq fun _ _ => by cases r <;> rfl

theorem fits_fail (ctx : Context) (e : Error) (y : Exec α) : Fits ctx n (fail e) y := nofun

theorem fits_onMachine (ctx : Context) (action : Action α) : Fits ctx 0 (onMachine action) (onMachine action) :=
  fits_of_eq fun c level => by rw [onMachine_apply, onMachine_apply]; rfl

theorem fits_valueOf (ctx : Context) (name : String) : Fits ctx 0 (valueOf name) (valueOf name) :=
  fits_of_eq fun c level => by rw [valueOf_apply, valueOf_apply]; rfl

theorem fits_deepen (ctx : Context) : Fits ctx 1 (deepen ctx.unlimited) (deepen ctx) := by
  intro c a d h level
  rw [deepen_unlimited rfl] at h
  cases h
  rw [Context.room_one, deepen_apply]
  constructor
  · exact fun hroom => if_neg fun hdeep => Bool.false_ne_true (hroom.symm.trans hdeep)
  · exact fun hroom => ⟨_, if_pos (eq_true_of_ne_false hroom)⟩

theorem Fits.bind (hx : Fits ctx m x y) (hf : ∀ a, Fits ctx n (f a) (g a)) :
    Fits ctx (m + n) (x >>= f) (y >>= g) := by
  intro c b e h level
  obtain ⟨a, d, hfirst, hthen⟩ := Effect.bind_eq_ok h
  obtain ⟨hok, hlimit⟩ := hx c a d hfirst level
  obtain ⟨hok', hlimit'⟩ := hf a d b e hthen (level + m)
  rw [Context.room_add]
  constructor
  · rintro ⟨hroom, hroom'⟩
    rw [Effect.bind_of_ok (hok hroom), hok' hroom', Nat.add_assoc]
  · intro hroom
    by_cases hm : ctx.Room level m
    · obtain ⟨e', he'⟩ := hlimit' fun hn => hroom ⟨hm, hn⟩
      exact ⟨e', (Effect.bind_of_ok (hok hm)).trans he'⟩
    · obtain ⟨e', he'⟩ := hlimit hm
      exact ⟨e', Effect.bind_of_error he'⟩

theorem Fits.single {x y : Exec (List Word)} (h : Fits ctx n x y) : Fits ctx n (Exec.single x) (Exec.single y) := by
  refine Fits.bind (n := 0) h fun values => ?_
  split
  · exact fits_pure ctx _
  · exact fits_fail ctx _ _

end Exec

namespace Context
open Exec
variable {ctx : Context} {runner better : Runner}

theorem arguments_fits
    (h : ∀ e, e.plain ctx.dialect = true → Fits ctx (e.size ctx.dialect) (runner (.expression e)) (better (.expression e)))
    (wants : Nat → Bool) (position : Nat) {args : List Expr}
    (hargs : Expr.argumentsPlain ctx.dialect wants position args = true) :
    Fits ctx (Expr.argumentsSize ctx.dialect wants position args) (runner.arguments wants position args)
      (better.arguments wants position args) := by
  induction args generalizing position with
  | nil => exact fits_pure ctx _
  | cons e rest ih =>
    rw [Expr.argumentsPlain, Bool.and_eq_true, Bool.or_eq_true] at hargs
    have hargument : Fits ctx (if wants position then 0 else e.size ctx.dialect)
        (runner.argument (wants position) e) (better.argument (wants position) e) := by
      unfold Runner.argument
      split
      · exact fits_pure ctx _
      · exact (h e (hargs.1.resolve_left ‹_›)).single
    rw [Expr.argumentsSize, Nat.add_comm]
    exact (ih (position + 1) hargs.2).bind fun values => Fits.bind (n := 0) hargument fun value => fits_pure ctx _

/-- A call of a builtin is the same within the limits, if the builtin does not look at these. -/
theorem evaluate_unlimited (hboundless : ∀ b ∈ ctx.dialect.builtins, b.Boundless) {name : String} {b : Builtin}
    (hfind : ctx.dialect.find? name = some b) (call : Call) :
    ctx.unlimited.dialect.evaluate ctx.unlimited.setting b call = ctx.dialect.evaluate ctx.setting b call := by
  have hsame := hboundless b (List.mem_of_find?_eq_some hfind) .nesting 0 ctx.setting call
  unfold Dialect.evaluate Context.unlimited
  rw [hsame]

theorem perform_fits (hboundless : ∀ b ∈ ctx.dialect.builtins, b.Boundless) (depth : Nat) {e : Expr}
    (he : e.plain ctx.dialect = true) :
    Fits ctx (e.size ctx.dialect) (ctx.unlimited.perform depth (.expression e)) (ctx.perform depth (.expression e)) := by
  induction depth generalizing e with
  | zero => exact nofun
  | succ depth ih =>
    show Fits ctx _ (ctx.unlimited.expression (ctx.unlimited.perform depth) e) (ctx.expression (ctx.perform depth) e)
    cases e with
    | literal l =>
      rw [Expr.size]
      exact (fits_deepen ctx).bind fun _ => (fits_ofExcept ctx l.value).bind fun _ => fits_pure ctx _
    | identifier name =>
      rw [Expr.size]
      exact (fits_valueOf ctx name).bind fun _ => (fits_deepen ctx).bind fun _ => fits_pure ctx _
    | call name args =>
      rw [Expr.plain, Bool.and_eq_true, Option.isSome_iff_exists] at he
      obtain ⟨⟨b, hfind⟩, hargs⟩ := he
      rw [Expr.size]
      refine (fits_deepen ctx).bind fun _ => Fits.bind (n := 0) (arguments_fits (fun e => ih) _ 0 hargs) fun values => ?_
      have hfind' : ctx.unlimited.dialect.find? name = some b := hfind
      unfold Context.apply
      rw [hfind, hfind']
      dsimp only
      rw [evaluate_unlimited hboundless hfind]
      exact (fits_onMachine ctx _).bind fun _ => fits_pure ctx _

end Context

/-- The nesting level of an expression is its size: where it is evaluated, the level has grown by just that, whatever
functions were called in between. So an expression of builtins alone that is evaluated without a limit is evaluated under
a limit, from any level, to the same words and with the same effects if there is room for its size, and otherwise ends
at the limit; counted from a natural number, there is room if level and size together are not above the limit. A builtin
could look at the limit that a call is made under, but none of the targets does. -/
theorem nesting_level_is_size :
    (∀ (ctx : Context) (depth : Nat) (e : Expr) (c d : Config) (values : List Word),
      ctx.perform depth (.expression e) c = (.ok values, d) →
        d.activation.level = c.activation.level + e.size ctx.dialect) ∧
    (∀ (target : Target), ∀ b ∈ target.dialect.builtins, b.Boundless) ∧
    ∀ ctx : Context, (∀ b ∈ ctx.dialect.builtins, b.Boundless) → 0 < ctx.setting.maxNesting →
      ∀ (depth : Nat) (e : Expr) (c d : Config) (values : List Word), e.plain ctx.dialect = true →
        ctx.unlimited.perform depth (.expression e) c = (.ok values, d) → ∀ level : Nat,
          (ctx.Room level (e.size ctx.dialect) → ctx.perform depth (.expression e) (c.atLevel level) =
            (.ok values, d.atLevel (level + e.size ctx.dialect))) ∧
          (¬ctx.Room level (e.size ctx.dialect) → ∃ d', ctx.perform depth (.expression e) (c.atLevel level) =
            (.error (.failed (.nestingLimit (.ofNat ctx.setting.maxNesting))), d')) ∧
          (ctx.origin = none → (ctx.Room level (e.size ctx.dialect) ↔
            level + e.size ctx.dialect ≤ ctx.setting.maxNesting)) := by
  refine ⟨fun ctx depth e c d values h => (ctx.perform_deepens depth e c values d h).1, fun target b hmem => ?_,
    fun ctx hboundless hlimited depth e c d values hplain h level => ?_⟩
  · exact Target.holds_of_find? Target.Evm.builtins_boundless Target.Wasm.builtins_boundless target
      (target.find?_of_mem hmem)
  · obtain ⟨hroom, hlimit⟩ := Context.perform_fits hboundless depth hplain c values d h level
    exact ⟨hroom, hlimit, fun horigin => Context.room_iff horigin hlimited (e.size_pos ctx.dialect)⟩

namespace Sample

/-- A sum of two numbers, of size three. -/
def sum : Expr := .call "add" [.literal ⟨.number, "1"⟩, .literal ⟨.number, "2"⟩]

/-- A context with room for it. -/
def threeDeep : Context := { setting := { maxNesting := 3 }, dialect := Target.evm.dialect }

/-- The sum handed to a function, whose body evaluates a variable. -/
def copied : Expr := .call "copy" [sum]

/-- Where that function is declared. -/
def declared : Config := (Exec.declareFunctions program.functions (Exec.enterScope program.id {}).2).2

end Sample

/-- A call of a function ends at the level of its size, one more than that of its argument. The argument, a sum, just
fits within a limit of three, but not from the first level on. -/
theorem nesting_level_is_size_sample :
    (∃ d, (Run.context Sample.options).perform 5 (.expression Sample.copied) Sample.declared = (.ok [3], d) ∧
      d.activation.level = 4) ∧
    Sample.threeDeep.perform 2 (.expression Sample.sum) {} = (.ok [3], Config.atLevel {} 3) ∧
    ∃ d, Sample.threeDeep.perform 2 (.expression Sample.sum) (Config.atLevel {} 1) =
      (.error (.failed (.nestingLimit (.ofNat 3))), d) := by
  have hcopied : ((Run.context Sample.options).perform 5 (.expression Sample.copied) Sample.declared).1 = .ok [3] := by
    with_unfolding_all rfl
  have hunlimited : Sample.threeDeep.unlimited.perform 2 (.expression Sample.sum) {} =
      (.ok [3], Config.atLevel {} 3) := by
    with_unfolding_all rfl
  have hsum := nesting_level_is_size.2.2 Sample.threeDeep (nesting_level_is_size.2.1 .evm) (by decide) 2 Sample.sum _ _ _
    rfl hunlimited
  have hroom (level : Nat) : Sample.threeDeep.Room level 3 ↔ level + 3 ≤ 3 := (hsum level).2.2 rfl
  exact ⟨⟨_, Prod.ext hcopied rfl, nesting_level_is_size.1 _ _ _ _ _ _ (Prod.ext hcopied rfl)⟩,
    (hsum 0).1 ((hroom 0).mpr (by decide)), (hsum 1).2.1 fun h => absurd ((hroom 1).mp h) (by decide)⟩

end BlockIR
