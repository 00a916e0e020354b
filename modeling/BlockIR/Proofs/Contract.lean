import BlockIR.Proofs.Builtins
import BlockIR.Proofs.Executed

/-! What a builtin can rely on when it is called.

The arguments of a call get their values from the last one to the first, each in
the stage that the one after it left (`Runner.Hands`). One that has to be a literal
is passed over. The call goes on to the body of the builtin if every argument gets
a value and there are as many as the arity says, and only then
(`Context.Calls`, `Context.Reaches`). -/
namespace BlockIR

/-- A sequence with another item in front. -/
def prepend {α : Type} (a : α) (f : Nat → α) : Nat → α
  | 0 => a
  | i + 1 => f i

/-! ### Arguments in stages -/

/-- The arguments of a call from position `first` on get their values, the last one first. `stage i` is where the run
stands when those from `i` on have theirs. -/
structure Runner.Hands (runner : Runner) (wants : Nat → Bool) (args : List Expr) (first : Nat)
    (value : Nat → Word) (stage : Nat → Config) : Prop where
  literal : ∀ i < args.length, first ≤ i → wants i = true → value i = 0 ∧ stage i = stage (i + 1)
  evaluated : ∀ i (h : i < args.length), first ≤ i → wants i = false →
    runner (.expression args[i]) (stage (i + 1)) = (.ok [value i], stage i)

namespace Runner
variable {runner : Runner} {wants : Nat → Bool} {e : Expr} {args rest : List Expr} {first k : Nat}
  {value : Nat → Word} {stage : Nat → Config} {stop : Stop} {d : Config}

/-- Positions can be counted from the second argument. -/
theorem arguments_succ (runner : Runner) (wants : Nat → Bool) (position : Nat) (args : List Expr) :
    runner.arguments wants (position + 1) args = runner.arguments (fun i => wants (i + 1)) position args := by
  induction args generalizing position with
  | nil => rfl
  | cons e rest ih =>
    unfold arguments
    rw [ih]

theorem arguments_cons (runner : Runner) (wants : Nat → Bool) (e : Expr) (rest : List Expr) :
    runner.arguments wants 0 (e :: rest) = (do
      let values ← runner.arguments (fun i => wants (i + 1)) 0 rest
      let value ← runner.argument (wants 0) e
      pure (value :: values)) := by
  rw [← arguments_succ]
  rfl

namespace Hands

theorem mono {later : Nat} (h : runner.Hands wants args first value stage) (hle : first ≤ later) :
    runner.Hands wants args later value stage :=
  ⟨fun i hi hlater => h.literal i hi (Nat.le_trans hle hlater),
    fun i hi hlater => h.evaluated i hi (Nat.le_trans hle hlater)⟩

theorem congr {other : Runner} (h : runner.Hands wants args first value stage)
    (hsame : ∀ i (hi : i < args.length), first ≤ i → wants i = false →
      other (.expression args[i]) (stage (i + 1)) = runner (.expression args[i]) (stage (i + 1))) :
    other.Hands wants args first value stage :=
  ⟨h.literal, fun i hi hfirst hwants => (hsame i hi hfirst hwants).trans (h.evaluated i hi hfirst hwants)⟩

theorem tail (h : runner.Hands wants (e :: rest) (first + 1) value stage) :
    runner.Hands (fun i => wants (i + 1)) rest first (fun i => value (i + 1)) fun i => stage (i + 1) :=
  ⟨fun i hi hfirst => h.literal (i + 1) (Nat.succ_lt_succ hi) (Nat.succ_le_succ hfirst),
    fun i hi hfirst => h.evaluated (i + 1) (Nat.succ_lt_succ hi) (Nat.succ_le_succ hfirst)⟩

theorem cons (h : runner.Hands (fun i => wants (i + 1)) rest first value stage) (e : Expr) (w : Word) (d : Config) :
    runner.Hands wants (e :: rest) (first + 1) (prepend w value) (prepend d stage) where
  literal
    | i + 1, hi, hfirst => h.literal i (Nat.lt_of_succ_lt_succ hi) (Nat.le_of_succ_le_succ hfirst)
  evaluated
    | i + 1, hi, hfirst => h.evaluated i (Nat.lt_of_succ_lt_succ hi) (Nat.le_of_succ_le_succ hfirst)

theorem front {w : Word} (h : runner.Hands (fun i => wants (i + 1)) rest 0 value stage)
    (hfirst : runner.argument (wants 0) e (stage 0) = (.ok w, d)) :
    runner.Hands wants (e :: rest) 0 (prepend w value) (prepend d stage) where
  literal
    | 0, _, _, hwants => by
      rw [hwants] at hfirst
      cases hfirst
      exact ⟨rfl, rfl⟩
    | i + 1, hi, _, hwants => (h.cons e w d).literal (i + 1) hi (Nat.succ_pos i) hwants
  evaluated
    | 0, _, _, hwants => by
      rw [hwants] at hfirst
      exact Exec.single_eq_ok hfirst
    | i + 1, hi, _, hwants => (h.cons e w d).evaluated (i + 1) hi (Nat.succ_pos i) hwants

/-- The argument in front gets its value last. -/
theorem argument (h : runner.Hands wants (e :: rest) 0 value stage) :
    runner.argument (wants 0) e (stage 1) = (.ok (value 0), stage 0) := by
  have hpos : 0 < (e :: rest).length := Nat.succ_pos _
  unfold Runner.argument
  cases hwants : wants 0 with
  | true =>
    obtain ⟨hvalue, hstage⟩ := h.literal 0 hpos (Nat.le_refl 0) hwants
    rw [hvalue, hstage]
    rfl
  | false => exact Effect.bind_of_ok (h.evaluated 0 hpos (Nat.le_refl 0) hwants)

/-- If all arguments get values, these are handed over in order. -/
theorem arguments (h : runner.Hands wants args 0 value stage) :
    runner.arguments wants 0 args (stage args.length) = (.ok ((List.range args.length).map value), stage 0) := by
  induction args generalizing wants value stage with
  | nil => rfl
  | cons e rest ih =>
    have hrest := ih (h.mono (Nat.zero_le 1)).tail
    rw [arguments_cons, List.length_cons, Effect.bind_of_ok hrest, Effect.bind_of_ok h.argument,
      List.range_succ_eq_map, List.map_cons, List.map_map]
    rfl

/-- If one argument gets none, those in front of it do not matter. -/
theorem arguments_of_error (hk : k < args.length) (h : runner.Hands wants args (k + 1) value stage)
    (hfail : runner.argument (wants k) args[k] (stage (k + 1)) = (.error stop, d)) :
    runner.arguments wants 0 args (stage args.length) = (.error stop, d) := by
  induction args generalizing wants k value stage with
  | nil => nomatch hk
  | cons e rest ih =>
    rw [arguments_cons, List.length_cons]
    cases k with
    | zero =>
      rw [Effect.bind_of_ok h.tail.arguments]
      exact Effect.bind_of_error hfail
    | succ k => exact Effect.bind_of_error (ih (Nat.lt_of_succ_lt_succ hk) h.tail hfail)

/-- An argument that need not be a literal is evaluated in the stage that the one after it left. -/
theorem asks (hk : k < args.length) (h : runner.Hands wants args (k + 1) value stage) (hwants : wants k = false) :
    Asks (fun runner => runner.arguments wants 0 args) runner (stage args.length) (.expression args[k])
      (stage (k + 1)) := by
  induction args generalizing wants k value stage with
  | nil => nomatch hk
  | cons e rest ih =>
    simp only [arguments_cons]
    cases k with
    | zero =>
      apply (arguments_asksAll _ 0 rest).then h.tail.arguments
      simp only [hwants]
      exact (asks_task runner (.expression e) (stage 1)).bind.bind
    | succ k => exact (ih (Nat.lt_of_succ_lt_succ hk) h.tail hwants).bind

end Hands

/-- One of the arguments that are evaluated gives no single word, and those after it do. -/
def Halts (runner : Runner) (wants : Nat → Bool) (args : List Expr) (value : Nat → Word) (stage : Nat → Config)
    (k : Nat) (stop : Stop) : Prop :=
  ∃ hk : k < args.length, runner.Hands wants args (k + 1) value stage ∧ wants k = false ∧
    Exec.single (runner (.expression args[k])) (stage (k + 1)) = (.error stop, stage k)

theorem Halts.arguments (h : runner.Halts wants args value stage k stop) :
    runner.arguments wants 0 args (stage args.length) = (.error stop, stage k) := by
  obtain ⟨hk, hhands, hwants, hfail⟩ := h
  refine hhands.arguments_of_error hk ?_
  rw [hwants]
  exact hfail

/-- The stages of the arguments of a call, up to the first one that gives no single word. -/
theorem exists_stages (runner : Runner) (wants : Nat → Bool) (args : List Expr) (d : Config) :
    ∃ value stage, stage args.length = d ∧
      (runner.Hands wants args 0 value stage ∨ ∃ k stop, runner.Halts wants args value stage k stop) := by
  induction args generalizing wants with
  | nil => exact ⟨fun _ => 0, fun _ => d, rfl, .inl ⟨nofun, nofun⟩⟩
  | cons e rest ih =>
    obtain ⟨value, stage, hstart, hhands | ⟨k, stop, hk, hhands, hwants, hfail⟩⟩ := ih fun i => wants (i + 1)
    · rcases hfirst : runner.argument (wants 0) e (stage 0) with ⟨stop | w, d'⟩
      · have hwants : wants 0 = false := by
          cases h : wants 0 with
          | false => rfl
          | true =>
            rw [h] at hfirst
            cases hfirst
        rw [hwants] at hfirst
        exact ⟨prepend 0 value, prepend d' stage, hstart,
          .inr ⟨0, stop, Nat.succ_pos _, hhands.cons e 0 d', hwants, hfirst⟩⟩
      · exact ⟨prepend w value, prepend d' stage, hstart, .inl (hhands.front hfirst)⟩
    · exact ⟨prepend 0 value, prepend d stage, hstart,
        .inr ⟨k + 1, stop, Nat.succ_lt_succ hk, hhands.cons e 0 d, hwants, hfail⟩⟩

end Runner

/-! ### Calls of a builtin -/

namespace Context
variable {ctx : Context} {runner : Runner} {b : Builtin} {args : List Expr} {c : Config} {k : Nat}
  {value : Nat → Word} {stage : Nat → Config} {stop : Stop}

/-- A call has gone a level deeper, and its arguments from position `first` on get their values. -/
def Hands (ctx : Context) (runner : Runner) (b : Builtin) (args : List Expr) (c : Config) (first : Nat)
    (value : Nat → Word) (stage : Nat → Config) : Prop :=
  Exec.deepen ctx c = (.ok (), stage args.length) ∧ runner.Hands b.wantsLiteral args first value stage

/-- What the body of the builtin is given. -/
def handed (args : List Expr) (value : Nat → Word) : Call := ⟨(List.range args.length).map value, args.map .expression⟩

/-- How a call of a builtin ends. -/
inductive Calls (ctx : Context) (runner : Runner) (b : Builtin) (args : List Expr) (c : Config) :
    Except Stop (List Word) × Config → Prop
  /-- Beyond the limit. -/
  | tooDeep {stop : Stop} {d : Config} : Exec.deepen ctx c = (.error stop, d) → Calls ctx runner b args c (.error stop, d)
  /-- At an argument that gives no single word. -/
  | halted {value : Nat → Word} {stage : Nat → Config} {k : Nat} {stop : Stop} (hk : k < args.length) :
    ctx.Hands runner b args c (k + 1) value stage → b.wantsLiteral k = false →
    Exec.single (runner (.expression args[k])) (stage (k + 1)) = (.error stop, stage k) →
    Calls ctx runner b args c (.error stop, stage k)
  /-- With another number of arguments than the builtin takes. -/
  | mismatch {value : Nat → Word} {stage : Nat → Config} : ctx.Hands runner b args c 0 value stage →
    b.arity ≠ .exactly args.length →
    Calls ctx runner b args c
      (.error (.failed (.arityMismatch b.arity.number (.ofNat args.length) b.name)), stage 0)
  /-- As the body of the builtin does. -/
  | reached {value : Nat → Word} {stage : Nat → Config} : ctx.Hands runner b args c 0 value stage →
    b.arity = .exactly args.length →
    Calls ctx runner b args c
      ((do
        let word ← Exec.onMachine (b.body ctx.setting (handed args value))
        pure [word] : Exec (List Word)) (stage 0))

theorem wantsLiteral_of_find? (hfind : ctx.dialect.find? b.name = some b) :
    ctx.dialect.wantsLiteral b.name = b.wantsLiteral := by
  funext i
  unfold Dialect.wantsLiteral
  rw [hfind]

theorem expression_of_tooDeep {d : Config} (h : Exec.deepen ctx c = (.error stop, d)) :
    ctx.expression runner (.call b.name args) c = (.error stop, d) := by
  rw [ctx.expression_call]
  exact Effect.bind_of_error (Effect.bind_of_error h)

section Found
variable (hfind : ctx.dialect.find? b.name = some b) (hdialect : b.dialect = ctx.dialect.name)
include hfind

theorem Hands.reaching (h : ctx.Hands runner b args c 0 value stage) :
    ctx.reaching runner b.name args c = (.ok (handed args value).args, stage 0) := by
  unfold Context.reaching
  rw [wantsLiteral_of_find? hfind, Effect.bind_of_ok h.1]
  exact h.2.arguments

theorem expression_of_halts (hdeepen : Exec.deepen ctx c = (.ok (), stage args.length))
    (h : runner.Halts b.wantsLiteral args value stage k stop) :
    ctx.expression runner (.call b.name args) c = (.error stop, stage k) := by
  rw [ctx.expression_call]
  apply Effect.bind_of_error
  unfold Context.reaching
  rw [wantsLiteral_of_find? hfind, Effect.bind_of_ok hdeepen]
  exact h.arguments

include hdialect

/-- With the values of its arguments, a call is one of the body, if there are as many as the builtin takes. -/
theorem apply_handed (runner : Runner) (args : List Expr) (value : Nat → Word) :
    ctx.apply runner b.name args (handed args value).args =
      if b.arity = .exactly args.length then do
        let word ← Exec.onMachine (b.body ctx.setting (handed args value))
        pure [word]
      else Exec.fail (.arityMismatch b.arity.number (.ofNat args.length) b.name) := by
  have hlength : (handed args value).args.length = args.length := by simp [handed]
  have hevaluate : ctx.dialect.evaluate ctx.setting b (handed args value) =
      if b.arity = .exactly args.length then b.body ctx.setting (handed args value)
      else Effect.fail (.arityMismatch b.arity.number (.ofNat args.length) b.name) := by
    unfold Dialect.evaluate
    rw [if_pos (Dialect.owns_of_find? hdialect hfind), hlength]
  have hcall : Call.mk (handed args value).args (args.map .expression) = handed args value := rfl
  unfold Context.apply
  rw [hfind]
  dsimp only
  rw [hcall, hevaluate]
  split <;> rfl

theorem expression_of_hands (h : ctx.Hands runner b args c 0 value stage) :
    ctx.expression runner (.call b.name args) c =
      (if b.arity = .exactly args.length then do
        let word ← Exec.onMachine (b.body ctx.setting (handed args value))
        pure [word]
      else Exec.fail (.arityMismatch b.arity.number (.ofNat args.length) b.name)) (stage 0) := by
  rw [ctx.expression_call, Effect.bind_of_ok (h.reaching hfind), apply_handed hfind hdialect]

/-- A call ends in one of these ways. -/
theorem calls (runner : Runner) (args : List Expr) (c : Config) :
    ctx.Calls runner b args c (ctx.expression runner (.call b.name args) c) := by
  rcases hdeepen : Exec.deepen ctx c with ⟨stop | _, d⟩
  · rw [expression_of_tooDeep hdeepen]
    exact .tooDeep hdeepen
  · obtain ⟨value, stage, rfl, hhands | ⟨k, stop, hhalts⟩⟩ := runner.exists_stages b.wantsLiteral args d
    · have hall : ctx.Hands runner b args c 0 value stage := ⟨hdeepen, hhands⟩
      rw [expression_of_hands hfind hdialect hall]
      split
      · exact .reached hall ‹_›
      · exact .mismatch hall ‹_›
    · rw [expression_of_halts hfind hdeepen hhalts]
      obtain ⟨hk, hhands, hwants, hfail⟩ := hhalts
      exact .halted hk ⟨hdeepen, hhands⟩ hwants hfail

/-- A call has just those arguments evaluated that need not be literals, each when those after it have values. -/
theorem asks_iff {u : Task} {d : Config} :
    Asks (fun runner => ctx.expression runner (.call b.name args)) runner c u d ↔
      ∃ k value stage, ∃ hk : k < args.length, b.wantsLiteral k = false ∧
        ctx.Hands runner b args c (k + 1) value stage ∧ u = .expression args[k] ∧ d = stage (k + 1) := by
  constructor
  · refine Asks.only (P := fun u d => ∃ k value stage, ∃ hk : k < args.length, b.wantsLiteral k = false ∧
      ctx.Hands runner b args c (k + 1) value stage ∧ u = .expression args[k] ∧ d = stage (k + 1)) fun other hsame => ?_
    rcases hdeepen : Exec.deepen ctx c with ⟨stop | _, d⟩
    · rw [expression_of_tooDeep hdeepen, expression_of_tooDeep hdeepen]
    · obtain ⟨value, stage, rfl, hhands | ⟨k, stop, hk, hhands, hwants, hfail⟩⟩ :=
        runner.exists_stages b.wantsLiteral args d
      · have hother : other.Hands b.wantsLiteral args 0 value stage := hhands.congr fun i hi _ hwants =>
          hsame _ _ ⟨i, value, stage, hi, hwants, ⟨hdeepen, hhands.mono (Nat.zero_le _)⟩, rfl, rfl⟩
        rw [expression_of_hands hfind hdialect ⟨hdeepen, hhands⟩, expression_of_hands hfind hdialect ⟨hdeepen, hother⟩]
      · have hother : other.Hands b.wantsLiteral args (k + 1) value stage := hhands.congr fun i hi hlater hwants =>
          hsame _ _ ⟨i, value, stage, hi, hwants, ⟨hdeepen, hhands.mono (Nat.le_succ_of_le hlater)⟩, rfl, rfl⟩
        have hlast : other (.expression args[k]) (stage (k + 1)) = runner (.expression args[k]) (stage (k + 1)) :=
          hsame _ _ ⟨k, value, stage, hk, hwants, ⟨hdeepen, hhands⟩, rfl, rfl⟩
        have hstops : Exec.single (other (.expression args[k])) (stage (k + 1)) = (.error stop, stage k) := by
          rw [← hfail]
          unfold Exec.single
          rw [Effect.bind_apply, hlast, Effect.bind_apply]
        rw [expression_of_halts hfind hdeepen ⟨hk, hhands, hwants, hfail⟩,
          expression_of_halts hfind hdeepen ⟨hk, hother, hwants, hstops⟩]
  · rintro ⟨k, value, stage, hk, hwants, ⟨hdeepen, hhands⟩, rfl, rfl⟩
    refine asks_of_reaching ?_
    refine (asksAll_const (Exec.deepen ctx)).then hdeepen ?_
    rw [wantsLiteral_of_find? hfind]
    exact hhands.asks hk hwants

end Found
end Context

/-! ### Reaching the body -/

/-- The dialect with another body for a builtin. -/
def Dialect.giving (dialect : Dialect) (name : String) (body : Setting → Call → Action Word) : Dialect :=
  { dialect with builtins := dialect.builtins.map fun b => if b.name = name then { b with body := body } else b }

theorem Dialect.find?_giving {dialect : Dialect} {b : Builtin} (hfind : dialect.find? b.name = some b)
    (body : Setting → Call → Action Word) :
    (dialect.giving b.name body).find? b.name = some { b with body := body } := by
  have hnames : ((fun other : Builtin => decide (other.name = b.name)) ∘
      fun other : Builtin => if other.name = b.name then { other with body := body } else other) =
      fun other => decide (other.name = b.name) := by
    funext other
    by_cases h : other.name = b.name <;> simp [h]
  have hfound : dialect.builtins.find? (fun other => other.name = b.name) = some b := hfind
  unfold Dialect.find? Dialect.giving
  rw [List.find?_map, hnames, hfound]
  simp

/-- Failing in one place, a body does everything else as before. -/
noncomputable def Builtin.failingAt (b : Builtin) (call : Call) (m : Machine) (error : Error) :
    Setting → Call → Action Word :=
  open Classical in fun setting call' m' => if call' = call ∧ m' = m then (.error error, m') else b.body setting call' m'

namespace Context

/-- The context with another body for a builtin. -/
def giving (ctx : Context) (name : String) (body : Setting → Call → Action Word) : Context :=
  { ctx with dialect := ctx.dialect.giving name body }

/-- A call reaches the body of its builtin, with the given arguments and on the given machine: whatever error another
body raises there, and only there, the call fails with it. -/
def Reaches (ctx : Context) (runner : Runner) (b : Builtin) (args : List Expr) (c : Config) (call : Call)
    (m : Machine) : Prop :=
  ∀ (body : Setting → Call → Action Word) (error : Error),
    (∀ call' m', ¬(call' = call ∧ m' = m) → body ctx.setting call' m' = b.body ctx.setting call' m') →
    (body ctx.setting call m).1 = .error error →
    ((ctx.giving b.name body).expression runner (.call b.name args) c).1 = .error (.failed error)

variable {ctx : Context} {runner : Runner} {b : Builtin} {args : List Expr} {c : Config} {call : Call} {m : Machine}

theorem Reaches.not_const (h : ctx.Reaches runner b args c call m) {r : Except Stop (List Word) × Config} :
    ¬∀ error, (ctx.giving b.name (b.failingAt call m error)).expression runner (.call b.name args) c = r := by
  intro hconst
  have hfails (error : Error) : r.1 = .error (.failed error) := by
    rw [← hconst error]
    refine h _ error (fun call' m' hne => if_neg hne) ?_
    simp [Builtin.failingAt]
  cases (hfails .scopeUnderflow).symm.trans (hfails (.stepLimit (.ofNat 0)))

section Found
variable (hfind : ctx.dialect.find? b.name = some b) (hdialect : b.dialect = ctx.dialect.name)
include hfind hdialect

theorem giving_of_hands {value : Nat → Word} {stage : Nat → Config} (h : ctx.Hands runner b args c 0 value stage)
    (body : Setting → Call → Action Word) :
    (ctx.giving b.name body).expression runner (.call b.name args) c =
      (if b.arity = .exactly args.length then do
        let word ← Exec.onMachine (body ctx.setting (handed args value))
        pure [word]
      else Exec.fail (.arityMismatch b.arity.number (.ofNat args.length) b.name)) (stage 0) :=
  expression_of_hands (b := { b with body := body }) (Dialect.find?_giving hfind body) hdialect h

/-- The body is reached if all arguments get values and there are as many as the builtin takes, with these values on
the machine that the last evaluation left. -/
theorem reaches_iff :
    ctx.Reaches runner b args c call m ↔
      ∃ value stage, ctx.Hands runner b args c 0 value stage ∧ b.arity = .exactly args.length ∧
        call = handed args value ∧ m = (stage 0).machine := by
  constructor
  · intro h
    rcases hdeepen : Exec.deepen ctx c with ⟨stop | _, d⟩
    · refine absurd (fun error => ?_) (h.not_const (r := (.error stop, d)))
      exact expression_of_tooDeep hdeepen
    · obtain ⟨value, stage, rfl, hhands | ⟨k, stop, hhalts⟩⟩ := runner.exists_stages b.wantsLiteral args d
      · have hall : ctx.Hands runner b args c 0 value stage := ⟨hdeepen, hhands⟩
        by_cases hcount : b.arity = .exactly args.length
        · refine ⟨value, stage, hall, hcount, ?_⟩
          apply Classical.byContradiction
          intro hplace
          refine h.not_const (r := (do
            let word ← Exec.onMachine (b.body ctx.setting (handed args value))
            pure [word] : Exec (List Word)) (stage 0)) fun error => ?_
          rw [giving_of_hands hfind hdialect hall, if_pos hcount, Effect.bind_apply, Effect.bind_apply,
            Exec.onMachine_apply, Exec.onMachine_apply]
          have hsame : b.failingAt call m error ctx.setting (handed args value) (stage 0).machine =
              b.body ctx.setting (handed args value) (stage 0).machine :=
            if_neg fun ⟨hcall, hm⟩ => hplace ⟨hcall.symm, hm.symm⟩
          rw [hsame]
        · refine absurd (fun error => ?_) (h.not_const
            (r := Exec.fail (.arityMismatch b.arity.number (.ofNat args.length) b.name) (stage 0)))
          rw [giving_of_hands hfind hdialect hall, if_neg hcount]
      · refine absurd (fun error => ?_) (h.not_const (r := (.error stop, stage k)))
        exact expression_of_halts (b := { b with body := b.failingAt call m error })
          (Dialect.find?_giving hfind _) hdeepen hhalts
  · rintro ⟨value, stage, hhands, hcount, rfl, rfl⟩ body error - herror
    rw [giving_of_hands hfind hdialect hhands, if_pos hcount, Effect.bind_apply, Exec.onMachine_apply]
    rcases hbody : body ctx.setting (handed args value) (stage 0).machine with ⟨e | word, m⟩ <;> rw [hbody] at herror
    · cases herror
      rfl
    · cases herror

/-- The body is reached once. -/
theorem Reaches.unique {call' : Call} {m' : Machine} (h : ctx.Reaches runner b args c call m)
    (h' : ctx.Reaches runner b args c call' m') : call' = call ∧ m' = m := by
  obtain ⟨value, stage, hhands, -, rfl, rfl⟩ := (reaches_iff hfind hdialect).mp h
  obtain ⟨value', stage', hhands', -, rfl, rfl⟩ := (reaches_iff hfind hdialect).mp h'
  obtain ⟨hvalues, hstage⟩ := Prod.mk.inj ((hhands'.reaching hfind).symm.trans (hhands.reaching hfind))
  rw [hstage]
  exact ⟨congrArg (Call.mk · _) (Except.ok.inj hvalues), rfl⟩

end Found
end Context

/-- The contract between a call and the builtin that it calls, in whatever dialect that can be made of builtins. The
call ends in one of four ways. It has the arguments evaluated that need not be literals, from the last one to the first, each
in the stage that the one after it left, and no others. It reaches the body of the builtin once, if every argument
has a value and there are as many as the arity says, and otherwise not at all; the body is then given the values
in order, zero for a literal, the arguments as they are written, and the machine as the evaluation left it. -/
theorem builtin_calls_keep_contract {name : String} {builtins : List Builtin} {dialect : Dialect}
    (hmade : Dialect.ofBuiltins name builtins = .ok dialect) (hown : ∀ b ∈ builtins, b.dialect = name) {b : Builtin}
    (hmem : b ∈ builtins) {ctx : Context} (hdialect : ctx.dialect = dialect) (depth : Nat) (args : List Expr)
    (c : Config) :
    ctx.Calls (ctx.perform depth) b args c (ctx.perform (depth + 1) (.expression (.call b.name args)) c) ∧
    (∀ u d, Asks (fun runner => ctx.advance runner (.expression (.call b.name args))) (ctx.perform depth) c u d ↔
      ∃ k value stage, ∃ hk : k < args.length, b.wantsLiteral k = false ∧
        ctx.Hands (ctx.perform depth) b args c (k + 1) value stage ∧ u = .expression args[k] ∧ d = stage (k + 1)) ∧
    (∀ call m, ctx.Reaches (ctx.perform depth) b args c call m ↔
      ∃ value stage, ctx.Hands (ctx.perform depth) b args c 0 value stage ∧ b.arity = .exactly args.length ∧
        call = ⟨(List.range args.length).map value, args.map .expression⟩ ∧ m = (stage 0).machine) ∧
    ∀ call m call' m', ctx.Reaches (ctx.perform depth) b args c call m →
      ctx.Reaches (ctx.perform depth) b args c call' m' → call' = call ∧ m' = m := by
  have hfind : ctx.dialect.find? b.name = some b := by
    rw [hdialect]
    exact Dialect.find?_of_ofBuiltins hmade hmem
  have hbelongs : b.dialect = ctx.dialect.name := by
    rw [hdialect, Dialect.name_of_ofBuiltins hmade]
    exact hown b hmem
  refine ⟨Context.calls hfind hbelongs _ args c, fun u d => Context.asks_iff hfind hbelongs,
    fun call m => Context.reaches_iff hfind hbelongs, fun call m call' m' h h' => h.unique hfind hbelongs h'⟩

namespace Sample

/-- A builtin that notes a title, which has to be a literal, and a word. -/
def note : Builtin where
  dialect := "notes"
  name := "note"
  arity := .exactly 2
  literalArguments := [true, false]
  returnsValue := false
  origin := .added
  body := fun _ call => do
    logCall "NOTE" call.args
    pure 0

/-- A context whose dialect has that builtin only. -/
def noting : Context := { setting := {}, dialect := ⟨"notes", [note]⟩ }

/-- A title and a word. -/
def titled : List Expr := [.literal ⟨.string, "title"⟩, .literal ⟨.number, "7"⟩]

/-- Where a run stands at a nesting level. -/
def standing (level : Nat) : Config := { activation := { level := level } }

end Sample

/-- A title is passed over, and the word is evaluated. -/
theorem builtin_calls_keep_contract_sample :
    Sample.noting.Reaches (Sample.noting.perform 1) Sample.note Sample.titled (Sample.standing 0)
      ⟨[0, 7], Sample.titled.map .expression⟩ {} := by
  have hmade : Dialect.ofBuiltins "notes" [Sample.note] = .ok Sample.noting.dialect := rfl
  obtain ⟨-, -, hreaches, -⟩ := builtin_calls_keep_contract hmade (by simp [Sample.note]) (List.mem_singleton_self _)
    rfl 1 Sample.titled (Sample.standing 0)
  rw [hreaches]
  refine ⟨prepend 0 (prepend 7 fun _ => 0),
    prepend (Sample.standing 2) (prepend (Sample.standing 2) fun _ => Sample.standing 1), ⟨rfl, ?_, ?_⟩, rfl, rfl, rfl⟩
  · intro i hi _ hwants
    obtain _ | _ | i := i
    · exact ⟨rfl, rfl⟩
    · cases hwants
    · exact absurd hi (by simp [Sample.titled])
  · intro i hi _ hwants
    obtain _ | _ | i := i
    · cases hwants
    · rfl
    · exact absurd hi (by simp [Sample.titled])

end BlockIR
