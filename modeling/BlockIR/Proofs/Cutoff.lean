import BlockIR.Proofs.Accounting
import BlockIR.Proofs.Budget
import BlockIR.Proofs.Depth

/-! A limit only cuts a run short.

Two runs that differ in one bound do the same until the lower one is reached
(`Exec.Cuts`). There the one run stops, with the line of the limit as the last of
its trace, and the other one goes on; since a trace only ever grows, everything
before that line stays part of it. No builtin asks for a bound
(`Target.evaluate_rebound`), so the counters influence nothing else. -/
namespace BlockIR

/-! ### Bounds and builtins -/

/-- A builtin that does the same whatever the bounds are. -/
def Builtin.Boundless (builtin : Builtin) : Prop :=
  ∀ limit bound setting call, builtin.body (Limit.rebound limit bound setting) call = builtin.body setting call

namespace Target

/-! The `evm` dialect. -/

namespace Evm

theorem unary_boundless (name : String) (f : Word → Int) : (unary name f).Boundless := fun _ _ _ _ => rfl

theorem binary_boundless (name : String) (f : Word → Word → Int) : (binary name f).Boundless :=
  fun _ _ _ _ => rfl

theorem modular_boundless (name : String) (f : Word → Word → Word → Word) :
    (modular name f).Boundless := fun _ _ _ _ => rfl

theorem logger_boundless (name title : String) (topics : Nat) : (logger name title topics).Boundless :=
  fun _ _ _ _ => rfl

theorem constant_boundless (name : String) {f : Setting → Word}
    (h : ∀ limit bound setting, f (Limit.rebound limit bound setting) = f setting) :
    (constant name f).Boundless := fun limit bound setting _ => congrArg Pure.pure (h limit bound setting)

theorem dataQuery_boundless (name : String) (f : Nat × Nat → Word) : (dataQuery name f).Boundless := by
  intro limit bound setting call
  cases limit <;> rfl

theorem memory_boundless : ∀ b ∈ memory, b.Boundless := by
  simp only [memory, List.forall_mem_cons]
  exact ⟨fun _ _ _ _ => rfl, fun _ _ _ _ => rfl, fun _ _ _ _ => rfl, fun _ _ _ _ => rfl, nofun⟩

theorem storage_boundless : ∀ b ∈ storage, b.Boundless := by
  simp only [storage, List.forall_mem_cons]
  exact ⟨fun _ _ _ _ => rfl, fun _ _ _ _ => rfl, nofun⟩

theorem environment_boundless : ∀ b ∈ environment, b.Boundless := by
  simp only [environment, List.forall_mem_cons]
  refine ⟨?_, constant_boundless _ ?_, constant_boundless _ ?_, constant_boundless _ ?_,
    constant_boundless _ ?_, fun _ _ _ _ => rfl, logger_boundless _ _ _, logger_boundless _ _ _,
    logger_boundless _ _ _, nofun⟩
  · intro limit bound setting call
    cases limit <;> rfl
  all_goals
    intro limit bound setting
    cases limit <;> rfl

theorem builtins_boundless : ∀ b ∈ builtins, b.Boundless :=
  forall_builtins unary_boundless binary_boundless modular_boundless memory_boundless storage_boundless
    environment_boundless dataQuery_boundless

end Evm

/-! The `wasm` dialect. -/

namespace Wasm

theorem unary_boundless (name : String) (width : Nat) (f : Nat → Int) :
    (unary name width f).Boundless := fun _ _ _ _ => rfl

theorem binary_boundless (name : String) (width : Nat) (f : Nat → Nat → Int) :
    (binary name width f).Boundless := fun _ _ _ _ => rfl

theorem drop_boundless : (builtin "drop" 1 false fun _ => pure 0).Boundless := fun _ _ _ _ => rfl

theorem load_boundless (name : String) (size : Nat) : (load name size).Boundless := fun _ _ _ _ => rfl

theorem store_boundless (name : String) (size : Nat) : (store name size).Boundless := fun _ _ _ _ => rfl

theorem builtins_boundless : ∀ b ∈ builtins, b.Boundless := by
  apply forall_builtins unary_boundless binary_boundless drop_boundless
  simp [memory, load_boundless, store_boundless]

end Wasm

/-- A call of a builtin does the same whatever the bounds are. -/
theorem evaluate_rebound (target : Target) {name : String} {builtin : Builtin}
    (hfind : target.dialect.find? name = some builtin) (limit : Limit) (bound : Nat) (setting : Setting)
    (call : Call) : target.dialect.evaluate (limit.rebound bound setting) builtin call =
      target.dialect.evaluate setting builtin call := by
  have hbuiltin : builtin.Boundless :=
    holds_of_find? Evm.builtins_boundless Wasm.builtins_boundless target hfind
  unfold Dialect.evaluate
  rw [hbuiltin]

end Target

/-! ### Traces grow -/

/-- Whatever is done in a run, the trace before is the beginning of the trace after. -/
theorem trace_course (target : Target) {ctx : Context} (hctx : ctx.dialect = target.dialect) :
    ctx.Course fun m n => m.trace.toList <+: n.trace.toList where
  refl m := List.prefix_rfl
  trans := List.IsPrefix.trans
  signal m _ := List.prefix_rfl
  count m := by
    obtain ⟨lines, hlines⟩ := (log_course target hctx).count m
    exact ⟨lines, hlines.trace.symm⟩
  deepest m := by
    obtain ⟨lines, hlines⟩ := (log_course target hctx).deepest m
    exact ⟨lines, hlines.trace.symm⟩
  builtin hfind call m := by
    obtain ⟨lines, hlines⟩ := (log_course target hctx).builtin hfind call m
    exact ⟨lines, hlines.trace.symm⟩

namespace Exec
variable {α β : Type} {limit : Limit}

/-! ### Cutting short -/

/-- The first result is reaching the limit, and its trace up to there is the beginning of the second. -/
structure CutOff (limit : Limit) (low high : Except Stop α × Config) : Prop where
  reached : limit? low.1 = some limit
  trace : low.2.machine.trace.toList.dropLast <+: high.2.machine.trace.toList

/-- `y` does what `x` does wherever `x` does not reach the limit, and `x` is cut off where it does. -/
structure Cuts (limit : Limit) (x y : Exec α) : Prop where
  grows : Keeps (fun m n => m.trace.toList <+: n.trace.toList) y
  same : ∀ c, y c = x c ∨ CutOff limit (x c) (y c)

/-- Reaching the limit leaves one more line. -/
theorem cutOff_of_line {x y : Exec α} (hy : Keeps (fun m n => m.trace.toList <+: n.trace.toList) y)
    {c : Config} {line : String} (hreached : limit? (x c).1 = some limit)
    (hline : (x c).2.machine.trace = c.machine.trace.push line) : CutOff limit (x c) (y c) where
  reached := hreached
  trace := by
    rw [hline, Array.toList_push, List.dropLast_concat]
    exact hy c

theorem Cuts.bind {ctx : Context} (course : ctx.Course fun m n => m.trace.toList <+: n.trace.toList)
    {x y : Exec α} {f g : α → Exec β} (hx : Cuts limit x y) (hf : ∀ a, Cuts limit (f a) (g a)) :
    Cuts limit (x >>= f) (y >>= g) where
  grows := hx.grows.bind course fun a => (hf a).grows
  same c := by
    rcases hx.same c with heq | hcut
    · rw [Effect.bind_apply, Effect.bind_apply, heq]
      rcases x c with ⟨stop | a, d⟩
      · exact .inl rfl
      · exact (hf a).same d
    · right
      obtain ⟨hreached, htrace⟩ := hcut
      rcases hlow : x c with ⟨stop | a, d⟩ <;> rw [hlow] at hreached htrace
      · rw [Effect.bind_of_error hlow]
        refine ⟨hreached, ?_⟩
        -- What the longer run does after `y` only adds lines.
        rw [Effect.bind_apply]
        rcases hhigh : y c with ⟨stop' | a, e⟩ <;> rw [hhigh] at htrace
        · exact htrace
        · exact htrace.trans ((hf a).grows e)
      · cases hreached

theorem Cuts.ensuring {x y : Exec α} {restore : Exec Unit} (hx : Cuts limit x y) (hrestore : Plain restore) :
    Cuts limit (x.ensuring restore) (y.ensuring restore) where
  grows := hx.grows.ensuring hrestore.machine
  same c := by
    rcases hx.same c with heq | hcut
    · left
      unfold Effect.ensuring
      rw [heq]
    · right
      obtain ⟨hreached, htrace⟩ := hcut
      refine ⟨?_, ?_⟩
      · rcases hlow : x c with ⟨stop | a, d⟩ <;> rw [hlow] at hreached
        · unfold Effect.ensuring
          rw [hlow]
          exact hreached
        · cases hreached
      · rw [machine_ensuring x hrestore.machine, machine_ensuring y hrestore.machine]
        exact htrace

end Exec

/-- The same options with another bound. -/
def Options.withBound (limit : Limit) (bound : Nat) (options : Options) : Options :=
  { options with setting := limit.rebound bound options.setting }

/-! ### What is done at a limit -/

section Bounds
open Exec
variable {limit : Limit} {bound : Nat} {options : Options}
  (hlimited : 0 < limit.bound options.setting)
  (hbound : bound = 0 ∨ limit.bound options.setting < bound)
include hlimited hbound

/-- Counting is cut off at the lower budget and the same below it. -/
theorem cuts_count (course : (Run.context (options.withBound limit bound)).Course
      fun m n => m.trace.toList <+: n.trace.toList) :
    Cuts limit (onMachine (countStep options.setting))
      (onMachine (countStep (limit.rebound bound options.setting))) where
  grows := keeps_onMachine course.count
  same c := by
    cases limit with
    | nesting => exact .inl rfl
    | steps =>
      have hbound : bound = 0 ∨ options.setting.maxSteps < bound := hbound
      by_cases hreached : 0 < options.setting.maxSteps ∧ options.setting.maxSteps ≤ c.machine.steps + 1
      · right
        apply cutOff_of_line (keeps_onMachine course.count)
        · rw [onMachine_apply, countStep_apply, if_pos hreached]
          rfl
        · rw [onMachine_apply, countStep_apply, if_pos hreached]
          rfl
      · left
        have hpos : 0 < options.setting.maxSteps := hlimited
        have hhigh : ¬(0 < (Limit.rebound .steps bound options.setting).maxSteps ∧
            (Limit.rebound .steps bound options.setting).maxSteps ≤ c.machine.steps + 1) := by
          show ¬(0 < bound ∧ bound ≤ c.machine.steps + 1)
          omega
        rw [onMachine_apply, onMachine_apply, countStep_apply, countStep_apply, if_neg hreached, if_neg hhigh]

/-- And so is going deeper. -/
theorem cuts_deepen (course : (Run.context (options.withBound limit bound)).Course
      fun m n => m.trace.toList <+: n.trace.toList) :
    Cuts limit (deepen (Run.context options)) (deepen (Run.context (options.withBound limit bound))) where
  grows := keeps_deepen course
  same c := by
    cases limit with
    | steps => exact .inl rfl
    | nesting =>
      have hbound : bound = 0 ∨ options.setting.maxNesting < bound := hbound
      by_cases hdeep : (Run.context options).tooDeep (c.activation.level + 1) = true
      · right
        apply cutOff_of_line (keeps_deepen course)
        · rw [deepen_apply]
          simp only [hdeep, if_true]
          rfl
        · rw [deepen_apply]
          simp only [hdeep, if_true]
          rfl
      · left
        have hhigh :
            ¬(Run.context (options.withBound .nesting bound)).tooDeep (c.activation.level + 1) = true := by
          rw [Run.tooDeep_iff] at hdeep ⊢
          have hlimited : 0 < options.setting.maxNesting := hlimited
          show ¬(0 < bound ∧ bound < c.activation.level + 1)
          omega
        rw [deepen_apply, deepen_apply]
        dsimp only
        rw [if_neg hdeep, if_neg hhigh]

/-- All parts of a run do the same with the higher bound until they are cut off. -/
theorem cuts_uniform : (Run.context options).Uniform (Run.context (options.withBound limit bound))
    fun _ x y => Cuts limit x y := by
  have course : (Run.context (options.withBound limit bound)).Course
      fun m n => m.trace.toList <+: n.trace.toList := trace_course options.target rfl
  exact Context.Oblivious.uniform
    { dialect := rfl
      plain := fun h => ⟨h.keeps course, fun _ => .inl rfl⟩
      bind := Cuts.bind course
      ensuring := Cuts.ensuring
      signal := fun signal => ⟨fun c => course.signal c.machine signal, fun _ => .inl rfl⟩
      count := cuts_count hlimited hbound course
      deepen := cuts_deepen hlimited hbound course
      builtin := fun hfind call =>
        { grows := keeps_onMachine (course.builtin hfind call)
          same := fun c => by
            left
            show onMachine (options.target.dialect.evaluate (limit.rebound bound options.setting) _ call) c = _
            rw [options.target.evaluate_rebound hfind]
            rfl } }

end Bounds

/-! ### Runs -/

namespace Run
variable {α : Type} {limit : Limit}

/-- One run is cut short of another: it comes to the same wherever it does not reach the limit, and where
it does, its trace up to there is the beginning of the trace of the other one. -/
structure CutShort (limit : Limit) (low high : Nat → Exec α) : Prop where
  same : ∀ depth, Exec.limit? (low depth {}).1 ≠ some limit → high depth {} = low depth {}
  trace : ∀ depth depth', Exec.limit? (low depth {}).1 = some limit →
    (high depth' {}).1 ≠ .error .outOfDepth →
      (low depth {}).2.machine.trace.toList.dropLast <+: (high depth' {}).2.machine.trace.toList

/-- The same, as far as reports tell. -/
structure ReportsCutShort (limit : Limit) (low high : Nat → Except Stop (Report α)) : Prop where
  same : ∀ depth, (∀ report, low depth = .ok report → report.ending.outcome ≠ limit.outcome) →
    high depth = low depth
  trace : ∀ depth depth' report report', low depth = .ok report → report.ending.outcome = limit.outcome →
    high depth' = .ok report' → report.machine.trace.toList.dropLast <+: report'.machine.trace.toList

theorem cutShort_of_cuts {low high : Nat → Exec α} (hcuts : ∀ depth, Exec.Cuts limit (low depth) (high depth))
    (hlow : Exec.Growing low) (hhigh : Exec.Growing high) : CutShort limit low high where
  same depth hreached := by
    rcases (hcuts depth).same {} with heq | hcut
    · exact heq
    · exact absurd hcut.reached hreached
  trace depth depth' hreached hends := by
    have hstops : (low depth {}).1 ≠ .error .outOfDepth := by
      intro hout
      rw [hout] at hreached
      cases hreached
    -- Both runs have come to their end at the sum of the two depths.
    have hlow' := hlow.answer hstops depth'
    have hhigh' := hhigh.answer hends depth
    rw [Nat.add_comm] at hhigh'
    rw [← hlow', ← hhigh']
    rcases (hcuts (depth + depth')).same {} with heq | hcut
    · rw [heq]
      exact List.dropLast_prefix _
    · exact hcut.trace

/-- A run that reaches a limit has a report of it. -/
theorem guarded_of_limit {x : Exec α} (options : Options) (h : Exec.limit? (x {}).1 = some limit) :
    ∃ report, guarded options x = .ok report ∧ report.ending.outcome = limit.outcome := by
  unfold guarded
  rcases hx : x {} with ⟨(error | _) | value, config⟩ <;> rw [hx] at h
  · simp only [(Error.outcome?_eq_limit error limit).mpr h]
    exact ⟨_, rfl, rfl⟩
  · cases h
  · cases h

theorem CutShort.reports {low high : Nat → Exec α} (h : CutShort limit low high) {options other : Options}
    (hverbose : other.verbose = options.verbose) :
    ReportsCutShort limit (fun depth => guarded options (low depth)) fun depth =>
      guarded other (high depth) where
  same depth hreports := by
    have hreached : Exec.limit? (low depth {}).1 ≠ some limit := by
      intro hreached
      obtain ⟨report, hreport, houtcome⟩ := guarded_of_limit options hreached
      exact hreports report hreport houtcome
    show guarded other (high depth) = guarded options (low depth)
    unfold guarded
    rw [h.same depth hreached, hverbose]
  trace depth depth' report report' hreport houtcome hreport' := by
    have hends : (high depth' {}).1 ≠ .error .outOfDepth := by
      intro hout
      obtain ⟨-, ⟨_, hvalue, -⟩ | ⟨_, _, herror, -⟩⟩ := guarded_eq_ok hreport'
      · cases hvalue.symm.trans hout
      · cases herror.symm.trans hout
    rw [(guarded_eq_ok hreport).1, (guarded_eq_ok hreport').1]
    exact h.trace depth depth' ((outcome_eq_limit hreport limit).mp houtcome) hends

theorem reportsCutShort_of_error {low high : Nat → Except Stop (Report α)} {stop : Stop}
    (hlow : ∀ depth, low depth = .error stop) (hhigh : ∀ depth, high depth = .error stop) :
    ReportsCutShort limit low high where
  same depth _ := (hhigh depth).trans (hlow depth).symm
  trace depth _ _ _ hreport _ _ := nomatch (hlow depth).symm.trans hreport

end Run

/-- Two runs that differ in one bound, the first with a lower one: the first is cut short of the second,
for programs and for calls of their functions, also where they have no report. -/
theorem limit_only_cuts (limit : Limit) {doc doc' : Option Json} {options : Options} {bound : Nat}
    (hresolve : Options.resolve doc = .ok options)
    (hother : Options.resolve doc' = .ok (options.withBound limit bound))
    (hlimited : 0 < limit.bound options.setting)
    (hbound : bound = 0 ∨ limit.bound options.setting < bound) (program : Block) :
    let low := Run.context options
    let high := Run.context (options.withBound limit bound)
    (Run.ReportsCutShort limit (fun depth => interpret depth program doc)
        fun depth => interpret depth program doc') ∧
      (Run.CutShort limit (fun depth => Run.program low depth program)
        fun depth => Run.program high depth program) ∧
      ∀ name args,
        (Run.ReportsCutShort limit (fun depth => callFunction depth program name args doc)
          fun depth => callFunction depth program name args doc') ∧
        Run.CutShort limit (fun depth => Run.call low depth program name (args.map Int.toNat))
          fun depth => Run.call high depth program name (args.map Int.toNat) := by
  intro low high
  have cuts : low.Uniform high fun _ x y => Exec.Cuts limit x y := cuts_uniform hlimited hbound
  have hdepth {α : Type} : Exec.Cuts limit (Effect.fail .outOfDepth : Exec α) (Effect.fail .outOfDepth) :=
    ⟨fun _ => List.prefix_rfl, fun _ => .inl rfl⟩
  have hverbose : (options.withBound limit bound).verbose = options.verbose := rfl
  have hprogram : Run.CutShort limit (fun depth => Run.program low depth program)
      fun depth => Run.program high depth program :=
    Run.cutShort_of_cuts (fun depth => cuts.program hdepth depth program) (program_growing low program)
      (program_growing high program)
  have hcall (name : String) (args : List Word) : Run.CutShort limit
      (fun depth => Run.call low depth program name args) fun depth => Run.call high depth program name args :=
    Run.cutShort_of_cuts (fun depth => cuts.call hdepth depth program name args)
      (call_growing low program name args) (call_growing high program name args)
  refine ⟨?_, hprogram, fun name args => ⟨?_, hcall name _⟩⟩
  · unfold interpret Run.withOptions
    rw [hresolve, hother]
    exact hprogram.reports hverbose
  · unfold callFunction Run.withOptions
    rw [hresolve, hother]
    rcases Run.argumentFault? 0 args with _ | error
    · exact (hcall name _).reports hverbose
    · exact Run.reportsCutShort_of_error (fun _ => rfl) fun _ => rfl

theorem limit_only_cuts_spinning :
    let doc (bound : Nat) : Option Json := some (.object [("maxSteps", .number (.ofNat bound))])
    Run.ReportsCutShort .steps (fun depth => interpret depth spinning (doc 3))
      fun depth => interpret depth spinning (doc 5) := by
  have hresolve : Options.resolve (some (.object [("maxSteps", .number (.ofNat 3))])) =
      .ok ⟨{ maxSteps := 3 }, .evm, false⟩ := rfl
  exact (limit_only_cuts .steps hresolve rfl (by decide) (.inr (by decide)) spinning).1

end BlockIR
