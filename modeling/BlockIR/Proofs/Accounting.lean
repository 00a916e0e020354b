import BlockIR.Proofs.Limit
import BlockIR.Proofs.WriteLog

/-! Limits are accounted for exactly.

A run goes on as long as it has steps left and no line about a limit in its
trace (`Machine.Going`). The part that reaches a limit adds the line of the limit
and fails (`Machine.Stopped`), and from then on nothing is counted and no line
added: what is still done only restores scopes and activations. So a report
shows a limit as its outcome, as the last line of the trace and in the number of
steps, or in none of these (`limits_accounted`). -/
namespace BlockIR

/-- A run with this machine has reached no limit. -/
structure Machine.Going (setting : Setting) (m : Machine) : Prop where
  steps : 0 < setting.maxSteps → m.steps < setting.maxSteps
  trace : ∀ limit : Limit, limit.line ∉ m.trace.toList

/-- A run with this machine has just reached a limit. -/
structure Machine.Stopped (setting : Setting) (limit : Limit) (m : Machine) : Prop where
  bound : 0 < limit.bound setting
  steps_le : 0 < setting.maxSteps → m.steps ≤ setting.maxSteps
  steps : 0 < setting.maxSteps → (limit = .steps ↔ m.steps = setting.maxSteps)
  trace : ∃ before, m.trace.toList = before ++ [limit.line] ∧ ∀ other : Limit, other.line ∉ before

/-- The machine tells that the limit was reached, or that none was. -/
def Machine.Accounts (setting : Setting) (m : Machine) : Option Limit → Prop
  | none => m.Going setting
  | some limit => m.Stopped setting limit

/-- Begun with no limit reached, `x` ends with a machine that tells what limit it reached. -/
def Exec.Accounts {α : Type} (setting : Setting) (x : Exec α) : Prop :=
  ∀ c, c.machine.Going setting → (x c).2.machine.Accounts setting (Exec.limit? (x c).1)

theorem Machine.going_start (setting : Setting) : Machine.Going setting {} := ⟨id, nofun⟩

/-- Steps and trace are all that matters to going on. -/
theorem Machine.Going.of_eq {setting : Setting} {m n : Machine} (h : m.Going setting)
    (hsteps : n.steps = m.steps) (htrace : n.trace = m.trace) : n.Going setting where
  steps := hsteps ▸ h.steps
  trace := htrace ▸ h.trace

namespace Exec
variable {α β : Type} {setting : Setting}

theorem Plain.accounts {x : Exec α} (h : Plain x) : Accounts setting x := by
  intro c hc
  rw [h.machine c, h.limit? c]
  exact hc

theorem Accounts.bind {x : Exec α} {f : α → Exec β} (hx : Accounts setting x)
    (hf : ∀ a, Accounts setting (f a)) : Accounts setting (x >>= f) := by
  intro c hc
  have h := hx c hc
  rw [Effect.bind_apply]
  rcases hresult : x c with ⟨stop | a, d⟩ <;> rw [hresult] at h
  · exact h
  · exact hf a d h

/-- What is restored after a limit was reached neither counts nor adds a line. -/
theorem Accounts.ensuring {x : Exec α} {restore : Exec Unit} (hx : Accounts setting x)
    (hrestore : Plain restore) : Accounts setting (x.ensuring restore) := by
  intro c hc
  have h := hx c hc
  unfold Effect.ensuring
  rcases hresult : x c with ⟨stop | a, d⟩ <;> rw [hresult] at h
  · show (restore d).2.machine.Accounts setting (Exec.limit? (.error stop))
    rw [hrestore.machine d]
    exact h
  · have hd := hrestore.accounts d h
    rcases hr : restore d with ⟨_ | _, e⟩ <;> rw [hr] at hd <;> simp only [hr] <;> exact hd

theorem accounts_setSignal (signal : Signal) : Accounts setting (setSignal signal) :=
  fun _ hc => hc.of_eq rfl rfl

/-- Counting stops the run with its last step. -/
theorem accounts_count : Accounts setting (onMachine (countStep setting)) := by
  intro c hc
  rw [onMachine_apply, countStep_apply]
  split
  · rename_i hreached
    have hsteps := hc.steps hreached.1
    exact
      { bound := hreached.1
        steps_le := fun _ => by simp only [Machine.log]; omega
        steps := fun _ => by simp only [Machine.log, true_iff]; omega
        trace := ⟨_, Machine.trace_log _ _, hc.trace⟩ }
  · rename_i hreached
    exact ⟨fun hpos => by simp only; omega, hc.trace⟩

theorem accounts_deepen (ctx : Context) : Accounts ctx.setting (deepen ctx) := by
  intro c hc
  rw [deepen_apply]
  dsimp only
  split
  · rename_i hdeep
    have hbound : 0 < ctx.setting.maxNesting := by
      unfold Context.tooDeep at hdeep
      simp only [Bool.and_eq_true, decide_eq_true_eq] at hdeep
      exact hdeep.1
    have hsteps (hpos : 0 < ctx.setting.maxSteps) : c.machine.steps ≠ ctx.setting.maxSteps :=
      Nat.ne_of_lt (hc.steps hpos)
    exact
      { bound := hbound
        steps_le := fun hpos => Nat.le_of_lt (hc.steps hpos)
        steps := fun hpos => ⟨nofun, fun h => absurd h (hsteps hpos)⟩
        trace := ⟨_, Machine.trace_log _ _, hc.trace⟩ }
  · exact hc.of_eq rfl rfl

/-- A builtin reaches no limit, and the line it leaves is not that of a limit. -/
theorem accounts_builtin (target : Target) {name : String} {builtin : Builtin}
    (hfind : target.dialect.find? name = some builtin) (call : Call) :
    Accounts setting (onMachine (target.dialect.evaluate setting builtin call)) := by
  intro c hc
  rw [onMachine_apply]
  have hsteps := (target.evaluate_tame hfind setting call).steps c.machine
  obtain ⟨lines, hlines, hcalls⟩ := target.evaluate_logs hfind setting call c.machine
  have hgoing : (target.dialect.evaluate setting builtin call c.machine).2.Going setting := by
    refine ⟨hsteps ▸ hc.steps, fun limit hmem => ?_⟩
    rw [hlines.trace] at hmem
    rcases List.mem_append.mp hmem with hmem | hmem
    · exact hc.trace limit hmem
    · exact limit.paren_not_mem_line (hcalls _ hmem)
  rcases hresult : target.dialect.evaluate setting builtin call c.machine with ⟨error | value, m⟩ <;>
    rw [hresult] at hgoing
  · have hnone : error.limit? = none := by
      rcases target.evaluate_failure hfind hresult with ⟨fault, rfl⟩ | ⟨-, expected, got, what, rfl⟩ <;> rfl
    show m.Accounts setting error.limit?
    rw [hnone]
    exact hgoing
  · exact hgoing

end Exec

open Exec

/-- All parts of a run account for limits. -/
theorem accounts_uniform (target : Target) {ctx : Context} (hctx : ctx.dialect = target.dialect) :
    ctx.Uniform ctx fun _ x _ => Exec.Accounts ctx.setting x :=
  Context.Oblivious.uniform
    { dialect := rfl
      plain := Plain.accounts
      bind := Accounts.bind
      ensuring := Accounts.ensuring
      signal := accounts_setSignal
      count := accounts_count
      deepen := accounts_deepen ctx
      builtin := fun hfind call => by
        rw [hctx] at hfind ⊢
        exact accounts_builtin target hfind call }

/-! ### Reports -/

/-- A report shows what limit was reached, if any, in the same way everywhere. -/
structure Report.Accounted {α : Type} (setting : Setting) (report : Report α) : Prop where
  steps_le : 0 < setting.maxSteps → report.machine.steps ≤ setting.maxSteps
  steps : 0 < setting.maxSteps →
    (report.ending.outcome = .stepLimit ↔ report.machine.steps = setting.maxSteps)
  line : ∀ limit : Limit, report.ending.outcome = limit.outcome ↔ limit.line ∈ report.machine.trace.toList
  /-- The line of a limit stands once and at the end. -/
  once : ∀ limit : Limit, limit.line ∈ report.machine.trace.toList →
    report.machine.trace.toList.count limit.line = 1 ∧
      report.machine.trace.toList.getLast? = some limit.line
  apart : ¬(Machine.stepLimitLine ∈ report.machine.trace.toList ∧
    Machine.nestingLimitLine ∈ report.machine.trace.toList)
  /-- A limit that is not set is not reached. -/
  unlimited : ∀ limit : Limit, limit.bound setting = 0 → report.ending.outcome ≠ limit.outcome

theorem Machine.Stopped.mem {setting : Setting} {limit other : Limit} {m : Machine}
    (h : m.Stopped setting limit) : other.line ∈ m.trace.toList ↔ limit = other := by
  obtain ⟨before, htrace, hbefore⟩ := h.trace
  rw [htrace, List.mem_append, List.mem_singleton]
  constructor
  · rintro (hmem | hmem)
    · exact absurd hmem (hbefore other)
    · exact (Limit.line_inj hmem).symm
  · rintro rfl
    exact .inr rfl

theorem Machine.Stopped.count {setting : Setting} {limit : Limit} {m : Machine}
    (h : m.Stopped setting limit) :
    m.trace.toList.count limit.line = 1 ∧ m.trace.toList.getLast? = some limit.line := by
  obtain ⟨before, htrace, hbefore⟩ := h.trace
  rw [htrace, List.count_append, List.count_eq_zero.mpr (hbefore limit), List.getLast?_concat]
  simp

namespace Report
variable {α : Type} {setting : Setting} {report : Report α}

theorem accounted_of_going (h : report.machine.Going setting)
    (houtcome : ∀ limit : Limit, report.ending.outcome ≠ limit.outcome) : report.Accounted setting where
  steps_le hpos := Nat.le_of_lt (h.steps hpos)
  steps hpos :=
    ⟨fun hlimit => absurd hlimit (houtcome .steps), fun heq => absurd heq (Nat.ne_of_lt (h.steps hpos))⟩
  line limit := ⟨fun hlimit => absurd hlimit (houtcome limit), fun hmem => absurd hmem (h.trace limit)⟩
  once limit hmem := absurd hmem (h.trace limit)
  apart hboth := h.trace .steps hboth.1
  unlimited limit _ := houtcome limit

theorem accounted_of_stopped {limit : Limit} (h : report.machine.Stopped setting limit)
    (houtcome : ∀ other : Limit, report.ending.outcome = other.outcome ↔ limit = other) :
    report.Accounted setting where
  steps_le := h.steps_le
  steps hpos := (houtcome .steps).trans (h.steps hpos)
  line other := (houtcome other).trans h.mem.symm
  once other hmem := by
    cases h.mem.mp hmem
    exact h.count
  apart hboth := by
    have hsteps : limit = .steps := h.mem.mp hboth.1
    have hnesting : limit = .nesting := h.mem.mp hboth.2
    cases hsteps.symm.trans hnesting
  unlimited other hzero hother := by
    cases (houtcome other).mp hother
    exact absurd hzero (Nat.ne_of_gt h.bound)

end Report

/-- A part that accounts for limits has a report that does. -/
theorem Run.guarded_accounted {α : Type} {options : Options} {x : Exec α} {report : Report α}
    (hx : Exec.Accounts options.setting x) (h : Run.guarded options x = .ok report) :
    report.Accounted options.setting := by
  have hmachine := hx {} (Machine.going_start _)
  have houtcome := Run.outcome_eq_limit h
  rw [← (Run.guarded_eq_ok h).1] at hmachine
  rcases hlimit : Exec.limit? (x {}).1 with _ | limit <;> rw [hlimit] at hmachine houtcome
  · exact Report.accounted_of_going hmachine fun limit hreached => nomatch (houtcome limit).mp hreached
  · exact Report.accounted_of_stopped hmachine fun other => (houtcome other).trans Option.some_inj

/-- In every report the outcome, the trace and the number of steps agree about limits. -/
theorem limits_accounted (depth : Nat) (program : Block) {doc : Option Json} {options : Options}
    (hresolve : Options.resolve doc = .ok options) :
    (∀ report, interpret depth program doc = .ok report → report.Accounted options.setting) ∧
    ∀ name args report, callFunction depth program name args doc = .ok report →
      report.Accounted options.setting := by
  have hdepth {α : Type} : Exec.Accounts options.setting (Effect.fail .outOfDepth : Exec α) :=
    fun _ hc => hc
  have huniform : (Run.context options).Uniform (Run.context options)
      fun _ x _ => Exec.Accounts options.setting x := accounts_uniform options.target rfl
  constructor
  · intro report hreport
    obtain ⟨resolved, hresolved, hguarded⟩ := Run.interpret_eq_ok hreport
    cases hresolved.symm.trans hresolve
    exact Run.guarded_accounted (huniform.program hdepth depth program) hguarded
  · intro name args report hreport
    obtain ⟨resolved, hresolved, hguarded⟩ := Run.callFunction_eq_ok hreport
    cases hresolved.symm.trans hresolve
    exact Run.guarded_accounted (huniform.call hdepth depth program name _) hguarded

theorem limits_accounted_storing :
    ∃ report : Report Variables,
      interpret 8 storing (some (.object [("maxSteps", .number (.ofNat 2))])) = .ok report ∧
        report.Accounted { maxSteps := 2 } := by
  have hresolve : Options.resolve (some (.object [("maxSteps", .number (.ofNat 2))])) =
      .ok ⟨{ maxSteps := 2 }, .evm, false⟩ := rfl
  exact ⟨_, rfl, (limits_accounted 8 storing hresolve).1 _ rfl⟩

end BlockIR
