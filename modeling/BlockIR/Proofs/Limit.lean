import BlockIR.Proofs.Congruence
import BlockIR.Proofs.Report

/-! Limits: the two bounds on a run, on its steps and on the nesting of its expressions.

Both work alike: a bound of zero is none, and when a bound is reached the run
leaves the line of the limit in the trace and fails with the limit's error. So
what is to be said about one is said about both. -/
namespace BlockIR

/-- A limit of a run. -/
inductive Limit where
  | steps
  | nesting
  deriving DecidableEq

namespace Limit

/-- The bound that a setting puts on a run, zero for none. -/
def bound : Limit → Setting → Nat
  | steps, setting => setting.maxSteps
  | nesting, setting => setting.maxNesting

/-- The setting with another bound. -/
def rebound : Limit → Nat → Setting → Setting
  | steps, bound, setting => { setting with maxSteps := bound }
  | nesting, bound, setting => { setting with maxNesting := bound }

/-- The outcome of a run that reaches the limit. -/
def outcome : Limit → Outcome
  | steps => .stepLimit
  | nesting => .nestingLimit

/-- The trace line that such a run ends with. -/
def line : Limit → String
  | steps => Machine.stepLimitLine
  | nesting => Machine.nestingLimitLine

theorem line_inj {limit other : Limit} (h : limit.line = other.line) : limit = other := by
  cases limit <;> cases other
  · rfl
  · exact absurd h (by decide)
  · exact absurd h (by decide)
  · rfl

/-- The line of a limit is not that of a call. -/
theorem paren_not_mem_line (limit : Limit) : '(' ∉ limit.line.toList := by
  cases limit <;> decide

end Limit

/-- The limit that an error says was reached. -/
def Error.limit? : Error → Option Limit
  | .stepLimit _ => some .steps
  | .nestingLimit _ => some .nesting
  | _ => none

theorem Error.limit?_eq_none {error : Error} (h : error.isLimit = false) : error.limit? = none := by
  cases error <;> first | rfl | cases h

theorem Error.outcome?_eq_limit (error : Error) (limit : Limit) :
    error.outcome? = some limit.outcome ↔ error.limit? = some limit := by
  cases error <;> cases limit <;> simp [outcome?, limit?, Limit.outcome]

/-- The limit whose reaching stopped a run. -/
def Stop.limit? : Stop → Option Limit
  | .failed error => error.limit?
  | .outOfDepth => none

/-- The limit that a result says was reached. -/
def Exec.limit? {α : Type} : Except Stop α → Option Limit
  | .ok _ => none
  | .error stop => stop.limit?

theorem Exec.Plain.limit? {α : Type} {x : Exec α} (h : x.Plain) (c : Config) :
    Exec.limit? (x c).1 = none := by
  rcases hx : (x c).1 with stop | a
  · obtain ⟨error, rfl, herror⟩ := h.failure c stop hx
    exact Error.limit?_eq_none herror
  · rfl

/-- In a run with options, a level beyond the bound on nesting is too deep. -/
theorem Run.tooDeep_iff (options : Options) (level : Nat) : (context options).tooDeep level = true ↔
    0 < options.setting.maxNesting ∧ options.setting.maxNesting < level := by
  show (decide (0 < options.setting.maxNesting) && decide (options.setting.maxNesting < level)) = true ↔ _
  rw [Bool.and_eq_true, decide_eq_true_iff, decide_eq_true_iff]

/-- The outcome of a report is that of the limit that was reached. -/
theorem Run.outcome_eq_limit {α : Type} {options : Options} {x : Exec α} {report : Report α}
    (h : guarded options x = .ok report) (limit : Limit) :
    report.ending.outcome = limit.outcome ↔ Exec.limit? (x {}).1 = some limit := by
  obtain ⟨-, ⟨value, hx, hending⟩ | ⟨error, outcome, hx, houtcome, hending⟩⟩ := guarded_eq_ok h
  · rw [hx, hending]
    cases limit <;> simp [Ending.outcome, Limit.outcome, Exec.limit?]
  · rw [hx, hending]
    show outcome = limit.outcome ↔ error.limit? = some limit
    rw [← Error.outcome?_eq_limit, houtcome, Option.some_inj]

end BlockIR
