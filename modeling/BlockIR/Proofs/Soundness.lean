import BlockIR.Proofs.Execution
import BlockIR.Syntax.Document

/-! Soundness of checking.

A program that was checked without issues for a dialect, run with it, ends in a
value or in one of the outcomes, whatever the limits and the environment are.
Nothing else is raised on the way: failures are never caught, so one that is
raised at any moment would end the run. -/
namespace BlockIR

namespace Run
variable {target : Target} {doc opts : Option Json} {program : Block} {options : Options} {α : Type}

/-- Running a program that was checked for a target with options of the caller. -/
def job (target : Target) (program : Block) (options : Options) (agrees : Prop) : Job :=
  ⟨program, target.dialect, context options, agrees⟩

theorem job_valid {agrees : Prop} (hvalid : Validation.validate target doc = .ok program)
    (hagrees : agrees → options.target = target) : (job target program options agrees).Valid where
  written := (checked_of_validate hvalid).1
  checked := (checked_of_validate hvalid).2
  target := ⟨options.target, rfl⟩
  agrees h := congrArg Target.dialect (hagrees h)

/-- Whatever fails in a run fails with an outcome, and every task comes back to the scope it began
in, however it ends; so no scope is left that has none around it. -/
structure Safe (ctx : Context) (x : Runner → Exec α) (depth : Nat) : Prop where
  outcome : ∀ left t c error, Moment ctx x depth left t c →
    (ctx.perform left t c).1 = .error (.failed error) → error.outcome?.isSome = true
  scope : ∀ left t c, Moment ctx x depth left t c →
    (ctx.perform left t c).2.activation.scope = c.activation.scope

/-- A run that agrees with the check is safe. -/
theorem Begins.safe {job : Job} (hjob : job.Valid) (hagree : job.Agrees) {x : Runner → Exec α}
    {start : Task → Chain → Prop} (hbegins : Begins job x start) (depth : Nat) : Safe job.ctx x depth where
  outcome left t c error hmoment hfail := (hbegins.allowed hjob depth (hmoment.error hfail)).2 hagree
  scope left t c hmoment := by
    obtain ⟨chain, visible, hready⟩ := hmoment.ready hjob hbegins
    exact (perform_meets hjob left hready).goes.1.scope

/-- A part whose failures are outcomes has a report, unless it needs more depth. -/
theorem guarded_reports {x : Exec α}
    (h : ∀ error, (x {}).1 = .error (.failed error) → error.outcome?.isSome = true) :
    (∃ report, guarded options x = .ok report) ∨ guarded options x = .error .outOfDepth := by
  unfold guarded
  rcases hx : x {} with ⟨(error | _) | value, config⟩
  · have houtcome := h error (congrArg Prod.fst hx)
    rcases hsome : error.outcome? with _ | outcome
    · rw [hsome] at houtcome
      cases houtcome
    · simp only [hsome]
      exact .inl ⟨_, rfl⟩
  · exact .inr rfl
  · exact .inl ⟨_, rfl⟩

theorem argumentFault?_eq_none {args : List Int} (hargs : ∀ a ∈ args, 0 ≤ a ∧ a < Word.modulus)
    (position : Nat) : argumentFault? position args = none := by
  induction args generalizing position with
  | nil => rfl
  | cons first rest ih =>
    obtain ⟨hfirst, hrest⟩ := List.forall_mem_cons.mp hargs
    rw [argumentFault?, if_pos hfirst]
    exact ih hrest (position + 1)

theorem toNat_inRange {args : List Int} (hargs : ∀ a ∈ args, 0 ≤ a ∧ a < Word.modulus) :
    ∀ w ∈ args.map Int.toNat, Word.InRange w := by
  intro w hw
  obtain ⟨a, ha, rfl⟩ := List.mem_map.mp hw
  obtain ⟨hlow, hhigh⟩ := hargs a ha
  exact (Int.toNat_lt hlow).mpr hhigh

theorem interpret_eq (hoptions : Options.resolve opts = .ok options) (depth : Nat) (program : Block) :
    interpret depth program opts =
      guarded options (outermost (context options) program ((context options).perform depth)) := by
  unfold interpret withOptions
  rw [hoptions]
  rfl

theorem callFunction_eq (hoptions : Options.resolve opts = .ok options) (depth : Nat) (program : Block)
    (name : String) {args : List Int} (hargs : ∀ a ∈ args, 0 ≤ a ∧ a < Word.modulus) :
    callFunction depth program name args opts = guarded options
      (entry program name (args.map Int.toNat) ((context options).perform depth)) := by
  unfold callFunction withOptions
  rw [argumentFault?_eq_none hargs, hoptions]
  rfl

end Run

/-- A program without issues ends in a value or an outcome and comes back to the root; a call of each
of its functions with as many words as it has parameters ends so as well. No part of these runs raises
anything else. -/
theorem validate_sound {target : Target} {doc opts : Option Json} {program : Block} {options : Options}
    (hvalid : Validation.validate target doc = .ok program)
    (hoptions : Options.resolve opts = .ok options) (htarget : options.target = target) (depth : Nat) :
    ((∃ report, interpret depth program opts = .ok report) ∨
      interpret depth program opts = .error .outOfDepth) ∧
    (Run.program (Run.context options) depth program {}).2.activation.scope = 0 ∧
    Run.Safe (Run.context options) (Run.outermost (Run.context options) program) depth ∧
    ∀ f ∈ program.functions, ∀ args : List Int, (∀ a ∈ args, 0 ≤ a ∧ a < Word.modulus) →
      args.length = f.params.length →
        ((∃ report, callFunction depth program f.name args opts = .ok report) ∨
          callFunction depth program f.name args opts = .error .outOfDepth) ∧
        Run.Safe (Run.context options) (Run.entry program f.name (args.map Int.toNat)) depth := by
  have hjob : (Run.job target program options True).Valid := Run.job_valid hvalid fun _ => htarget
  have hprogram := Run.outermost_begins hjob
  have hends := Run.outermost_ends hjob fun _ _ _ _ => perform_does hjob depth
  refine ⟨?_, hends.1.scope, hprogram.safe hjob trivial depth, fun f hf args hargs hlength => ?_⟩
  · rw [Run.interpret_eq hoptions]
    exact Run.guarded_reports fun error hfail => (hprogram.allowed hjob depth hfail).2 trivial
  · have hcall : Run.Begins (Run.job target program options True)
        (Run.entry program f.name (args.map Int.toNat)) (Run.Called program f.name (args.map Int.toNat)) :=
      Run.entry_begins hjob fun _ => ⟨f, hf, rfl, (List.length_map _).trans hlength⟩
    rw [Run.callFunction_eq hoptions depth program f.name hargs]
    refine ⟨Run.guarded_reports fun error hfail => (hcall.allowed hjob depth hfail).2 trivial, ?_⟩
    exact hcall.safe hjob trivial depth

/-! ### A sample -/

namespace Sample

/-- A function with one parameter and one return. -/
def copy : FunctionDefinition :=
  ⟨"copy", ["n"], ["r"], ⟨Place.field (Place.item [] "statements" 2) "body",
    [.assignment ["r"] (.identifier "n")]⟩⟩

/-- A loop of one round. -/
def loop : ForLoop where
  init := ⟨Place.field (Place.item [] "statements" 0) "pre",
    [.declaration ["i"] (some (.call "copy" [.literal ⟨.number, "1"⟩]))]⟩
  condition := .identifier "i"
  post := ⟨Place.field (Place.item [] "statements" 0) "post", [.assignment ["i"] (.literal ⟨.number, "0"⟩)]⟩
  body := ⟨Place.field (Place.item [] "statements" 0) "body", [.declaration ["y"] none]⟩

/-- A program that calls a function in front of its definition, also from inside a loop. -/
def program : Block :=
  ⟨[], [.loop loop, .declaration ["x"] (some (.call "copy" [.literal ⟨.number, "3"⟩])), .function copy]⟩

theorem program_valid : Validation.validate .evm (some program.toJson) = .ok program := by
  have hread : Validation.readProgram (some program.toJson) = .ok program := by
    with_unfolding_all rfl
  have hissues : Validation.issues Target.evm.dialect program = [] := rfl
  simp only [Validation.validate, hread, bind, Except.bind, hissues]

/-- What is resolved when no options are given. -/
def options : Options := ⟨{}, .evm, false⟩

theorem options_resolved : Options.resolve none = .ok options := rfl

end Sample

theorem validate_sound_sample :
    ((∃ report, interpret 20 Sample.program none = .ok report) ∨
      interpret 20 Sample.program none = .error .outOfDepth) ∧
    ((∃ report, callFunction 20 Sample.program "copy" [7] none = .ok report) ∨
      callFunction 20 Sample.program "copy" [7] none = .error .outOfDepth) := by
  have hsound := validate_sound Sample.program_valid Sample.options_resolved rfl 20
  have hcopy : Sample.copy ∈ Sample.program.functions := List.mem_singleton_self _
  exact ⟨hsound.1, (hsound.2.2.2 Sample.copy hcopy [7] (by decide) rfl).1⟩

end BlockIR
