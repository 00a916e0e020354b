import BlockIR.Run

/-! Reports: what a report tells of the run that it is about.

A run that has a report ended in a value or in an error that is an outcome, on
options that are in order; the machine of the report is the one that it stopped
with. -/
namespace BlockIR

/-- How a run ended, in a word. -/
def Ending.outcome {α : Type} : Ending α → Outcome
  | finished _ => .ok
  | aborted outcome _ => outcome

namespace Run
variable {α : Type} {options : Options}

/-- A report tells nothing else of a run than its result and its machine. -/
theorem guarded_congr {x y : Exec α} (hresult : (y {}).1 = (x {}).1) (hmachine : (y {}).2.machine = (x {}).2.machine)
    (options : Options) : guarded options y = guarded options x := by
  unfold guarded
  rcases hx : x {} with ⟨result, c⟩
  rcases hy : y {} with ⟨result', d⟩
  rw [hx, hy] at hresult hmachine
  dsimp only at hresult hmachine
  subst hresult
  rcases result' with (error | _) | value
  · simp only [hmachine]
  · rfl
  · simp only [hmachine]

/-- The two ways in which a part that has a report can have ended. -/
theorem guarded_eq_ok {x : Exec α} {report : Report α} (h : guarded options x = .ok report) :
    report.machine = (x {}).2.machine ∧
      ((∃ value, (x {}).1 = .ok value ∧ report.ending = .finished value) ∨
        ∃ error outcome, (x {}).1 = .error (.failed error) ∧ error.outcome? = some outcome ∧
          report.ending = .aborted outcome error) := by
  unfold guarded at h
  rcases hx : x {} with ⟨(error | _) | value, config⟩ <;> rw [hx] at h
  · rcases houtcome : error.outcome? with _ | outcome
    · simp only [houtcome] at h
      cases h
    · simp only [houtcome] at h
      cases h
      exact ⟨rfl, .inr ⟨error, outcome, rfl, houtcome, rfl⟩⟩
  · cases h
  · cases h
    exact ⟨rfl, .inl ⟨value, rfl, rfl⟩⟩

/-- What a part came to whose report says that it is finished. -/
theorem guarded_eq_finished {x : Exec α} {report : Report α} {value : α}
    (h : guarded options x = .ok report) (hending : report.ending = .finished value) :
    ∃ d, x {} = (.ok value, d) ∧ report.machine = d.machine := by
  obtain ⟨hmachine, ⟨value', hvalue, hfinished⟩ | ⟨error, outcome, -, -, haborted⟩⟩ := guarded_eq_ok h
  · cases hending.symm.trans hfinished
    exact ⟨(x {}).2, Prod.ext hvalue rfl, hmachine⟩
  · cases hending.symm.trans haborted

theorem withOptions_eq_ok {doc : Option Json} {f : Options → Except Stop α} {a : α}
    (h : withOptions doc f = .ok a) : ∃ options, Options.resolve doc = .ok options ∧ f options = .ok a := by
  unfold withOptions at h
  rcases hresolve : Options.resolve doc with error | options
  · rw [hresolve] at h
    cases h
  · rw [hresolve] at h
    exact ⟨options, rfl, h⟩

/-- What a report of a program is about. -/
theorem interpret_eq_ok {depth : Nat} {block : Block} {doc : Option Json} {report : Report Variables}
    (h : interpret depth block doc = .ok report) :
    ∃ options, Options.resolve doc = .ok options ∧
      guarded options (program (context options) depth block) = .ok report := withOptions_eq_ok h

/-- What a report of a function is about. -/
theorem callFunction_eq_ok {depth : Nat} {block : Block} {name : String} {args : List Int}
    {doc : Option Json} {report : Report (List Word)}
    (h : callFunction depth block name args doc = .ok report) :
    ∃ options, Options.resolve doc = .ok options ∧
      guarded options (call (context options) depth block name (args.map Int.toNat)) = .ok report := by
  unfold callFunction at h
  rcases hargs : argumentFault? 0 args with _ | error
  · rw [hargs] at h
    exact withOptions_eq_ok h
  · rw [hargs] at h
    cases h

end Run
end BlockIR
