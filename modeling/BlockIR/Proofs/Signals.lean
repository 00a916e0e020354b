import BlockIR.Proofs.Congruence
import BlockIR.Proofs.Report
import BlockIR.Proofs.Soundness

/-! Signals stay where they belong.

One pending signal is shared by all activations of a run. The text of a task
says which signals may be left pending by it (`Task.raises`): a loop spends the
`break` and `continue` of its parts, a function the `leave` of its body. That a
task leaves no other one holds of every program (`perform_raises`). In a program
without issues no signal is pending where a task begins, so these are all the
signals there can be (`Run.Signals`). -/
namespace BlockIR

/-! ### Texts -/

mutual
/-- The signals that a block may leave pending. -/
def Block.raises : Block → List Signal
  | ⟨_, statements⟩ => Statement.listRaises statements

/-- The signals that statements may leave pending. -/
def Statement.listRaises : List Statement → List Signal
  | [] => []
  | s :: rest => s.raises ++ Statement.listRaises rest

/-- The signals that the bodies of cases may leave pending. -/
def Case.listRaises : List Case → List Signal
  | [] => []
  | ⟨_, body⟩ :: rest => body.raises ++ Case.listRaises rest

/-- The signals that a statement may leave pending: out of a loop only `leave`, and none out of a
function that is defined. -/
def Statement.raises : Statement → List Signal
  | .breakLoop => [.breakLoop]
  | .continueLoop => [.continueLoop]
  | .leave => [.leave]
  | .conditional _ body => body.raises
  | .switch _ cases => Case.listRaises cases
  | .loop ⟨init, _, post, body⟩ => (init.raises ++ (post.raises ++ body.raises)).filter (· = .leave)
  | .block b => b.raises
  | .expression _ | .assignment _ _ | .declaration _ _ | .function _ => []
end

/-- The signals that a task may leave pending. -/
def Task.raises : Task → List Signal
  | .expression _ | .invoke _ _ => []
  | .statement s => s.raises
  | .block b => b.raises
  | .rounds l => (l.post.raises ++ l.body.raises).filter (· = .leave)

theorem Block.raises_eq (b : Block) : b.raises = Statement.listRaises b.statements := by
  obtain ⟨id, statements⟩ := b
  rfl

theorem Statement.raises_subset {s : Statement} {statements : List Statement} (h : s ∈ statements) :
    s.raises ⊆ Statement.listRaises statements := by
  induction statements with
  | nil => cases h
  | cons first rest ih =>
    unfold Statement.listRaises
    rcases List.mem_cons.mp h with rfl | h
    · exact List.subset_append_left _ _
    · exact List.Subset.trans (ih h) (List.subset_append_right _ _)

theorem Case.raises_subset {c : Case} {cases : List Case} (h : c ∈ cases) :
    c.body.raises ⊆ Case.listRaises cases := by
  induction cases with
  | nil => cases h
  | cons first rest ih =>
    obtain ⟨value, body⟩ := first
    unfold Case.listRaises
    rcases List.mem_cons.mp h with rfl | h
    · exact List.subset_append_left _ _
    · exact List.Subset.trans (ih h) (List.subset_append_right _ _)

theorem Statement.signal_mem_raises {s : Statement} {signal : Signal} (h : signal ∈ s.signal?) :
    signal ∈ s.raises := by
  cases s <;> cases h <;> exact List.mem_singleton_self _

/-- What a part of a statement may leave pending, the statement may: a loop alone spends signals. -/
theorem Task.Part.raises_subset {s : Statement} {u : Task} (h : Part (.statement s) u)
    (hloop : ∀ l, s ≠ .loop l) : u.raises ⊆ s.raises := by
  cases h with
  | branch => exact List.Subset.refl _
  | nested => exact List.Subset.refl _
  | chosen hmem => exact Case.raises_subset hmem
  | front => exact absurd rfl (hloop _)
  | begin => exact absurd rfl (hloop _)
  | _ => exact List.nil_subset _

/-! ### Parts of a run -/

namespace Exec
variable {α β : Type} {signals more : List Signal}

/-- Whenever `x` has a value, the pending signal is what it was, or none, or one of these. -/
def Raises (signals : List Signal) (x : Exec α) : Prop :=
  ∀ c a d, x c = (.ok a, d) → d.machine.signal = c.machine.signal ∨ d.machine.signal ∈ .proceed :: signals

/-- Whenever `x` has a value, no signal is pending or the function is being left. -/
def Spends (x : Exec α) : Prop :=
  ∀ c a d, x c = (.ok a, d) → d.machine.signal = .proceed ∨ d.machine.signal = .leave

theorem Raises.mono {x : Exec α} (h : Raises signals x) (hsub : signals ⊆ more) : Raises more x := by
  intro c a d hx
  exact (h c a d hx).imp_right fun hmem => List.cons_subset_cons _ hsub hmem

/-- A part that spends signals leaves none pending but `leave`. -/
theorem Raises.spent {x : Exec α} (h : Raises signals x) (hspends : Spends x) :
    Raises (signals.filter (· = .leave)) x := by
  intro c a d hx
  rcases hspends c a d hx with hproceed | hleave
  · rw [hproceed]
    exact .inr (List.mem_cons_self ..)
  · refine (h c a d hx).imp_right fun hmem => ?_
    rw [hleave] at hmem ⊢
    simpa using hmem

theorem raises_of_kept {x : Exec α} (h : ∀ c, (x c).2.machine.signal = c.machine.signal) :
    Raises signals x := by
  intro c a d hx
  left
  rw [← h c, hx]

theorem Plain.raises {x : Exec α} (h : Plain x) : Raises signals x :=
  raises_of_kept fun c => by rw [h.machine c]

theorem Raises.bind {x : Exec α} {f : α → Exec β} (hx : Raises signals x) (hf : ∀ a, Raises signals (f a)) :
    Raises signals (x >>= f) := by
  intro c b e h
  obtain ⟨a, d, hd, he⟩ := Effect.bind_eq_ok h
  rcases hf a d b e he with hsame | hmem
  · rw [hsame]
    exact hx c a d hd
  · exact .inr hmem

/-- Restoring a scope or an activation leaves the pending signal alone. -/
theorem Raises.ensuring {x : Exec α} {restore : Exec Unit} (hx : Raises signals x) (hrestore : Plain restore) :
    Raises signals (x.ensuring restore) := by
  intro c a d h
  obtain ⟨before, hbefore, hlast⟩ := Effect.ensuring_eq_ok h
  have hmachine := hrestore.machine before
  rw [hlast] at hmachine
  rw [hmachine]
  exact hx c a before hbefore

theorem raises_setSignal {signal : Signal} (h : signal ∈ .proceed :: signals) :
    Raises signals (setSignal signal) := by
  intro c a d hset
  cases hset
  exact .inr h

theorem Spends.bind {x : Exec α} {f : α → Exec β} (hf : ∀ a, Spends (f a)) : Spends (x >>= f) := by
  intro c b e h
  obtain ⟨a, d, -, he⟩ := Effect.bind_eq_ok h
  exact hf a d b e he

theorem Spends.ensuring {x : Exec α} {restore : Exec Unit} (hx : Spends x) (hrestore : Plain restore) :
    Spends (x.ensuring restore) := by
  intro c a d h
  obtain ⟨before, hbefore, hlast⟩ := Effect.ensuring_eq_ok h
  have hmachine := hrestore.machine before
  rw [hlast] at hmachine
  rw [hmachine]
  exact hx c a before hbefore

theorem settle_spends : Spends settle := by
  intro c a d h
  obtain ⟨signal, e, hread, hrest⟩ := Effect.bind_eq_ok h
  cases hread
  split at hrest
  · rename_i hleave
    cases hrest
    exact .inr hleave
  · cases hrest
    exact .inl rfl

theorem valuesOf_config {names : List String} {values : List Word} {c d : Config}
    (h : valuesOf names c = (.ok values, d)) : d = c := by
  induction names generalizing values with
  | nil =>
    cases h
    rfl
  | cons name rest ih =>
    obtain ⟨value, e, hvalue, hrest⟩ := Effect.bind_eq_ok h
    obtain ⟨others, f, hothers, hlast⟩ := Effect.bind_eq_ok hrest
    cases hlast
    have hsame : e = c := by
      rcases hname : c.activation.bindings[name]? with _ | bound
      · rw [valueOf_of_none hname] at hvalue
        cases hvalue
      · unfold valueOf activation at hvalue
        rw [Effect.bind_of_ok (Effect.gets_apply Config.activation c), hname] at hvalue
        cases hvalue
        rfl
    rw [hsame] at hothers
    exact ih hothers

end Exec

/-! ### Tasks -/

section Tasks
open Exec
variable {options : Options} {runner : Runner} {signals : List Signal}

/-- What a statement does in its own scope raises no signal. -/
theorem raises_local (options : Options) (signals : List Signal) :
    (Run.context options).Local (Run.context options) fun _ x _ => Raises signals x where
  dialect := rfl
  pure a := (plain_pure a).raises
  fail he := (plain_fail he).raises
  valueOf _ := (plain_valueOf _).raises
  deepen := by
    apply raises_of_kept
    intro c
    rw [deepen_apply]
    dsimp only
    split
    · exact rfl
    · exact rfl
  builtin hfind call := by
    apply raises_of_kept
    intro c
    rw [onMachine_apply]
    exact (options.target.evaluate_tame hfind options.setting call).signal c.machine
  bind hx hf := hx.bind hf
  count := by
    apply raises_of_kept
    intro c
    rw [onMachine_apply, countStep_apply]
    split
    · exact rfl
    · exact rfl
  look _ := (plain_gets _).raises
  pending := (plain_gets _).raises
  reset := raises_setSignal (List.mem_cons_self ..)
  restart := (plain_modifyActivation _).raises
  put _ _ := (plain_modifyActivation _).raises
  declareVariable _ := (plain_declare _ _).raises

/-- If the statements in front of a loop leave the function, that is the pending signal. -/
theorem initialise_leaves {statements : List Statement} {c d : Config}
    (h : runner.initialise statements c = (.ok true, d)) : d.machine.signal = .leave := by
  induction statements generalizing c with
  | nil => cases h
  | cons s rest ih =>
    obtain ⟨_, e, -, hafter⟩ := Effect.bind_eq_ok h
    obtain ⟨signal, f, hread, hrest⟩ := Effect.bind_eq_ok hafter
    cases hread
    split at hrest
    · rename_i hleave
      cases hrest
      exact hleave
    · exact ih hrest

/-- When a call has returned, no signal is pending. -/
theorem invoke_proceeds {name : String} {args values : List Word} {c d : Config}
    (h : runner.invoke name args c = (.ok values, d)) : d.machine.signal = .proceed := by
  rcases invoke_cases name args c with ⟨e, he⟩ | ⟨scope, f, hfound, hcount⟩
  · rw [he] at h
    cases h
  · rw [invoke_of_found hfound hcount, within_apply] at h
    obtain ⟨hvalue, rfl⟩ := Prod.mk.inj h
    obtain ⟨_, e, -, hreset⟩ := Effect.bind_eq_ok (Prod.ext hvalue rfl : _ = (Except.ok values, _))
    obtain ⟨_, after, hset, hvalues⟩ := Effect.bind_eq_ok hreset
    cases hset
    exact congrArg (fun config => config.machine.signal) (valuesOf_config hvalues)

theorem run_spends {t : Task} (hrunner : Spends (runner t)) : Spends (runner.run t) := by
  intro c a d h
  obtain ⟨values, e, hdone, hlast⟩ := Effect.bind_eq_ok h
  cases hlast
  exact hrunner c values d hdone

/-- At its end a loop has spent the signals of its rounds. -/
theorem rounds_spend {l : ForLoop} (hrunner : Spends (runner (.rounds l))) :
    Spends ((Run.context options).rounds runner l) := by
  have hpost : Spends (runner.afterPost l) := by
    apply Spends.bind
    intro signal
    split
    · exact settle_spends
    · exact run_spends hrunner
  have hbody : Spends (runner.afterBody l) := by
    apply Spends.bind
    intro signal
    split
    · exact settle_spends
    · exact Spends.bind fun _ => Spends.bind fun _ => hpost
  apply Spends.bind
  intro value
  split
  · exact settle_spends
  · exact Spends.bind fun _ => Spends.bind fun _ => Spends.bind fun _ => hbody

theorem loop_spends {l : ForLoop} (hrunner : Spends (runner (.rounds l))) :
    Spends (runner.statement (.loop l)) := by
  apply Spends.bind
  intro _
  refine Spends.ensuring (fun c a d h => ?_) plain_leaveScope
  obtain ⟨left, e, hinit, hrest⟩ := Effect.bind_eq_ok h
  cases left with
  | true =>
    cases hrest
    exact .inr (initialise_leaves hinit)
  | false => exact run_spends hrunner e a d hrest

/-- What a loop may leave pending: a `leave` of the statements in front of it or of its rounds. -/
theorem loop_raises (options : Options) {l : ForLoop} (hfront : ∀ s ∈ l.init.statements, Raises s.raises (runner (.statement s)))
    (hrounds : Raises (Task.rounds l).raises (runner (.rounds l))) (hspends : Spends (runner (.rounds l))) :
    Raises (Statement.loop l).raises (runner.statement (.loop l)) := by
  obtain ⟨init, condition, post, body⟩ := l
  have hlocal := raises_local options (init.raises ++ (post.raises ++ body.raises))
  refine Raises.spent ?_ (loop_spends hspends)
  apply (plain_enterScope _).raises.bind
  intro _
  refine Raises.ensuring ?_ plain_leaveScope
  have hinit : Raises (init.raises ++ (post.raises ++ body.raises)) (runner.initialise init.statements) := by
    refine @Context.Stepwise.initialise _ _ _ runner runner hlocal.toStepwise _ fun s hs => (hfront s hs).mono ?_
    rw [init.raises_eq]
    exact List.Subset.trans (Statement.raises_subset hs) (List.subset_append_left _ _)
  apply hinit.bind
  intro left
  split
  · exact (plain_pure ()).raises
  · let loop : ForLoop := ⟨init, condition, post, body⟩
    refine @Context.Stepwise.run _ _ _ runner runner hlocal.toStepwise (.rounds loop) (.rounds loop) (hrounds.mono ?_)
    exact List.Subset.trans List.filter_sublist.subset (List.subset_append_right _ _)

/-- A task leaves no other signals pending than its text says, if those that it leads to do not. -/
theorem advance_raises (hrunner : ∀ t, Raises t.raises (runner t)) (hspends : ∀ l, Spends (runner (.rounds l)))
    (t : Task) : Raises t.raises ((Run.context options).advance runner t) := by
  have hlocal (signals : List Signal) := raises_local options signals
  cases t with
  | expression e =>
    refine @Context.Evaluates.expression _ _ _ runner runner (hlocal []).toEvaluates e fun u hu => ?_
    cases hu <;> exact hrunner _
  | invoke name args =>
    intro c values d h
    exact .inr (List.mem_singleton.mpr (invoke_proceeds h))
  | statement s =>
    have hstatement : Raises s.raises (runner.statement s) := by
      refine @Context.Stepwise.statement _ _ _ runner runner (hlocal s.raises).toStepwise s
        (fun signal hsignal => raises_setSignal ?_) ?_ fun hother u hu =>
          (hrunner u).mono (hu.raises_subset hother)
      · exact List.mem_cons_of_mem _ (Statement.signal_mem_raises hsignal)
      · rintro l rfl
        exact loop_raises options (fun s _ => hrunner (.statement s)) (hrunner _) (hspends l)
    exact hstatement.bind fun _ => (plain_pure _).raises
  | block b =>
    have hblock : Raises b.raises ((Run.context options).block runner b (pure ())) := by
      apply (plain_enterScope _).raises.bind
      intro _
      refine Raises.ensuring ?_ plain_leaveScope
      apply (plain_declareFunctions _).raises.bind
      intro _
      refine Raises.bind ?_ fun _ => (plain_pure ()).raises
      refine @Context.Stepwise.sequence _ _ _ runner runner (hlocal b.raises).toStepwise _ fun s hs =>
        (hrunner (.statement s)).mono ?_
      rw [b.raises_eq]
      exact Statement.raises_subset hs
    exact hblock.bind fun _ => (plain_pure _).raises
  | rounds l =>
    refine Raises.bind (Raises.spent ?_ (rounds_spend (hspends l))) fun _ => (plain_pure _).raises
    refine @Context.Stepwise.rounds _ _ _ runner runner (hlocal (l.post.raises ++ l.body.raises)).toStepwise l fun u hu =>
      (hrunner u).mono ?_
    cases hu with
    | test => exact List.nil_subset _
    | round => exact List.subset_append_right _ _
    | post => exact List.subset_append_left _ _
    | again => exact List.filter_sublist.subset

theorem perform_rounds_spends (depth : Nat) (l : ForLoop) :
    Spends ((Run.context options).perform depth (.rounds l)) := by
  induction depth with
  | zero => exact fun _ _ _ h => nomatch h
  | succ depth ih =>
    intro c values d h
    obtain ⟨_, e, hrounds, hlast⟩ := Effect.bind_eq_ok h
    cases hlast
    exact rounds_spend ih c () d hrounds

/-- Whatever the program is, a task leaves no other signals pending than its text says. -/
theorem perform_raises (depth : Nat) (t : Task) :
    Raises t.raises ((Run.context options).perform depth t) := by
  induction depth generalizing t with
  | zero => exact fun _ _ _ h => nomatch h
  | succ depth ih => exact advance_raises ih (perform_rounds_spends depth) t

end Tasks

/-! ### Runs -/

namespace Run
variable {α : Type} {ctx : Context} {x : Runner → Exec α} {depth : Nat}

/-- Where the signals of a run belong. No signal is pending where a task begins. A task that returns
leaves at most one that its text raises, a loop at most `leave` and a call none, and none is pending
at the end of a run that has a value. -/
structure Signals (ctx : Context) (x : Runner → Exec α) (depth : Nat) : Prop where
  begins : ∀ left t c, Moment ctx x depth left t c → c.machine.signal = .proceed
  returns : ∀ left t c values d, Moment ctx x depth left t c → ctx.perform left t c = (.ok values, d) →
    d.machine.signal = .proceed ∨ d.machine.signal ∈ t.raises
  loop : ∀ left l c values d, Moment ctx x depth left (.statement (.loop l)) c →
    ctx.perform left (.statement (.loop l)) c = (.ok values, d) →
      d.machine.signal = .proceed ∨ d.machine.signal = .leave
  call : ∀ left name args c values d, Moment ctx x depth left (.invoke name args) c →
    ctx.perform left (.invoke name args) c = (.ok values, d) → d.machine.signal = .proceed
  finished : ∀ a d, x (ctx.perform depth) {} = (.ok a, d) → d.machine.signal = .proceed

/-- No signal is pending after the block of a checked program: neither a loop nor a function is around it. -/
theorem outermost_proceeds {job : Job} (hjob : job.Valid) {table : Variables} {d : Config}
    (h : outermost job.ctx job.program (job.ctx.perform depth) {} = (.ok table, d)) :
    d.machine.signal = .proceed := by
  have hfits : (Task.block job.program).Fits job {} [] := ⟨hjob.checked, List.mem_singleton_self _⟩
  obtain ⟨-, -, hresult⟩ := block_ends hjob (Config.poised_start job) hfits
    (fun s _ visible => perform_does hjob depth) fun config => config.activation.bindings
  have hblock : job.ctx.block (job.ctx.perform depth) job.program
      (Effect.gets fun config => config.activation.bindings) {} = (.ok table, d) := h
  rw [hblock] at hresult
  obtain ⟨before, ⟨-, hadmits, -⟩, hmachine⟩ := hresult
  rw [hmachine]
  exact hadmits.proceed rfl fun hleave => by rw [hleave] at hadmits; cases hadmits

/-- In a run of a checked program signals stay where they belong if none is pending at its end. -/
theorem Begins.signals {target : Target} {program : Block} {options : Options} {agrees : Prop}
    (hjob : (job target program options agrees).Valid) {start : Task → Chain → Prop}
    (hbegins : Begins (job target program options agrees) x start) (depth : Nat)
    (hfinished : ∀ a d, x ((context options).perform depth) {} = (.ok a, d) → d.machine.signal = .proceed) :
    Signals (context options) x depth := by
  have hproceeds (left : Nat) (t : Task) (c : Config) (hmoment : Moment (context options) x depth left t c) :
      c.machine.signal = .proceed := by
    obtain ⟨chain, visible, hready⟩ := hmoment.ready hjob hbegins
    exact hready.poised.signal
  have hreturns (left : Nat) (t : Task) (c : Config) (values : List Word) (d : Config)
      (hmoment : Moment (context options) x depth left t c)
      (hdone : (context options).perform left t c = (.ok values, d)) :
      d.machine.signal = .proceed ∨ d.machine.signal ∈ t.raises := by
    rcases perform_raises left t c values d hdone with hsame | hmem
    · exact .inl (hsame.trans (hproceeds left t c hmoment))
    · exact List.mem_cons.mp hmem
  refine ⟨hproceeds, hreturns, fun left l c values d hmoment hdone => ?_,
    fun left name args c values d hmoment hdone => ?_, hfinished⟩
  · refine (hreturns left _ c values d hmoment hdone).imp_right fun hmem => ?_
    obtain ⟨init, condition, post, body⟩ := l
    exact of_decide_eq_true (List.mem_filter.mp hmem).2
  · refine (hreturns left _ c values d hmoment hdone).resolve_right fun hmem => ?_
    cases hmem

end Run

/-- In every run of a program without issues, a signal is pending neither where a statement nor where
an expression begins, whatever the options are and whichever function is called. Loops end `break` and
`continue`, calls end `leave`, and at the end of a run that is finished no signal is pending. -/
theorem signals_stay_local {target : Target} {doc opts : Option Json} {program : Block} {options : Options}
    (hvalid : Validation.validate target doc = .ok program)
    (hoptions : Options.resolve opts = .ok options) (depth : Nat) :
    Run.Signals (Run.context options) (Run.outermost (Run.context options) program) depth ∧
    (∀ name args, Run.Signals (Run.context options) (Run.entry program name args) depth) ∧
    (∀ report table, interpret depth program opts = .ok report → report.ending = .finished table →
      report.machine.signal = .proceed) ∧
    ∀ name args report values, callFunction depth program name args opts = .ok report →
      report.ending = .finished values → report.machine.signal = .proceed := by
  have hjob : (Run.job target program options False).Valid := Run.job_valid hvalid False.elim
  have hprogram : Run.Signals (Run.context options) (Run.outermost (Run.context options) program) depth :=
    (Run.outermost_begins hjob).signals hjob depth fun _ _ h => Run.outermost_proceeds hjob h
  have hcall (name : String) (args : List Word) :
      Run.Signals (Run.context options) (Run.entry program name args) depth := by
    refine (Run.entry_begins hjob False.elim).signals hjob depth fun values d h => ?_
    obtain ⟨opened, hopens, hentry⟩ := Run.entry_opens hjob name args
    rw [hentry] at h
    rcases perform_raises depth (.invoke name args) opened values d h with hsame | hmem
    · rw [hsame, hopens.machine]
    · exact List.mem_singleton.mp hmem
  refine ⟨hprogram, hcall, fun report table hreport hending => ?_,
    fun name args report values hreport hending => ?_⟩
  · rw [Run.interpret_eq hoptions] at hreport
    obtain ⟨d, hd, hmachine⟩ := Run.guarded_eq_finished hreport hending
    rw [hmachine]
    exact hprogram.finished table d hd
  · obtain ⟨options', hoptions', hguarded⟩ := Run.callFunction_eq_ok hreport
    cases hoptions.symm.trans hoptions'
    obtain ⟨d, hd, hmachine⟩ := Run.guarded_eq_finished hguarded hending
    rw [hmachine]
    exact (hcall name (args.map Int.toNat)).finished values d hd

theorem signals_stay_local_sample :
    Run.Signals (Run.context Sample.options) (Run.outermost (Run.context Sample.options) Sample.program) 20 ∧
    Run.Signals (Run.context Sample.options) (Run.entry Sample.program "copy" [7]) 20 := by
  have hsignals := signals_stay_local Sample.program_valid Sample.options_resolved 20
  exact ⟨hsignals.1, hsignals.2.1 "copy" [7]⟩

end BlockIR
