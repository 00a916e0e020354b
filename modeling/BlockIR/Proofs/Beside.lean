import BlockIR.Proofs.Budget
import BlockIR.Proofs.Builtins
import BlockIR.Proofs.Simulation
import BlockIR.Proofs.Soundness

/-! Runs that differ in what they have counted.

Without a limit on steps nothing in a run depends on how many were counted: a
builtin does on a machine what it does on one with another count
(`Action.Uncounted`). So two runs can be kept beside each other whose machines
agree but for the count (`Machine.Beside`), and what one reports the other
reports as well (`Alike`). -/
namespace BlockIR

/-! ### Machines and reports -/

/-- The machine with another number of counted steps. -/
def Machine.recount (m : Machine) (steps : Nat) : Machine := { m with steps := steps }

/-- Machines that agree but for the count, with counts that are related. -/
def Machine.Beside (R : Nat → Nat → Prop) (m n : Machine) : Prop := n = m.recount n.steps ∧ R m.steps n.steps

/-- Endings with related values, or with the same error. -/
inductive Ending.Pairs {α β : Type} (V : α → β → Prop) : Ending α → Ending β → Prop
  | finished {a : α} {b : β} : V a b → Pairs V (.finished a) (.finished b)
  | aborted (outcome : Outcome) (error : Error) : Pairs V (.aborted outcome error) (.aborted outcome error)

/-- Reports of the same ending, with machines that agree but for the count. -/
structure Report.Beside {α β : Type} (R : Nat → Nat → Prop) (V : α → β → Prop) (r : Report α) (s : Report β) :
    Prop where
  ending : r.ending.Pairs V s.ending
  machine : r.machine.Beside R s.machine
  warnings : s.warnings = r.warnings

/-- Two runs of which one ends just when the other does, and then in the same failure or with reports
that belong together. -/
structure Alike {α β : Type} (R : α → β → Prop) (x : Nat → Except Stop α) (y : Nat → Except Stop β) : Prop where
  terminates : Terminates x ↔ Terminates y
  results : ∀ depth depth', x depth ≠ .error .outOfDepth → y depth' ≠ .error .outOfDepth →
    Results R (x depth) (y depth')

/-- Parts that come to related results on machines beside each other are reported alike. -/
theorem Run.guarded_beside {α β : Type} {R : Nat → Nat → Prop} {V : α → β → Prop} {x : Exec α} {y : Exec β}
    (hresults : Results V (x {}).1 (y {}).1) (hmachine : (x {}).2.machine.Beside R (y {}).2.machine)
    (options : Options) : Results (Report.Beside R V) (guarded options x) (guarded options y) := by
  unfold guarded
  generalize x {} = r at hresults hmachine
  generalize y {} = r' at hresults hmachine
  obtain ⟨result, c⟩ := r
  obtain ⟨result', d⟩ := r'
  cases hresults with
  | ok hV => exact .ok ⟨.finished hV, hmachine, rfl⟩
  | error stop =>
    rcases stop with error | _
    · dsimp only
      cases error.outcome? with
      | none => exact .error _
      | some outcome => exact .ok ⟨.aborted outcome error, hmachine, rfl⟩
    · exact .error _

/-! ### Runs at all depths -/

/-- An answer at one depth is the answer at every greater one. -/
def Steady {α : Type} (run : Nat → Except Stop α) : Prop :=
  ∀ depth, run depth ≠ .error .outOfDepth → ∀ more, run (depth + more) = run depth

theorem Steady.terminates_iff {α : Type} {run : Nat → Except Stop α} (h : Steady run) :
    Terminates run ↔ ∃ depth, run depth ≠ .error .outOfDepth := by
  constructor
  · rintro ⟨answer, hanswer, depth, hsame⟩
    exact ⟨depth, (hsame 0).symm ▸ hanswer⟩
  · rintro ⟨depth, hdepth⟩
    exact ⟨run depth, hdepth, depth, h depth hdepth⟩

/-- The answers at any two depths are one. -/
theorem Steady.unique {α : Type} {run : Nat → Except Stop α} (h : Steady run) {depth depth' : Nat}
    (hdepth : run depth ≠ .error .outOfDepth) (hdepth' : run depth' ≠ .error .outOfDepth) :
    run depth = run depth' := by
  rw [← h depth hdepth depth', Nat.add_comm, h depth' hdepth' depth]

theorem Run.guarded_ne_outOfDepth {α : Type} {options : Options} {x : Exec α} :
    guarded options x ≠ .error .outOfDepth ↔ (x {}).1 ≠ .error .outOfDepth := by
  unfold guarded
  rcases x {} with ⟨(error | _) | value, config⟩
  · rcases houtcome : error.outcome? with _ | outcome <;> simp [houtcome]
  · simp
  · simp

theorem Exec.Growing.steady {α : Type} {x : Nat → Exec α} (h : Exec.Growing x) (options : Options) :
    Steady fun depth => Run.guarded options (x depth) := by
  intro depth hdepth more
  show Run.guarded options (x (depth + more)) = Run.guarded options (x depth)
  unfold Run.guarded
  rw [h.answer (Run.guarded_ne_outOfDepth.mp hdepth) more]

theorem interpret_steady {opts : Option Json} {options : Options} (hoptions : Options.resolve opts = .ok options)
    (program : Block) : Steady fun depth => interpret depth program opts := by
  simp only [Run.interpret_eq hoptions]
  exact (program_growing (Run.context options) program).steady options

theorem callFunction_steady {opts : Option Json} {options : Options} (hoptions : Options.resolve opts = .ok options)
    (program : Block) (name : String) {args : List Int} (hargs : ∀ a ∈ args, 0 ≤ a ∧ a < Word.modulus) :
    Steady fun depth => callFunction depth program name args opts := by
  simp only [fun depth => Run.callFunction_eq hoptions depth program name hargs]
  exact (call_growing (Run.context options) program name _).steady options

theorem Results.outOfDepth_iff {α β : Type} {R : α → β → Prop} {x : Except Stop α} {y : Except Stop β}
    (h : Results R x y) : x = .error .outOfDepth ↔ y = .error .outOfDepth := by
  cases h <;> simp

/-- Runs of which each answers as the other one does, the second one at the depth `more` tells. -/
theorem alike_of_sides {α β : Type} {R : α → β → Prop} {x : Nat → Except Stop α} {y : Nat → Except Stop β}
    (hx : Steady x) (hy : Steady y) (more : Nat → Nat)
    (hleft : ∀ depth, x depth ≠ .error .outOfDepth → Results R (x depth) (y (more depth)))
    (hright : ∀ depth, y depth ≠ .error .outOfDepth → Results R (x depth) (y depth)) : Alike R x y where
  terminates := by
    rw [hx.terminates_iff, hy.terminates_iff]
    constructor
    · rintro ⟨depth, hdepth⟩
      exact ⟨more depth, mt (hleft depth hdepth).outOfDepth_iff.mpr hdepth⟩
    · rintro ⟨depth, hdepth⟩
      exact ⟨depth, mt (hright depth hdepth).outOfDepth_iff.mp hdepth⟩
  results depth depth' hdepth hdepth' := by
    have hsame := hleft depth hdepth
    rw [← hy.unique (mt hsame.outOfDepth_iff.mpr hdepth) hdepth']
    exact hsame

/-- Runs that agree depth by depth, each with some depth more. -/
theorem alike_of_shift {α β : Type} {R : α → β → Prop} {x : Nat → Except Stop α} {y : Nat → Except Stop β}
    (hx : Steady x) (hy : Steady y) (shift shift' : Nat)
    (h : ∀ depth, Results R (x (depth + shift)) (y (depth + shift'))) : Alike R x y where
  terminates := by
    rw [hx.terminates_iff, hy.terminates_iff]
    constructor
    · rintro ⟨depth, hdepth⟩
      refine ⟨depth + shift', mt (h depth).outOfDepth_iff.mpr ?_⟩
      rw [hx depth hdepth]
      exact hdepth
    · rintro ⟨depth, hdepth⟩
      refine ⟨depth + shift, mt (h depth).outOfDepth_iff.mp ?_⟩
      rw [hy depth hdepth]
      exact hdepth
  results depth depth' hdepth hdepth' := by
    have hshift : x (depth + shift) ≠ .error .outOfDepth := by
      rw [hx depth hdepth]
      exact hdepth
    rw [← hx depth hdepth shift, ← hy.unique (mt (h depth).outOfDepth_iff.mpr hshift) hdepth']
    exact h depth

/-! ### Actions -/

/-- The action does on a machine what it does on one with another count. -/
def Action.Uncounted {α : Type} (x : Action α) : Prop :=
  ∀ (m : Machine) (steps : Nat), x (m.recount steps) = ((x m).1, (x m).2.recount steps)

namespace Action
variable {α β : Type}

theorem uncounted_pure (a : α) : Uncounted (pure a : Action α) := fun _ _ => rfl

theorem uncounted_fail (error : Error) : Uncounted (Effect.fail error : Action α) := fun _ _ => rfl

theorem uncounted_gets {f : Machine → α} (h : ∀ (m : Machine) (steps : Nat), f (m.recount steps) = f m) :
    Uncounted (Effect.gets f : Action α) := fun m steps => by
  show (Except.ok (f (m.recount steps)), m.recount steps) = _
  rw [h]
  rfl

theorem uncounted_modify {f : Machine → Machine}
    (h : ∀ (m : Machine) (steps : Nat), f (m.recount steps) = (f m).recount steps) :
    Uncounted (Effect.modify f : Action Unit) := fun m steps => by
  show (Except.ok (), f (m.recount steps)) = _
  rw [h]
  rfl

theorem Uncounted.bind {x : Action α} {f : α → Action β} (hx : Uncounted x) (hf : ∀ a, Uncounted (f a)) :
    Uncounted (x >>= f) := by
  intro m steps
  rw [Effect.bind_apply, Effect.bind_apply, hx m steps]
  rcases x m with ⟨e | a, n⟩
  · rfl
  · exact hf a n steps

theorem uncounted_when {condition : Bool} {x : Action Unit} (h : Uncounted x) :
    Uncounted (Effect.when condition x) := by
  unfold Effect.when
  split
  · exact h
  · exact uncounted_pure ()

theorem uncounted_arg (call : Call) (position : Nat) : Uncounted (call.arg position) := by
  unfold Call.arg
  split
  · exact uncounted_pure _
  · exact uncounted_fail _

theorem uncounted_logCall (name : String) (args : List Word) : Uncounted (logCall name args) :=
  uncounted_modify fun _ _ => rfl

theorem uncounted_readMemory (order : ByteOrder) (offset : Nat) (size : Int) :
    Uncounted (readMemory order offset size) := fun _ _ => rfl

theorem uncounted_writeMemory (order : ByteOrder) (offset : Nat) (size value : Int) :
    Uncounted (writeMemory order offset size value) := uncounted_modify fun _ _ => rfl

theorem uncounted_writeByte (offset : Nat) (value : Int) : Uncounted (writeByte offset value) :=
  uncounted_modify fun _ _ => rfl

theorem uncounted_store (key value : Word) :
    Uncounted (Effect.modify (Machine.store · key value) : Action Unit) := uncounted_modify fun _ _ => rfl

end Action

open BlockIR.Action

/-- A builtin whose body does not look at the count. -/
def Builtin.Uncounted (builtin : Builtin) : Prop := ∀ setting call, Action.Uncounted (builtin.body setting call)

namespace Target
namespace Evm

theorem unary_uncounted (name : String) (f : Word → Int) : (unary name f).Uncounted := fun _ _ =>
  (uncounted_arg _ _).bind fun _ => uncounted_pure _

theorem binary_uncounted (name : String) (f : Word → Word → Int) : (binary name f).Uncounted := fun _ _ =>
  (uncounted_arg _ _).bind fun _ => (uncounted_arg _ _).bind fun _ => uncounted_pure _

theorem modular_uncounted (name : String) (f : Word → Word → Word → Word) : (modular name f).Uncounted :=
  fun _ _ => (uncounted_arg _ _).bind fun _ => (uncounted_arg _ _).bind fun _ =>
    (uncounted_arg _ _).bind fun _ => uncounted_pure _

theorem constant_uncounted (name : String) (f : Setting → Word) : (constant name f).Uncounted :=
  fun _ _ => uncounted_pure _

theorem logger_uncounted (name title : String) (topics : Nat) : (logger name title topics).Uncounted :=
  fun _ _ => (uncounted_logCall _ _).bind fun _ => uncounted_pure _

theorem dataQuery_uncounted (name : String) (f : Nat × Nat → Word) : (dataQuery name f).Uncounted := by
  intro setting call
  have hobject : Action.Uncounted (dataObject name setting call) := by
    unfold dataObject
    split
    · split
      · exact uncounted_pure _
      · exact uncounted_fail _
    · exact uncounted_fail _
  exact hobject.bind fun _ => uncounted_pure _

theorem memory_uncounted : ∀ b ∈ memory, b.Uncounted := by
  simp only [memory, List.forall_mem_cons]
  refine ⟨fun _ _ => ?_, fun _ _ => ?_, fun _ _ => ?_, fun _ _ => uncounted_gets fun _ _ => rfl, nofun⟩
  · refine (uncounted_arg _ _).bind fun offset => ?_
    split
    · exact uncounted_readMemory _ _ _
    · exact uncounted_pure 0
  · refine (uncounted_arg _ _).bind fun _ => (uncounted_logCall _ _).bind fun _ =>
      (uncounted_when ?_).bind fun _ => uncounted_pure 0
    exact (uncounted_arg _ _).bind fun _ => uncounted_writeMemory _ _ _ _
  · refine (uncounted_arg _ _).bind fun _ => (uncounted_logCall _ _).bind fun _ =>
      (uncounted_when ?_).bind fun _ => uncounted_pure 0
    exact (uncounted_arg _ _).bind fun _ => uncounted_writeByte _ _

theorem storage_uncounted : ∀ b ∈ storage, b.Uncounted := by
  simp only [storage, List.forall_mem_cons]
  refine ⟨fun _ _ => ?_, fun _ _ => ?_, nofun⟩
  · exact (uncounted_arg _ _).bind fun _ => uncounted_gets fun _ _ => rfl
  · exact (uncounted_logCall _ _).bind fun _ => (uncounted_arg _ _).bind fun _ =>
      (uncounted_arg _ _).bind fun _ => (uncounted_store _ _).bind fun _ => uncounted_pure 0

theorem environment_uncounted : ∀ b ∈ environment, b.Uncounted := by
  simp only [environment, List.forall_mem_cons]
  refine ⟨fun _ _ => ?_, constant_uncounted _ _, constant_uncounted _ _, constant_uncounted _ _,
    constant_uncounted _ _, fun _ _ => uncounted_pure 0, logger_uncounted _ _ _, logger_uncounted _ _ _,
    logger_uncounted _ _ _, nofun⟩
  exact (uncounted_arg _ _).bind fun _ => uncounted_pure _

theorem builtins_uncounted : ∀ b ∈ builtins, b.Uncounted :=
  forall_builtins unary_uncounted binary_uncounted modular_uncounted memory_uncounted storage_uncounted
    environment_uncounted dataQuery_uncounted

end Evm

namespace Wasm

theorem unary_uncounted (name : String) (width : Nat) (f : Nat → Int) : (unary name width f).Uncounted :=
  fun _ _ => (uncounted_arg _ _).bind fun _ => uncounted_pure _

theorem binary_uncounted (name : String) (width : Nat) (f : Nat → Nat → Int) : (binary name width f).Uncounted :=
  fun _ _ => (uncounted_arg _ _).bind fun _ => (uncounted_arg _ _).bind fun _ => uncounted_pure _

theorem load_uncounted (name : String) (size : Nat) : (load name size).Uncounted := fun _ _ => by
  refine (uncounted_arg _ _).bind fun address => ?_
  split
  · exact uncounted_readMemory _ _ _
  · exact uncounted_pure 0

theorem store_uncounted (name : String) (size : Nat) : (store name size).Uncounted := fun _ _ =>
  (uncounted_arg _ _).bind fun _ => (uncounted_arg _ _).bind fun _ => (uncounted_logCall _ _).bind fun _ =>
    (uncounted_when (uncounted_writeMemory _ _ _ _)).bind fun _ => uncounted_pure 0

theorem builtins_uncounted : ∀ b ∈ builtins, b.Uncounted := by
  apply forall_builtins unary_uncounted binary_uncounted fun _ _ => uncounted_pure 0
  simp [memory, load_uncounted, store_uncounted]

end Wasm

/-- What a target's dialect evaluates does not look at the count. -/
theorem evaluate_uncounted (target : Target) {name : String} {builtin : Builtin}
    (hfind : target.dialect.find? name = some builtin) (setting : Setting) (call : Call) :
    Action.Uncounted (target.dialect.evaluate setting builtin call) := by
  unfold Dialect.evaluate
  split
  · split
    · exact holds_of_find? Evm.builtins_uncounted Wasm.builtins_uncounted target hfind setting call
    · exact uncounted_fail _
  · exact uncounted_fail _

end Target

/-- Without a limit no level is too deep. -/
theorem Context.not_tooDeep {ctx : Context} (h : ctx.setting.maxNesting = 0) (level : Nat) :
    ctx.tooDeep level = false := by
  unfold tooDeep
  rw [h]
  rfl

/-- The configuration at another nesting level. -/
def Config.atLevel (c : Config) (level : Nat) : Config :=
  { c with activation := { c.activation with level := level } }

namespace Exec
variable {ctx : Context} {c d : Config}

theorem deepen_of_room (h : ctx.tooDeep (c.activation.level + 1) = false) :
    deepen ctx c = (.ok (), c.atLevel (c.activation.level + 1)) := by
  rw [deepen_apply]
  exact if_neg (by rw [h]; decide)

theorem deepen_eq_ok {x : Unit} (h : deepen ctx c = (.ok x, d)) :
    ctx.tooDeep (c.activation.level + 1) = false ∧ d = c.atLevel (c.activation.level + 1) := by
  rw [deepen_apply] at h
  dsimp only at h
  split at h
  · cases h
  · exact ⟨eq_false_of_ne_true ‹_›, (Prod.mk.inj h).2.symm⟩

theorem deepen_unlimited (h : ctx.setting.maxNesting = 0) (c : Config) :
    deepen ctx c = (.ok (), c.atLevel (c.activation.level + 1)) := deepen_of_room (Context.not_tooDeep h _)

end Exec

/-- Without a limit a step is counted and nothing else. -/
theorem countStep_unlimited {setting : Setting} (h : setting.maxSteps = 0) (m : Machine) :
    countStep setting m = (.ok (), m.recount (m.steps + 1)) := by
  rw [countStep_apply, if_neg fun hlimit => Nat.ne_of_gt hlimit.1 h]
  rfl

/-- The configuration with another number of counted steps. -/
def Config.recount (c : Config) (steps : Nat) : Config := { c with machine := c.machine.recount steps }

section Unlimited
variable {ctx : Context} (hsteps : ctx.setting.maxSteps = 0)
include hsteps

theorem count_unlimited (c : Config) :
    Exec.onMachine (countStep ctx.setting) c = (.ok (), c.recount (c.machine.steps + 1)) := by
  rw [Exec.onMachine_apply, countStep_unlimited hsteps]
  rfl

/-- A function definition is counted and passed over. -/
theorem sequence_definition {runner : Runner} (hpasses : runner.Passes) (f : FunctionDefinition)
    (rest : List Statement) {c : Config} (hsignal : c.machine.signal = .proceed) :
    ctx.sequence runner (.function f :: rest) c = ctx.sequence runner rest (c.recount (c.machine.steps + 1)) := by
  have hrun : runner.run (.statement (.function f)) (c.recount (c.machine.steps + 1)) =
      (.ok (), c.recount (c.machine.steps + 1)) := Effect.bind_of_ok (hpasses f _)
  rw [Context.sequence, Effect.bind_of_ok (count_unlimited hsteps c), Effect.bind_of_ok hrun]
  show (if c.machine.signal = .proceed then ctx.sequence runner rest else pure ())
    (c.recount (c.machine.steps + 1)) = _
  rw [if_pos hsignal]

/-- The last statement of a block is counted and executed. -/
theorem sequence_last (runner : Runner) (s : Statement) (c : Config) :
    ctx.sequence runner [s] c = runner.run (.statement s) (c.recount (c.machine.steps + 1)) := by
  rw [Context.sequence, Effect.bind_of_ok (count_unlimited hsteps c), Effect.bind_apply]
  rcases runner.run (.statement s) (c.recount (c.machine.steps + 1)) with ⟨_ | _, d⟩
  · rfl
  · show (if d.machine.signal = .proceed then ctx.sequence runner [] else pure ()) d = _
    split <;> rfl

end Unlimited

/-! ### Pairings of runs that count differently -/

namespace Pairing
variable {p : Pairing} {R : Nat → Nat → Prop}

theorem beside_actions {α : Type} (hmachine : p.machine = Machine.Beside R) {called : Prop} {x : Action α}
    (htame : x.Tame called) (huncounted : x.Uncounted) : p.Actions (fun a b => b = a) x x := by
  intro m n hmn
  rw [hmachine] at hmn ⊢
  obtain ⟨hsame, hcounts⟩ := hmn
  rw [hsame, huncounted m n.steps]
  refine ⟨?_, ⟨rfl, ?_⟩, htame.signal m⟩
  · rcases (x m).1 with e | a
    · exact .error e
    · exact .ok rfl
  · rw [htame.steps]
    exact hcounts

/-- Without a limit on steps, runs whose counts are related stay beside each other. -/
theorem keeps_beside (hmachine : p.machine = Machine.Beside R) (hcount : ∀ i j, R i j → R (i + 1) (j + 1))
    {options : Options} (hsteps : options.setting.maxSteps = 0) (hword : p.word = fun _ => True)
    (hlevel : ∀ i j, p.level i j → p.level (i + 1) (j + 1) ∧
      (Run.context options).tooDeep (j + 1) = (Run.context options).tooDeep (i + 1))
    (hone : OneToOne p.blockId) : p.Keeps (Run.context options) where
  signal hmn := by
    rw [hmachine] at hmn
    rw [hmn.1]
    rfl
  setSignal signal hmn := by
    rw [hmachine] at hmn ⊢
    refine ⟨?_, hmn.2⟩
    rw [hmn.1]
    rfl
  count := by
    intro m n hmn
    rw [hmachine] at hmn ⊢
    have hunlimited : (Run.context options).setting.maxSteps = 0 := hsteps
    rw [countStep_unlimited hunlimited, countStep_unlimited hunlimited]
    refine ⟨.ok trivial, ⟨?_, hcount _ _ hmn.2⟩, rfl⟩
    rw [hmn.1]
    rfl
  builtin hfind call _ := by
    intro m n hmn
    have hactions := beside_actions hmachine (options.target.evaluate_tame hfind options.setting call)
      (options.target.evaluate_uncounted hfind options.setting call)
    obtain ⟨hresult, hrest⟩ := hactions m n hmn
    exact ⟨hresult.mono fun v w h => ⟨h, by rw [hword]; trivial⟩, hrest⟩
  log hmn := by
    rw [hmachine] at hmn ⊢
    refine ⟨?_, hmn.2⟩
    rw [hmn.1]
    rfl
  deepen h := hlevel _ _ h
  zero := by rw [hword]; trivial
  literal _ := by rw [hword]; trivial
  oneToOne := hone

end Pairing
end BlockIR
