import BlockIR.Proofs.Ranges
import BlockIR.Proofs.Report
import BlockIR.Proofs.Simulation
import BlockIR.Proofs.Soundness

/-! The range of words.

Words are numbers, and nothing in their type keeps them below `2 ^ 256`. That
they stay there is an invariant of runs: it holds at the beginning, every builtin
closes the range (`Target.evaluate_inRange`), literals and arguments from outside
are checked, and everything else only passes words on. The invariant is carried
through a run by putting the run beside itself (`Pairing.ranging`). No check of
the program is needed for it. -/
namespace BlockIR

/-- All values that a run can get at are words: those of its variables, and those on the machine. -/
structure Config.InRange (c : Config) : Prop where
  machine : c.machine.InRange
  bindings : Variables.All Word.InRange c.activation.bindings

/-- The arguments of a call are words. -/
def Task.InRange : Task → Prop
  | .invoke _ args => ∀ w ∈ args, w.InRange
  | _ => True

/-! ### A run beside itself -/

namespace Pairing

/-- A run beside itself, everything in range. -/
abbrev ranging : Pairing := same (fun m n => n = m ∧ m.InRange) (fun i j => j = i) Word.InRange

theorem ranging_actions {α : Type} {x : Action α} {post : α → Prop} (h : x.Ranges post)
    (hsignal : ∀ m, (x m).2.signal = m.signal) : ranging.Actions (fun a b => b = a ∧ post a) x x := by
  rintro _ m ⟨rfl, hm⟩
  obtain ⟨hrange, hvalue⟩ := h m hm
  exact ⟨.refl fun a ha => ⟨rfl, hvalue a ha⟩, ⟨rfl, hrange⟩, hsignal m⟩

theorem ranging_keeps (options : Options) (hsetting : options.setting.InRange) :
    ranging.Keeps (Run.context options) where
  signal h := by rw [h.1]
  setSignal signal h := ⟨by rw [h.1], h.2.congr rfl rfl⟩
  count := by
    rintro _ m ⟨rfl, hm⟩
    rw [countStep_apply]
    split
    · exact ⟨.error _, ⟨rfl, hm.congr rfl rfl⟩, rfl⟩
    · exact ⟨.ok trivial, ⟨rfl, hm.congr rfl rfl⟩, rfl⟩
  builtin hfind call hcall :=
    ranging_actions (Target.evaluate_inRange options.target hfind hsetting hcall)
      (Target.evaluate_tame options.target hfind options.setting call).signal
  log h := ⟨by rw [h.1], h.2.congr rfl rfl⟩
  deepen h := by
    subst h
    exact ⟨rfl, rfl⟩
  zero := Word.inRange_zero
  literal := Literal.value_inRange
  oneToOne := oneToOne_same

theorem Related.inRange {c d : Config} (h : ranging.Related c d) : d.InRange where
  machine := by
    rw [h.machine.1]
    exact h.machine.2
  bindings := by
    rw [h.activation.bindings]
    exact h.activation.words

theorem Tasks.inRange {t u : Task} {after : Signal → Prop} (h : ranging.Tasks t u after) : u.InRange := by
  cases h with
  | invoke name hargs => exact hargs
  | _ => trivial

end Pairing

/-! ### Runs -/

namespace Run
variable {α : Type} {options : Options}

/-- Everything in a run is in range. -/
structure InRange (ctx : Context) (x : Runner → Exec α) (depth : Nat) : Prop where
  /-- Where a task is begun. Activations that wait for a call keep the variables they called with. -/
  begun : ∀ left t c, Moment ctx x depth left t c → c.InRange ∧ t.InRange
  /-- Where it ends, whether or not it has values. -/
  done : ∀ left t c, Moment ctx x depth left t c → (ctx.perform left t c).2.InRange
  /-- What it yields. -/
  values : ∀ left t c values, Moment ctx x depth left t c → (ctx.perform left t c).1 = .ok values →
    ∀ w ∈ values, w.InRange
  /-- What a call of a `wasm` builtin yields that is named for a width. -/
  width : ctx.dialect = Target.wasm.dialect → ∀ left name args c values width,
    Moment ctx x depth left (.expression (.call name args)) c → (ctx.dialect.find? name).isSome = true →
      Target.Wasm.width? name = some width → (ctx.perform left (.expression (.call name args)) c).1 = .ok values →
        ∀ w ∈ values, w < 2 ^ width
  /-- Where the run ends. -/
  last : (x (ctx.perform depth) {}).2.InRange

open Pairing

/-- A call of a builtin yields what the builtin gives. -/
theorem call_width {ctx : Context} (hdialect : ctx.dialect = Target.wasm.dialect) {left : Nat} {name : String}
    {args : List Expr} {c : Config} {values : List Word} {width : Nat}
    (hbuiltin : (ctx.dialect.find? name).isSome = true) (hwidth : Target.Wasm.width? name = some width)
    (h : (ctx.perform left (.expression (.call name args)) c).1 = .ok values) : ∀ w ∈ values, w < 2 ^ width := by
  cases left with
  | zero => cases h
  | succ left =>
    have hrun : (do
        Exec.deepen ctx
        let words ← (ctx.perform left).arguments (ctx.dialect.wantsLiteral name) 0 args
        ctx.apply (ctx.perform left) name args words : Exec (List Word)) c = (.ok values, _) := Prod.ext h rfl
    obtain ⟨_, _, -, hrest⟩ := Effect.bind_eq_ok hrun
    obtain ⟨words, d, -, happly⟩ := Effect.bind_eq_ok hrest
    obtain ⟨builtin, hfind⟩ := Option.isSome_iff_exists.mp hbuiltin
    unfold Context.apply at happly
    rw [hfind] at happly
    obtain ⟨w, _, hvalue, hpure⟩ := Effect.bind_eq_ok happly
    cases hpure
    rw [Exec.onMachine_apply] at hvalue
    intro v hv
    obtain rfl := List.mem_singleton.mp hv
    have hgives := Target.evaluate_width (hdialect ▸ hfind) hwidth ctx.setting ⟨words, args.map .expression⟩
    rw [← hdialect] at hgives
    refine hgives d.machine v ?_
    have hresult := congrArg Prod.fst hvalue
    dsimp only at hresult
    rcases hevaluate : (ctx.dialect.evaluate ctx.setting builtin ⟨words, args.map .expression⟩ d.machine).1 with e | v'
    · rw [hevaluate] at hresult
      cases hresult
    · rw [hevaluate] at hresult
      exact congrArg _ (Except.ok.inj hresult)

/-- A part that stays together with itself is in range throughout. -/
theorem inRange_of_parts (hsetting : options.setting.InRange) {x : Runner → Exec α} {T : Signal → Prop}
    {V : α → α → Prop} (depth : Nat)
    (hparts : ∀ runner other, ranging.Runs runner other → ranging.Parts ranging.Idle T V (x runner) (x other)) :
    InRange (context options) x depth := by
  have lawful := (ranging_keeps options hsetting).lawful
  have hstart : ranging.Related {} {} := related_start ⟨rfl, Machine.inRange_start⟩ rfl
  have hidle : ranging.Idle ({} : Config).machine.signal := fun _ => rfl
  have together {left : Nat} {t : Task} {c : Config} (h : Moment (context options) x depth left t c) :
      ∃ d u after, ranging.Tasks u t after ∧ ranging.Related d c ∧
        ranging.Outcome after ranging.SameAll ((context options).perform left u d)
          ((context options).perform left t c) := by
    obtain ⟨d, u, after, htasks, hrelated, hsignal⟩ := lawful.moment id hparts hstart h
    exact ⟨d, u, after, htasks, hrelated, (lawful.perform left).together u t after htasks d c hrelated hsignal⟩
  refine ⟨fun left t c h => ?_, fun left t c h => ?_, fun left t c values h hvalues => ?_,
    fun hdialect left name args c values width _ => call_width hdialect, ?_⟩
  · obtain ⟨_, _, _, htasks, hrelated, -⟩ := together h
    exact ⟨hrelated.inRange, htasks.inRange⟩
  · obtain ⟨_, _, _, -, -, houtcome⟩ := together h
    exact houtcome.related.inRange
  · obtain ⟨_, _, _, -, -, houtcome⟩ := together h
    have hresults := houtcome.results
    rw [hvalues] at hresults
    generalize ((context options).perform left _ _).1 = r at hresults
    cases hresults with
    | ok hsame => exact hsame.1 ▸ hsame.2
  · exact (hparts _ _ (lawful.perform depth) _ _ hstart hidle).related.inRange

/-- A run that is finished has values that are in range. -/
theorem finished_inRange (hsetting : options.setting.InRange) {x : Runner → Exec α} {T : Signal → Prop}
    {V : α → α → Prop} {depth : Nat}
    (hparts : ∀ runner other, ranging.Runs runner other → ranging.Parts ranging.Idle T V (x runner) (x other))
    {report : Report α} (h : guarded options (x ((context options).perform depth)) = .ok report) :
    report.machine.InRange ∧ ∀ value, report.ending = .finished value → V value value := by
  have lawful := (ranging_keeps options hsetting).lawful
  have hstart : ranging.Related {} {} := related_start ⟨rfl, Machine.inRange_start⟩ rfl
  have houtcome := hparts _ _ (lawful.perform depth) _ _ hstart fun _ => rfl
  obtain ⟨hmachine, hending⟩ := guarded_eq_ok h
  refine ⟨hmachine ▸ houtcome.related.inRange.machine, fun value hvalue => ?_⟩
  rcases hending with ⟨v, hv, hfinished⟩ | ⟨_, _, -, -, haborted⟩
  · obtain rfl : v = value := Ending.finished.inj (hfinished.symm.trans hvalue)
    have hresults := houtcome.results
    rw [hv] at hresults
    cases hresults with
    | ok hV => exact hV
  · cases haborted.symm.trans hvalue

theorem outermost_parts (hsetting : options.setting.InRange) (program : Block) (runner other : Runner)
    (hruns : ranging.Runs runner other) :
    ranging.Parts ranging.Idle (ranging.Settled false) ranging.SameTable
      (outermost (context options) program runner) (outermost (context options) program other) :=
  (ranging_keeps options hsetting).lawful.outermost hruns rfl

theorem entry_parts (hsetting : options.setting.InRange) (program : Block) (name : String) {args : List Word}
    (hargs : ∀ w ∈ args, w.InRange) (runner other : Runner) (hruns : ranging.Runs runner other) :
    ranging.Parts ranging.Idle ranging.Idle ranging.SameAll (entry program name args runner)
      (entry program name args other) :=
  (ranging_keeps options hsetting).lawful.entry hruns (show ranging.block false program program from rfl) name hargs

end Run

/-- In every run of every program, and of every function with words for arguments, under every options
that resolve: variables, storage keys and storage values, and whatever an expression or a builtin
yields, lie below `2 ^ 256`; memory ends at a multiple of 32 that is at most `2 ^ 32`, and its bytes
lie before that end; and the builtins of the `wasm` dialect keep to the width in their names. That the
bytes of the call data and of the data objects are fewer than `2 ^ 256` holds of every document that can
be held, and is assumed because a document is a value without a bound on its size here. -/
theorem words_stay_in_range {opts : Option Json} {options : Options}
    (hoptions : Options.resolve opts = .ok options)
    (hcalldata : Word.InRange options.setting.calldata.length)
    (hdata : Word.InRange (options.setting.dataObjects.map fun object => object.data.length).sum)
    (program : Block) (depth : Nat) :
    (Run.InRange (Run.context options) (Run.outermost (Run.context options) program) depth ∧
      ∀ report, interpret depth program opts = .ok report →
        report.machine.InRange ∧ ∀ table, report.ending = .finished table → Variables.All Word.InRange table) ∧
    ∀ (name : String) (args : List Int), (∀ a ∈ args, 0 ≤ a ∧ a < Word.modulus) →
      Run.InRange (Run.context options) (Run.entry program name (args.map Int.toNat)) depth ∧
        ∀ report, callFunction depth program name args opts = .ok report →
          report.machine.InRange ∧ ∀ values, report.ending = .finished values → ∀ w ∈ values, w.InRange := by
  obtain ⟨haddress, hcaller, hcallvalue⟩ := Options.resolve_inRange hoptions
  have hsetting : options.setting.InRange := ⟨haddress, hcaller, hcallvalue, hcalldata, hdata⟩
  refine ⟨⟨?_, fun report hreport => ?_⟩, fun name args hargs => ?_⟩
  · exact Run.inRange_of_parts hsetting depth (Run.outermost_parts hsetting program)
  · rw [Run.interpret_eq hoptions] at hreport
    obtain ⟨hmachine, hvalue⟩ := Run.finished_inRange hsetting (Run.outermost_parts hsetting program) hreport
    exact ⟨hmachine, fun table htable => (hvalue table htable).2⟩
  · have hparts := Run.entry_parts hsetting program name (Run.toNat_inRange hargs)
    refine ⟨Run.inRange_of_parts hsetting depth hparts, fun report hreport => ?_⟩
    rw [Run.callFunction_eq hoptions depth program name hargs] at hreport
    obtain ⟨hmachine, hvalue⟩ := Run.finished_inRange hsetting hparts hreport
    exact ⟨hmachine, fun values hvalues => (hvalue values hvalues).2⟩

theorem words_stay_in_range_sample :
    Run.InRange (Run.context Sample.options) (Run.outermost (Run.context Sample.options) Sample.program) 20 ∧
      Run.InRange (Run.context Sample.options) (Run.entry Sample.program "copy" [7]) 20 := by
  have hrange := words_stay_in_range Sample.options_resolved (by decide) (by decide) Sample.program 20
  exact ⟨hrange.1.1, (hrange.2 "copy" [7] (by decide)).1⟩

end BlockIR
