import BlockIR.Proofs.Builtins
import BlockIR.Proofs.Task

/-! Evaluation as it was checked.

An expression or a call that is ready meets its duty if the tasks it leads to
do: arguments yield one value each, a builtin gets as many as its arity says,
and a call runs the body of the function that its name stands for in the lexical
chain, in the scope of the region that declares the function. -/
namespace BlockIR

open FunctionDefinition (named?)
open Exec

variable {job : Job} {runner : Runner} {visible later : Visible} {chain : Chain} {c d : Config}

/-- The runner does the task wherever it is ready. -/
def Runner.Does (runner : Runner) (job : Job) (visible : Visible) (chain : Chain) (t : Task) : Prop :=
  ∀ c, t.Ready job visible chain c → t.Meets job visible (runner t) c

/-- The runner does every task that a task leads to. -/
def Runner.Serves (runner : Runner) (job : Job) (chain : Chain) (t : Task) : Prop :=
  ∀ u inner visible, Leads t chain u inner → runner.Does job visible inner u

namespace Config

theorem Poised.follows {targets : List String} (h : c.Poised job visible chain)
    (hfollows : c.Follows job.program targets d) (hshows : d.Shows later)
    (hsees : later.functions = visible.functions) (hsignal : d.machine.signal = .proceed) :
    d.Poised job later chain where
  stands := h.stands.follows hfollows
  sees := h.sees.congr hsees
  shows := hshows
  signal := hsignal

theorem Poised.mirrors (h : c.Poised job visible chain) : Mirrors job.program c.scopes := h.stands.mirrors

end Config

theorem Visible.Admits.congr {signal : Signal} (h : visible.Admits signal)
    (hloop : later.inLoopBody = visible.inLoopBody) (hfunction : later.inFunction = visible.inFunction) :
    later.Admits signal := by
  cases signal with
  | proceed => trivial
  | breakLoop => exact hloop.trans h
  | continueLoop => exact hloop.trans h
  | leave => exact hfunction.trans h

/-! ### Expressions -/

section Expressions
variable {targets : List String}

theorem run_goes {t : Task} (hrunner : runner.Does job visible chain t) (h : t.Ready job visible chain c)
    (htargets : t.targets ⊆ targets) :
    (runner.run t).Goes job.program job.Agrees targets c fun _ d => ∃ values, t.Done job visible values d := by
  refine ((hrunner c h).goes.mono htargets fun values d _ hdone => hdone).bind fun values d hfollows hdone => ?_
  exact goes_pure hfollows.mirrors () ⟨values, hdone⟩

/-- A part that yields one value if the dialects agree. -/
theorem single_goes {x : Exec (List Word)}
    (hx : x.Goes job.program job.Agrees targets c fun values d =>
      d.Shows visible ∧ d.machine.signal = .proceed ∧ (job.Agrees → values.length = 1)) :
    (single x).Goes job.program job.Agrees targets c fun _ d =>
      d.Shows visible ∧ d.machine.signal = .proceed := by
  refine hx.bind fun values d hfollows hdone => ?_
  obtain ⟨hshows, hsignal, hcount⟩ := hdone
  split
  · exact goes_pure hfollows.mirrors _ ⟨hshows, hsignal⟩
  · rename_i hother
    refine goes_fails hfollows.mirrors rfl ⟨nofun, fun hagree => ?_⟩
    obtain ⟨value, rfl⟩ := List.length_eq_one_iff.mp (hcount hagree)
    exact absurd rfl (hother value)

variable (h : c.Poised job visible chain)
include h

/-- An expression that has to yield one value. -/
theorem expression_single {e : Expr} (hrunner : runner.Does job visible chain (.expression e))
    (hchecked : job.Agrees → e.Single job.dialect visible) :
    (single (runner (.expression e))).Goes job.program job.Agrees targets c fun _ d =>
      d.Shows visible ∧ d.machine.signal = .proceed := by
  have hmeets := hrunner c ⟨h, fun hagree => (hchecked hagree).1⟩
  refine single_goes (hmeets.goes.mono (List.nil_subset _) fun values d _ hdone => ?_)
  obtain ⟨hshows, hsignal, hcount⟩ := hdone
  exact ⟨hshows, hsignal, fun hagree => hcount hagree 1 (hchecked hagree).2 Nat.one_ne_zero⟩

theorem arguments_goes (hjob : job.Valid) {callee : String} {args : List Expr} {position : Nat}
    (hrunner : ∀ e ∈ args, runner.Does job visible chain (.expression e))
    (hchecked : job.Agrees → Expr.ArgumentsChecked job.dialect visible callee position args) :
    (runner.arguments (job.ctx.dialect.wantsLiteral callee) position args).Goes job.program job.Agrees
      targets c fun values d =>
        values.length = args.length ∧ d.Shows visible ∧ d.machine.signal = .proceed := by
  induction args generalizing position with
  | nil => exact goes_pure h.mirrors [] ⟨rfl, h.shows, h.signal⟩
  | cons e rest ih =>
    obtain ⟨hfirst, hrest⟩ := List.forall_mem_cons.mp hrunner
    refine (ih hrest fun hagree => (hchecked hagree).cons.2).bind fun values d hfollows hvalues => ?_
    obtain ⟨hlength, hshows, hsignal⟩ := hvalues
    have hpoised := h.follows hfollows hshows rfl hsignal
    have hargument : (runner.argument (job.ctx.dialect.wantsLiteral callee position) e).Goes job.program
        job.Agrees targets d fun _ d' => d'.Shows visible ∧ d'.machine.signal = .proceed := by
      unfold Runner.argument
      split
      · exact goes_pure hfollows.mirrors 0 ⟨hshows, hsignal⟩
      · rename_i hwants
        refine expression_single hpoised hfirst fun hagree => (hchecked hagree).cons.1 ?_
        rw [← hjob.agrees hagree]
        exact Bool.eq_false_iff.mpr hwants
    refine hargument.bind fun value e hfollows' hcalm => ?_
    exact goes_pure hfollows'.mirrors _ ⟨congrArg Nat.succ hlength, hcalm⟩

/-- A builtin yields one value; a function is called with as many values as it has parameters. -/
theorem apply_goes (hjob : job.Valid) {name : String} {args : List Expr} {values : List Word}
    (hrunner : runner.Does job visible chain (.invoke name values)) (hlength : values.length = args.length)
    (htakes : job.Agrees → visible.Takes job.dialect name args.length) :
    (job.ctx.apply runner name args values).Goes job.program job.Agrees targets c fun results d =>
      (Task.expression (.call name args)).Done job visible results d := by
  obtain ⟨target, htarget⟩ := hjob.target
  unfold Context.apply
  split
  · rename_i builtin hfind
    rw [htarget] at hfind ⊢
    have htame := target.evaluate_tame hfind job.ctx.setting ⟨values, args.map .expression⟩
    have hvalue : (onMachine (target.dialect.evaluate job.ctx.setting builtin
        ⟨values, args.map .expression⟩)).Goes job.program job.Agrees targets c fun _ d =>
          d.Shows visible ∧ d.machine.signal = .proceed := by
      refine goes_onMachine h.mirrors (fun value m hm => ⟨h.shows, ?_⟩) fun error m hm => ?_
      · have hsignal := htame.signal c.machine
        rw [hm] at hsignal
        exact hsignal.trans h.signal
      · rcases target.evaluate_failure hfind hm with ⟨fault, rfl⟩ | ⟨hcount, _, _, _, rfl⟩
        · exact ⟨nofun, fun _ => rfl⟩
        · refine ⟨nofun, fun hagree => absurd ?_ hcount⟩
          have htakes' := htakes hagree
          rw [Visible.Takes, ← hjob.agrees hagree, htarget, hfind] at htakes'
          rw [hlength]
          exact htakes'
    refine hvalue.bind fun value d hfollows hcalm => ?_
    refine goes_pure hfollows.mirrors _ ⟨hcalm.1, hcalm.2, fun hagree n hn hne => ?_⟩
    rw [Expr.count?, ← hjob.agrees hagree, htarget, hfind] at hn
    by_cases hreturns : builtin.returnsValue = true
    · simp [hreturns] at hn
      exact hn
    · simp [hreturns] at hn
      exact absurd hn.symm hne
  · rename_i hfind
    have hready : (Task.invoke name values).Ready job visible chain c := by
      refine ⟨h, fun hagree => ?_⟩
      have htakes' := htakes hagree
      rw [Visible.Takes, ← hjob.agrees hagree, hfind] at htakes'
      obtain ⟨signature, hfunction, hparams⟩ := htakes'
      exact ⟨signature, hfunction, hlength.trans hparams.symm⟩
    refine (hrunner c hready).goes.mono (List.nil_subset _) fun results d _ hdone => ?_
    obtain ⟨hshows, hsignal, hcount⟩ := hdone
    refine ⟨hshows, hsignal, fun hagree n hn _ => ?_⟩
    rw [Expr.count?, ← hjob.agrees hagree, hfind] at hn
    obtain ⟨signature, hfunction, rfl⟩ := Option.map_eq_some_iff.mp hn
    exact hcount hagree signature hfunction

theorem deepen_goes : (deepen job.ctx).Goes job.program job.Agrees targets c fun _ d =>
    d.Shows visible ∧ d.machine.signal = .proceed :=
  goes_deepen h.mirrors job.ctx fun _ _ _ hbindings hsignal =>
    ⟨h.shows.of_eq hbindings, hsignal.trans h.signal⟩

/-- A checked literal has a value. -/
theorem literal_goes {literal : Literal} (hfits : (Task.expression (.literal literal)).Fits job visible chain) :
    (job.ctx.expression runner (.literal literal)).Goes job.program job.Agrees targets c fun values d =>
      (Task.expression (.literal literal)).Done job visible values d := by
  refine (deepen_goes h).bind fun _ d hfollows hcalm => ?_
  rcases hvalue : literal.value with error | value
  · refine goes_fails hfollows.mirrors rfl ⟨?_, fun hagree => ?_⟩
    · rintro rfl
      unfold Literal.value at hvalue
      rcases hread : literal.read with fault | value <;> rw [hread] at hvalue <;> cases hvalue
    · obtain ⟨value, hvalue'⟩ := (hfits hagree).literal
      rw [hvalue] at hvalue'
      cases hvalue'
  · exact goes_pure hfollows.mirrors [value] ⟨hcalm.1, hcalm.2, fun _ n hn _ => Option.some.inj hn⟩

/-- A checked variable is bound. -/
theorem identifier_goes {name : String} (hfits : (Task.expression (.identifier name)).Fits job visible chain) :
    (job.ctx.expression runner (.identifier name)).Goes job.program job.Agrees targets c fun values d =>
      (Task.expression (.identifier name)).Done job visible values d := by
  have hvalue : (valueOf name).Goes job.program job.Agrees targets c fun _ d => d = c := by
    by_cases hbound : name ∈ c.activation.bindings
    · exact goes_valueOf h.mirrors hbound fun _ => rfl
    · have hnone : c.activation.bindings[name]? = none := Std.ExtTreeMap.getElem?_eq_none hbound
      exact goes_fails h.mirrors (valueOf_of_none hnone)
        ⟨nofun, fun hagree => absurd ((h.shows name).mpr (hfits hagree).identifier) hbound⟩
  refine hvalue.bind fun value d _ hd => ?_
  subst hd
  refine (deepen_goes h).bind fun _ d hfollows hcalm => ?_
  exact goes_pure hfollows.mirrors _ ⟨hcalm.1, hcalm.2, fun _ n hn _ => Option.some.inj hn⟩

theorem expression_goes (hjob : job.Valid) {e : Expr} (hrunner : runner.Serves job chain (.expression e))
    (hfits : (Task.expression e).Fits job visible chain) :
    (job.ctx.expression runner e).Goes job.program job.Agrees targets c fun values d =>
      (Task.expression e).Done job visible values d := by
  cases e with
  | literal literal => exact literal_goes h hfits
  | identifier name => exact identifier_goes h hfits
  | call name args =>
    refine (deepen_goes h).bind fun _ d hfollows hcalm => ?_
    have hpoised := h.follows hfollows hcalm.1 rfl hcalm.2
    refine (arguments_goes hpoised hjob (fun e he => hrunner _ _ _ (.argument he))
      fun hagree => (hfits hagree).call.1).bind fun values d' hfollows' hvalues => ?_
    obtain ⟨hlength, hshows, hsignal⟩ := hvalues
    exact apply_goes (hpoised.follows hfollows' hshows rfl hsignal) hjob (hrunner _ _ _ .callee) hlength
      fun hagree => (hfits hagree).call.2

end Expressions

/-! ### Calls -/

theorem mem_foldl_insert (pairs : List (String × Word)) (table : Variables) (name : String) :
    name ∈ pairs.foldl (fun table p => table.insert p.1 p.2) table ↔
      name ∈ table ∨ name ∈ pairs.map Prod.fst := by
  induction pairs generalizing table with
  | nil => simp
  | cons first rest ih =>
    rw [List.foldl_cons, ih, Std.ExtTreeMap.mem_insert, Std.LawfulEqCmp.compare_eq_iff_eq, List.map_cons,
      List.mem_cons]
    grind

/-- The variables that a call starts with are the parameters and the returns. -/
theorem FunctionDefinition.mem_bindings {definition : FunctionDefinition} {args : List Word}
    (hcount : args.length = definition.params.length) (name : String) :
    name ∈ definition.bindings args ↔ name ∈ definition.params ++ definition.returns := by
  have hreturns (table : Variables) (names : List String) :
      names.foldl (fun table name => table.insert name 0) table =
        (names.map fun name => (name, 0)).foldl (fun table p => table.insert p.1 p.2) table := by
    rw [List.foldl_map]
  unfold FunctionDefinition.bindings
  rw [hreturns, mem_foldl_insert, mem_foldl_insert, List.map_fst_zip (Nat.le_of_eq hcount.symm)]
  simp

/-- The body of a checked function, run with arguments in the scope of the region that declares it. -/
theorem body_goes (hjob : job.Valid) {name : String} {definition : FunctionDefinition} {found : Chain}
    {args : List Word} (hchain : chain.In job.program)
    (hsome : Chain.function? name chain = some (definition, found))
    (hcount : args.length = definition.params.length)
    (hrunner : ∀ visible, runner.Does job visible found (.block definition.body))
    (hstands : c.Stands job.program found) (hbindings : c.activation.bindings = definition.bindings args)
    (hsignal : c.machine.signal = .proceed) :
    (do
      runner.run (.block definition.body)
      setSignal .proceed
      valuesOf definition.returns : Exec (List Word)).Goes job.program job.Agrees definition.body.targets c
        fun values d => values.length = definition.returns.length ∧ d.machine.signal = .proceed := by
  obtain ⟨outside, hfunction, hsees⟩ := Chain.function_checked hjob.checked hchain hsome
  obtain ⟨hlocals, hbody⟩ := hfunction.fits
  obtain ⟨-, hmem⟩ := Chain.function?_spec hchain hsome
  let inside : Visible :=
    outside.enterFunction (outside.locals job.dialect (definition.params ++ definition.returns))
  have hvariables (x : String) : x ∈ c.activation.bindings ↔ inside.isVariable x = true := by
    rw [hbindings, FunctionDefinition.mem_bindings hcount, ← hlocals]
    simp [inside, Visible.isVariable, Visible.enterFunction]
  have hready : (Task.block definition.body).Ready job inside found c := by
    refine ⟨⟨hstands, hsees.congr rfl, hvariables, hsignal⟩, hbody, ?_⟩
    cases found with
    | nil => cases hmem
    | cons region outer => exact Region.mem_inner (Region.function_mem hmem) (List.mem_singleton_self _)
  refine (run_goes (hrunner inside) hready (List.Subset.refl _)).bind fun _ d hfollows hdone => ?_
  obtain ⟨-, hshows, -⟩ := hdone
  have hreset : (setSignal .proceed).Goes job.program job.Agrees definition.body.targets d
      fun _ e => e.activation = d.activation ∧ e.machine.signal = .proceed :=
    goes_setSignal hfollows.mirrors _ ⟨rfl, rfl⟩
  refine hreset.bind fun _ e hfollows' he => ?_
  refine (goes_valuesOf hfollows'.mirrors fun x hx => ?_).imp fun values f _ hvalues => ?_
  · rw [he.1, hshows x, ← hvariables, hbindings, FunctionDefinition.mem_bindings hcount]
    exact List.mem_append_right _ hx
  · obtain ⟨hlength, rfl⟩ := hvalues
    exact ⟨hlength, he.2⟩

/-- A call runs the body of the function that the name stands for, in the chain of that function. -/
theorem invoke_goes (hjob : job.Valid) {name : String} {args : List Word}
    (h : c.Poised job visible chain) (hfits : (Task.invoke name args).Fits job visible chain)
    (hrunner : runner.Serves job chain (.invoke name args)) :
    (runner.invoke name args).Goes job.program job.Agrees [] c fun values d =>
      (Task.invoke name args).Done job visible values d := by
  have hsees := h.sees name
  rcases h.mirrors.lookup hjob.written h.stands.inside h.stands.scope name with
    ⟨hnone, hlookup⟩ | ⟨definition, found, scope, hsome, hlookup, hscope⟩
  · refine goes_fails h.mirrors (invoke_of_none hlookup) ⟨nofun, fun hagree => ?_⟩
    obtain ⟨signature, hfunction, -⟩ := hfits hagree
    rw [hsees, hnone] at hfunction
    cases hfunction
  · rw [hsome] at hsees
    by_cases hcount : args.length = definition.params.length
    · have hin := (Chain.function?_spec h.stands.inside hsome).1
      let reset : Config := { c with machine := { c.machine with signal := .proceed } }
      let inner : Activation :=
        { scope := scope, bindings := definition.bindings args
          base := c.activation.level, level := c.activation.level }
      have hbody := body_goes (c := { reset with activation := inner }) hjob h.stands.inside hsome hcount
        (fun visible => hrunner _ _ visible (.body hsome)) ⟨hin, h.mirrors, hscope⟩ rfl rfl
      have hwithin := goes_within [] (c := reset) hbody
      have hreset : c.Follows job.program [] reset := Config.follows_of_eq h.mirrors rfl rfl rfl
      refine goes_of_eq (invoke_of_found hlookup hcount) hreset (hwithin.imp fun values d _ hdone => ?_)
      obtain ⟨hactivation, e, ⟨hlength, hsignal⟩, hmachine⟩ := hdone
      refine ⟨h.shows.of_eq (congrArg Activation.bindings hactivation), ?_, fun _ signature hfunction => ?_⟩
      · rw [hmachine, hsignal]
      · rw [hsees] at hfunction
        cases hfunction
        exact hlength
    · refine goes_fails h.mirrors (invoke_of_mismatch hlookup hcount) ⟨nofun, fun hagree => ?_⟩
      obtain ⟨signature, hfunction, hparams⟩ := hfits hagree
      rw [hsees] at hfunction
      cases hfunction
      exact absurd hparams hcount

end BlockIR
