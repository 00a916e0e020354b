import BlockIR.Proofs.Acceptance
import BlockIR.Proofs.Beside
import BlockIR.Proofs.Numeral

/-! Calling a function, from outside and from a program.

A function of a program can be called in two ways: at once, in the scope of the
program's block, or by a program that has the same functions and does nothing
but call one of them and keep what it yields (`Block.calling`). Both come to the
same call in the same scope. Until then the calling program has counted its
definitions and its statement, and has gone some nesting levels deeper
(`Run.outermost_calling`); afterwards it has only to bind the words. So without
limits the two runs end alike (`callFunction_alike_interpret`). -/
namespace BlockIR

/-! ### Programs that call -/

/-- The call of a function with words written out as its arguments. -/
def Expr.calling (name : String) (args : List Word) : Expr :=
  .call name (args.map fun w => .literal (.ofWord w))

/-- A statement that calls a function and declares variables for the words that it yields. -/
def Statement.calling (name : String) (args : List Word) (results : List String) : Statement :=
  if results = [] then .expression (.calling name args) else .declaration results (some (.calling name args))

/-- The program that has the functions of another one and calls one of them. -/
def Block.calling (b : Block) (name : String) (args : List Word) (results : List String) : Block :=
  ⟨b.id, b.functions.map .function ++ [.calling name args results]⟩

theorem Statement.functions_definitions (definitions : List FunctionDefinition) (rest : List Statement) :
    Statement.functions (definitions.map .function ++ rest) = definitions ++ Statement.functions rest := by
  induction definitions with
  | nil => rfl
  | cons f _ ih => exact congrArg (f :: ·) ih

theorem Block.calling_functions (b : Block) (name : String) (args : List Word) (results : List String) :
    (b.calling name args results).functions = b.functions := by
  have hcall : Statement.functions [.calling name args results] = [] := by
    unfold Statement.calling
    split <;> rfl
  refine (Statement.functions_definitions b.functions [.calling name args results]).trans ?_
  rw [hcall, List.append_nil]

/-! ### Without limits -/

theorem Context.perform_literal {ctx : Context} {c : Config} (depth : Nat) {l : Literal} {w : Word}
    (hroom : ctx.tooDeep (c.activation.level + 1) = false) (hvalue : l.value = .ok w) :
    ctx.perform (depth + 1) (.expression (.literal l)) c = (.ok [w], c.atLevel (c.activation.level + 1)) := by
  show (do
    Exec.deepen ctx
    let value ← Exec.ofExcept l.value
    pure [value] : Exec (List Word)) c = _
  rw [Effect.bind_of_ok (Exec.deepen_of_room hroom), hvalue]
  rfl

section Unlimited
variable {ctx : Context} (hsteps : ctx.setting.maxSteps = 0) (hnesting : ctx.setting.maxNesting = 0)

section
include hnesting

theorem perform_word (depth : Nat) {w : Word} (h : w.InRange) (c : Config) :
    ctx.perform (depth + 1) (.expression (.literal (.ofWord w))) c =
      (.ok [w], c.atLevel (c.activation.level + 1)) :=
  ctx.perform_literal depth (Context.not_tooDeep hnesting _) (Literal.value_ofWord h)

/-- Words that are written out are evaluated to themselves, each one level deeper than the one before. -/
theorem arguments_words (depth position : Nat) {args : List Word} (hargs : ∀ w ∈ args, w.InRange) (c : Config) :
    (ctx.perform (depth + 1)).arguments (fun _ => false) position (args.map fun w => .literal (.ofWord w)) c =
      (.ok args, c.atLevel (c.activation.level + args.length)) := by
  induction args generalizing position with
  | nil => rfl
  | cons w rest ih =>
    obtain ⟨hw, hrest⟩ := List.forall_mem_cons.mp hargs
    rw [List.map_cons, Runner.arguments, Effect.bind_of_ok (ih (position + 1) hrest)]
    have hfirst (d : Config) : (ctx.perform (depth + 1)).argument false (.literal (.ofWord w)) d =
        (.ok w, d.atLevel (d.activation.level + 1)) := by
      show Exec.single (ctx.perform (depth + 1) (.expression (.literal (.ofWord w)))) d = _
      unfold Exec.single
      rw [Effect.bind_of_ok (perform_word hnesting depth hw d)]
      rfl
    rw [Effect.bind_of_ok (hfirst _)]
    rfl

/-- Evaluating a call with words for arguments is calling, from some level. -/
theorem evaluateAll_calling (depth : Nat) {name : String} (hname : ctx.dialect.find? name = none)
    {args : List Word} (hargs : ∀ w ∈ args, w.InRange) (c : Config) :
    ∃ level, (ctx.perform (depth + 2)).evaluateAll (.calling name args) c =
      ctx.perform (depth + 1) (.invoke name args) (c.atLevel level) := by
  have hwants : ctx.dialect.wantsLiteral name = fun _ => false := by
    funext position
    unfold Dialect.wantsLiteral
    rw [hname]
  refine ⟨c.activation.base + 1 + args.length, ?_⟩
  show (do
    Exec.deepen ctx
    let values ← (ctx.perform (depth + 1)).arguments (ctx.dialect.wantsLiteral name) 0
      (args.map fun w => .literal (.ofWord w))
    ctx.apply (ctx.perform (depth + 1)) name (args.map fun w => .literal (.ofWord w)) values : Exec (List Word))
      (c.atLevel c.activation.base) = _
  rw [Effect.bind_of_ok (Exec.deepen_unlimited hnesting _), hwants,
    Effect.bind_of_ok (arguments_words hnesting depth 0 hargs _)]
  unfold Context.apply
  rw [hname]
  rfl

end

include hsteps

/-- Definitions are counted and passed over. -/
theorem sequence_definitions {runner : Runner} (hpasses : runner.Passes) (definitions : List FunctionDefinition)
    (rest : List Statement) {c : Config} (hsignal : c.machine.signal = .proceed) :
    ctx.sequence runner (definitions.map .function ++ rest) c =
      ctx.sequence runner rest (c.recount (c.machine.steps + definitions.length)) := by
  induction definitions generalizing c with
  | nil => rfl
  | cons f fs ih =>
    rw [List.map_cons, List.cons_append, sequence_definition hsteps hpasses f _ hsignal,
      ih (c := c.recount (c.machine.steps + 1)) hsignal]
    show ctx.sequence runner rest (c.recount (c.machine.steps + 1 + fs.length)) = _
    rw [List.length_cons, Nat.add_assoc, Nat.add_comm 1]

end Unlimited

/-! ### Keeping what a call yields -/

namespace Variables

theorem getElem?_insertAll_of_notMem {pairs : List (String × Word)} {name : String}
    (h : name ∉ pairs.map Prod.fst) (table : Variables) :
    (pairs.foldl (fun table q => table.insert q.1 q.2) table)[name]? = table[name]? := by
  induction pairs generalizing table with
  | nil => rfl
  | cons first rest ih =>
    obtain ⟨hfirst, hrest⟩ := not_or.mp (mt List.mem_cons.mpr h)
    rw [List.foldl_cons, ih hrest, Std.ExtTreeMap.getElem?_insert, if_neg]
    exact fun heq => hfirst (Std.LawfulEqCmp.eq_of_compare heq).symm

/-- Different names have the values that they were given. -/
theorem map_insertAll {names : List String} (hnodup : names.Nodup) {values : List Word}
    (hlength : values.length = names.length) (table : Variables) :
    names.map (fun name => ((names.zip values).foldl (fun table q => table.insert q.1 q.2) table)[name]?) =
      values.map some := by
  induction names generalizing values table with
  | nil =>
    rw [List.eq_nil_of_length_eq_zero hlength]
    rfl
  | cons name rest ih =>
    obtain ⟨value, values, rfl⟩ := List.exists_cons_of_length_eq_add_one hlength
    obtain ⟨hname, hrest⟩ := List.nodup_cons.mp hnodup
    have hlength' : values.length = rest.length := Nat.succ.inj hlength
    rw [List.zip_cons_cons, List.foldl_cons, List.map_cons, List.map_cons, ih hrest hlength',
      getElem?_insertAll_of_notMem, Std.ExtTreeMap.getElem?_insert_self]
    rwa [List.map_fst_zip (Nat.le_of_eq hlength'.symm)]

end Variables

namespace Exec
variable {c : Config} {scope : Scope BlockId FunctionDefinition} {pairs : List (String × Word)}

theorem bindNew_cons (hscope : c.scopes.scopes[c.activation.scope]? = some scope) {name : String}
    (hname : name ∉ c.activation.bindings) (value : Word) (rest : List (String × Word)) :
    bindNew ((name, value) :: rest) c = bindNew rest { c with
      scopes := c.scopes.rename c.activation.scope fun names => names.insert name .ofVariable
      activation := { c.activation with bindings := c.activation.bindings.insert name value } } := by
  let bound : Config :=
    { c with activation := { c.activation with bindings := c.activation.bindings.insert name value } }
  have hdeclare : declare name .ofVariable bound = (.ok (), { bound with
      scopes := c.scopes.rename c.activation.scope fun names => names.insert name .ofVariable }) :=
    declare_apply (ScopeArena.declare_eq hscope)
  show (if name ∈ c.activation.bindings then _ else _ : Exec Unit) c = _
  rw [if_neg hname]
  exact Effect.bind_of_ok hdeclare

/-- New variables are bound; machine and parents stay as they are. -/
theorem bindNew_ends (hscope : c.scopes.scopes[c.activation.scope]? = some scope)
    (hnodup : (pairs.map Prod.fst).Nodup) (hnew : ∀ name ∈ pairs.map Prod.fst, name ∉ c.activation.bindings) :
    ∃ d, bindNew pairs c = (.ok (), d) ∧ d.machine = c.machine ∧
      d.activation.bindings = pairs.foldl (fun table q => table.insert q.1 q.2) c.activation.bindings ∧
      ∃ later, d.scopes.scopes[d.activation.scope]? = some later ∧ later.parent = scope.parent := by
  induction pairs generalizing c scope with
  | nil => exact ⟨c, rfl, rfl, rfl, scope, hscope, rfl⟩
  | cons first rest ih =>
    obtain ⟨name, value⟩ := first
    obtain ⟨hfirst, hrest⟩ := List.nodup_cons.mp hnodup
    obtain ⟨hname, hothers⟩ := List.forall_mem_cons.mp hnew
    obtain ⟨renamed, hrenamed, hparent, -⟩ := ScopeArena.eq_some_rename c.activation.scope
      (fun names => names.insert name .ofVariable) hscope
    rw [bindNew_cons hscope hname, ← hparent]
    refine ih hrenamed hrest fun other hother hbound => ?_
    rcases Std.ExtTreeMap.mem_insert.mp hbound with heq | hbound
    · exact hfirst (Std.LawfulEqCmp.eq_of_compare heq ▸ hother)
    · exact hothers other hother hbound

/-- Leaving a scope does nothing to the machine. -/
theorem leaveScope_machine (c : Config) : (leaveScope c).2.machine = c.machine := by
  unfold leaveScope
  rcases c.scopes.leave c.activation.scope c.activation.bindings with ⟨_ | _, _⟩ <;> rfl

/-- What a calling statement does with the words that it has. -/
def keep (results : List String) (values : List Word) : Exec Unit :=
  if results = [] then pure ()
  else if values.length ≠ results.length then
    fail (.arityMismatch (.ofNat results.length) (.ofNat values.length) "variable declaration")
  else bindNew (results.zip values)

theorem keep_of_length {results : List String} {values : List Word} (h : values.length = results.length) :
    keep results values = bindNew (results.zip values) := by
  unfold keep
  split
  · rename_i hnone
    rw [hnone]
    rfl
  · exact if_neg (not_not_intro h)

end Exec

theorem Runner.statement_calling (runner : Runner) (name : String) (args : List Word) (results : List String) :
    runner.statement (.calling name args results) =
      runner.evaluateAll (.calling name args) >>= Exec.keep results := by
  unfold Statement.calling
  by_cases hresults : results = []
  · have hkeep : Exec.keep results = fun _ => pure () := funext fun _ => if_pos hresults
    rw [if_pos hresults, hkeep]
    rfl
  · have hkeep : Exec.keep results = fun values => if values.length ≠ results.length then
        Exec.fail (.arityMismatch (.ofNat results.length) (.ofNat values.length) "variable declaration")
      else Exec.bindNew (results.zip values) := funext fun _ => if_neg hresults
    rw [if_neg hresults, hkeep]
    rfl

theorem perform_run_statement (ctx : Context) (depth : Nat) (s : Statement) :
    (ctx.perform (depth + 1)).run (.statement s) = (ctx.perform depth).statement s := by
  show (do
    let _ ← (do
      (ctx.perform depth).statement s
      pure [])
    pure () : Exec Unit) = _
  simp

/-! ### Both ways side by side -/

namespace Pairing

/-- The same run, one side of which has counted more steps and stands at some other level. -/
def ahead (count : Nat) : Pairing :=
  .same (Machine.Beside fun i j => j = i + count) (fun _ _ => True) fun _ => True

theorem ahead_keeps (count : Nat) {options : Options} (hsteps : options.setting.maxSteps = 0)
    (hnesting : options.setting.maxNesting = 0) : (ahead count).Keeps (Run.context options) := by
  have hmachine : (ahead count).machine = Machine.Beside fun i j => j = i + count := rfl
  refine keeps_beside hmachine (fun i j h => ?_) hsteps rfl (fun _ _ _ => ⟨trivial, ?_⟩) oneToOne_same
  · rw [h, Nat.add_right_comm]
  · rw [Context.not_tooDeep hnesting, Context.not_tooDeep hnesting]

theorem ahead_related (count : Nat) (c : Config) (level : Nat) :
    (ahead count).Related c ((c.recount (c.machine.steps + count)).atLevel level) where
  machine := ⟨rfl, rfl⟩
  scopes := by
    refine ScopeArena.Pairs.refl ?_ ?_ c.scopes
    · exact fun _ => rfl
    · exact fun f => same_functions f
  activation := ⟨rfl, rfl, fun _ _ _ => trivial, trivial, trivial⟩

end Pairing

namespace Run
variable {ctx : Context} {program : Block} {name : String} {args : List Word} {entered d : Config}

/-- Keeps the words of a part, at the end of a program. -/
def keeping (results : List String) (x : Exec (List Word)) : Exec Variables :=
  Effect.ensuring
    (do
      let values ← x
      Exec.keep results values
      bindings)
    Exec.leaveScope

/-- Where the functions of the program are declared the calling program comes to the call, with its
definitions and its statement counted and at some nesting level. -/
theorem outermost_calling (hsteps : ctx.setting.maxSteps = 0) (hnesting : ctx.setting.maxNesting = 0)
    (hname : ctx.dialect.find? name = none) (hargs : ∀ w ∈ args, w.InRange)
    (henter : Exec.enterScope program.id {} = (.ok (), entered))
    (hdeclare : Exec.declareFunctions program.functions entered = (.ok (), d))
    (hsignal : d.machine.signal = .proceed) (depth : Nat) (results : List String) :
    ∃ level, outermost ctx (program.calling name args results) (ctx.perform (depth + 3)) {} =
      keeping results (ctx.perform (depth + 1) (.invoke name args))
        ((d.recount (d.machine.steps + (program.functions.length + 1))).atLevel level) := by
  have hpasses : (ctx.perform (depth + 3)).Passes := fun _ _ => rfl
  obtain ⟨level, hcall⟩ := evaluateAll_calling hnesting depth hname hargs
    (d.recount (d.machine.steps + (program.functions.length + 1)))
  refine ⟨level, ?_⟩
  have hinside : (do
      ctx.sequence (ctx.perform (depth + 3)) (program.calling name args results).statements
      bindings : Exec Variables) d = (do
      let values ← ctx.perform (depth + 1) (.invoke name args)
      Exec.keep results values
      bindings) ((d.recount (d.machine.steps + (program.functions.length + 1))).atLevel level) := by
    have hcounted : ctx.sequence (ctx.perform (depth + 3)) (program.calling name args results).statements d =
        (ctx.perform (depth + 2)).statement (.calling name args results)
          (d.recount (d.machine.steps + (program.functions.length + 1))) := by
      refine (sequence_definitions hsteps hpasses program.functions _ hsignal).trans ?_
      rw [sequence_last hsteps, perform_run_statement]
      rfl
    rw [Effect.bind_apply, hcounted, ← Effect.bind_apply, Runner.statement_calling, bind_assoc, Effect.bind_apply,
      hcall, ← Effect.bind_apply]
  unfold outermost Context.block keeping
  rw [program.calling_functions, show (program.calling name args results).id = program.id from rfl,
    Effect.bind_of_ok henter, Effect.ensuring_bind_of_ok hdeclare]
  unfold Effect.ensuring
  rw [hinside]

section Keeping
variable {x : Exec (List Word)} {c e : Config} {results : List String}

theorem keeping_of_error {stop : Stop} (hx : x c = (.error stop, e)) :
    keeping results x c = (.error stop, (Exec.leaveScope e).2) := by
  unfold keeping Effect.ensuring
  rw [Effect.bind_of_error hx]

/-- Words that a part yields where no variable is bound are kept. -/
theorem keeping_of_ok {scope : Scope BlockId FunctionDefinition} {outer : ScopeId} {values : List Word}
    (hx : x c = (.ok values, e)) (hscope : e.scopes.scopes[e.activation.scope]? = some scope)
    (hparent : scope.parent = some outer) (hempty : ∀ name, name ∉ e.activation.bindings)
    (hnodup : results.Nodup) (hlength : values.length = results.length) :
    ∃ table last, keeping results x c = (.ok table, last) ∧ last.machine = e.machine ∧
      results.map (fun name => table[name]?) = values.map some := by
  have hnames : (results.zip values).map Prod.fst = results := List.map_fst_zip (Nat.le_of_eq hlength.symm)
  have hdistinct : ((results.zip values).map Prod.fst).Nodup := hnames.symm ▸ hnodup
  obtain ⟨d, hbind, hmachine, hbindings, later, hlater, hsame⟩ :=
    Exec.bindNew_ends hscope hdistinct fun name _ => hempty name
  have hdone : (do
      let values ← x
      Exec.keep results values
      bindings : Exec Variables) c = (.ok d.activation.bindings, d) := by
    rw [Effect.bind_of_ok hx, Exec.keep_of_length hlength, Effect.bind_of_ok hbind]
    rfl
  refine ⟨d.activation.bindings, _, Effect.ensuring_apply hdone (Exec.leaveScope_apply hlater (hsame.trans hparent)),
    hmachine, ?_⟩
  rw [hbindings]
  exact Variables.map_insertAll hnodup hlength _

end Keeping

/-- The name of a function of a valid program is not that of a builtin. -/
theorem function_no_builtin {target : Target} {doc : Option Json}
    (hvalid : Validation.validate target doc = .ok program)
    {f : FunctionDefinition} (hf : f ∈ program.functions) : target.dialect.find? f.name = none := by
  have hscoped := (issues_eq_nil_iff_wellScoped _ _).mp (validate_eq_ok_iff.mp hvalid).2
  obtain ⟨earlier, hsite⟩ := Statement.mem_sites (fun before => [.block program before]) []
    (Statement.mem_functions.mp hf)
  exact (hscoped _ (.single hsite)).1.builtin

/-- Called from outside, a function that ends well has yielded its returns, and no variable is bound. -/
theorem entry_leaves {job : Job} (hjob : job.Valid) (hagree : job.Agrees) {f : FunctionDefinition}
    (hf : f ∈ job.program.functions) (hcount : args.length = f.params.length)
    (hopens : Config.Opens job.program [] (.block job.program) {} d) {depth : Nat} {values : List Word} {e : Config}
    (hcall : job.ctx.perform depth (.invoke f.name args) d = (.ok values, e)) :
    values.length = f.returns.length ∧ (∀ name, name ∉ e.activation.bindings) ∧
      ∃ scope, e.scopes.scopes[e.activation.scope]? = some scope ∧ scope.parent = some 0 := by
  have hready := entry_ready hjob (fun _ => ⟨f, hf, rfl, hcount⟩) hopens
  obtain ⟨hfollows, hdone⟩ := (perform_meets hjob depth hready).goes
  rw [hcall] at hfollows hdone
  obtain ⟨hshows, -, hyields⟩ := hdone
  have hnamed : FunctionDefinition.named? f.name (Region.block job.program).functions = some f :=
    FunctionDefinition.named?_of_mem hjob.checked.functions.2 hf
  refine ⟨hyields hagree f.signature ?_, fun name hbound => ?_, ?_⟩
  · rw [hready.poised.sees, Chain.function?_of_some hnamed]
    rfl
  · have hvisible := (hshows name).mp hbound
    rw [Region.isVariable_inside] at hvisible
    simp [Visible.isVariable] at hvisible
  · obtain ⟨scope, hscope, hparent⟩ := hopens.parent
    obtain ⟨later, hlater, hgrows⟩ := hfollows.grows _ _ hscope
    exact ⟨later, hfollows.scope ▸ hlater, hgrows.parent.trans hparent⟩

/-- The two calls come to the same, and so do the runs. -/
theorem entry_beside_outermost {doc : Option Json} {options : Options}
    (hvalid : Validation.validate options.target doc = .ok program)
    (hsteps : options.setting.maxSteps = 0) (hnesting : options.setting.maxNesting = 0)
    {f : FunctionDefinition} (hf : f ∈ program.functions) (hargs : ∀ w ∈ args, w.InRange)
    (hcount : args.length = f.params.length) {results : List String} (hnodup : results.Nodup)
    (hresults : results.length = f.returns.length) (depth : Nat) :
    let called := entry program f.name args ((context options).perform (depth + 1)) {}
    let executed := outermost (context options) (program.calling f.name args results)
      ((context options).perform (depth + 3)) {}
    Results (fun values table => results.map (fun name => table[name]?) = values.map some) called.1 executed.1 ∧
      called.2.machine.Beside (fun called executed => executed = called + (program.functions.length + 1))
        executed.2.machine := by
  have hjob : (job options.target program options True).Valid := job_valid hvalid fun _ => rfl
  obtain ⟨entered, d, henter, hdeclare, hopens⟩ := (Config.poised_start (job _ program options True)).stands.opens
    hjob.written (List.mem_singleton_self (Region.block program)) hjob.checked.functions.2
  have hsignal : d.machine.signal = .proceed := congrArg Machine.signal hopens.machine
  have hname : (context options).dialect.find? f.name = none := function_no_builtin hvalid hf
  obtain ⟨level, hexecuted⟩ := outermost_calling hsteps hnesting hname hargs henter hdeclare hsignal depth results
  have hcalled : entry program f.name args ((context options).perform (depth + 1)) {} =
      (context options).perform (depth + 1) (.invoke f.name args) d :=
    (Effect.bind_of_ok henter).trans (Effect.bind_of_ok hdeclare)
  rw [hcalled, hexecuted]
  have lawful := (Pairing.ahead_keeps (program.functions.length + 1) hsteps hnesting).lawful
  have hrelated := Pairing.ahead_related (program.functions.length + 1) d level
  have htasks := Pairing.Tasks.invoke (p := .ahead (program.functions.length + 1)) f.name
    fun w (_ : w ∈ args) => trivial
  have houtcome := (lawful.perform (depth + 1)).together _ _ _ htasks _ _ hrelated False.elim
  rcases hx : (context options).perform (depth + 1) (.invoke f.name args) d with ⟨result, c⟩
  rcases hy : (context options).perform (depth + 1) (.invoke f.name args) _ with ⟨result', c'⟩
  rw [hx, hy] at houtcome
  cases houtcome with
  | error stop hends =>
    rw [keeping_of_error hy]
    exact ⟨.error stop, (Exec.leaveScope_machine c').symm ▸ hends.machine⟩
  | @ok values _ _ _ hends hvalues =>
    obtain ⟨rfl, -⟩ := hvalues
    obtain ⟨hlength, hempty, scope, hscope, hparent⟩ := entry_leaves hjob trivial hf hcount hopens hx
    have hpair := hends.scopes c.activation.scope
    rw [hscope] at hpair
    rcases hscope' : c'.scopes.scopes[c.activation.scope]? with _ | scope' <;> rw [hscope'] at hpair <;> cases hpair
    rename_i hpair
    obtain ⟨table, last, hkept, hmachine, htable⟩ := keeping_of_ok hy (hends.activation.scope.symm ▸ hscope')
      (hpair.parent.trans hparent) (hends.activation.bindings.symm ▸ hempty) hnodup (hlength.trans hresults.symm)
    rw [hkept]
    exact ⟨.ok htable, hmachine.symm ▸ hends.machine⟩

end Run

/-- Calling a function of a program that is valid for the target of the options comes to the same as executing,
with the same options, a program that has the same functions, calls this one with the words written out, and keeps
what it yields in variables of different names: one run ends if the other does, in the same way, with the same trace
and the same stores. The words that the call yields are the values of the variables, in order. The program has
counted a step more, and one for each of its definitions. With options of another target the name of the function
could be that of a builtin, which the program would call instead. -/
theorem callFunction_alike_interpret {doc opts : Option Json} {program : Block} {options : Options}
    (hoptions : Options.resolve opts = .ok options) (hvalid : Validation.validate options.target doc = .ok program)
    (hsteps : options.setting.maxSteps = 0) (hnesting : options.setting.maxNesting = 0)
    {f : FunctionDefinition} (hf : f ∈ program.functions) {args : List Int}
    (hargs : ∀ a ∈ args, 0 ≤ a ∧ a < Word.modulus) (hcount : args.length = f.params.length)
    {results : List String} (hnodup : results.Nodup) (hresults : results.length = f.returns.length) :
    Alike
      (Report.Beside (fun called executed => executed = called + (program.functions.length + 1))
        fun values table => results.map (fun name => table[name]?) = values.map some)
      (fun depth => callFunction depth program f.name args opts)
      (fun depth => interpret depth (program.calling f.name (args.map Int.toNat) results) opts) := by
  refine alike_of_shift (callFunction_steady hoptions program f.name hargs) (interpret_steady hoptions _) 1 3
    fun depth => ?_
  rw [Run.callFunction_eq hoptions _ program f.name hargs, Run.interpret_eq hoptions]
  obtain ⟨hsame, hmachine⟩ := Run.entry_beside_outermost hvalid hsteps hnesting hf (Run.toNat_inRange hargs)
    ((List.length_map _).trans hcount) hnodup hresults depth
  exact Run.guarded_beside hsame hmachine options

theorem callFunction_alike_interpret_sample :
    Alike
      (Report.Beside (fun called executed => executed = called + (Sample.program.functions.length + 1))
        fun values table => ["z"].map (fun name => table[name]?) = values.map some)
      (fun depth => callFunction depth Sample.program "copy" [7] none)
      (fun depth => interpret depth (Sample.program.calling "copy" [7] ["z"]) none) :=
  callFunction_alike_interpret Sample.options_resolved Sample.program_valid rfl rfl
    (List.mem_singleton_self Sample.copy) (by decide) rfl (by decide) rfl

end BlockIR
