import BlockIR.Proofs.Soundness

/-! Calls resolve lexically.

A name that is called stands for the function of that name in the innermost
block around the call that has one (`Chain.Resolves`), whatever has been called
on the way there; and the body of that function runs in a scope whose parents
are the scopes of the blocks around the definition (`ScopeArena.Nested`). All
activations share one arena, so this rests on the arena mirroring the program
at every moment. That there is such a function was checked at the place of the
call (`Executes.checked`), unless the name is a builtin to the check and none to
the run (`Run.TakenAlike`). -/
namespace BlockIR

open FunctionDefinition (named?)

/-! ### Parents -/

/-- The scope of that number and its parents, from the inside out, are those of the blocks of the path. -/
inductive ScopeArena.Nested {κ φ : Type} (arena : ScopeArena κ φ) : ScopeId → List κ → Prop
  | root {id : ScopeId} {scope : Scope κ φ} :
    arena.scopes[id]? = some scope → scope.parent = none → Nested arena id []
  | child {id outer : ScopeId} {scope around : Scope κ φ} {block : κ} {path : List κ} :
    arena.scopes[id]? = some scope → scope.parent = some outer → arena.scopes[outer]? = some around →
      (block, id) ∈ around.children → Nested arena outer path → Nested arena id (block :: path)

theorem ScopeArena.At.nested {κ φ : Type} {arena : ScopeArena κ φ} {id : ScopeId} {path : List κ}
    (h : arena.At id path) (sound : arena.Sound) : arena.Nested id path := by
  induction h with
  | root =>
    obtain ⟨scope, hscope, hparent⟩ := sound.root
    exact .root hscope hparent
  | child houter haround hmem ih =>
    obtain ⟨-, scope, hscope, hparent⟩ := sound.child haround hmem
    exact .child hscope hparent haround hmem ih

/-! ### Names -/

namespace Chain

/-- The definition stands directly in the innermost region of the chain that has one of that name;
`found` is the chain from there on. -/
inductive Resolves (name : String) : Chain → FunctionDefinition → Chain → Prop
  | here {region : Region} {outer : Chain} {definition : FunctionDefinition} :
    definition ∈ region.functions → definition.name = name →
      Resolves name (region :: outer) definition (region :: outer)
  | outside {region : Region} {outer found : Chain} {definition : FunctionDefinition} :
    (∀ f ∈ region.functions, f.name ≠ name) → Resolves name outer definition found →
      Resolves name (region :: outer) definition found

/-- The name resolves to a definition with that many parameters. -/
def Offers (chain : Chain) (name : String) (count : Nat) : Prop :=
  ∃ definition found, Resolves name chain definition found ∧ count = definition.params.length

variable {name : String} {chain found : Chain} {definition : FunctionDefinition}

theorem resolves_of_function? (h : function? name chain = some (definition, found)) :
    Resolves name chain definition found := by
  induction chain with
  | nil => cases h
  | cons region outer ih =>
    unfold function? at h
    split at h
    · rename_i hnamed
      cases h
      exact .here (FunctionDefinition.mem_of_named? hnamed) (FunctionDefinition.name_of_named? hnamed)
    · rename_i hnone
      exact .outside (FunctionDefinition.named?_eq_none.mp hnone) (ih h)

/-- In a chain of a program without issues a region has no two functions of one name. -/
theorem functions_nodup {dialect : Dialect} {program : Block} (hprogram : program.Checked dialect {})
    (h : In program chain) {region : Region} (hregion : region ∈ chain) :
    (region.functions.map FunctionDefinition.name).Nodup := by
  induction chain with
  | nil => cases hregion
  | cons first outer ih =>
    rcases List.mem_cons.mp hregion with rfl | hregion
    · obtain ⟨visible, hchecked, -⟩ := checked hprogram h.2 h.1
      cases region with
      | block b => exact (Block.Checked.functions hchecked).2
      | loop l => exact List.nodup_nil
    · exact ih h.2 hregion

theorem function?_of_resolves
    (hnodup : ∀ region ∈ chain, (region.functions.map FunctionDefinition.name).Nodup)
    (h : Resolves name chain definition found) : function? name chain = some (definition, found) := by
  induction h with
  | here hmem hname =>
    subst hname
    exact function?_of_some (FunctionDefinition.named?_of_mem (hnodup _ (List.mem_cons_self ..)) hmem)
  | outside hnone _ ih =>
    rw [function?_of_none (FunctionDefinition.named?_eq_none.mpr hnone)]
    exact ih fun region hregion => hnodup region (List.mem_cons_of_mem _ hregion)

end Chain

/-! ### Bodies -/

/-- Where the body of a function begins that is called from `c`. -/
def Config.callee (c : Config) (scope : ScopeId) (definition : FunctionDefinition) (args : List Word) :
    Config :=
  { c with
    machine := { c.machine with signal := .proceed }
    activation :=
      { scope := scope, bindings := definition.bindings args
        base := c.activation.level, level := c.activation.level } }

section Bodies
variable {runner other : Runner} {name : String} {args : List Word} {c d : Config} {u : Task}

variable {scope : ScopeId} {definition : FunctionDefinition}
  (hlookup : c.scopes.lookup c.activation.scope name = .ok (some (scope, definition)))
  (hcount : args.length = definition.params.length)
include hlookup hcount

theorem invoke_congr (hsame : other (.block definition.body) (c.callee scope definition args) =
    runner (.block definition.body) (c.callee scope definition args)) :
    other.invoke name args c = runner.invoke name args c := by
  have hrun : other.run (.block definition.body) (c.callee scope definition args) =
      runner.run (.block definition.body) (c.callee scope definition args) := by
    unfold Runner.run
    rw [Effect.bind_apply, Effect.bind_apply, hsame]
  rw [Exec.invoke_of_found hlookup hcount, Exec.invoke_of_found hlookup hcount, Exec.within_apply,
    Exec.within_apply]
  unfold Config.callee at hrun
  rw [Effect.bind_apply, Effect.bind_apply, hrun]

theorem invoke_fails {stop : Stop}
    (hfail : (runner (.block definition.body) (c.callee scope definition args)).1 = .error stop) :
    (runner.invoke name args c).1 = .error stop := by
  have hbody : runner (.block definition.body) (c.callee scope definition args) = (.error stop, _) :=
    Prod.ext hfail rfl
  rw [Exec.invoke_of_found hlookup hcount, Exec.within_apply]
  have hrun := Effect.bind_of_error (f := fun _ => (pure () : Exec Unit)) hbody
  exact congrArg Prod.fst (Effect.bind_of_error hrun)

/-- A call that finds a function asks for the body of the function, and for nothing else. -/
theorem invoke_asks_iff : Asks (fun runner => runner.invoke name args) runner c u d ↔
    u = .block definition.body ∧ d = c.callee scope definition args := by
  constructor
  · intro hasks
    refine Classical.byContradiction fun hother => ?_
    -- Another place where the runner fails would make no difference to the call.
    exact hasks.not_const fun stop =>
      invoke_congr hlookup hcount (if_neg fun h => hother ⟨h.1.symm, h.2.symm⟩)
  · rintro ⟨rfl, rfl⟩ other stop _ hfail
    exact invoke_fails hlookup hcount hfail

end Bodies

/-- A call of what is no builtin, with values for all its arguments, asks for the function of that name. -/
theorem call_asks {ctx : Context} {runner : Runner} {name : String} {args : List Expr} {values : List Word}
    {c d : Config} (hbuiltin : ctx.dialect.find? name = none)
    (hvalues : (do
      Exec.deepen ctx
      runner.arguments (ctx.dialect.wantsLiteral name) 0 args : Exec (List Word)) c = (.ok values, d)) :
    Asks (fun runner => ctx.advance runner (.expression (.call name args))) runner c (.invoke name values) d := by
  obtain ⟨_, deepened, hdeepen, harguments⟩ := Effect.bind_eq_ok hvalues
  refine (asksAll_const _).then hdeepen ((arguments_asksAll _ _ _).then harguments ?_)
  have happly : (fun runner => ctx.apply runner name args values) = fun runner => runner (.invoke name values) := by
    funext runner
    unfold Context.apply
    rw [hbuiltin]
  rw [happly]
  exact asks_task runner _ d

section Arguments
variable {runner : Runner} {wants : Nat → Bool} {position : Nat} {args : List Expr} {c d : Config}

theorem Runner.arguments_congr {other : Runner}
    (h : ∀ e ∈ args, other (.expression e) = runner (.expression e)) :
    other.arguments wants position args = runner.arguments wants position args := by
  induction args generalizing position with
  | nil => rfl
  | cons e rest ih =>
    obtain ⟨hfirst, hrest⟩ := List.forall_mem_cons.mp h
    rw [arguments, arguments, ih hrest, argument, argument, hfirst]

/-- Arguments get a value each. -/
theorem Runner.arguments_length {values : List Word}
    (h : runner.arguments wants position args c = (.ok values, d)) : values.length = args.length := by
  induction args generalizing position values d with
  | nil =>
    cases h
    rfl
  | cons e rest ih =>
    obtain ⟨others, _, hrest, h⟩ := Effect.bind_eq_ok h
    obtain ⟨value, _, -, h⟩ := Effect.bind_eq_ok h
    cases h
    exact congrArg Nat.succ (ih hrest)

/-- What a call asks for besides its arguments is the function of its name, when they have a value each. -/
theorem asks_callee {ctx : Context} {name callee : String} {values : List Word}
    (h : Asks (fun runner => ctx.advance runner (.expression (.call name args))) runner c
      (.invoke callee values) d) : ctx.dialect.find? name = none ∧ values.length = args.length := by
  have hcall : Asks (fun runner => Exec.deepen ctx >>= fun _ =>
      runner.arguments (ctx.dialect.wantsLiteral name) 0 args >>= fun values =>
        ctx.apply runner name args values) runner c (.invoke callee values) d := h
  obtain ⟨_, deepened, -, hrest⟩ := hcall.after
  rcases (arguments_asksAll _ _ _).of_bind hrest with harguments | ⟨given, evaluated, hgiven, happly⟩
  · obtain ⟨e, -, he⟩ := harguments.only (P := fun u _ => ∃ e ∈ args, u = .expression e) fun other hother =>
      congrFun (Runner.arguments_congr fun e he => funext fun g => hother _ g ⟨e, he, rfl⟩) _
    cases he
  · unfold Context.apply at happly
    rcases hfind : ctx.dialect.find? name with _ | builtin <;> rw [hfind] at happly
    · have hcallee : Task.invoke callee values = .invoke name given :=
        happly.only (P := fun u _ => u = .invoke name given) fun other hother => hother _ _ rfl
      cases hcallee
      exact ⟨rfl, Runner.arguments_length hgiven⟩
    · exact absurd (fun _ => rfl) happly.not_const

end Arguments

/-! ### Checked calls -/

section Checked
variable {job : Job} {α : Type} {x : Runner → Exec α} {start : Task → Chain → Prop} {depth left : Nat}
  {chain : Chain} {c : Config} (hjob : job.Valid) (hbegins : Run.Begins job x start)
  (hstart : ∀ e chain, ¬start (.expression e) chain)
include hjob hbegins hstart

/-- An expression that a run evaluates is a literal or was checked where it stands, in whatever dialect it is
evaluated. -/
theorem Executes.checked {e : Expr} (h : Executes job.ctx x start depth left (.expression e) chain c) :
    e.isLiteral = true ∨ ∃ visible, e.Checked job.dialect visible ∧ visible.Sees chain := by
  generalize ht : Task.expression e = t at h
  induction h generalizing e with
  | first hfirst =>
    subst ht
    exact absurd hfirst (hstart _ _)
  | next hexecutes hleads _ ih =>
    subst ht
    cases hleads with
    | argument he =>
      obtain hliteral | ⟨visible, hcall, hsees⟩ := ih rfl
      · cases hliteral
      · exact (hcall.call.1.mem he).imp id fun hchecked => ⟨visible, hchecked, hsees⟩
    | expression he =>
      obtain ⟨visible, hready⟩ := hexecutes.ready hjob hbegins
      exact .inr ⟨visible, hready.fits.1.expression he, hready.poised.sees⟩
    | condition =>
      obtain ⟨visible, hready⟩ := hexecutes.ready hjob hbegins
      exact .inr ⟨visible, hready.fits.1.1, hready.poised.sees⟩

/-- A function that is called, other than from outside, is no builtin of the run. If it is none of the check
either, its name stands for a function with as many parameters as there are values. -/
theorem Executes.takes {name : String} {args : List Word}
    (h : Executes job.ctx x start depth left (.invoke name args) chain c) :
    start (.invoke name args) chain ∨
      job.ctx.dialect.find? name = none ∧
        (job.dialect.find? name = none → chain.Offers name args.length) := by
  cases h with
  | first hfirst => exact .inl hfirst
  | next hexecutes hleads hasks =>
    cases hleads with
    | callee =>
      obtain ⟨hbuiltin, hlength⟩ := asks_callee hasks
      refine .inr ⟨hbuiltin, fun hfind => ?_⟩
      obtain hliteral | ⟨visible, hcall, hsees⟩ := hexecutes.checked hjob hbegins hstart
      · cases hliteral
      · have htakes := hcall.call.2
        rw [Visible.Takes, hfind] at htakes
        obtain ⟨signature, hsignature, hparams⟩ := htakes
        rw [hsees] at hsignature
        obtain ⟨⟨definition, found⟩, hfunction, rfl⟩ := Option.map_eq_some_iff.mp hsignature
        exact ⟨definition, found, Chain.resolves_of_function? hfunction, hlength.trans hparams.symm⟩

end Checked

/-! ### Runs -/

/-- A call of the name is a call of a function to the check as it is to the run: the run uses the dialect of the
check, or the name is no builtin of the target that was checked for. -/
def Run.TakenAlike (target : Target) (options : Options) (name : String) : Prop :=
  options.target = target ∨ target.dialect.find? name = none

/-- Calls resolve lexically in a run that begins with tasks in `start`. The names in `known` are those whose
calls the check has seen as calls of functions. -/
structure Run.Lexical {α : Type} (ctx : Context) (program : Block) (x : Runner → Exec α)
    (start : Task → Chain → Prop) (depth : Nat) (known : String → Prop) : Prop where
  /-- Every moment has a chain, which follows the program text from where the run begins. -/
  chain : ∀ left t c, Moment ctx x depth left t c → ∃ chain, Executes ctx x start depth left t chain c
  /-- The scopes around a moment are those of its chain. -/
  scope : ∀ left t chain c, Executes ctx x start depth left t chain c →
    chain.In program ∧ c.scopes.Nested c.activation.scope chain.ids
  /-- A call of a function, once its arguments have values, is made in the chain of the expression. -/
  call : ∀ left name args values chain c d,
    Executes ctx x start depth (left + 1) (.expression (.call name args)) chain c →
      ctx.dialect.find? name = none →
        (do
          Exec.deepen ctx
          (ctx.perform left).arguments (ctx.dialect.wantsLiteral name) 0 args : Exec (List Word)) c =
            (.ok values, d) →
          Executes ctx x start depth left (.invoke name values) chain d
  /-- What a call runs is the body of the definition that its name resolves to, inside the scopes of
  the blocks around that definition. -/
  body : ∀ left name args chain c u d, Executes ctx x start depth (left + 1) (.invoke name args) chain c →
    Asks (fun runner => ctx.advance runner (.invoke name args)) (ctx.perform left) c u d →
      ∃ definition found scope, Chain.Resolves name chain definition found ∧
        u = .block definition.body ∧ d = c.callee scope definition args ∧
          c.scopes.Nested scope (Chain.ids found)
  /-- And it is run, if the arguments are as many as the parameters. -/
  runs : ∀ left name args chain c definition found,
    Executes ctx x start depth (left + 1) (.invoke name args) chain c →
      Chain.Resolves name chain definition found → args.length = definition.params.length →
        ∃ d, Asks (fun runner => ctx.advance runner (.invoke name args)) (ctx.perform left) c
          (.block definition.body) d
  /-- There is one such definition at most. -/
  unique : ∀ name chain definition other found elsewhere, chain.In program →
    Chain.Resolves name chain definition found → Chain.Resolves name chain other elsewhere →
      definition = other ∧ found = elsewhere
  /-- There is one, with as many parameters, for every call that the check has seen as one of a function. A
  builtin of the target that was checked for may be none of the target that is run for, and then there need
  not be a function of its name. -/
  resolved : ∀ left name args chain c, known name → Executes ctx x start depth left (.invoke name args) chain c →
    chain.Offers name args.length

theorem Run.Begins.lexical {α : Type} {job : Job} (hjob : job.Valid) {x : Runner → Exec α}
    {start : Task → Chain → Prop} (hbegins : Begins job x start) (depth : Nat) {known : String → Prop}
    (hknown : ∀ name, known name → job.ctx.dialect = job.dialect ∨ job.dialect.find? name = none)
    (hexpression : ∀ e chain, ¬start (.expression e) chain)
    (hinvoke : ∀ name args chain, known name → start (.invoke name args) chain → chain.Offers name args.length) :
    Lexical job.ctx job.program x start depth known where
  chain left t c hmoment := hmoment.executes hjob hbegins
  scope left t chain c hexecutes := by
    obtain ⟨visible, hready⟩ := hexecutes.ready hjob hbegins
    obtain ⟨hin, hmirrors, hat⟩ := hready.poised.stands
    exact ⟨hin, hat.nested hmirrors.sound⟩
  call left name args values chain c d hexecutes hbuiltin hvalues :=
    .next hexecutes .callee (call_asks hbuiltin hvalues)
  body left name args chain c u d hexecutes hasks := by
    obtain ⟨visible, hready⟩ := hexecutes.ready hjob hbegins
    obtain ⟨hin, hmirrors, hat⟩ := hready.poised.stands
    rcases hmirrors.lookup hjob.written hin hat name with
      ⟨-, hlookup⟩ | ⟨definition, found, scope, hsome, hlookup, hscope⟩
    · exact absurd (fun _ => Exec.invoke_of_none hlookup) hasks.not_const
    · by_cases hcount : args.length = definition.params.length
      · obtain ⟨rfl, rfl⟩ := (invoke_asks_iff hlookup hcount).mp hasks
        exact ⟨definition, found, scope, Chain.resolves_of_function? hsome, rfl, rfl,
          hscope.nested hmirrors.sound⟩
      · exact absurd (fun _ => Exec.invoke_of_mismatch hlookup hcount) hasks.not_const
  runs left name args chain c definition found hexecutes hresolves hcount := by
    obtain ⟨visible, hready⟩ := hexecutes.ready hjob hbegins
    obtain ⟨hin, hmirrors, hat⟩ := hready.poised.stands
    have hfunction := Chain.function?_of_resolves
      (fun region hregion => Chain.functions_nodup hjob.checked hin hregion) hresolves
    rcases hmirrors.lookup hjob.written hin hat name with
      ⟨hnone, -⟩ | ⟨definition', found', scope, hsome, hlookup, -⟩
    · cases hnone.symm.trans hfunction
    · cases hsome.symm.trans hfunction
      exact ⟨_, (invoke_asks_iff hlookup hcount).mpr ⟨rfl, rfl⟩⟩
  unique name chain definition other found elsewhere hin h h' := by
    have hnodup {region : Region} (hregion : region ∈ chain) :=
      Chain.functions_nodup hjob.checked hin hregion
    cases (Chain.function?_of_resolves (fun _ => hnodup) h).symm.trans
      (Chain.function?_of_resolves (fun _ => hnodup) h')
    exact ⟨rfl, rfl⟩
  resolved left name args chain c hname hexecutes := by
    rcases hexecutes.takes hjob hbegins hexpression with hfirst | ⟨hbuiltin, hchecked⟩
    · exact hinvoke name args chain hname hfirst
    · rcases hknown name hname with hdialect | hfind
      · exact hchecked (hdialect ▸ hbuiltin)
      · exact hchecked hfind

/-- In every run of a program without issues, of the program or of one of its functions, a call runs
the body of the definition that lexical scoping gives its name, inside the scopes around it. There is such
a definition if check and run take the name alike, as they always do when the options keep the target that
was checked for; a call from outside has to be one of a function of the program, with as many words as it
has parameters. -/
theorem calls_resolve_lexically {target : Target} {doc : Option Json} {program : Block}
    (hvalid : Validation.validate target doc = .ok program) (options : Options) (depth : Nat) :
    Run.Lexical (Run.context options) program (Run.outermost (Run.context options) program)
      (Run.Inside program) depth (Run.TakenAlike target options) ∧
    ∀ name args, Run.Lexical (Run.context options) program (Run.entry program name args)
      (Run.Called program name args) depth fun called => Run.TakenAlike target options called ∧
        ∃ f ∈ program.functions, f.name = name ∧ args.length = f.params.length := by
  have hjob : (Run.job target program options False).Valid := Run.job_valid hvalid False.elim
  have hknown (name : String) (h : Run.TakenAlike target options name) :
      (Run.context options).dialect = target.dialect ∨ target.dialect.find? name = none :=
    h.imp (congrArg Target.dialect) id
  refine ⟨(Run.outermost_begins hjob).lexical hjob depth hknown nofun nofun, fun name args => ?_⟩
  refine (Run.entry_begins hjob False.elim).lexical hjob depth (fun called h => hknown called h.1) nofun ?_
  rintro _ _ _ ⟨-, f, hf, rfl, hlength⟩ ⟨hinvoke, rfl⟩
  cases hinvoke
  exact ⟨f, _, .here hf rfl, hlength⟩

theorem calls_resolve_lexically_sample :
    let ctx := Run.context Sample.options
    let entry := Run.entry Sample.program "copy" [7]
    ∃ c d, Executes ctx entry (Run.Called Sample.program "copy" [7]) 20 20 (.invoke "copy" [7])
        [.block Sample.program] c ∧
      Asks (fun runner => ctx.advance runner (.invoke "copy" [7])) (ctx.perform 19) c
        (.block Sample.copy.body) d := by
  intro ctx entry
  let opened : Config := (Exec.enterScope Sample.program.id {}).2
  let declared : Config := (Exec.declareFunctions Sample.program.functions opened).2
  have henter : Exec.enterScope Sample.program.id {} = (.ok (), opened) := rfl
  have hdeclare : Exec.declareFunctions Sample.program.functions opened = (.ok (), declared) := rfl
  have hexecutes : Executes ctx entry (Run.Called Sample.program "copy" [7]) 20 20 (.invoke "copy" [7])
      [.block Sample.program] declared := by
    refine .first ⟨rfl, rfl⟩ ((asksAll_const _).then henter ?_)
    exact (asksAll_const _).then hdeclare (asks_task _ _ _)
  have hresolves : Chain.Resolves "copy" [.block Sample.program] Sample.copy [.block Sample.program] :=
    .here (List.mem_singleton_self _) rfl
  have hlexical := (calls_resolve_lexically Sample.program_valid Sample.options 20).2 "copy" [7]
  obtain ⟨d, hasks⟩ := hlexical.runs 19 _ _ _ _ _ _ hexecutes hresolves rfl
  exact ⟨declared, d, hexecutes, hasks⟩

end BlockIR
