import BlockIR.Execution
import BlockIR.Proofs.Standing

/-! What a task needs, what it owes and where it leads.

A task belongs to a place of the program: it has a lexical chain, and something
is visible there. It is ready when the run stands in that chain, with just the
visible variables bound and no signal pending, and when the task was checked
there. What it owes (`Task.Meets`) refers to the same chain. `Leads` follows the
program text alone: from a task to the parts of it, with the chain of each part,
and from a call to the body of the function that its name stands for. -/
namespace BlockIR

/-! ### Targets -/

mutual
/-- The variables that a block assigns to, anywhere in its text. -/
def Block.targets : Block → List String
  | ⟨_, statements⟩ => Statement.listTargets statements

/-- The variables that statements assign to. -/
def Statement.listTargets : List Statement → List String
  | [] => []
  | s :: rest => s.targets ++ Statement.listTargets rest

/-- The variables that the bodies of cases assign to. -/
def Case.listTargets : List Case → List String
  | [] => []
  | ⟨_, body⟩ :: rest => body.targets ++ Case.listTargets rest

/-- The variables that a statement assigns to, anywhere in its text. -/
def Statement.targets : Statement → List String
  | .assignment targets _ => targets
  | .conditional _ body => body.targets
  | .switch _ cases => Case.listTargets cases
  | .function ⟨_, _, _, body⟩ => body.targets
  | .loop ⟨init, _, post, body⟩ => init.targets ++ post.targets ++ body.targets
  | .block b => b.targets
  | .expression _ | .declaration _ _ | .breakLoop | .continueLoop | .leave => []
end

theorem Block.targets_eq (b : Block) : b.targets = Statement.listTargets b.statements := by
  obtain ⟨id, statements⟩ := b
  rfl

theorem Case.targets_subset {c : Case} {cases : List Case} (h : c ∈ cases) :
    c.body.targets ⊆ Case.listTargets cases := by
  induction cases with
  | nil => cases h
  | cons first rest ih =>
    obtain ⟨value, body⟩ := first
    intro name hname
    unfold Case.listTargets
    rcases List.mem_cons.mp h with rfl | h
    · exact List.mem_append_left _ hname
    · exact List.mem_append_right _ (ih h hname)

/-- The variables that a task assigns to in the activation it is done in. -/
def Task.targets : Task → List String
  | .expression _ | .invoke _ _ => []
  | .statement s => s.targets
  | .block b => b.targets
  | .rounds l => l.post.targets ++ l.body.targets

/-! ### Places -/

/-- The expressions that stand directly in a statement; the value of a case is one. -/
def Statement.expressions : Statement → List Expr
  | .expression e => [e]
  | .assignment _ e => [e]
  | .declaration _ value => value.toList
  | .conditional condition _ => [condition]
  | .switch scrutinee cases => scrutinee :: cases.filterMap fun c => c.value.map .literal
  | _ => []

/-- The expressions that stand directly in a checked statement were checked. -/
theorem Statement.Checked.expression {dialect : Dialect} {visible : Visible} {s : Statement}
    (h : s.Checked dialect visible) {e : Expr} (he : e ∈ s.expressions) : e.Checked dialect visible := by
  have hfits := h.fits
  cases s with
  | expression e' => exact List.mem_singleton.mp he ▸ hfits.1
  | assignment targets e' => exact List.mem_singleton.mp he ▸ hfits.2.1
  | declaration names value => exact (hfits.2.1 e (Option.mem_toList.mp he)).1
  | conditional condition body => exact List.mem_singleton.mp he ▸ hfits.1.1
  | switch scrutinee cases =>
    rcases List.mem_cons.mp he with rfl | he
    · exact hfits.1.1
    · obtain ⟨c, hc, hvalue⟩ := List.mem_filterMap.mp he
      obtain ⟨literal, hliteral, rfl⟩ := Option.map_eq_some_iff.mp hvalue
      exact (hfits.2 c hc).1 literal hliteral
  | _ => cases he

/-- Where a task leads: to its parts, each in its own lexical chain. -/
inductive Leads : Task → Chain → Task → Chain → Prop
  | argument {name : String} {args : List Expr} {e : Expr} {chain : Chain} :
    e ∈ args → Leads (.expression (.call name args)) chain (.expression e) chain
  | callee {name : String} {args : List Expr} {values : List Word} {chain : Chain} :
    Leads (.expression (.call name args)) chain (.invoke name values) chain
  | body {name : String} {args : List Word} {definition : FunctionDefinition} {chain found : Chain} :
    Chain.function? name chain = some (definition, found) →
      Leads (.invoke name args) chain (.block definition.body) found
  | expression {s : Statement} {e : Expr} {chain : Chain} :
    e ∈ s.expressions → Leads (.statement s) chain (.expression e) chain
  | inner {s : Statement} {b : Block} {chain : Chain} :
    .block b ∈ s.regions → Leads (.statement s) chain (.block b) chain
  | front {l : ForLoop} {s : Statement} {chain : Chain} :
    s ∈ l.init.statements → Leads (.statement (.loop l)) chain (.statement s) (.loop l :: chain)
  | begin {l : ForLoop} {chain : Chain} : Leads (.statement (.loop l)) chain (.rounds l) (.loop l :: chain)
  | item {b : Block} {s : Statement} {chain : Chain} :
    s ∈ b.statements → Leads (.block b) chain (.statement s) (.block b :: chain)
  | condition {l : ForLoop} {chain : Chain} : Leads (.rounds l) chain (.expression l.condition) chain
  | round {l : ForLoop} {chain : Chain} : Leads (.rounds l) chain (.block l.body) chain
  | post {l : ForLoop} {chain : Chain} : Leads (.rounds l) chain (.block l.post) chain
  | again {l : ForLoop} {chain : Chain} : Leads (.rounds l) chain (.rounds l) chain

/-! ### Needs -/

/-- The signals that a statement may raise where it stands. -/
def Visible.Admits (visible : Visible) : Signal → Prop
  | .proceed => True
  | .breakLoop | .continueLoop => visible.inLoopBody = true
  | .leave => visible.inFunction = true

/-- A program, the dialect it was checked for, the context it is run in, and whether the run is
known to evaluate what was checked. -/
structure Job where
  program : Block
  dialect : Dialect
  ctx : Context
  Agrees : Prop

/-- The program was read off a document and checked without issues. The run uses some target's
dialect, and that of the check if it agrees. -/
structure Job.Valid (job : Job) : Prop where
  written : job.program.WrittenAt []
  checked : job.program.Checked job.dialect {}
  target : ∃ target : Target, job.ctx.dialect = target.dialect
  agrees : job.Agrees → job.ctx.dialect = job.dialect

/-- A task was checked where it stands. If the run agrees with the check, expressions and calls are
as they were checked. -/
def Task.Fits (job : Job) (visible : Visible) (chain : Chain) : Task → Prop
  | .expression e => job.Agrees → e.Checked job.dialect visible
  | .invoke name args =>
    job.Agrees → ∃ signature, visible.function? name = some signature ∧ args.length = signature.params
  | .statement s =>
    s.Checked job.dialect visible ∧ ∃ region outer, chain = region :: outer ∧ s ∈ region.statements
  | .block b => b.Checked job.dialect visible ∧ .block b ∈ chain.inner job.program
  | .rounds l =>
    l.condition.Single job.dialect visible ∧
      l.body.Checked job.dialect { visible with inLoopBody := true } ∧
      l.post.Checked job.dialect visible ∧ visible.inLoopBody = false ∧ ∃ outer, chain = .loop l :: outer

/-- A run stands in a chain, with just the visible variables bound and no signal pending. -/
structure Config.Poised (job : Job) (visible : Visible) (chain : Chain) (c : Config) : Prop where
  stands : c.Stands job.program chain
  sees : visible.Sees chain
  shows : c.Shows visible
  signal : c.machine.signal = .proceed

/-- A run stands where the task was checked. -/
structure Task.Ready (job : Job) (visible : Visible) (chain : Chain) (t : Task) (c : Config) : Prop where
  poised : c.Poised job visible chain
  fits : t.Fits job visible chain

/-! ### Duties -/

/-- What holds after a task that is done, of its values and of the configuration. -/
def Task.Done (job : Job) (visible : Visible) (values : List Word) (d : Config) : Task → Prop
  | .expression e =>
    d.Shows visible ∧ d.machine.signal = .proceed ∧
      (job.Agrees → ∀ n, e.count? job.dialect visible = some n → n ≠ 0 → values.length = n)
  | .invoke name _ =>
    d.Shows visible ∧ d.machine.signal = .proceed ∧
      (job.Agrees → ∀ signature, visible.function? name = some signature →
        values.length = signature.returns)
  | .statement s => d.Shows (visible.after job.dialect s) ∧ visible.Admits d.machine.signal
  | .block _ | .rounds _ => d.Shows visible ∧ visible.Admits d.machine.signal

/-- Tasks with a scope of their own. -/
def Task.Closed : Task → Prop
  | .block _ | .statement (.loop _) => True
  | _ => False

/-- What doing a task comes to. One with a scope of its own binds nothing, however it ends. -/
structure Task.Meets (job : Job) (visible : Visible) (t : Task) (x : Exec (List Word)) (c : Config) :
    Prop where
  goes : x.Goes job.program job.Agrees t.targets c fun values d => t.Done job visible values d
  closed : t.Closed → c.Still (x c).2

theorem Task.Meets.congr {job : Job} {visible : Visible} {t : Task} {x y : Exec (List Word)} {c : Config}
    (h : t.Meets job visible x c) (hyx : y c = x c) : t.Meets job visible y c where
  goes := Effect.Ends.of_eq hyx h.goes
  closed ht := by
    rw [hyx]
    exact h.closed ht

end BlockIR
