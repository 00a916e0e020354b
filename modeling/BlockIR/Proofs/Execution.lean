import BlockIR.Proofs.Flow
import BlockIR.Proofs.Moment

/-! Whole runs of checked programs.

Every task that is ready meets its duty, at any depth (`perform_meets`). Each
moment of a run is ready in a lexical chain that follows the program text from
where the run begins (`Executes`, `Executes.ready`). That a part asks only for
tasks that are ready is shown by a trap: were another runner to fail in a place
that is not ready, with an error that no task may end in, the part would still
meet its duty, and so it has never asked there (`Asks.ready`). -/
namespace BlockIR

open FunctionDefinition (named?)

variable {job : Job} {runner : Runner} {visible : Visible} {chain inner : Chain} {c d : Config}
  {t u : Task} {α : Type} {x : Runner → Exec α} {depth left : Nat}

/-! ### Duties at any depth -/

/-- A task that is ready meets its duty if those that it leads to do. -/
theorem advance_meets (hjob : job.Valid) (h : t.Ready job visible chain c)
    (hrunner : runner.Serves job chain t) : t.Meets job visible (job.ctx.advance runner t) c := by
  cases t with
  | expression e => exact ⟨expression_goes h.poised hjob hrunner h.fits, nofun⟩
  | invoke name args => exact ⟨invoke_goes hjob h.poised h.fits hrunner, nofun⟩
  | statement s => exact statement_meets hjob h hrunner
  | block b => exact block_meets hjob h hrunner
  | rounds l => exact rounds_meets h hrunner

theorem perform_meets (hjob : job.Valid) (depth : Nat) (h : t.Ready job visible chain c) :
    t.Meets job visible (job.ctx.perform depth t) c := by
  induction depth generalizing t visible chain c with
  | zero =>
    refine ⟨?_, fun _ name hname => hname⟩
    exact Exec.goes_fails h.poised.mirrors rfl trivial
  | succ depth ih => exact advance_meets hjob h fun u inner visible _ c hu => ih hu

theorem perform_does (hjob : job.Valid) (depth : Nat) : (job.ctx.perform depth).Does job visible chain t :=
  fun _ h => perform_meets hjob depth h

/-! ### What is asked for -/

/-- The text says in which chain a task leads to another one. -/
theorem Leads.unique {v : Task} {other : Chain} (h : Leads t chain u inner) (h' : Leads t chain v other)
    (hsame : u = v) : inner = other := by
  cases h with
  | body hsome =>
    cases h' with
    | body hsome' =>
      cases hsome.symm.trans hsome'
      rfl
  | _ => cases h' <;> first | rfl | cases hsame

/-- A part that keeps to what it may end in, whenever the tasks in `L` do, asks only for tasks in
`L` that are ready. -/
theorem Asks.ready {L : Task → Chain → Prop}
    (hx : ∀ runner : Runner, (∀ v inner visible, L v inner → runner.Does job visible inner v) →
      ∀ stop, (x runner c).1 = .error stop → stop.Allowed job.Agrees)
    (hrunner : ∀ v inner visible, L v inner → runner.Does job visible inner v)
    (h : Asks x runner c u d) : ∃ inner visible, L u inner ∧ u.Ready job visible inner d := by
  refine Classical.byContradiction fun hnone => ?_
  have htrap : ∀ v inner visible, L v inner →
      (runner.failingAt u d (.failed .scopeUnderflow)).Does job visible inner v := by
    intro v inner visible hv e hready
    have helse : ¬(v = u ∧ e = d) := by
      rintro ⟨rfl, rfl⟩
      exact hnone ⟨inner, visible, hv, hready⟩
    exact (hrunner v inner visible hv e hready).congr (if_neg helse)
  exact (hx _ htrap _ (h.failingAt _)).1 rfl

/-- A task that is ready asks for tasks that are ready, where it leads. -/
theorem Task.Ready.asks (hjob : job.Valid) (h : t.Ready job visible chain c)
    (hasks : Asks (fun runner => job.ctx.advance runner t) (job.ctx.perform left) c u d) :
    ∃ inner visible, Leads t chain u inner ∧ u.Ready job visible inner d := by
  refine hasks.ready (fun runner hrunner stop hstop => ?_) fun _ _ _ _ => perform_does hjob left
  have hgoes := (advance_meets hjob h hrunner).goes.2
  rw [hstop] at hgoes
  exact hgoes

/-! ### Lexical runs -/

/-- The moments of a run with their lexical chains: the run begins with a task in `start`, and what a
task asks for stands where the task leads. -/
inductive Executes (ctx : Context) (x : Runner → Exec α) (start : Task → Chain → Prop) (depth : Nat) :
    Nat → Task → Chain → Config → Prop
  | first {u : Task} {inner : Chain} {d : Config} : start u inner → Asks x (ctx.perform depth) {} u d →
    Executes ctx x start depth depth u inner d
  | next {left : Nat} {t u : Task} {chain inner : Chain} {c d : Config} :
    Executes ctx x start depth (left + 1) t chain c → Leads t chain u inner →
      Asks (fun runner => ctx.advance runner t) (ctx.perform left) c u d →
        Executes ctx x start depth left u inner d

/-- A run begins with tasks in `start`, and keeps to what it may end in if they do. -/
structure Run.Begins (job : Job) (x : Runner → Exec α) (start : Task → Chain → Prop) : Prop where
  ends : ∀ runner : Runner, (∀ u inner visible, start u inner → runner.Does job visible inner u) →
    ∀ stop, (x runner {}).1 = .error stop → stop.Allowed job.Agrees
  unique : ∀ u inner other, start u inner → start u other → inner = other

section Runs
variable {start : Task → Chain → Prop} (hjob : job.Valid) (hbegins : Run.Begins job x start)
include hjob hbegins

/-- A run of a checked program ends in a value or in an outcome. -/
theorem Run.Begins.allowed (depth : Nat) {stop : Stop} (h : (x (job.ctx.perform depth) {}).1 = .error stop) :
    stop.Allowed job.Agrees :=
  hbegins.ends _ (fun _ _ _ _ => perform_does hjob depth) stop h

/-- Every moment is ready in its lexical chain. -/
theorem Executes.ready (h : Executes job.ctx x start depth left t chain c) :
    ∃ visible, t.Ready job visible chain c := by
  induction h with
  | first hstart hasks =>
    obtain ⟨inner, visible, hstart', hready⟩ := hasks.ready hbegins.ends
      fun _ _ _ _ => perform_does hjob depth
    obtain rfl := hbegins.unique _ _ _ hstart hstart'
    exact ⟨visible, hready⟩
  | next _ hleads hasks ih =>
    obtain ⟨visible, hready⟩ := ih
    obtain ⟨inner, later, hleads', hready'⟩ := hready.asks hjob hasks
    obtain rfl := hleads.unique hleads' rfl
    exact ⟨later, hready'⟩

/-- Every moment has a lexical chain. -/
theorem Moment.executes (h : Moment job.ctx x depth left t c) :
    ∃ chain, Executes job.ctx x start depth left t chain c := by
  induction h with
  | first hasks =>
    obtain ⟨inner, visible, hstart, -⟩ := hasks.ready hbegins.ends
      fun _ _ _ _ => perform_does hjob depth
    exact ⟨inner, .first hstart hasks⟩
  | next _ hasks ih =>
    obtain ⟨chain, hexecutes⟩ := ih
    obtain ⟨visible, hready⟩ := hexecutes.ready hjob hbegins
    obtain ⟨inner, later, hleads, -⟩ := hready.asks hjob hasks
    exact ⟨inner, .next hexecutes hleads hasks⟩

/-- Every moment is ready somewhere in the program. -/
theorem Moment.ready (h : Moment job.ctx x depth left t c) :
    ∃ chain visible, t.Ready job visible chain c := by
  obtain ⟨chain, hexecutes⟩ := h.executes hjob hbegins
  exact ⟨chain, hexecutes.ready hjob hbegins⟩

end Runs

/-! ### Beginnings -/

/-- A run begins at the root, where nothing is visible. -/
theorem Config.poised_start (job : Job) : Config.Poised job {} [] {} where
  stands := ⟨trivial, mirrors_start _, ScopeArena.At.root⟩
  sees _ := rfl
  shows name := by simp [Visible.isVariable]
  signal := rfl

namespace Run

/-- What a program executes stands in its block. -/
def Inside (program : Block) : Task → Chain → Prop := Leads (.block program) []

/-- What is called from outside is looked up in the block of the program. -/
def Called (program : Block) (name : String) (args : List Word) (t : Task) (chain : Chain) : Prop :=
  t = .invoke name args ∧ chain = [.block program]

theorem outermost_ends (hjob : job.Valid)
    (hrunner : ∀ u inner visible, Inside job.program u inner → runner.Does job visible inner u) :
    Effect.Ends (outermost job.ctx job.program runner) {} fun r d =>
      Config.Follows job.program job.program.targets {} d ∧ Config.Still {} d ∧
        match r with
        | .ok table => ∀ name, name ∈ table ↔ name ∈ job.program.statements.flatMap Statement.names
        | .error stop => stop.Allowed job.Agrees := by
  have hfits : (Task.block job.program).Fits job {} [] := ⟨hjob.checked, List.mem_singleton_self _⟩
  have hends := block_ends hjob (Config.poised_start job) hfits
    (fun s hs visible => hrunner _ _ visible (.item hs)) fun config => config.activation.bindings
  refine Effect.Ends.mono hends fun r d hd => ⟨hd.1, hd.2.1, ?_⟩
  obtain ⟨hfollows, hstill, hresult⟩ := hd
  cases r with
  | error stop => exact hresult
  | ok table =>
    obtain ⟨before, ⟨rfl, hadmits, hshows⟩, -⟩ := hresult
    -- No signal can be pending where neither a loop nor a function is around.
    have hsignal : before.machine.signal = .proceed :=
      hadmits.proceed rfl fun hleave => by rw [hleave] at hadmits; cases hadmits
    intro name
    have hchecked : (Region.block job.program).Checked job.dialect {} := hjob.checked
    have hadds := hchecked.statements.adds.1
    refine (hshows hsignal name).trans ((hadds.vars name).trans ?_)
    rw [Region.isVariable_inside]
    simp [Visible.isVariable, Region.statements]

/-- A run that is finished gives the variables that the program's own statements declare. -/
theorem outermost_names (hjob : job.Valid) {table : Variables}
    (h : (outermost job.ctx job.program (job.ctx.perform depth) {}).1 = .ok table) (name : String) :
    name ∈ table ↔ name ∈ job.program.statements.flatMap Statement.names := by
  obtain ⟨-, -, hresult⟩ := outermost_ends hjob fun _ _ _ _ => perform_does hjob depth
  rw [h] at hresult
  exact hresult name

theorem outermost_begins (hjob : job.Valid) :
    Begins job (outermost job.ctx job.program) (Inside job.program) where
  ends runner hrunner stop hstop := by
    obtain ⟨-, -, hresult⟩ := outermost_ends hjob hrunner
    rw [hstop] at hresult
    exact hresult
  unique _ _ _ h h' := h.unique h' rfl

/-- A function is called from outside in the scope of the program's block. -/
theorem entry_opens (hjob : job.Valid) (name : String) (args : List Word) :
    ∃ d, Config.Opens job.program [] (.block job.program) {} d ∧
      ∀ runner, entry job.program name args runner {} = runner (.invoke name args) d := by
  obtain ⟨entered, d, henter, hdeclare, hopens⟩ := (Config.poised_start job).stands.opens hjob.written
    (List.mem_singleton_self (Region.block job.program)) hjob.checked.functions.2
  exact ⟨d, hopens, fun runner => (Effect.bind_of_ok henter).trans (Effect.bind_of_ok hdeclare)⟩

theorem entry_ready (hjob : job.Valid) {name : String} {args : List Word}
    (hcall : job.Agrees → ∃ f ∈ job.program.functions, f.name = name ∧ args.length = f.params.length)
    (hopens : Config.Opens job.program [] (.block job.program) {} d) :
    (Task.invoke name args).Ready job ((Region.block job.program).inside job.dialect {})
      [.block job.program] d := by
  have hchecked : (Region.block job.program).Checked job.dialect {} := hjob.checked
  have hpoised := hopens.poised (Config.poised_start job) hchecked
  refine ⟨hpoised, fun hagree => ?_⟩
  obtain ⟨f, hf, rfl, hlength⟩ := hcall hagree
  have hnamed : named? f.name (Region.block job.program).functions = some f :=
    FunctionDefinition.named?_of_mem hjob.checked.functions.2 hf
  refine ⟨f.signature, ?_, hlength⟩
  rw [hpoised.sees, Chain.function?_of_some hnamed]
  rfl

theorem entry_begins (hjob : job.Valid) {name : String} {args : List Word}
    (hcall : job.Agrees → ∃ f ∈ job.program.functions, f.name = name ∧ args.length = f.params.length) :
    Begins job (entry job.program name args) (Called job.program name args) where
  ends runner hrunner stop hstop := by
    obtain ⟨d, hopens, hentry⟩ := entry_opens hjob name args
    have hresult := (hrunner _ _ _ ⟨rfl, rfl⟩ d (entry_ready hjob hcall hopens)).goes.2
    rw [hentry] at hstop
    rw [hstop] at hresult
    exact hresult
  unique _ _ _ h h' := h.2.trans h'.2.symm

end Run
end BlockIR
