import BlockIR.Proofs.Ends
import BlockIR.Validation.Walk

/-! The walk never breaks down, and finds the issues of the program.

Every part of the walk comes back to where it started: the path is what it was, the
tables are those of before but for the variables that a declaration adds, and the
issues found are those of the part (`Walker.Finds`). So on every program the steps
pushed and popped balance, whatever is wrong with it, and no table is ever missing
(`walk_eq_validate`). -/
namespace BlockIR
namespace Validation

namespace Walk

/-- Further on, with other things visible and more issues found. -/
def onward (walk : Walk) (visible : Visible) (issues : List Issue) : Walk :=
  { walk with visible := visible, found := walk.found ++ issues }

/-- Further down. -/
def down (walk : Walk) (steps : Place) : Walk := { walk with path := walk.path ++ steps }

theorem path_down_item (walk : Walk) (name : String) (position : Nat) :
    (walk.down [.field name, .index position]).path = walk.path.item name position := by
  simp [Place.item, Place.field, Place.index, down]

theorem onward_onward (walk : Walk) (visible later : Visible) (issues more : List Issue) :
    (walk.onward visible issues).onward later more = walk.onward later (issues ++ more) := by
  simp only [onward, List.append_assoc]

end Walk

namespace Walker
variable {α β : Type} {walk : Walk} {visible later : Visible} {issues more : List Issue}

/-- The part ends with a value where it began, but for what is visible and for the issues found. -/
def Finds (x : Walker α) (walk : Walk) (a : α) (visible : Visible) (issues : List Issue) : Prop :=
  x walk = (.ok a, walk.onward visible issues)

theorem finds_pure (a : α) (walk : Walk) : Finds (pure a) walk a walk.visible [] := by
  simp [Finds, Walk.onward]

theorem finds_report (flaw : Flaw) (walk : Walk) : Finds (report flaw) walk () walk.visible [⟨walk.path, flaw⟩] := rfl

theorem Finds.bind {x : Walker α} {f : α → Walker β} {a : α} {b : β} (hx : Finds x walk a visible issues)
    (hf : Finds (f a) (walk.onward visible issues) b later more) :
    Finds (x >>= f) walk b later (issues ++ more) := by
  unfold Finds at hf ⊢
  rw [Effect.bind_of_ok hx, hf, Walk.onward_onward]

theorem Finds.congr {x : Walker α} {a : α} (h : Finds x walk a visible issues) (heq : issues = more) :
    Finds x walk a visible more := heq ▸ h

/-- Looking at what is visible leaves it as it is. -/
theorem Finds.looking {f : Visible → Walker β} {b : β} (h : Finds (f walk.visible) walk b later more) :
    Finds (Walker.visible >>= f) walk b later more := h

theorem finds_see (change : Visible → Visible) (walk : Walk) :
    Finds (see change) walk () (change walk.visible) [] := by
  simp [Finds, see, Walk.onward]

theorem Finds.seeing {change : Visible → Visible} {x : Walker β} {b : β}
    (h : Finds x (walk.onward (change walk.visible) []) b later more) :
    Finds (see change >>= fun _ => x) walk b later more := (finds_see change walk).bind h

/-- A part after which what is visible is changed. -/
theorem Finds.leaving {x : Walker α} {change : Visible → Visible} {a : α} (h : Finds x walk a visible issues)
    (heq : change visible = later) : Finds (x >>= fun _ => see change) walk () later issues :=
  heq ▸ (h.bind (finds_see change _)).congr (List.append_nil issues)

/-- A value given at the end. -/
theorem Finds.giving {x : Walker α} {a : α} {b : β} (h : Finds x walk a visible issues) :
    Finds (x >>= fun _ => pure b) walk b visible issues :=
  (h.bind (finds_pure b _)).congr (List.append_nil issues)

/-- What is pushed is popped again. -/
theorem Finds.inside {x : Walker α} {a : α} {steps : Place} (h : Finds x (walk.down steps) a visible issues) :
    Finds (Walker.inside steps x) walk a visible issues := by
  unfold Finds at h ⊢
  show (x >>= fun a => pop steps.length >>= fun _ => pure a) (walk.down steps) = _
  rw [Effect.bind_of_ok h]
  simp [pop, Effect.bind_apply, Walk.onward, Walk.down]

/-- A report on a condition. -/
theorem finds_demand (condition : Prop) [Decidable condition] (flaw : Flaw) (walk : Walk) :
    Finds (demand condition flaw) walk () walk.visible (if condition then [] else [⟨walk.path, flaw⟩]) := by
  unfold demand
  split
  · exact finds_pure () walk
  · exact finds_report flaw walk

variable (dialect : Dialect)

/-- What is wrong with declaring a name at a place. -/
def objections (visible : Visible) (place : Place) (name : String) : List Issue :=
  ((visible.objection? dialect name).map fun flaw => Issue.mk place flaw).toList

theorem finds_fresh (name : String) (walk : Walk) :
    Finds (fresh dialect name) walk (walk.visible.objection? dialect name).isNone walk.visible
      (objections dialect walk.visible walk.path name) := by
  apply Finds.looking
  unfold objections
  cases walk.visible.objection? dialect name with
  | none => exact finds_pure true walk
  | some flaw => exact (finds_report flaw walk).giving

/-! ### Expressions -/

theorem finds_literal (l : Literal) (walk : Walk) :
    Finds (literal l) walk l.read.toOption walk.visible (l.issues walk.path) := by
  unfold literal Literal.value Literal.issues
  cases l.read with
  | ok word => exact finds_pure _ walk
  | error fault => exact (finds_report _ walk).giving

theorem finds_expect (e : Expr) (expected : Nat) (flaw : Nat → Flaw) (walk : Walk) :
    Finds (expect (e.count? dialect walk.visible) expected flaw) walk () walk.visible
      (e.countIssues dialect walk.visible walk.path expected flaw) := by
  unfold expect Expr.countIssues
  cases e.count? dialect walk.visible with
  | none => exact finds_pure () walk
  | some n => exact finds_demand _ (flaw n) walk

theorem finds_callee (name : String) (args : List Expr) (walk : Walk) :
    Finds (match dialect.find? name with
      | some builtin => do
        demand (builtin.arity = .exactly args.length) (.argumentCount name builtin.arity args.length)
        pure (some (if builtin.returnsValue then 1 else 0))
      | none => do
        let visible ← Walker.visible
        match visible.function? name with
        | some signature =>
          demand (signature.params = args.length) (.argumentCount name (.exactly signature.params) args.length)
          pure (some signature.returns)
        | none =>
          report (.unknownFunction name)
          pure none) walk ((Expr.call name args).count? dialect walk.visible) walk.visible
      (Expr.calleeIssues dialect walk.visible walk.path name args.length) := by
  simp only [Expr.count?, Expr.calleeIssues]
  cases dialect.find? name with
  | some builtin => exact (finds_demand _ _ walk).giving
  | none =>
    apply Finds.looking
    cases walk.visible.function? name with
    | none => exact (finds_report _ walk).giving
    | some signature =>
      have hparams : Arity.exactly signature.params = .exactly args.length ↔ signature.params = args.length :=
        ⟨Arity.exactly.inj, congrArg _⟩
      simp only [Option.map_some, hparams]
      exact (finds_demand _ _ walk).giving

mutual
/-- The walk over an expression. -/
theorem finds_expression (e : Expr) (walk : Walk) :
    Finds (expression dialect e) walk (e.count? dialect walk.visible) walk.visible
      (e.issues dialect walk.visible walk.path) := by
  match e with
  | .literal l =>
    rw [expression, Expr.issues]
    exact (finds_literal l walk).giving
  | .identifier name =>
    rw [expression, Expr.issues]
    exact Finds.looking (finds_demand _ _ walk).giving
  | .call name args =>
    rw [expression, Expr.issues]
    exact (finds_arguments name 0 args walk).bind (finds_callee dialect name args _)

/-- The walk over the arguments of a call. -/
theorem finds_arguments (callee : String) (position : Nat) (args : List Expr) (walk : Walk) :
    Finds (arguments dialect callee position args) walk () walk.visible
      (Expr.argumentIssues dialect walk.visible walk.path callee position args) := by
  match args with
  | [] => exact finds_pure () walk
  | e :: rest =>
    rw [arguments, Expr.argumentIssues]
    refine Finds.bind (Finds.inside (a := ()) ?_) (finds_arguments callee (position + 1) rest _)
    rw [← Walk.path_down_item]
    split
    · exact finds_demand _ _ _
    · exact (finds_expression e _).bind
        (finds_expect dialect e 1 (.notSingle .argument) ((walk.down _).onward walk.visible _))
end

/-- An expression that has to yield so many values. -/
theorem finds_counted (e : Expr) (expected : Nat) (flaw : Nat → Flaw) (walk : Walk) :
    Finds (expression dialect e >>= fun count => expect count expected flaw) walk () walk.visible
      (e.issues dialect walk.visible walk.path ++ e.countIssues dialect walk.visible walk.path expected flaw) :=
  (finds_expression dialect e walk).bind (finds_expect dialect e expected flaw (walk.onward walk.visible _))

theorem finds_single (role : Role) (e : Expr) (walk : Walk) :
    Finds (single dialect role e) walk () walk.visible (e.singleIssues dialect walk.visible walk.path role) :=
  finds_counted dialect e 1 (.notSingle role) walk

theorem finds_valueCount (expected : Nat) (e : Expr) (walk : Walk) :
    Finds (valueCount dialect expected e) walk () walk.visible
      (e.issues dialect walk.visible (walk.path.field "value") ++
        e.countIssues dialect walk.visible (walk.path.field "value") expected (.valueCount expected)) :=
  Finds.inside (finds_counted dialect e expected (.valueCount expected) _)

/-! ### Names -/

/-- A target that is no variable. -/
theorem finds_target (name : String) (walk : Walk) :
    Finds (if (walk.visible.function? name).isSome && !walk.visible.isVariable name then report (.assignedFunction name)
        else demand (walk.visible.isVariable name) (.assignedUndeclared name)) walk () walk.visible
      (if walk.visible.isVariable name then []
        else if (walk.visible.function? name).isSome then [⟨walk.path, .assignedFunction name⟩]
        else [⟨walk.path, .assignedUndeclared name⟩]) := by
  rcases hvariable : walk.visible.isVariable name with _ | _
  · rcases (walk.visible.function? name).isSome with _ | _
    · exact finds_report _ walk
    · exact finds_report _ walk
  · rw [Bool.not_true, Bool.and_false]
    exact finds_pure () walk

theorem finds_targets (seen : List String) (position : Nat) (names : List String) (walk : Walk) :
    Finds (targets seen position names) walk () walk.visible
      (walk.visible.targetIssues walk.path seen position names) := by
  induction names generalizing seen position walk with
  | nil => exact finds_pure () walk
  | cons name rest ih =>
    rw [targets, Visible.targetIssues]
    refine Finds.bind (Finds.inside (a := ()) ?_) (ih (name :: seen) (position + 1) _)
    rw [← Walk.path_down_item]
    have hseen := finds_demand (name ∉ seen) (.assignedTwice name) (walk.down [.field "targets", .index position])
    refine Finds.bind (hseen.congr ?_) (Finds.looking ?_)
    · by_cases h : name ∈ seen <;> simp [h]
    · exact finds_target name ((walk.down _).onward walk.visible _)

/-- A name that is declared if it is fresh. -/
theorem finds_declare (name : String) (change : Visible → Visible) (walk : Walk) :
    Finds (declare dialect name change) walk ()
      (if (walk.visible.objection? dialect name).isSome then walk.visible else change walk.visible)
      (objections dialect walk.visible walk.path name) := by
  refine ((finds_fresh dialect name walk).bind ?_).congr (List.append_nil _)
  cases walk.visible.objection? dialect name with
  | none => exact Finds.seeing (finds_pure () _)
  | some flaw => exact finds_pure () _

theorem finds_names (position : Nat) (list : List String) (walk : Walk) :
    Finds (names dialect position list) walk () (walk.visible.declareAll dialect list)
      (walk.visible.declarationIssues dialect walk.path position list) := by
  induction list generalizing position walk with
  | nil => exact finds_pure () walk
  | cons name rest ih =>
    rw [names, Visible.declarationIssues, Visible.declareAll, List.foldl_cons, ← Walk.path_down_item]
    exact (Finds.inside (finds_declare dialect name _ _)).bind (ih (position + 1) _)

/-- The table of a function holds its parameters and returns alone. -/
theorem isVariable_enterFunction (outer : Visible) (locals : List String) (name : String) :
    (outer.enterFunction locals).isVariable name = locals.contains name := by
  simp [Visible.isVariable, Visible.enterFunction]

theorem finds_newLocal (outer : Visible) (declared : List String) (name : String) (walk : Walk)
    (h : walk.visible = outer.enterFunction declared) :
    Finds (newLocal dialect name) walk () (outer.enterFunction (outer.addLocal dialect declared name))
      (if declared.contains name then [⟨walk.path, .duplicateLocal name⟩]
        else objections dialect (outer.enterFunction declared) walk.path name) := by
  apply Finds.looking
  rw [h, isVariable_enterFunction, Visible.addLocal]
  rcases declared.contains name with _ | _
  · have hdeclare := finds_declare dialect name (fun visible => visible.addVariable name) walk
    rw [h] at hdeclare
    refine Eq.trans hdeclare ?_
    rcases (outer.enterFunction declared).objection? dialect name with _ | _ <;> rfl
  · exact h ▸ finds_report _ walk

theorem finds_locals (outer : Visible) (declared list : List String) (walk : Walk)
    (h : walk.visible = outer.enterFunction declared) :
    Finds (locals dialect list) walk ()
      (outer.enterFunction (list.foldl (fun names name => outer.addLocal dialect names name) declared))
      (outer.localIssues dialect walk.path declared list) := by
  induction list generalizing declared walk with
  | nil => exact h ▸ finds_pure () walk
  | cons name rest ih => exact (finds_newLocal dialect outer declared name walk h).bind (ih _ _ rfl)

/-- In a block with a table of its own a name is as fresh as around it, unless it is in the table. -/
theorem objection?_enterBlock (outer : Visible) {table : FunctionTable} {name : String}
    (h : (table.lookup name).isSome = false) :
    (outer.enterBlock table).objection? dialect name = outer.objection? dialect name := by
  have hnone : table.lookup name = none := by simpa using h
  have hfunction : (outer.enterBlock table).function? name = outer.function? name := by
    unfold Visible.function? Visible.enterBlock
    rw [List.findSome?_cons, hnone]
  have hvariable : (outer.enterBlock table).isVariable name = outer.isVariable name := by
    simp [Visible.isVariable, Visible.enterBlock]
  unfold Visible.objection?
  rw [hfunction, hvariable]

theorem finds_newFunction (outer : Visible) (table : FunctionTable) (definition : FunctionDefinition) (walk : Walk)
    (h : walk.visible = outer.enterBlock table) :
    Finds (newFunction dialect definition) walk () (outer.enterBlock (outer.define dialect table definition))
      (if (table.lookup definition.name).isSome then [⟨walk.path, .duplicateFunction definition.name⟩]
        else objections dialect outer walk.path definition.name) := by
  apply Finds.looking
  rw [h, Visible.define]
  show Finds (if (table.lookup definition.name).isSome then _ else _) _ _ _ _
  rcases hlookup : (table.lookup definition.name).isSome with _ | _
  · have hdeclare := finds_declare dialect definition.name (addFunction definition) walk
    rw [h] at hdeclare
    unfold objections at hdeclare ⊢
    rw [objection?_enterBlock dialect outer hlookup] at hdeclare
    refine Eq.trans hdeclare ?_
    rcases outer.objection? dialect definition.name with _ | _ <;> rfl
  · exact h ▸ finds_report _ walk

theorem finds_functions (outer : Visible) (position : Nat) (table : FunctionTable) (list : List Statement) (walk : Walk)
    (h : walk.visible = outer.enterBlock table) :
    Finds (functions dialect position list) walk ()
      (outer.enterBlock ((Statement.functions list).foldl (fun table f => outer.define dialect table f) table))
      (outer.functionIssues dialect walk.path table position list) := by
  induction list generalizing position table walk with
  | nil => exact h ▸ finds_pure () walk
  | cons s rest ih =>
    cases s with
    | function definition =>
      rw [functions, Visible.functionIssues, ← Walk.path_down_item]
      exact (Finds.inside (finds_newFunction dialect outer table definition _ h)).bind (ih _ _ _ rfl)
    | _ => exact ih (position + 1) table walk h

/-! ### Statements -/

theorem finds_caseValue (isLast : Bool) (seen : List Word) (value : Option Literal) (walk : Walk) :
    Finds (caseValue isLast seen value) walk (Case.addValue seen value) walk.visible
      (Case.valueIssues walk.path isLast seen value) := by
  cases value with
  | none => exact (finds_demand _ _ walk).giving
  | some l =>
    refine (finds_literal l walk).bind ?_
    dsimp only [Case.addValue]
    cases l.read with
    | ok word =>
      refine ((finds_demand (word ∉ seen) (.duplicateCase l.text) _).giving).congr ?_
      by_cases h : word ∈ seen <;> simp [h, Walk.onward]
    | error fault => exact finds_pure seen (walk.onward walk.visible _)

/-- Nothing else differs than the innermost table of variables, and there is one. -/
structure Innermost (visible later : Visible) : Prop where
  functions : later.functions = visible.functions
  outer : later.vars.tail = visible.vars.tail
  inLoopBody : later.inLoopBody = visible.inLoopBody
  inFunction : later.inFunction = visible.inFunction
  table : later.vars ≠ []

namespace Innermost

theorem refl (h : visible.vars ≠ []) : Innermost visible visible := ⟨rfl, rfl, rfl, rfl, h⟩

theorem trans {last : Visible} (h : Innermost visible later) (h' : Innermost later last) : Innermost visible last :=
  ⟨h'.functions.trans h.functions, h'.outer.trans h.outer, h'.inLoopBody.trans h.inLoopBody,
    h'.inFunction.trans h.inFunction, h'.table⟩

theorem declare (h : visible.vars ≠ []) (name : String) : Innermost visible (visible.declare dialect name) := by
  obtain ⟨functions, vars, inLoopBody, inFunction⟩ := visible
  obtain ⟨inner, outer, rfl⟩ := List.exists_cons_of_ne_nil h
  unfold Visible.declare
  split
  · exact refl h
  · exact ⟨rfl, rfl, rfl, rfl, List.cons_ne_nil _ _⟩

theorem declareAll (h : visible.vars ≠ []) (names : List String) :
    Innermost visible (visible.declareAll dialect names) := by
  induction names generalizing visible with
  | nil => exact refl h
  | cons name rest ih => exact (declare dialect h name).trans (ih (declare dialect h name).table)

theorem after (h : visible.vars ≠ []) (s : Statement) : Innermost visible (visible.after dialect s) := by
  cases s with
  | declaration names _ => exact declareAll dialect h names
  | _ => exact refl h

theorem afterAll (h : visible.vars ≠ []) (list : List Statement) :
    Innermost visible (visible.afterAll dialect list) := by
  induction list generalizing visible with
  | nil => exact refl h
  | cons s rest ih => exact (after dialect h s).trans (ih (after dialect h s).table)

/-- A block takes its tables with it. -/
theorem leaveBlock {outer : Visible} {table : FunctionTable} (h : Innermost (outer.enterBlock table) later) :
    { later with functions := later.functions.tail, vars := later.vars.tail } = outer := by
  rw [h.functions, h.outer, h.inLoopBody, h.inFunction]
  rfl

/-- So does a loop, and it restores the flag. -/
theorem leaveLoop {outer : Visible} (h : Innermost outer.enterLoop later) :
    { later with inLoopBody := outer.inLoopBody, vars := later.vars.tail } = outer := by
  rw [h.functions, h.outer, h.inFunction]
  rfl

/-- The flag is that of the statements in front of a loop again after the body. -/
theorem leaveBody {outer : Visible} (h : Innermost outer.enterLoop later) :
    { { later with inLoopBody := true } with inLoopBody := false } = later := by
  have hflag : later.inLoopBody = false := h.inLoopBody
  rw [← hflag]

end Innermost

theorem finds_initialValue (expected : Nat) (value : Option Expr) (walk : Walk) :
    Finds (initialValue dialect expected value) walk () walk.visible
      (match value with
        | some e =>
          e.issues dialect walk.visible (walk.path.field "value") ++
            e.countIssues dialect walk.visible (walk.path.field "value") expected (.valueCount expected)
        | none => []) := by
  cases value with
  | none => exact finds_pure () walk
  | some e => exact finds_valueCount dialect expected e walk

/-- In a block there is a table to declare variables in. -/
theorem finds_needTable (walk : Walk) (h : walk.visible.vars ≠ []) : Finds needTable walk () walk.visible [] := by
  apply Finds.looking
  rw [if_neg (by simpa using h)]
  exact finds_pure () walk

theorem initial_cons {position : Nat} {s : Statement} {rest : List Statement} (hs : ∀ f, s ≠ .function f) :
    initial dialect position (s :: rest) =
      inside [.field "statements", .index position] (statement dialect s) >>= fun _ =>
        initial dialect (position + 1) rest := by
  cases s with
  | function f => exact absurd rfl (hs f)
  | _ => rfl

theorem initIssues_cons {place : Place} {position : Nat} {s : Statement} {rest : List Statement}
    (hs : ∀ f, s ≠ .function f) :
    Statement.initIssues dialect visible place position (s :: rest) =
      s.issues dialect visible (place.item "statements" position) ++
        Statement.initIssues dialect (visible.after dialect s) place (position + 1) rest := by
  cases s with
  | function f => exact absurd rfl (hs f)
  | _ => rfl

mutual
/-- The walk over a block. -/
theorem finds_block (b : Block) (walk : Walk) :
    Finds (block dialect b) walk () walk.visible (b.issues dialect walk.visible walk.path) := by
  match b with
  | ⟨_, body⟩ =>
    rw [block, Block.issues]
    refine Finds.seeing ((finds_functions dialect walk.visible 0 [] body _ rfl).bind ?_)
    have htable : (walk.visible.enterBlock (walk.visible.table dialect body)).vars ≠ [] := List.cons_ne_nil _ _
    have hinner := Innermost.afterAll dialect htable body
    exact Finds.leaving (finds_statements 0 body _ htable) hinner.leaveBlock

/-- The walk over statements. -/
theorem finds_statements (position : Nat) (list : List Statement) (walk : Walk) (h : walk.visible.vars ≠ []) :
    Finds (statements dialect position list) walk () (walk.visible.afterAll dialect list)
      (Statement.listIssues dialect walk.visible walk.path position list) := by
  match list with
  | [] =>
    rw [statements, Statement.listIssues]
    exact finds_pure () walk
  | s :: rest =>
    rw [statements, Statement.listIssues, ← Walk.path_down_item]
    exact (Finds.inside (finds_statement s _ h)).bind
      (finds_statements (position + 1) rest _ (Innermost.after dialect h s).table)

/-- The walk over the statements in front of a loop. -/
theorem finds_initial (position : Nat) (list : List Statement) (walk : Walk) (h : walk.visible.vars ≠ []) :
    Finds (initial dialect position list) walk () (walk.visible.afterAll dialect list)
      (Statement.initIssues dialect walk.visible walk.path position list) := by
  match list with
  | [] =>
    rw [initial, Statement.initIssues]
    exact finds_pure () walk
  | s :: rest =>
    by_cases hs : ∃ f, s = .function f
    · obtain ⟨f, rfl⟩ := hs
      rw [initial, Statement.initIssues, ← Walk.path_down_item]
      exact (Finds.inside (finds_report _ _)).bind (finds_initial (position + 1) rest _ h)
    · have hnot : ∀ f, s ≠ .function f := fun f hf => hs ⟨f, hf⟩
      rw [initial_cons dialect hnot, initIssues_cons dialect hnot, ← Walk.path_down_item]
      exact (Finds.inside (finds_statement s _ h)).bind
        (finds_initial (position + 1) rest _ (Innermost.after dialect h s).table)

/-- The walk over cases. -/
theorem finds_cases (position : Nat) (seen : List Word) (list : List Case) (walk : Walk) :
    Finds (cases dialect position seen list) walk () walk.visible
      (Case.listIssues dialect walk.visible walk.path position seen list) := by
  match list with
  | [] =>
    rw [cases, Case.listIssues]
    exact finds_pure () walk
  | ⟨value, body⟩ :: rest =>
    rw [cases, Case.listIssues, ← Walk.path_down_item]
    refine Finds.bind (Finds.inside ?_) (finds_cases (position + 1) (Case.addValue seen value) rest _)
    exact (finds_caseValue rest.isEmpty seen value _).bind (finds_block body _).inside.giving

/-- The walk over a statement. -/
theorem finds_statement (s : Statement) (walk : Walk) (h : walk.visible.vars ≠ []) :
    Finds (statement dialect s) walk () (walk.visible.after dialect s) (s.issues dialect walk.visible walk.path) := by
  match s with
  | .expression e =>
    rw [statement, Statement.issues]
    exact Finds.inside (finds_counted dialect e 0 .unusedValues _)
  | .assignment names e =>
    rw [statement, Statement.issues]
    exact (finds_valueCount dialect names.length e walk).bind (finds_targets [] 0 names _)
  | .declaration names value =>
    rw [statement, Statement.issues.eq_def]
    exact (finds_initialValue dialect names.length value walk).bind
      ((finds_needTable (walk.onward walk.visible _) h).bind (finds_names dialect 0 names _))
  | .conditional condition body =>
    rw [statement, Statement.issues]
    exact (Finds.inside (finds_single dialect .condition condition _)).bind (Finds.inside (finds_block body _))
  | .switch scrutinee list =>
    rw [statement, Statement.issues]
    exact (Finds.inside (finds_single dialect .scrutinee scrutinee _)).bind (finds_cases 0 [] list _)
  | .function ⟨_, params, returns, body⟩ =>
    rw [statement, Statement.issues]
    refine Finds.looking (Finds.seeing ?_)
    refine (finds_locals dialect walk.visible [] (params ++ returns) _ rfl).bind ?_
    exact Finds.leaving (Finds.inside (finds_block body _)) rfl
  | .loop ⟨⟨_, front⟩, condition, post, body⟩ =>
    rw [statement, Statement.issues]
    refine Finds.looking (Finds.seeing ?_)
    have htable : walk.visible.enterLoop.vars ≠ [] := List.cons_ne_nil _ _
    have hinner := Innermost.afterAll dialect htable front
    have hfront := finds_initial 0 front ((walk.onward walk.visible.enterLoop []).down [.field "pre"]) htable
    refine Finds.congr (hfront.inside.bind ((Finds.inside (finds_single dialect .loopCondition condition _)).bind
        (Finds.seeing ((Finds.inside (finds_block body _)).bind
          (Finds.seeing (Finds.leaving (Finds.inside (finds_block post _)) ?_)))))) ?_
    · exact hinner.leaveLoop
    · show _ ++ (_ ++ (_ ++ Block.issues dialect { { walk.visible.enterLoop.afterAll dialect front with
        inLoopBody := true } with inLoopBody := false } (walk.path.field "post") post)) = _
      rw [hinner.leaveBody, List.append_assoc, List.append_assoc]
      rfl
  | .breakLoop =>
    rw [statement, Statement.issues]
    exact Finds.looking (finds_demand _ _ walk)
  | .continueLoop =>
    rw [statement, Statement.issues]
    exact Finds.looking (finds_demand _ _ walk)
  | .leave =>
    rw [statement, Statement.issues]
    exact Finds.looking (finds_demand _ _ walk)
  | .block body =>
    rw [statement, Statement.issues]
    exact finds_block body walk
end

end Walker

/-- No builtin of a target has the name of another. -/
theorem ofBuiltins_dialect (target : Target) :
    Dialect.ofBuiltins target.name target.dialect.builtins = .ok target.dialect := by
  cases target <;> rfl

/-- The walk over a document never breaks down, and its result is that of the check. -/
theorem walk_eq_validate (target : Target) (doc : Option Json) : walk target.name doc = .ok (validate target doc) := by
  unfold walk validate
  cases readProgram doc with
  | error found => rfl
  | ok program =>
    have hblock : Walker.block target.dialect program {} =
        (.ok (), Walk.onward {} {} (program.issues target.dialect {} [])) :=
      Walker.finds_block target.dialect program {}
    have hdialect : (Dialect.ofBuiltins target.name target.dialect.builtins).mapError Breakdown.foreign =
        .ok target.dialect := congrArg _ (ofBuiltins_dialect target)
    have htarget : (Target.ofName target.name).mapError Breakdown.foreign = .ok target :=
      congrArg _ target.ofName_name
    simp only [htarget, hdialect, bind, Except.bind]
    rw [hblock]
    show Except.ok (if (program.issues target.dialect {} []).isEmpty then _ else _) = _
    unfold issues
    cases program.issues target.dialect {} [] <;> rfl

end Validation
end BlockIR
