import BlockIR.Proofs.Region

/-! What checking without issues says.

Checking goes through a program with what is visible at each place. Here the
absence of issues is read as the rule that each kind of node then keeps
(`Statement.Checked.fits` and its like), and the visible functions are those of
the lexical chain (`Visible.Sees`). So for every chain of a valid program there
is something visible with which its innermost region was checked
(`Chain.checked`). -/
namespace BlockIR

open FunctionDefinition (named?)

variable {dialect : Dialect} {visible later : Visible}

/-! ### Names -/

namespace Visible

/-- The name may be declared. -/
structure Fresh (visible : Visible) (dialect : Dialect) (name : String) : Prop where
  builtin : dialect.find? name = none
  unbound : visible.isVariable name = false
  function : visible.function? name = none

theorem fresh_of_objection? {name : String} (h : visible.objection? dialect name = none) :
    visible.Fresh dialect name := by
  unfold objection? at h
  split at h
  · cases h
  · rename_i hbuiltin
    split at h
    · cases h
    · rename_i htaken
      simp only [Bool.or_eq_true, not_or, Bool.not_eq_true, Option.isSome_eq_false_iff,
        Option.isNone_iff_eq_none] at htaken
      exact ⟨Option.not_isSome_iff_eq_none.mp hbuiltin, htaken.1, htaken.2⟩

/-- `later` sees what `visible` sees and some more variables. -/
structure Adds (visible later : Visible) (names : List String) : Prop where
  functions : later.functions = visible.functions
  inLoopBody : later.inLoopBody = visible.inLoopBody
  inFunction : later.inFunction = visible.inFunction
  vars : ∀ name, later.isVariable name = true ↔ visible.isVariable name = true ∨ name ∈ names

theorem Adds.refl (visible : Visible) : visible.Adds visible [] := ⟨rfl, rfl, rfl, by simp⟩

theorem Adds.trans {last : Visible} {names more : List String} (h : visible.Adds later names)
    (h' : later.Adds last more) : visible.Adds last (names ++ more) where
  functions := h'.functions.trans h.functions
  inLoopBody := h'.inLoopBody.trans h.inLoopBody
  inFunction := h'.inFunction.trans h.inFunction
  vars name := by
    rw [h'.vars, h.vars, List.mem_append, or_assoc]

/-- The functions of a place depend on the tables alone. -/
theorem function?_congr (h : later.functions = visible.functions) (name : String) :
    later.function? name = visible.function? name := by
  unfold function?
  rw [h]

/-- A name that is fresh later was fresh before. -/
theorem Adds.fresh {names : List String} (h : visible.Adds later names) {name : String}
    (hfresh : later.Fresh dialect name) : visible.Fresh dialect name ∧ name ∉ names := by
  have hnone : ¬(visible.isVariable name = true ∨ name ∈ names) := by
    rw [← h.vars, hfresh.unbound]
    exact Bool.false_ne_true
  refine ⟨⟨hfresh.builtin, ?_, ?_⟩, fun hname => hnone (.inr hname)⟩
  · exact Bool.eq_false_iff.mpr fun htrue => hnone (.inl htrue)
  · rw [← function?_congr h.functions]
    exact hfresh.function

theorem addVariable_adds (visible : Visible) (name : String) : visible.Adds (visible.addVariable name) [name] := by
  obtain ⟨functions, vars, inLoopBody, inFunction⟩ := visible
  cases vars with
  | nil => exact ⟨rfl, rfl, rfl, by simp [addVariable, isVariable]⟩
  | cons first outer =>
    refine ⟨rfl, rfl, rfl, fun x => ?_⟩
    simp [addVariable, isVariable]
    grind

/-- Names declared without issues are different and fresh, and they are visible afterwards. -/
theorem declarationIssues_eq_nil {place : Place} {position : Nat} {names : List String}
    (h : visible.declarationIssues dialect place position names = []) :
    (∀ name ∈ names, visible.Fresh dialect name) ∧ names.Nodup ∧
      visible.Adds (visible.declareAll dialect names) names := by
  induction names generalizing visible position with
  | nil => exact ⟨nofun, List.nodup_nil, .refl visible⟩
  | cons first rest ih =>
    obtain ⟨hfirst, hrest⟩ := List.append_eq_nil_iff.mp h
    have hnone : visible.objection? dialect first = none := by
      rcases hobjection : visible.objection? dialect first with _ | flaw
      · rfl
      · rw [hobjection] at hfirst
        cases hfirst
    have hdeclare : visible.declare dialect first = visible.addVariable first := by
      unfold declare
      rw [hnone]
      rfl
    rw [hdeclare] at hrest
    obtain ⟨hfresh, hnodup, hadds⟩ := ih hrest
    have hadd := addVariable_adds visible first
    refine ⟨?_, ?_, ?_⟩
    · intro name hname
      rcases List.mem_cons.mp hname with rfl | hname
      · exact fresh_of_objection? hnone
      · exact (hadd.fresh (hfresh name hname)).1
    · refine List.nodup_cons.mpr ⟨fun hmem => ?_, hnodup⟩
      exact (hadd.fresh (hfresh first hmem)).2 (List.mem_singleton_self first)
    · show visible.Adds (Visible.declareAll (visible.declare dialect first) dialect rest) (first :: rest)
      rw [hdeclare]
      exact hadd.trans hadds

/-- Every target of an assignment without issues is a visible variable. -/
theorem targetIssues_eq_nil {place : Place} {seen : List String} {position : Nat} {targets : List String}
    (h : visible.targetIssues place seen position targets = []) :
    ∀ name ∈ targets, visible.isVariable name = true := by
  induction targets generalizing seen position with
  | nil => exact nofun
  | cons first rest ih =>
    simp only [targetIssues, List.append_eq_nil_iff] at h
    obtain ⟨⟨-, hfirst⟩, hrest⟩ := h
    refine List.forall_mem_cons.mpr ⟨?_, ih hrest⟩
    split at hfirst
    · assumption
    · split at hfirst <;> cases hfirst

/-- Parameters and returns without issues are all variables of the function. -/
theorem localIssues_eq_nil {place : Place} {locals names : List String}
    (h : visible.localIssues dialect place locals names = []) (name : String) :
    name ∈ names.foldl (fun locals name => visible.addLocal dialect locals name) locals ↔
      name ∈ locals ∨ name ∈ names := by
  induction names generalizing locals with
  | nil => simp
  | cons first rest ih =>
    simp only [localIssues, List.append_eq_nil_iff] at h
    obtain ⟨hfirst, hrest⟩ := h
    have hadd : visible.addLocal dialect locals first = first :: locals := by
      split at hfirst
      · cases hfirst
      · rename_i hnew
        have hmem : first ∉ locals := fun hmem => hnew (List.contains_iff_mem.mpr hmem)
        unfold addLocal
        rcases hobjection : (visible.enterFunction locals).objection? dialect first with _ | flaw
        · simp [hmem]
        · rw [hobjection] at hfirst
          cases hfirst
    rw [hadd] at hrest
    rw [List.foldl_cons, hadd, ih hrest, List.mem_cons, List.mem_cons]
    grind

/-- A function of a new and fresh name is added to the table. -/
theorem define_eq {table : FunctionTable} {definition : FunctionDefinition}
    (hnew : table.lookup definition.name = none)
    (hfresh : visible.objection? dialect definition.name = none) :
    visible.define dialect table definition = (definition.name, definition.signature) :: table := by
  simp [define, hnew, hfresh]

/-- Functions without issues have different names, and the table has the signature of each. -/
theorem functionIssues_eq_nil {place : Place} {table : FunctionTable} {position : Nat}
    {statements : List Statement} (h : visible.functionIssues dialect place table position statements = []) :
    (∀ name, ((Statement.functions statements).foldl (fun table f => visible.define dialect table f)
        table).lookup name =
      (table.lookup name).or ((named? name (Statement.functions statements)).map
        FunctionDefinition.signature)) ∧
    ((Statement.functions statements).map FunctionDefinition.name).Nodup ∧
    ∀ f ∈ Statement.functions statements, table.lookup f.name = none := by
  induction statements generalizing table position with
  | nil => exact ⟨fun _ => Option.or_none.symm, List.nodup_nil, nofun⟩
  | cons first rest ih =>
    cases first with
    | function definition =>
      simp only [functionIssues, List.append_eq_nil_iff] at h
      obtain ⟨hfirst, hrest⟩ := h
      split at hfirst
      · cases hfirst
      · rename_i hnew
        have hnone : table.lookup definition.name = none := Option.not_isSome_iff_eq_none.mp hnew
        have hfresh : visible.objection? dialect definition.name = none := by
          rcases hobjection : visible.objection? dialect definition.name with _ | flaw
          · rfl
          · rw [hobjection] at hfirst
            cases hfirst
        have hdefine := define_eq hnone hfresh
        rw [hdefine] at hrest
        obtain ⟨hlookup, hnodup, hapart⟩ := ih hrest
        have hfunctions : Statement.functions (.function definition :: rest) =
            definition :: Statement.functions rest := rfl
        have hne : ∀ f ∈ Statement.functions rest, f.name ≠ definition.name := by
          intro f hf hname
          have hnone' := hapart f hf
          rw [hname, List.lookup_cons_self] at hnone'
          cases hnone'
        rw [hfunctions]
        refine ⟨fun name => ?_, ?_, ?_⟩
        · rw [List.foldl_cons, hdefine, hlookup, List.lookup_cons, FunctionDefinition.named?_cons]
          by_cases hname : name = definition.name
          · subst hname
            simp [hnone]
          · have hname' : ¬definition.name = name := fun h => hname h.symm
            simp [beq_false_of_ne hname, hname']
        · refine List.nodup_cons.mpr ⟨fun hmem => ?_, hnodup⟩
          obtain ⟨f, hf, hname⟩ := List.mem_map.mp hmem
          exact hne f hf hname
        · refine List.forall_mem_cons.mpr ⟨hnone, fun f hf => ?_⟩
          have hnone' := hapart f hf
          rw [List.lookup_cons, beq_false_of_ne (hne f hf)] at hnone'
          exact hnone'
    | _ => exact ih h

end Visible

/-! ### Expressions -/

/-- An expression was checked without issues. -/
def Expr.Checked (dialect : Dialect) (visible : Visible) (e : Expr) : Prop :=
  ∃ place, e.issues dialect visible place = []

/-- An expression was checked without issues and yields one value. -/
def Expr.Single (dialect : Dialect) (visible : Visible) (e : Expr) : Prop :=
  e.Checked dialect visible ∧ e.count? dialect visible = some 1

/-- The arguments of a call, from a position on, were checked without issues. -/
def Expr.ArgumentsChecked (dialect : Dialect) (visible : Visible) (callee : String) (position : Nat)
    (args : List Expr) : Prop :=
  ∃ place, Expr.argumentIssues dialect visible place callee position args = []

/-- The callee is a builtin or a visible function that takes that many arguments. -/
def Visible.Takes (dialect : Dialect) (visible : Visible) (name : String) (count : Nat) : Prop :=
  match dialect.find? name with
  | some builtin => builtin.arity = .exactly count
  | none => ∃ signature, visible.function? name = some signature ∧ signature.params = count

theorem Expr.takes_of_calleeIssues {place : Place} {name : String} {got : Nat}
    (h : Expr.calleeIssues dialect visible place name got = []) : visible.Takes dialect name got := by
  unfold Expr.calleeIssues at h
  unfold Visible.Takes
  rcases hfind : dialect.find? name with _ | builtin <;> simp only [hfind] at h ⊢
  · rcases hfunction : visible.function? name with _ | signature <;> rw [hfunction] at h
    · cases h
    · simp only [Option.map_some] at h
      split at h
      · rename_i hparams
        cases hparams
        exact ⟨signature, rfl, rfl⟩
      · cases h
  · split at h
    · assumption
    · cases h

theorem Expr.Checked.call {name : String} {args : List Expr} (h : (Expr.call name args).Checked dialect visible) :
    Expr.ArgumentsChecked dialect visible name 0 args ∧ visible.Takes dialect name args.length := by
  obtain ⟨place, h⟩ := h
  simp only [Expr.issues, List.append_eq_nil_iff] at h
  exact ⟨⟨place, h.1⟩, Expr.takes_of_calleeIssues h.2⟩

theorem Expr.Checked.identifier {name : String} (h : (Expr.identifier name).Checked dialect visible) :
    visible.isVariable name = true := by
  obtain ⟨place, h⟩ := h
  simp only [Expr.issues] at h
  split at h
  · assumption
  · cases h

theorem Literal.value_of_issues {place : Place} {literal : Literal} (h : literal.issues place = []) :
    ∃ value, literal.value = .ok value := by
  unfold Literal.issues at h
  split at h
  · rename_i value hread
    refine ⟨value, ?_⟩
    unfold Literal.value
    rw [hread]
    rfl
  · cases h

theorem Expr.Checked.literal {literal : Literal} (h : (Expr.literal literal).Checked dialect visible) :
    ∃ value, literal.value = .ok value := by
  obtain ⟨place, h⟩ := h
  exact Literal.value_of_issues h

/-- How many values a checked expression yields is known. -/
theorem Expr.Checked.count {e : Expr} (h : e.Checked dialect visible) :
    ∃ n, e.count? dialect visible = some n := by
  cases e with
  | literal _ => exact ⟨1, rfl⟩
  | identifier _ => exact ⟨1, rfl⟩
  | call name args =>
    have htakes := h.call.2
    unfold Visible.Takes at htakes
    rcases hfind : dialect.find? name with _ | builtin <;> simp only [Expr.count?, hfind] at htakes ⊢
    · obtain ⟨signature, hfunction, -⟩ := htakes
      exact ⟨signature.returns, by rw [hfunction]; rfl⟩
    · exact ⟨_, rfl⟩

theorem Expr.count_of_countIssues {place : Place} {e : Expr} {expected : Nat} {flaw : Nat → Flaw}
    (h : e.Checked dialect visible) (hcount : e.countIssues dialect visible place expected flaw = []) :
    e.count? dialect visible = some expected := by
  obtain ⟨n, hn⟩ := h.count
  unfold Expr.countIssues at hcount
  rw [hn] at hcount ⊢
  simp only at hcount
  split at hcount
  · rename_i hsame
    rw [hsame]
  · cases hcount

theorem Expr.single_of_singleIssues {place : Place} {role : Role} {e : Expr}
    (h : e.singleIssues dialect visible place role = []) : e.Single dialect visible := by
  obtain ⟨hissues, hcount⟩ := List.append_eq_nil_iff.mp h
  have hchecked : e.Checked dialect visible := ⟨_, hissues⟩
  exact ⟨hchecked, Expr.count_of_countIssues hchecked hcount⟩

/-- Every argument that is evaluated yields one value. -/
theorem Expr.ArgumentsChecked.cons {callee : String} {position : Nat} {e : Expr} {rest : List Expr}
    (h : Expr.ArgumentsChecked dialect visible callee position (e :: rest)) :
    (dialect.wantsLiteral callee position = false → e.Single dialect visible) ∧
      Expr.ArgumentsChecked dialect visible callee (position + 1) rest := by
  obtain ⟨place, h⟩ := h
  simp only [Expr.argumentIssues, List.append_eq_nil_iff] at h
  obtain ⟨hfirst, hrest⟩ := h
  refine ⟨fun hwants => ?_, place, hrest⟩
  rw [if_neg (by simp [hwants])] at hfirst
  obtain ⟨hissues, hcount⟩ := List.append_eq_nil_iff.mp hfirst
  have hchecked : e.Checked dialect visible := ⟨_, hissues⟩
  exact ⟨hchecked, Expr.count_of_countIssues hchecked hcount⟩

/-- Every argument was checked, or is a literal that need not be. -/
theorem Expr.ArgumentsChecked.mem {callee : String} {position : Nat} {args : List Expr} {e : Expr}
    (h : Expr.ArgumentsChecked dialect visible callee position args) (he : e ∈ args) :
    e.isLiteral = true ∨ e.Checked dialect visible := by
  induction args generalizing position with
  | nil => cases he
  | cons first rest ih =>
    rcases List.mem_cons.mp he with rfl | he
    · obtain ⟨place, h⟩ := h
      have hfirst := (List.append_eq_nil_iff.mp h).1
      split at hfirst
      · split at hfirst
        · exact .inl ‹_›
        · cases hfirst
      · exact .inr ⟨_, (List.append_eq_nil_iff.mp hfirst).1⟩
    · exact ih h.cons.2 he

/-! ### Statements -/

/-- A block stands in a document and was checked without issues. -/
def Block.Checked (dialect : Dialect) (visible : Visible) (b : Block) : Prop :=
  ∃ place, b.WrittenAt place ∧ b.issues dialect visible place = []

/-- A statement stands in a document and was checked without issues. -/
def Statement.Checked (dialect : Dialect) (visible : Visible) (s : Statement) : Prop :=
  ∃ place, s.WrittenAt place ∧ s.issues dialect visible place = []

/-- Statements stand in a document and were checked in turn without issues. -/
def Statement.ListChecked (dialect : Dialect) (visible : Visible) (statements : List Statement) : Prop :=
  ∃ place position, Statement.ListWrittenAt place position statements ∧
    Statement.listIssues dialect visible place position statements = []

/-- A case has a value, if any, and its body was checked. -/
def Case.Checked (dialect : Dialect) (visible : Visible) (c : Case) : Prop :=
  (∀ literal ∈ c.value, (Expr.literal literal).Checked dialect visible) ∧ c.body.Checked dialect visible

/-- The rule that a statement keeps. -/
def Statement.Fits (dialect : Dialect) (visible : Visible) : Statement → Prop
  | .expression e => e.Checked dialect visible ∧ e.count? dialect visible = some 0
  | .assignment targets e =>
    targets ≠ [] ∧ e.Checked dialect visible ∧ e.count? dialect visible = some targets.length ∧
      ∀ name ∈ targets, visible.isVariable name = true
  | .declaration names value =>
    names ≠ [] ∧
      (∀ e ∈ value, e.Checked dialect visible ∧ e.count? dialect visible = some names.length) ∧
      (∀ name ∈ names, visible.Fresh dialect name) ∧ names.Nodup ∧
      visible.Adds (visible.declareAll dialect names) names
  | .conditional condition body => condition.Single dialect visible ∧ body.Checked dialect visible
  | .switch scrutinee cases => scrutinee.Single dialect visible ∧ ∀ c ∈ cases, c.Checked dialect visible
  | .function definition =>
    (∀ name, name ∈ visible.locals dialect (definition.params ++ definition.returns) ↔
        name ∈ definition.params ++ definition.returns) ∧
      definition.body.Checked dialect
        (visible.enterFunction (visible.locals dialect (definition.params ++ definition.returns)))
  | .loop l =>
    let inside := visible.enterLoop.afterAll dialect l.init.statements
    Statement.ListChecked dialect visible.enterLoop l.init.statements ∧ l.condition.Single dialect inside ∧
      l.body.Checked dialect { inside with inLoopBody := true } ∧ l.post.Checked dialect inside
  | .breakLoop => visible.inLoopBody = true
  | .continueLoop => visible.inLoopBody = true
  | .leave => visible.inFunction = true
  | .block b => b.Checked dialect visible

theorem Case.checked_of_listIssues {place : Place} {position : Nat} {seen : List Word} {cases : List Case}
    (hwritten : Case.ListWrittenAt place position cases)
    (h : Case.listIssues dialect visible place position seen cases = []) :
    ∀ c ∈ cases, c.Checked dialect visible := by
  induction cases generalizing position seen with
  | nil => exact nofun
  | cons first rest ih =>
    obtain ⟨value, body⟩ := first
    simp only [Case.listIssues, List.append_eq_nil_iff] at h
    obtain ⟨⟨hvalue, hbody⟩, hrest⟩ := h
    refine List.forall_mem_cons.mpr
      ⟨⟨fun literal hliteral => ?_, ⟨_, hwritten.1, hbody⟩⟩, ih hwritten.2 hrest⟩
    obtain rfl : value = some literal := hliteral
    simp only [Case.valueIssues, List.append_eq_nil_iff] at hvalue
    exact ⟨_, hvalue.1⟩

/-- Statements in front of a loop without issues are statements without issues. -/
theorem Statement.listIssues_of_initIssues {place : Place} {position : Nat} {statements : List Statement}
    (h : Statement.initIssues dialect visible place position statements = []) :
    Statement.listIssues dialect visible place position statements = [] := by
  induction statements generalizing visible position with
  | nil => rfl
  | cons first rest ih =>
    have keep {s : Statement}
        (h : s.issues dialect visible (place.item "statements" position) ++
          Statement.initIssues dialect (visible.after dialect s) place (position + 1) rest = []) :
        Statement.listIssues dialect visible place position (s :: rest) = [] := by
      obtain ⟨hfirst, hrest⟩ := List.append_eq_nil_iff.mp h
      exact List.append_eq_nil_iff.mpr ⟨hfirst, ih hrest⟩
    cases first with
    | function _ => cases h
    | _ => exact keep h

/-- A checked statement keeps the rule of its kind. -/
theorem Statement.Checked.fits {s : Statement} (h : s.Checked dialect visible) : s.Fits dialect visible := by
  obtain ⟨place, hwritten, h⟩ := h
  cases s with
  | expression e =>
    obtain ⟨hissues, hcount⟩ := List.append_eq_nil_iff.mp h
    have he : e.Checked dialect visible := ⟨_, hissues⟩
    exact ⟨he, Expr.count_of_countIssues he hcount⟩
  | assignment targets e =>
    simp only [Statement.issues, List.append_eq_nil_iff] at h
    obtain ⟨⟨hissues, hcount⟩, htargets⟩ := h
    have he : e.Checked dialect visible := ⟨_, hissues⟩
    exact ⟨hwritten.1, he, Expr.count_of_countIssues he hcount, Visible.targetIssues_eq_nil htargets⟩
  | declaration names value =>
    simp only [Statement.issues, List.append_eq_nil_iff] at h
    obtain ⟨hvalue, hnames⟩ := h
    refine ⟨hwritten.1, fun e he => ?_, Visible.declarationIssues_eq_nil hnames⟩
    obtain rfl : value = some e := he
    obtain ⟨hissues, hcount⟩ := List.append_eq_nil_iff.mp hvalue
    have he : e.Checked dialect visible := ⟨_, hissues⟩
    exact ⟨he, Expr.count_of_countIssues he hcount⟩
  | conditional condition body =>
    obtain ⟨hcondition, hbody⟩ := List.append_eq_nil_iff.mp h
    exact ⟨Expr.single_of_singleIssues hcondition, _, hwritten.2, hbody⟩
  | switch scrutinee cases =>
    obtain ⟨hscrutinee, hcases⟩ := List.append_eq_nil_iff.mp h
    exact ⟨Expr.single_of_singleIssues hscrutinee, Case.checked_of_listIssues hwritten.2.2 hcases⟩
  | function definition =>
    obtain ⟨name, params, returns, body⟩ := definition
    obtain ⟨hlocals, hbody⟩ := List.append_eq_nil_iff.mp h
    refine ⟨fun x => ?_, _, hwritten.2.2.2, hbody⟩
    have hmem := Visible.localIssues_eq_nil hlocals x
    simpa [Visible.locals] using hmem
  | loop l =>
    obtain ⟨⟨id, init⟩, condition, post, body⟩ := l
    simp only [Statement.issues, List.append_eq_nil_iff] at h
    obtain ⟨⟨⟨hinit, hcondition⟩, hbody⟩, hpost⟩ := h
    obtain ⟨⟨-, hinit'⟩, -, hpost', hbody'⟩ := hwritten
    exact ⟨⟨_, _, hinit', Statement.listIssues_of_initIssues hinit⟩,
      Expr.single_of_singleIssues hcondition, ⟨_, hbody', hbody⟩, ⟨_, hpost', hpost⟩⟩
  | breakLoop =>
    simp only [Statement.issues] at h
    split at h
    · assumption
    · cases h
  | continueLoop =>
    simp only [Statement.issues] at h
    split at h
    · assumption
    · cases h
  | leave =>
    simp only [Statement.issues] at h
    split at h
    · assumption
    · cases h
  | block b =>
    exact ⟨place, hwritten, h⟩

/-- After a checked statement its names are visible as well; they were fresh before. -/
theorem Statement.Checked.adds {s : Statement} (h : s.Checked dialect visible) :
    visible.Adds (visible.after dialect s) s.names ∧ ∀ name ∈ s.names, visible.Fresh dialect name := by
  have hfits := h.fits
  cases s with
  | declaration names value =>
    obtain ⟨-, -, hfresh, -, hadds⟩ := hfits
    exact ⟨hadds, hfresh⟩
  | _ => exact ⟨.refl visible, nofun⟩

namespace Statement.ListChecked

theorem cons {s : Statement} {rest : List Statement} (h : ListChecked dialect visible (s :: rest)) :
    s.Checked dialect visible ∧ ListChecked dialect (visible.after dialect s) rest := by
  obtain ⟨place, position, hwritten, h⟩ := h
  obtain ⟨hfirst, hrest⟩ := List.append_eq_nil_iff.mp h
  exact ⟨⟨_, hwritten.1, hfirst⟩, place, position + 1, hwritten.2, hrest⟩

/-- After checked statements their names are visible as well; they were fresh before. -/
theorem adds {statements : List Statement} (h : ListChecked dialect visible statements) :
    visible.Adds (visible.afterAll dialect statements) (statements.flatMap Statement.names) ∧
      ∀ name ∈ statements.flatMap Statement.names, visible.Fresh dialect name := by
  induction statements generalizing visible with
  | nil => exact ⟨.refl visible, nofun⟩
  | cons first rest ih =>
    obtain ⟨hfirst, hrest⟩ := h.cons
    obtain ⟨hadds, hfresh⟩ := hfirst.adds
    obtain ⟨hadds', hfresh'⟩ := ih hrest
    rw [List.flatMap_cons]
    refine ⟨hadds.trans hadds', fun name hname => ?_⟩
    rcases List.mem_append.mp hname with hname | hname
    · exact hfresh name hname
    · exact (hadds.fresh (hfresh' name hname)).1

/-- Each of checked statements was checked with the same functions visible. -/
theorem mem {statements : List Statement} (h : ListChecked dialect visible statements) {s : Statement}
    (hs : s ∈ statements) : ∃ here, s.Checked dialect here ∧ here.functions = visible.functions := by
  induction statements generalizing visible with
  | nil => cases hs
  | cons first rest ih =>
    obtain ⟨hfirst, hrest⟩ := h.cons
    rcases List.mem_cons.mp hs with rfl | hs
    · exact ⟨visible, hfirst, rfl⟩
    · obtain ⟨here, hhere, hfunctions⟩ := ih hrest hs
      exact ⟨here, hhere, hfunctions.trans hfirst.adds.1.functions⟩

end Statement.ListChecked

/-! ### Blocks and regions -/

namespace Block.Checked

variable {b : Block}

/-- The statements of a checked block were checked inside it. -/
theorem statements (h : b.Checked dialect visible) :
    Statement.ListChecked dialect (visible.enterBlock (visible.table dialect b.statements)) b.statements := by
  obtain ⟨id, statements⟩ := b
  obtain ⟨place, hwritten, h⟩ := h
  simp only [Block.issues, List.append_eq_nil_iff] at h
  exact ⟨place, 0, hwritten.2, h.2⟩

/-- The functions of a checked block have different names and are all in its table. -/
theorem functions (h : b.Checked dialect visible) :
    (∀ name, (visible.table dialect b.statements).lookup name =
      (named? name b.functions).map FunctionDefinition.signature) ∧
      (b.functions.map FunctionDefinition.name).Nodup := by
  obtain ⟨id, statements⟩ := b
  obtain ⟨place, hwritten, h⟩ := h
  simp only [Block.issues, List.append_eq_nil_iff] at h
  obtain ⟨hlookup, hnodup, -⟩ := Visible.functionIssues_eq_nil h.1
  refine ⟨fun name => ?_, hnodup⟩
  have htable := hlookup name
  rw [List.lookup_nil, Option.none_or] at htable
  exact htable

end Block.Checked

namespace Region

/-- A region was checked without issues. -/
def Checked (dialect : Dialect) (visible : Visible) : Region → Prop
  | block b => b.Checked dialect visible
  | loop l => (Statement.loop l).Checked dialect visible

/-- What is visible at the beginning of a region. -/
def inside (dialect : Dialect) (visible : Visible) : Region → Visible
  | block b => visible.enterBlock (visible.table dialect b.statements)
  | loop _ => visible.enterLoop

variable {region : Region}

theorem isVariable_inside (region : Region) (name : String) :
    (region.inside dialect visible).isVariable name = visible.isVariable name := by
  cases region <;> simp [inside, Visible.enterBlock, Visible.enterLoop, Visible.isVariable]

namespace Checked

theorem statements (h : region.Checked dialect visible) :
    Statement.ListChecked dialect (region.inside dialect visible) region.statements := by
  cases region with
  | block b => exact Block.Checked.statements h
  | loop l => exact (Statement.Checked.fits h).1

/-- A variable of a region is not visible where the region is entered, and is no function inside. -/
theorem fresh (h : region.Checked dialect visible) {name : String} (hname : name ∈ region.names) :
    visible.isVariable name = false ∧ (region.inside dialect visible).function? name = none := by
  have hfresh := h.statements.adds.2 name hname
  refine ⟨?_, hfresh.function⟩
  rw [← isVariable_inside]
  exact hfresh.unbound

end Checked
end Region

/-- A region of a checked statement was checked with the same functions visible. -/
theorem Statement.Checked.region {s : Statement} (h : s.Checked dialect visible) {region : Region}
    (hregion : region ∈ s.regions) :
    ∃ here, region.Checked dialect here ∧ here.functions = visible.functions := by
  have hfits := h.fits
  cases s with
  | conditional condition body =>
    obtain rfl := List.mem_singleton.mp hregion
    exact ⟨visible, hfits.2, rfl⟩
  | switch scrutinee cases =>
    obtain ⟨c, hc, rfl⟩ := List.mem_map.mp hregion
    exact ⟨visible, (hfits.2 c hc).2, rfl⟩
  | function definition =>
    obtain rfl := List.mem_singleton.mp hregion
    exact ⟨_, hfits.2, rfl⟩
  | loop l =>
    obtain rfl := List.mem_singleton.mp hregion
    exact ⟨visible, h, rfl⟩
  | block b =>
    obtain rfl := List.mem_singleton.mp hregion
    exact ⟨visible, hfits, rfl⟩
  | _ => cases hregion

/-- What stands in a checked region was checked with the functions of the region visible. -/
theorem Region.Checked.inner {region : Region} (h : region.Checked dialect visible) {within : Region}
    (hwithin : within ∈ region.inner) :
    ∃ here, within.Checked dialect here ∧ here.functions = (region.inside dialect visible).functions := by
  have fromStatement {s : Statement} (hs : s ∈ region.statements) (hmem : within ∈ s.regions) :
      ∃ here, within.Checked dialect here ∧ here.functions = (region.inside dialect visible).functions := by
    obtain ⟨there, hthere, hfunctions⟩ := h.statements.mem hs
    obtain ⟨here, hhere, hfunctions'⟩ := hthere.region hmem
    exact ⟨here, hhere, hfunctions'.trans hfunctions⟩
  cases region with
  | block b =>
    obtain ⟨s, hs, hmem⟩ := List.mem_flatMap.mp hwithin
    exact fromStatement hs hmem
  | loop l =>
    rcases List.mem_append.mp hwithin with hwithin | hwithin
    · obtain ⟨s, hs, hmem⟩ := List.mem_flatMap.mp hwithin
      exact fromStatement hs hmem
    · obtain ⟨hinit, -, hbody, hpost⟩ := Statement.Checked.fits h
      have hfunctions := hinit.adds.1.functions
      rcases Region.mem_parts hwithin with rfl | rfl
      · exact ⟨_, hbody, hfunctions⟩
      · exact ⟨_, hpost, hfunctions⟩

/-! ### Chains -/

/-- The functions visible at a place are those of its lexical chain. -/
def Visible.Sees (visible : Visible) (chain : Chain) : Prop :=
  ∀ name, visible.function? name = (Chain.function? name chain).map fun found => found.1.signature

namespace Visible.Sees
variable {chain : Chain}

theorem congr (h : visible.Sees chain) (hfunctions : later.functions = visible.functions) :
    later.Sees chain := fun name => by
  rw [function?_congr hfunctions]
  exact h name

/-- Inside a region its own functions come first. -/
theorem inside {region : Region} (h : visible.Sees chain) (hregion : region.Checked dialect visible) :
    (region.inside dialect visible).Sees (region :: chain) := by
  intro name
  cases region with
  | block b =>
    have htable := (Block.Checked.functions hregion).1 name
    show (((visible.table dialect b.statements) :: visible.functions).findSome? fun table =>
      table.lookup name) = _
    rw [List.findSome?_cons, htable]
    rcases hnamed : named? name b.functions with _ | definition
    · rw [Chain.function?_of_none hnamed]
      exact h name
    · rw [Chain.function?_of_some hnamed]
      rfl
  | loop l => exact h name

end Visible.Sees

namespace Chain
variable {program : Block} (hprogram : program.Checked dialect {})
include hprogram

/-- What can be entered from inside a chain was checked where the functions of the chain are visible. -/
theorem checked {chain : Chain} (h : In program chain) {region : Region}
    (hregion : region ∈ inner program chain) :
    ∃ visible, region.Checked dialect visible ∧ visible.Sees chain := by
  induction chain generalizing region with
  | nil =>
    obtain rfl := List.mem_singleton.mp hregion
    exact ⟨{}, hprogram, fun _ => rfl⟩
  | cons first outer ih =>
    obtain ⟨visible, hfirst, hsees⟩ := ih h.2 h.1
    obtain ⟨here, hhere, hfunctions⟩ := hfirst.inner hregion
    exact ⟨here, hhere, (hsees.inside hfirst).congr hfunctions⟩

/-- The function that a name stands for was checked where the functions of its own chain are visible. -/
theorem function_checked {chain found : Chain} {name : String} {definition : FunctionDefinition}
    (h : In program chain) (hfind : function? name chain = some (definition, found)) :
    ∃ visible, (Statement.function definition).Checked dialect visible ∧ visible.Sees found := by
  obtain ⟨hin, hmem⟩ := function?_spec h hfind
  cases found with
  | nil => cases hmem
  | cons region outer =>
    obtain ⟨visible, hregion, hsees⟩ := checked hprogram hin.2 hin.1
    obtain ⟨here, hhere, hfunctions⟩ := hregion.statements.mem (Region.function_mem hmem)
    exact ⟨here, hhere, (hsees.inside hregion).congr hfunctions⟩

end Chain

/-- A valid program was read off a document and checked without issues. -/
theorem checked_of_validate {target : Target} {doc : Option Json} {program : Block}
    (h : Validation.validate target doc = .ok program) :
    program.WrittenAt [] ∧ program.Checked target.dialect {} := by
  unfold Validation.validate at h
  rcases hread : Validation.readProgram doc with found | read <;> rw [hread] at h
  · cases h
  · simp only [bind, Except.bind] at h
    split at h
    · rename_i hissues
      cases h
      have hwritten := readProgram_written hread
      exact ⟨hwritten, [], hwritten, hissues⟩
    · cases h

end BlockIR
