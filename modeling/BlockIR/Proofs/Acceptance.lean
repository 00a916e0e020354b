import BlockIR.Proofs.Scoping
import BlockIR.Proofs.Visibility

/-! The check accepts exactly the well-scoped programs.

The check walks through a program with a table of what is visible, and fills and
empties the table as it goes. It agrees with the rules because the table says at
every node what the frames around the node say (`Visible.Reflects`): that holds
at the root, and each step into a part of a node keeps it as long as nothing was
wrong before. So for each kind of node the absence of issues is soundness, and at
the root that is `validate_iff_wellScoped`. -/
namespace BlockIR

variable {dialect : Dialect} {visible later : Visible} {frames : Frames}

/-! ### Names seen so far -/

/-- Different names, none of which has been seen. -/
def Unseen {α : Type} (seen names : List α) : Prop := names.Nodup ∧ ∀ a ∈ names, a ∉ seen

theorem unseen_iff {α : Type} {names : List α} : Unseen [] names ↔ names.Nodup := by
  simp [Unseen]

theorem unseen_nil {α : Type} (seen : List α) : Unseen seen [] := ⟨List.nodup_nil, nofun⟩

/-- Names are gone through one by one, with those seen so far. -/
theorem unseen_cons {α : Type} {seen rest : List α} {first : α} :
    Unseen seen (first :: rest) ↔ first ∉ seen ∧ Unseen (first :: seen) rest := by
  unfold Unseen
  rw [List.nodup_cons, List.forall_mem_cons]
  constructor
  · rintro ⟨⟨hnew, hnodup⟩, hfirst, hrest⟩
    refine ⟨hfirst, hnodup, fun a ha hseen => ?_⟩
    rcases List.mem_cons.mp hseen with rfl | hseen
    · exact hnew ha
    · exact hrest a ha hseen
  · rintro ⟨hfirst, hnodup, hrest⟩
    exact ⟨⟨fun hmem => hrest first hmem (List.mem_cons_self ..), hnodup⟩, hfirst,
      fun a ha hseen => hrest a ha (List.mem_cons_of_mem _ hseen)⟩

/-! ### Names and tables -/

namespace Visible

theorem objection?_eq_none_iff {name : String} :
    visible.objection? dialect name = none ↔ visible.Fresh dialect name := by
  refine ⟨fresh_of_objection?, fun h => ?_⟩
  simp [objection?, h.builtin, h.unbound, h.function]

theorem objections_eq_nil_iff {place : Place} {name : String} :
    ((visible.objection? dialect name).map fun flaw => Issue.mk place flaw).toList = [] ↔
      visible.Fresh dialect name := by
  rw [Option.toList_eq_nil_iff, Option.map_eq_none_iff, objection?_eq_none_iff]

theorem Fresh.addVariable {name other : String} (h : visible.Fresh dialect name) (hne : name ≠ other) :
    (visible.addVariable other).Fresh dialect name := by
  have hadds := addVariable_adds visible other
  refine ⟨h.builtin, Bool.eq_false_iff.mpr fun htrue => ?_, (function?_congr hadds.functions name).trans h.function⟩
  rcases (hadds.vars name).mp htrue with hbound | hmem
  · rw [h.unbound] at hbound
    cases hbound
  · exact hne (List.mem_singleton.mp hmem)

theorem declarationIssues_eq_nil_iff {place : Place} {position : Nat} {names : List String} :
    visible.declarationIssues dialect place position names = [] ↔
      names.Nodup ∧ ∀ name ∈ names, visible.Fresh dialect name := by
  constructor
  · intro h
    obtain ⟨hfresh, hnodup, -⟩ := declarationIssues_eq_nil h
    exact ⟨hnodup, hfresh⟩
  · rintro ⟨hnodup, hfresh⟩
    induction names generalizing visible position with
    | nil => rfl
    | cons first rest ih =>
      obtain ⟨hnew, hnodup⟩ := List.nodup_cons.mp hnodup
      obtain ⟨hfirst, hrest⟩ := List.forall_mem_cons.mp hfresh
      have hdeclare : visible.declare dialect first = visible.addVariable first := by
        unfold declare
        rw [objection?_eq_none_iff.mpr hfirst]
        rfl
      refine List.append_eq_nil_iff.mpr ⟨objections_eq_nil_iff.mpr hfirst, ?_⟩
      rw [hdeclare]
      refine ih hnodup fun name hname => (hrest name hname).addVariable ?_
      rintro rfl
      exact hnew hname

theorem targetIssues_eq_nil_iff {place : Place} {seen : List String} {position : Nat} {targets : List String} :
    visible.targetIssues place seen position targets = [] ↔
      Unseen seen targets ∧ ∀ name ∈ targets, visible.isVariable name = true := by
  induction targets generalizing seen position with
  | nil => simp [targetIssues, unseen_nil]
  | cons first rest ih =>
    have hfirst : (if visible.isVariable first then []
        else if (visible.function? first).isSome then
          [Issue.mk (place.item "targets" position) (.assignedFunction first)]
        else [⟨place.item "targets" position, .assignedUndeclared first⟩]) = [] ↔
          visible.isVariable first = true := by
      by_cases hvariable : visible.isVariable first = true
      · simp [hvariable]
      · cases visible.function? first <;> simp [hvariable]
    have hseen : (if seen.contains first then [Issue.mk (place.item "targets" position) (.assignedTwice first)]
        else []) = [] ↔ first ∉ seen := by
      simp
    simp only [targetIssues, List.append_eq_nil_iff, ih, hfirst, hseen, unseen_cons, List.forall_mem_cons]
    exact and_assoc.trans ((and_congr_right fun _ => and_left_comm).trans and_assoc.symm)

/-- In a function no variable from outside is in the way of a name. -/
theorem fresh_enterFunction {locals : List String} {name : String} :
    (visible.enterFunction locals).Fresh dialect name ↔
      name ∉ locals ∧ dialect.find? name = none ∧ visible.function? name = none := by
  have hvariable : (visible.enterFunction locals).isVariable name = false ↔ name ∉ locals := by
    simp [isVariable, enterFunction]
  exact ⟨fun h => ⟨hvariable.mp h.unbound, h.builtin, h.function⟩,
    fun h => ⟨h.2.1, hvariable.mpr h.1, h.2.2⟩⟩

theorem localIssues_eq_nil_iff {place : Place} {locals names : List String} :
    visible.localIssues dialect place locals names = [] ↔
      Unseen locals names ∧ ∀ name ∈ names, dialect.find? name = none ∧ visible.function? name = none := by
  induction names generalizing locals with
  | nil => simp [localIssues, unseen_nil]
  | cons first rest ih =>
    have hfirst : (if locals.contains first then [Issue.mk place (.duplicateLocal first)]
        else (((visible.enterFunction locals).objection? dialect first).map fun flaw =>
          Issue.mk place flaw).toList) = [] ↔ (visible.enterFunction locals).Fresh dialect first := by
      by_cases hmem : first ∈ locals
      · simp [hmem, fresh_enterFunction]
      · rw [if_neg (by simpa using hmem), objections_eq_nil_iff]
    rw [localIssues, List.append_eq_nil_iff, hfirst, unseen_cons, List.forall_mem_cons]
    have hrest (hfresh : (visible.enterFunction locals).Fresh dialect first) :
        visible.localIssues dialect place (visible.addLocal dialect locals first) rest = [] ↔
          Unseen (first :: locals) rest ∧
            ∀ name ∈ rest, dialect.find? name = none ∧ visible.function? name = none := by
      have hadd : visible.addLocal dialect locals first = first :: locals := by
        have hnew := (fresh_enterFunction.mp hfresh).1
        simp [addLocal, hnew, objection?_eq_none_iff.mpr hfresh]
      rw [hadd, ih]
    rw [and_congr_right hrest, fresh_enterFunction]
    exact and_and_and_comm

theorem functionIssues_eq_nil_iff {place : Place} {table : FunctionTable} {position : Nat}
    {statements : List Statement} :
    visible.functionIssues dialect place table position statements = [] ↔
      Unseen (table.map Prod.fst) ((Statement.functions statements).map FunctionDefinition.name) ∧
        ∀ f ∈ Statement.functions statements, visible.Fresh dialect f.name := by
  induction statements generalizing table position with
  | nil => simp [functionIssues, Statement.functions, unseen_nil]
  | cons first rest ih =>
    cases first with
    | function definition =>
      have hlookup : (table.lookup definition.name).isSome = true ↔ definition.name ∈ table.map Prod.fst := by
        rw [← Decidable.not_iff_not, Option.not_isSome_iff_eq_none, List.lookup_eq_none_iff, List.mem_map]
        refine ⟨fun h hmem => ?_, fun h entry hentry => ?_⟩
        · obtain ⟨entry, hentry, hname⟩ := hmem
          exact bne_iff_ne.mp (h entry hentry) hname.symm
        · exact bne_iff_ne.mpr fun hname => h ⟨entry, hentry, hname.symm⟩
      have hfirst : (if (table.lookup definition.name).isSome then
            [Issue.mk (place.item "statements" position) (.duplicateFunction definition.name)]
          else ((visible.objection? dialect definition.name).map fun flaw =>
            Issue.mk (place.item "statements" position) flaw).toList) = [] ↔
            definition.name ∉ table.map Prod.fst ∧ visible.Fresh dialect definition.name := by
        by_cases hmem : (table.lookup definition.name).isSome = true
        · simp [hmem, hlookup.mp hmem]
        · rw [if_neg hmem, objections_eq_nil_iff, ← hlookup]
          simp [hmem]
      have hfunctions : Statement.functions (.function definition :: rest) =
          definition :: Statement.functions rest := rfl
      rw [functionIssues, List.append_eq_nil_iff, hfirst, hfunctions, List.map_cons, unseen_cons,
        List.forall_mem_cons]
      have hrest (h : definition.name ∉ table.map Prod.fst ∧ visible.Fresh dialect definition.name) :
          visible.functionIssues dialect place (visible.define dialect table definition) (position + 1) rest = [] ↔
            Unseen (definition.name :: table.map Prod.fst)
                ((Statement.functions rest).map FunctionDefinition.name) ∧
              ∀ f ∈ Statement.functions rest, visible.Fresh dialect f.name := by
        have hnone : table.lookup definition.name = none :=
          Option.not_isSome_iff_eq_none.mp fun hsome => h.1 (hlookup.mp hsome)
        rw [define_eq hnone (objection?_eq_none_iff.mpr h.2), ih, List.map_cons]
      rw [and_congr_right hrest]
      exact and_and_and_comm
    | _ => exact ih

end Visible

/-! ### The table and the frames -/

/-- What is visible is what the frames say. -/
structure Visible.Reflects (visible : Visible) (frames : Frames) : Prop where
  functions : ∀ name signature, visible.function? name = some signature ↔
    ∃ f ∈ frames.functions, f.name = name ∧ f.signature = signature
  vars : ∀ name, visible.isVariable name = true ↔ name ∈ frames.vars
  /-- No variable is called like a function. -/
  apart : ∀ name ∈ frames.vars, ∀ f ∈ frames.functions, f.name ≠ name
  inLoopBody : visible.inLoopBody = true ↔ frames.InLoopBody
  inFunction : visible.inFunction = true ↔ frames.InFunction

namespace Visible.Reflects

theorem function?_eq_none_iff (h : visible.Reflects frames) {name : String} :
    visible.function? name = none ↔ ∀ f ∈ frames.functions, f.name ≠ name := by
  refine ⟨fun hnone f hf hname => ?_, fun hall => ?_⟩
  · have hsome := (h.functions name f.signature).mpr ⟨f, hf, hname, rfl⟩
    rw [hnone] at hsome
    cases hsome
  · rcases hfunction : visible.function? name with _ | signature
    · rfl
    · obtain ⟨f, hf, hname, -⟩ := (h.functions name signature).mp hfunction
      exact absurd hname (hall f hf)

theorem fresh_iff (h : visible.Reflects frames) {name : String} :
    visible.Fresh dialect name ↔ Free dialect frames.vars frames.functions name := by
  have hvariable : visible.isVariable name = false ↔ name ∉ frames.vars := by
    rw [← h.vars, Bool.not_eq_true]
  exact ⟨fun hfresh => ⟨hfresh.builtin, hvariable.mp hfresh.unbound, h.function?_eq_none_iff.mp hfresh.function⟩,
    fun hfree => ⟨hfree.builtin, hvariable.mpr hfree.unbound, h.function?_eq_none_iff.mpr hfree.function⟩⟩

theorem start : ({} : Visible).Reflects [] where
  functions name signature := by simp [function?, Frames.functions]
  vars name := by simp [isVariable, Frames.vars]
  apart := nofun
  inLoopBody := by simp [Frames.InLoopBody]
  inFunction := by simp [Frames.InFunction]

/-- More variables are visible, and none of them is called like a function. -/
theorem adds {inner : Frames} {names : List String} (h : visible.Reflects frames) (hadds : visible.Adds later names)
    (hfresh : ∀ name ∈ names, visible.Fresh dialect name) (hfunctions : inner.functions = frames.functions)
    (hvars : ∀ name, name ∈ inner.vars ↔ name ∈ frames.vars ∨ name ∈ names)
    (hloop : inner.InLoopBody ↔ frames.InLoopBody) (hfunction : inner.InFunction ↔ frames.InFunction) :
    later.Reflects inner where
  functions name signature := by
    rw [function?_congr hadds.functions, hfunctions]
    exact h.functions name signature
  vars name := by rw [hadds.vars, hvars, h.vars]
  apart name hname := by
    rw [hfunctions]
    rcases (hvars name).mp hname with hname | hname
    · exact h.apart name hname
    · exact h.function?_eq_none_iff.mp (hfresh name hname).function
  inLoopBody := by rw [hadds.inLoopBody, h.inLoopBody, hloop]
  inFunction := by rw [hadds.inFunction, h.inFunction, hfunction]

/-- In a block its functions are visible as well, if they may be declared and have different names. -/
theorem enterBlock {place : Place} (h : visible.Reflects frames) (b : Block)
    (hissues : visible.functionIssues dialect place [] 0 b.statements = []) :
    (visible.enterBlock (visible.table dialect b.statements)).Reflects (.block b [] :: frames) where
  functions name signature := by
    have htable := (functionIssues_eq_nil hissues).1 name
    obtain ⟨hunseen, hfresh⟩ := functionIssues_eq_nil_iff.mp hissues
    have houter : visible.function? name = some signature → ∀ f ∈ b.functions, f.name ≠ name := by
      intro hsome f hf hname
      have hnone := (hfresh f hf).function
      rw [hname, hsome] at hnone
      cases hnone
    rw [List.lookup_nil, Option.none_or] at htable
    show ((visible.table dialect b.statements :: visible.functions).findSome? fun table =>
      table.lookup name) = some signature ↔ ∃ f ∈ b.functions ++ frames.functions, _
    rw [List.findSome?_cons, show (visible.table dialect b.statements).lookup name = _ from htable]
    rcases hnamed : FunctionDefinition.named? name b.functions with _ | definition
    · rw [show FunctionDefinition.named? name (Statement.functions b.statements) = none from hnamed]
      have hnone := FunctionDefinition.named?_eq_none.mp hnamed
      refine (h.functions name signature).trans ⟨fun ⟨f, hf, hname⟩ => ?_, fun ⟨f, hf, hname⟩ => ?_⟩
      · exact ⟨f, List.mem_append_right _ hf, hname⟩
      · rcases List.mem_append.mp hf with hf | hf
        · exact absurd hname.1 (hnone f hf)
        · exact ⟨f, hf, hname⟩
    · rw [show FunctionDefinition.named? name (Statement.functions b.statements) = some definition from hnamed]
      have hmem := FunctionDefinition.mem_of_named? hnamed
      have hname := FunctionDefinition.name_of_named? hnamed
      constructor
      · rintro ⟨⟩
        exact ⟨definition, List.mem_append_left _ hmem, hname, rfl⟩
      · rintro ⟨f, hf, hfname, rfl⟩
        rcases List.mem_append.mp hf with hf | hf
        · have hsame := FunctionDefinition.named?_of_mem (unseen_iff.mp hunseen) hf
          rw [hfname] at hsame
          cases hnamed.symm.trans hsame
          rfl
        · have hsome := (h.functions name f.signature).mpr ⟨f, hf, hfname, rfl⟩
          exact absurd hname (houter hsome definition hmem)
  vars name := by
    rw [show (visible.enterBlock (visible.table dialect b.statements)).isVariable name =
      visible.isVariable name from Region.isVariable_inside (.block b) name]
    exact h.vars name
  apart name hname f hf := by
    rcases List.mem_append.mp hf with hf | hf
    · rintro rfl
      have hunbound := ((functionIssues_eq_nil_iff.mp hissues).2 f hf).unbound
      rw [(h.vars _).mpr hname] at hunbound
      cases hunbound
    · exact h.apart name hname f hf
  inLoopBody := h.inLoopBody
  inFunction := h.inFunction.trans (by simp [Frames.InFunction])

theorem enterLoop (h : visible.Reflects frames) : visible.enterLoop.Reflects (.loop [] :: frames) where
  functions := h.functions
  vars name := by
    rw [show visible.enterLoop.isVariable name = visible.isVariable name by
      simp [Visible.enterLoop, isVariable]]
    exact h.vars name
  apart := h.apart
  inLoopBody := by simp [Visible.enterLoop, Frames.InLoopBody]
  inFunction := h.inFunction.trans (by simp [Frames.InFunction])

theorem rounds (h : visible.Reflects frames) :
    ({ visible with inLoopBody := true } : Visible).Reflects (.rounds :: frames) where
  functions := h.functions
  vars := h.vars
  apart := h.apart
  inLoopBody := by simp [Frames.InLoopBody]
  inFunction := h.inFunction.trans (by simp [Frames.InFunction])

theorem enterFunction {place : Place} (h : visible.Reflects frames) (definition : FunctionDefinition)
    (hissues : visible.localIssues dialect place [] (definition.params ++ definition.returns) = []) :
    (visible.enterFunction (visible.locals dialect (definition.params ++ definition.returns))).Reflects
      (.function definition :: frames) where
  functions := h.functions
  vars name := by
    have hlocals := localIssues_eq_nil hissues name
    simpa [Visible.enterFunction, isVariable, Frames.vars, Visible.locals] using hlocals
  apart name hname := h.function?_eq_none_iff.mp ((localIssues_eq_nil_iff.mp hissues).2 name hname).2
  inLoopBody := by simp [Visible.enterFunction, Frames.InLoopBody]
  inFunction := by simp [Visible.enterFunction, Frames.InFunction]

end Visible.Reflects

/-- Frames that grow with the statements before. -/
structure Frames.Grow (around : List Statement → Frames) : Prop where
  outer : ∀ before, (around before).tail = (around []).tail
  functions : ∀ before, (around before).functions = (around []).functions
  vars : ∀ before, (around before).vars = before.flatMap Statement.names ++ Frames.vars (around []).tail
  inLoopBody : ∀ before, (around before).InLoopBody ↔ (around []).InLoopBody
  inFunction : ∀ before, (around before).InFunction ↔ (around []).InFunction

theorem Frames.grow_block (b : Block) (outer : Frames) : Frames.Grow fun before => .block b before :: outer where
  outer _ := rfl
  functions _ := rfl
  vars _ := rfl
  inLoopBody _ := .rfl
  inFunction _ := by simp [Frames.InFunction]

theorem Frames.grow_loop (outer : Frames) : Frames.Grow fun before => .loop before :: outer where
  outer _ := rfl
  functions _ := rfl
  vars _ := rfl
  inLoopBody _ := .rfl
  inFunction _ := by simp [Frames.InFunction]

/-- After a statement without issues its names are visible as well. -/
theorem Frames.Grow.after {around : List Statement → Frames} {before : List Statement} {s : Statement}
    {place : Place} (hgrow : Frames.Grow around) (h : visible.Reflects (around before))
    (hissues : s.issues dialect visible place = []) :
    (visible.after dialect s).Reflects (around (before ++ [s])) := by
  have hadds : visible.Adds (visible.after dialect s) s.names ∧ ∀ name ∈ s.names, visible.Fresh dialect name := by
    cases s with
    | declaration names value =>
      obtain ⟨hfresh, -, hadds⟩ := Visible.declarationIssues_eq_nil (List.append_eq_nil_iff.mp hissues).2
      exact ⟨hadds, hfresh⟩
    | _ => exact ⟨.refl visible, nofun⟩
  refine h.adds hadds.1 hadds.2 ?_ (fun name => ?_) ?_ ?_
  · rw [hgrow.functions, hgrow.functions before]
  · rw [hgrow.vars, hgrow.vars before]
    simp only [List.flatMap_append, List.flatMap_singleton, List.mem_append]
    grind
  · rw [hgrow.inLoopBody, hgrow.inLoopBody before]
  · rw [hgrow.inFunction, hgrow.inFunction before]

/-- After statements without issues. -/
theorem Frames.Grow.afterAll {around : List Statement → Frames} {before statements : List Statement}
    {place : Place} {position : Nat} (hgrow : Frames.Grow around) (h : visible.Reflects (around before))
    (hissues : Statement.listIssues dialect visible place position statements = []) :
    (visible.afterAll dialect statements).Reflects (around (before ++ statements)) := by
  induction statements generalizing visible before position with
  | nil =>
    rw [List.append_nil]
    exact h
  | cons first rest ih =>
    obtain ⟨hfirst, hrest⟩ := List.append_eq_nil_iff.mp hissues
    rw [List.append_cons]
    exact ih (hgrow.after h hfirst) hrest

/-! ### Expressions -/

theorem Literal.issues_eq_nil_iff {place : Place} {l : Literal} :
    l.issues place = [] ↔ ∃ value, l.value = .ok value := by
  unfold Literal.issues Literal.value
  cases l.read with
  | ok value => exact ⟨fun _ => ⟨value, rfl⟩, fun _ => rfl⟩
  | error fault =>
    constructor
    · intro h
      cases h
    · rintro ⟨_, h⟩
      cases h

theorem Frames.takes_iff {place : Place} {name : String} {got : Nat} (h : visible.Reflects frames) :
    Expr.calleeIssues dialect visible place name got = [] ↔ frames.Takes dialect name got := by
  unfold Expr.calleeIssues Frames.Takes
  cases dialect.find? name with
  | some builtin => simp
  | none =>
    rcases hfunction : visible.function? name with _ | signature
    · have hnone := h.function?_eq_none_iff.mp hfunction
      simp only [Option.map_none, List.cons_ne_nil, false_iff]
      rintro ⟨f, hf, hname, -⟩
      exact hnone f hf hname
    · simp only [Option.map_some]
      obtain ⟨f, hf, hname, rfl⟩ := (h.functions name signature).mp hfunction
      have hif : (if Arity.exactly f.signature.params = .exactly got then []
          else [Issue.mk place (.argumentCount name (.exactly f.signature.params) got)]) = [] ↔
            f.params.length = got := by
        simp [FunctionDefinition.signature]
      rw [hif]
      refine ⟨fun hcount => ⟨f, hf, hname, hcount⟩, fun htaken => ?_⟩
      obtain ⟨g, hg, hgname, hcount⟩ := htaken
      have hsome := (h.functions name g.signature).mpr ⟨g, hg, hgname, rfl⟩
      rw [hfunction] at hsome
      have hsignature := congrArg Signature.params (Option.some.inj hsome)
      exact hsignature.trans hcount

/-- Of an expression without issues the number of values is known, and it is the one that is asked for. -/
theorem Expr.yields_iff {place there : Place} {e : Expr} {count : Nat} {flaw : Nat → Flaw}
    (h : visible.Reflects frames) (hissues : e.issues dialect visible there = []) :
    e.countIssues dialect visible place count flaw = [] ↔ e.Yields dialect frames count := by
  have hif (n : Nat) : (if n = count then [] else [Issue.mk place (flaw n)]) = [] ↔ count = n := by
    simp [eq_comm]
  unfold Expr.countIssues
  cases e with
  | literal l => exact hif 1
  | identifier name => exact hif 1
  | call name args =>
    have htakes := (Frames.takes_iff h).mp (List.append_eq_nil_iff.mp hissues).2
    unfold Frames.Takes at htakes
    simp only [Expr.count?, Expr.Yields]
    rcases hfind : dialect.find? name with _ | builtin <;> rw [hfind] at htakes
    · obtain ⟨f, hf, hname, -⟩ := htakes
      have hfunction := (h.functions name f.signature).mpr ⟨f, hf, hname, rfl⟩
      rw [hfunction]
      refine (hif f.returns.length).trans
        ⟨fun hcount => ⟨f, hf, hname, hcount.symm⟩, fun hyielded => ?_⟩
      obtain ⟨g, hg, hgname, hcount⟩ := hyielded
      have hsome := (h.functions name g.signature).mpr ⟨g, hg, hgname, rfl⟩
      rw [hfunction] at hsome
      have hsignature := congrArg Signature.returns (Option.some.inj hsome)
      exact (hsignature.trans hcount).symm
    · exact hif _

mutual
theorem Expr.issues_eq_nil_iff (h : visible.Reflects frames) (place : Place) (e : Expr) :
    e.issues dialect visible place = [] ↔ Site.Sound dialect ⟨frames, .expression e⟩ := by
  rw [Site.sound_iff]
  cases e with
  | literal l => simp [Expr.issues, Literal.issues_eq_nil_iff, Site.Rule, Expr.Rule, Site.parts, Expr.parts]
  | identifier name => simp [Expr.issues, h.vars, Site.Rule, Expr.Rule, Site.parts, Expr.parts]
  | call name args =>
    rw [Expr.issues, List.append_eq_nil_iff, Frames.takes_iff h, Expr.argumentIssues_eq_nil_iff h place name 0 args]
    simp only [Site.Rule, Expr.Rule, Site.parts, Expr.parts, List.forall_mem_map]
    exact ⟨fun ⟨⟨hrule, hsound⟩, htakes⟩ => ⟨⟨htakes, hrule⟩, hsound⟩,
      fun ⟨⟨htakes, hrule⟩, hsound⟩ => ⟨⟨hrule, hsound⟩, htakes⟩⟩

theorem Expr.argumentIssues_eq_nil_iff (h : visible.Reflects frames) (place : Place) (callee : String)
    (position : Nat) (args : List Expr) :
    Expr.argumentIssues dialect visible place callee position args = [] ↔
      (∀ arg ∈ args.zipIdx position, arg.1.ArgumentRule dialect frames callee arg.2) ∧
        ∀ e ∈ Expr.evaluated dialect callee position args, Site.Sound dialect ⟨frames, .expression e⟩ := by
  cases args with
  | nil => simp [Expr.argumentIssues, Expr.evaluated]
  | cons e rest =>
    have hrest := Expr.argumentIssues_eq_nil_iff h place callee (position + 1) rest
    have he := Expr.issues_eq_nil_iff h (place.item "args" position) e
    rw [Expr.argumentIssues, List.append_eq_nil_iff, hrest, List.zipIdx_cons, List.forall_mem_cons,
      Expr.evaluated_cons, List.forall_mem_append]
    have hfirst : (if dialect.wantsLiteral callee position then
          if e.isLiteral then [] else [Issue.mk (place.item "args" position) (.literalWanted position callee)]
        else e.issues dialect visible (place.item "args" position) ++
          e.countIssues dialect visible (place.item "args" position) 1 (.notSingle .argument)) = [] ↔
        e.ArgumentRule dialect frames callee position ∧
          ∀ x ∈ if dialect.wantsLiteral callee position then [] else [e],
            Site.Sound dialect ⟨frames, .expression x⟩ := by
      unfold Expr.ArgumentRule
      by_cases hwants : dialect.wantsLiteral callee position = true
      · cases e.isLiteral <;> simp [hwants]
      · simp only [hwants, Bool.false_eq_true, if_false, List.append_eq_nil_iff, List.forall_mem_singleton]
        rw [and_congr_right fun hissues => Expr.yields_iff h hissues, he]
        exact and_comm
    rw [hfirst]
    exact and_and_and_comm
end

/-- An expression that has to yield a number of values. -/
theorem Expr.valued_iff {count : Nat} {flaw : Nat → Flaw} (h : visible.Reflects frames) (place there : Place)
    (e : Expr) :
    e.issues dialect visible place ++ e.countIssues dialect visible there count flaw = [] ↔
      e.Yields dialect frames count ∧ Site.Sound dialect ⟨frames, .expression e⟩ := by
  rw [List.append_eq_nil_iff, and_congr_right fun hissues => Expr.yields_iff h hissues,
    Expr.issues_eq_nil_iff h place e]
  exact and_comm

/-! ### Cases -/

/-- The rule of cases that come after cases with such values. -/
structure Case.RuleAfter (seen : List Word) (cases : List Case) : Prop where
  literals : ∀ c ∈ cases, ∀ l, c.value = some l → ∃ value, l.value = .ok value
  unseen : Unseen seen (cases.filterMap Case.word?)
  last : ∀ c ∈ cases.dropLast, c.value ≠ none

theorem Case.ruleAfter_nil_iff {cases : List Case} : Case.RuleAfter [] cases ↔ Case.Rule cases :=
  ⟨fun h => ⟨h.literals, unseen_iff.mp h.unseen, h.last⟩, fun h => ⟨h.literals, unseen_iff.mpr h.distinct, h.last⟩⟩

/-- Cases are gone through one by one, with the values that earlier ones have. -/
theorem Case.ruleAfter_cons (place : Place) {seen : List Word} {first : Case} {rest : List Case} :
    Case.RuleAfter seen (first :: rest) ↔
      Case.valueIssues place rest.isEmpty seen first.value = [] ∧
        Case.RuleAfter (Case.addValue seen first.value) rest := by
  have hlast : (∀ c ∈ (first :: rest).dropLast, c.value ≠ none) ↔
      (first.value = none → rest = []) ∧ ∀ c ∈ rest.dropLast, c.value ≠ none := by
    cases rest with
    | nil => simp
    | cons second others => simp [List.dropLast_cons_cons]
  obtain ⟨value, body⟩ := first
  cases value with
  | none =>
    have hword : Case.word? ⟨none, body⟩ = none := rfl
    simp only [Case.valueIssues, Case.addValue]
    constructor
    · rintro ⟨hliterals, hunseen, hends⟩
      obtain ⟨hempty, hends⟩ := hlast.mp hends
      rw [List.filterMap_cons_none hword] at hunseen
      exact ⟨by simp [hempty], fun c hc => hliterals c (List.mem_cons_of_mem _ hc), hunseen, hends⟩
    · rintro ⟨hempty, hliterals, hunseen, hends⟩
      refine ⟨List.forall_mem_cons.mpr ⟨?_, hliterals⟩, ?_, hlast.mpr ⟨fun _ => ?_, hends⟩⟩
      · rintro _ ⟨⟩
      · rw [List.filterMap_cons_none hword]
        exact hunseen
      · simpa using hempty
  | some l =>
    rcases hread : l.read with fault | w
    · have hissues : l.issues place ≠ [] := by simp [Literal.issues, hread]
      simp only [Case.valueIssues, List.append_eq_nil_iff, hissues, false_and, iff_false]
      intro h
      exact hissues (Literal.issues_eq_nil_iff.mpr (h.literals _ (List.mem_cons_self ..) l rfl))
    · have hvalue : l.value = .ok w := by
        unfold Literal.value
        rw [hread]
        rfl
      have hissues : l.issues place = [] := Literal.issues_eq_nil_iff.mpr ⟨w, hvalue⟩
      have hword : Case.word? ⟨some l, body⟩ = some w := by simp [Case.word?, hvalue, Except.toOption]
      simp only [Case.valueIssues, Case.addValue, hread, hissues, List.nil_append]
      have hseen : (if seen.contains w then [Issue.mk place (.duplicateCase l.text)] else []) = [] ↔ w ∉ seen := by
        simp
      rw [hseen]
      constructor
      · rintro ⟨hliterals, hunseen, hends⟩
        rw [List.filterMap_cons_some hword] at hunseen
        obtain ⟨hnew, hunseen⟩ := unseen_cons.mp hunseen
        exact ⟨hnew, fun c hc => hliterals c (List.mem_cons_of_mem _ hc), hunseen, (hlast.mp hends).2⟩
      · rintro ⟨hnew, hliterals, hunseen, hends⟩
        refine ⟨List.forall_mem_cons.mpr ⟨?_, hliterals⟩, ?_, hlast.mpr ⟨?_, hends⟩⟩
        · rintro _ ⟨⟩
          exact ⟨w, hvalue⟩
        · rw [List.filterMap_cons_some hword]
          exact unseen_cons.mpr ⟨hnew, hunseen⟩
        · rintro ⟨⟩

/-! ### Statements and blocks -/

/-- A function of the block around, whose name may be declared there. -/
structure FunctionDefinition.Own (dialect : Dialect) (frames : Frames) (f : FunctionDefinition) : Prop where
  mem : f ∈ frames.functions
  builtin : dialect.find? f.name = none
  function : ∀ g ∈ Frames.functions frames.tail, g.name ≠ f.name

theorem FunctionDefinition.Own.free {f : FunctionDefinition} (hown : f.Own dialect frames)
    (h : visible.Reflects frames) : Free dialect frames.vars (Frames.functions frames.tail) f.name where
  builtin := hown.builtin
  unbound hmem := h.apart _ hmem f hown.mem rfl
  function := hown.function

theorem FunctionDefinition.Own.before {around : List Statement → Frames} {f : FunctionDefinition}
    (hown : f.Own dialect (around [])) (hgrow : Frames.Grow around) (before : List Statement) :
    f.Own dialect (around before) where
  mem := (hgrow.functions before).symm ▸ hown.mem
  builtin := hown.builtin
  function := (hgrow.outer before).symm ▸ hown.function

/-- In front of a loop there may be anything but functions. -/
theorem Statement.initIssues_eq_nil_iff {place : Place} {position : Nat} {statements : List Statement} :
    Statement.initIssues dialect visible place position statements = [] ↔
      Statement.functions statements = [] ∧ Statement.listIssues dialect visible place position statements = [] := by
  induction statements generalizing visible position with
  | nil => simp [Statement.initIssues, Statement.listIssues, Statement.functions]
  | cons first rest ih =>
    have keep {s : Statement} (hfunctions : Statement.functions (s :: rest) = Statement.functions rest) :
        s.issues dialect visible (place.item "statements" position) ++
            Statement.initIssues dialect (visible.after dialect s) place (position + 1) rest = [] ↔
          Statement.functions (s :: rest) = [] ∧
            Statement.listIssues dialect visible place position (s :: rest) = [] := by
      rw [List.append_eq_nil_iff, ih, Statement.listIssues, List.append_eq_nil_iff, hfunctions]
      exact and_left_comm
    cases first with
    | function f => simp [Statement.initIssues, Statement.functions]
    | _ => exact keep rfl

mutual
theorem Block.issues_eq_nil_iff {visible : Visible} {frames : Frames} (h : visible.Reflects frames)
    (place : Place) (b : Block) :
    b.issues dialect visible place = [] ↔ Site.Sound dialect ⟨frames, .block b⟩ := by
  obtain ⟨id, statements⟩ := b
  rw [Site.sound_iff, Block.issues, List.append_eq_nil_iff]
  have hgrow := Frames.grow_block ⟨id, statements⟩ frames
  -- Either side says that the functions of the block may be declared; with that the tables agree inside.
  have hinside (hissues : visible.functionIssues dialect place [] 0 statements = []) :
      Statement.listIssues dialect (visible.enterBlock (visible.table dialect statements)) place 0 statements = [] ↔
        ∀ part ∈ Block.parts frames ⟨id, statements⟩, part.Sound dialect := by
    have hreflects := h.enterBlock ⟨id, statements⟩ hissues
    refine Statement.listIssues_eq_nil_iff hgrow hreflects place 0 statements fun f hf => ?_
    have hmem : f ∈ Statement.functions statements := Statement.mem_functions.mpr hf
    have hfree := h.fresh_iff.mp ((Visible.functionIssues_eq_nil_iff.mp hissues).2 f hmem)
    exact ⟨List.mem_append_left _ hmem, hfree.builtin, hfree.function⟩
  constructor
  · rintro ⟨hissues, hlist⟩
    exact ⟨unseen_iff.mp (Visible.functionIssues_eq_nil_iff.mp hissues).1, (hinside hissues).mp hlist⟩
  · rintro ⟨hrule, hparts⟩
    have hissues : visible.functionIssues dialect place [] 0 statements = [] := by
      refine Visible.functionIssues_eq_nil_iff.mpr ⟨unseen_iff.mpr hrule, fun f hf => h.fresh_iff.mpr ?_⟩
      obtain ⟨before, hsite⟩ := Statement.mem_sites (fun before => .block ⟨id, statements⟩ before :: frames) []
        (Statement.mem_functions.mp hf)
      have hfree := (Site.sound_iff.mp (hparts _ hsite)).1.1
      exact ⟨hfree.builtin, fun hmem => hfree.unbound (List.mem_append_right _ hmem), hfree.function⟩
    exact ⟨hissues, (hinside hissues).mpr hparts⟩

theorem Statement.listIssues_eq_nil_iff {visible : Visible} {around : List Statement → Frames}
    {before : List Statement} (hgrow : Frames.Grow around) (h : visible.Reflects (around before)) (place : Place)
    (position : Nat) (statements : List Statement)
    (hown : ∀ f, Statement.function f ∈ statements → f.Own dialect (around [])) :
    Statement.listIssues dialect visible place position statements = [] ↔
      ∀ part ∈ Statement.sites around before statements, part.Sound dialect := by
  cases statements with
  | nil => simp [Statement.listIssues, Statement.sites]
  | cons s rest =>
    have hs := Statement.issues_eq_nil_iff h (place.item "statements" position) s
      (fun f hf => (hown f (by rw [hf]; exact List.mem_cons_self ..)).before hgrow before)
    rw [Statement.listIssues, List.append_eq_nil_iff, Statement.sites, List.forall_mem_cons, ← hs]
    exact and_congr_right fun hissues => Statement.listIssues_eq_nil_iff hgrow (hgrow.after h hissues)
      place (position + 1) rest fun f hf => hown f (List.mem_cons_of_mem _ hf)

theorem Case.listIssues_eq_nil_iff {visible : Visible} {frames : Frames} (h : visible.Reflects frames)
    (place : Place) (position : Nat) (seen : List Word) (cases : List Case) :
    Case.listIssues dialect visible place position seen cases = [] ↔
      Case.RuleAfter seen cases ∧ ∀ c ∈ cases, Site.Sound dialect ⟨frames, .block c.body⟩ := by
  cases cases with
  | nil =>
    simp only [Case.listIssues, List.not_mem_nil, false_implies, implies_true, and_true, true_iff]
    exact ⟨nofun, unseen_nil seen, nofun⟩
  | cons first rest =>
    obtain ⟨value, body⟩ := first
    have hbody := Block.issues_eq_nil_iff h ((place.item "cases" position).field "body") body
    have hrest := Case.listIssues_eq_nil_iff h place (position + 1) (Case.addValue seen value) rest
    rw [Case.listIssues, List.append_eq_nil_iff, List.append_eq_nil_iff, hbody, hrest,
      Case.ruleAfter_cons (place.item "cases" position), List.forall_mem_cons]
    exact and_and_and_comm

theorem Statement.issues_eq_nil_iff {visible : Visible} {frames : Frames} (h : visible.Reflects frames)
    (place : Place) (s : Statement) (hown : ∀ f, s = .function f → FunctionDefinition.Own dialect frames f) :
    s.issues dialect visible place = [] ↔ Site.Sound dialect ⟨frames, .statement s⟩ := by
  rw [Site.sound_iff]
  cases s with
  | expression e =>
    rw [Statement.issues, Expr.valued_iff h]
    simp [Site.Rule, Statement.Rule, Site.parts, Statement.parts]
  | assignment targets e =>
    rw [Statement.issues, List.append_eq_nil_iff, Expr.valued_iff h, Visible.targetIssues_eq_nil_iff, unseen_iff]
    simp only [Site.Rule, Statement.Rule, Site.parts, Statement.parts, List.forall_mem_singleton, h.vars]
    exact and_right_comm
  | declaration names value =>
    cases value with
    | none =>
      rw [Statement.issues, List.nil_append, Visible.declarationIssues_eq_nil_iff]
      simp [Site.Rule, Statement.Rule, Site.parts, Statement.parts, h.fresh_iff]
    | some e =>
      rw [Statement.issues, List.append_eq_nil_iff, Visible.declarationIssues_eq_nil_iff, Expr.valued_iff h]
      simp [Site.Rule, Statement.Rule, Site.parts, Statement.parts, h.fresh_iff, and_right_comm]
  | conditional condition body =>
    rw [Statement.issues, List.append_eq_nil_iff, Expr.singleIssues, Expr.valued_iff h,
      Block.issues_eq_nil_iff h _ body]
    simp [Site.Rule, Statement.Rule, Site.parts, Statement.parts, and_assoc]
  | switch scrutinee cases =>
    rw [Statement.issues, List.append_eq_nil_iff, Expr.singleIssues, Expr.valued_iff h,
      Case.listIssues_eq_nil_iff h _ 0 [] cases, Case.ruleAfter_nil_iff]
    simp only [Site.Rule, Statement.Rule, Site.parts, Statement.parts, List.forall_mem_cons, List.forall_mem_map]
    exact and_and_and_comm
  | function f =>
    have hfree := (hown f rfl).free h
    obtain ⟨name, params, returns, body⟩ := f
    rw [Statement.issues, List.append_eq_nil_iff]
    have hbody (hissues : visible.localIssues dialect place [] (params ++ returns) = []) :=
      Block.issues_eq_nil_iff (h.enterFunction ⟨name, params, returns, body⟩ hissues)
        (place.field "body") body
    rw [and_congr_right hbody, Visible.localIssues_eq_nil_iff, unseen_iff]
    simp only [Site.Rule, Statement.Rule, Site.parts, Statement.parts, List.forall_mem_singleton, hfree, true_and]
    refine and_congr_left' (and_congr_right fun _ => forall₂_congr fun x _ => ?_)
    rw [h.function?_eq_none_iff]
    exact ⟨fun ⟨hbuiltin, hfunction⟩ => ⟨hbuiltin, nofun, hfunction⟩, fun hx => ⟨hx.builtin, hx.function⟩⟩
  | loop l =>
    obtain ⟨⟨id, init⟩, condition, post, body⟩ := l
    rw [Statement.issues, List.append_eq_nil_iff, List.append_eq_nil_iff, List.append_eq_nil_iff, and_assoc, and_assoc]
    have hgrow := Frames.grow_loop frames
    have hinit : Statement.initIssues dialect visible.enterLoop (place.field "pre") 0 init = [] ↔
        Statement.functions init = [] ∧
          ∀ part ∈ Statement.sites (fun before => .loop before :: frames) [] init, part.Sound dialect := by
      rw [Statement.initIssues_eq_nil_iff]
      refine and_congr_right fun hnone => ?_
      refine Statement.listIssues_eq_nil_iff hgrow h.enterLoop (place.field "pre") 0 init fun f hf => ?_
      have hmem := Statement.mem_functions.mpr hf
      rw [hnone] at hmem
      cases hmem
    have hinside (hissues : Statement.initIssues dialect visible.enterLoop (place.field "pre") 0 init = []) :
        (visible.enterLoop.afterAll dialect init).Reflects (.loop init :: frames) :=
      hgrow.afterAll h.enterLoop (Statement.initIssues_eq_nil_iff.mp hissues).2
    refine (and_congr_right fun hissues => and_congr (Expr.valued_iff (hinside hissues) _ _ condition)
      (and_congr (Block.issues_eq_nil_iff (hinside hissues).rounds (place.field "body") body)
        (Block.issues_eq_nil_iff (hinside hissues) (place.field "post") post))).trans ?_
    rw [hinit]
    simp only [Site.Rule, Statement.Rule, Site.parts, Statement.parts, List.forall_mem_append, List.forall_mem_cons,
      List.not_mem_nil, false_implies, implies_true, and_true, Block.functions]
    exact ⟨fun ⟨⟨hnone, hsites⟩, ⟨hyields, hcondition⟩, hbody, hpost⟩ =>
        ⟨⟨hnone, hyields⟩, hsites, hcondition, hbody, hpost⟩,
      fun ⟨⟨hnone, hyields⟩, hsites, hcondition, hbody, hpost⟩ =>
        ⟨⟨hnone, hsites⟩, ⟨hyields, hcondition⟩, hbody, hpost⟩⟩
  | breakLoop => simp [Statement.issues, Site.Rule, Statement.Rule, Site.parts, Statement.parts, h.inLoopBody]
  | continueLoop => simp [Statement.issues, Site.Rule, Statement.Rule, Site.parts, Statement.parts, h.inLoopBody]
  | leave => simp [Statement.issues, Site.Rule, Statement.Rule, Site.parts, Statement.parts, h.inFunction]
  | block b =>
    rw [Statement.issues, Block.issues_eq_nil_iff h place b]
    simp [Site.Rule, Statement.Rule, Site.parts, Statement.parts]
end

/-- The check of a program, with whatever dialect, finds no issue just when the program is well scoped. -/
theorem issues_eq_nil_iff_wellScoped (dialect : Dialect) (program : Block) :
    Validation.issues dialect program = [] ↔ program.WellScoped dialect :=
  Block.issues_eq_nil_iff .start [] program

/-- What passes the validation are the programs of the right shape in which no issue is found. -/
theorem validate_eq_ok_iff {target : Target} {doc : Option Json} {program : Block} :
    Validation.validate target doc = .ok program ↔
      Validation.readProgram doc = .ok program ∧ Validation.issues target.dialect program = [] := by
  unfold Validation.validate
  rcases Validation.readProgram doc with found | read
  · exact ⟨nofun, nofun⟩
  · simp only [bind, Except.bind, Except.ok.injEq]
    constructor
    · intro h
      split at h
      · rename_i hissues
        cases h
        exact ⟨rfl, hissues⟩
      · cases h
    · rintro ⟨rfl, hissues⟩
      rw [hissues]

/-- What passes the validation for a target are the programs of the right shape whose nodes all keep
their rules. -/
theorem validate_iff_wellScoped (target : Target) (doc : Option Json) (program : Block) :
    Validation.validate target doc = .ok program ↔
      Validation.readProgram doc = .ok program ∧ program.WellScoped target.dialect := by
  rw [← issues_eq_nil_iff_wellScoped]
  exact validate_eq_ok_iff

end BlockIR
