import BlockIR.Proofs.Region
import BlockIR.Validation
import Mathlib.Logic.Relation

/-! Well-scoped programs.

The rules of a program are stated here node by node. What stands around a node
(`Frames`) says which variables and functions its names can mean and whether a
loop or a function can be left; a program is well scoped if each of its nodes
keeps the rule of its kind there. Nothing is gone through in an order and no
table is kept: the rules say what is required, and the check says how it is
found out. -/
namespace BlockIR

/-! ### What stands around a node -/

/-- One thing that a node stands in. -/
inductive Frame where
  /-- A block, after some of its statements. -/
  | block (b : Block) (before : List Statement)
  /-- A loop, after some of the statements in front of it. -/
  | loop (before : List Statement)
  /-- The body of a loop. -/
  | rounds
  /-- The body of a function. -/
  | function (definition : FunctionDefinition)

/-- All that a node stands in, innermost first. -/
abbrev Frames : Type := List Frame

namespace Frames

/-- The variables that a name can mean: those declared before, in the blocks and in front of the loops
around, up to the function around, and the parameters and returns of that function. -/
def vars : Frames → List String
  | [] => []
  | .block _ before :: outer => before.flatMap Statement.names ++ vars outer
  | .loop before :: outer => before.flatMap Statement.names ++ vars outer
  | .rounds :: outer => vars outer
  | .function definition :: _ => definition.params ++ definition.returns

/-- The functions that a name can mean: those of all blocks around, before or after. -/
def functions : Frames → List FunctionDefinition
  | [] => []
  | .block b _ :: outer => b.functions ++ functions outer
  | _ :: outer => functions outer

/-- In the body of a loop, and not in a function inside it or at another part of a loop inside it. -/
def InLoopBody : Frames → Prop
  | .rounds :: _ => True
  | .block _ _ :: outer => InLoopBody outer
  | _ => False

/-- In a function. -/
def InFunction (frames : Frames) : Prop := ∃ definition, .function definition ∈ frames

end Frames

/-! ### The rules -/

variable (dialect : Dialect)

/-- A name that may be declared among such variables and functions. -/
structure Free (vars : List String) (functions : List FunctionDefinition) (name : String) : Prop where
  builtin : dialect.find? name = none
  unbound : name ∉ vars
  function : ∀ f ∈ functions, f.name ≠ name

/-- An expression yields that many values. -/
def Expr.Yields (frames : Frames) (count : Nat) : Expr → Prop
  | .call name _ =>
    match dialect.find? name with
    | some builtin => count = if builtin.returnsValue then 1 else 0
    | none => ∃ f ∈ frames.functions, f.name = name ∧ f.returns.length = count
  | _ => count = 1

/-- What is called is a builtin or a function of a block around, and takes that many arguments. -/
def Frames.Takes (frames : Frames) (name : String) (count : Nat) : Prop :=
  match dialect.find? name with
  | some builtin => builtin.arity = .exactly count
  | none => ∃ f ∈ frames.functions, f.name = name ∧ f.params.length = count

/-- An argument is a literal where one is wanted, and elsewhere yields one value. -/
def Expr.ArgumentRule (frames : Frames) (callee : String) (position : Nat) (e : Expr) : Prop :=
  if dialect.wantsLiteral callee position then e.isLiteral = true else e.Yields dialect frames 1

/-- The rule of an expression that is evaluated. -/
def Expr.Rule (frames : Frames) : Expr → Prop
  | .literal l => ∃ value, l.value = .ok value
  | .identifier name => name ∈ frames.vars
  | .call name args =>
    frames.Takes dialect name args.length ∧
      ∀ arg ∈ args.zipIdx, arg.1.ArgumentRule dialect frames name arg.2

/-- The word of a case; none for the default. -/
def Case.word? (c : Case) : Option Word := c.value.bind fun l => l.value.toOption

/-- The rule of the cases of a switch. -/
structure Case.Rule (cases : List Case) : Prop where
  /-- Every value is one. -/
  literals : ∀ c ∈ cases, ∀ l, c.value = some l → ∃ value, l.value = .ok value
  /-- No two cases have the same. -/
  distinct : (cases.filterMap Case.word?).Nodup
  /-- Only the last case may be the default. -/
  last : ∀ c ∈ cases.dropLast, c.value ≠ none

/-- The rule of a statement. Of the frames around a function the first is the block that defines it;
the other functions there have other names by the rule of the block. -/
def Statement.Rule (frames : Frames) : Statement → Prop
  | .expression e => e.Yields dialect frames 0
  | .assignment targets e =>
    e.Yields dialect frames targets.length ∧ targets.Nodup ∧ ∀ name ∈ targets, name ∈ frames.vars
  | .declaration names value =>
    (∀ e, value = some e → e.Yields dialect frames names.length) ∧
      names.Nodup ∧ ∀ name ∈ names, Free dialect frames.vars frames.functions name
  | .conditional condition _ => condition.Yields dialect frames 1
  | .switch scrutinee cases => scrutinee.Yields dialect frames 1 ∧ Case.Rule cases
  | .function definition =>
    Free dialect frames.vars (Frames.functions frames.tail) definition.name ∧
      (definition.params ++ definition.returns).Nodup ∧
        ∀ name ∈ definition.params ++ definition.returns, Free dialect [] frames.functions name
  | .loop l =>
    l.init.functions = [] ∧
      l.condition.Yields dialect (.loop l.init.statements :: frames) 1
  | .breakLoop => frames.InLoopBody
  | .continueLoop => frames.InLoopBody
  | .leave => frames.InFunction
  | .block _ => True

/-- The rule of a block: its functions have different names. -/
def Block.Rule (b : Block) : Prop := (b.functions.map FunctionDefinition.name).Nodup

/-! ### Nodes -/

/-- A node of a program. -/
inductive Node where
  | block (b : Block)
  | statement (s : Statement)
  | expression (e : Expr)

/-- A node and what stands around it. -/
structure Site where
  around : Frames
  node : Node

/-- The sites of statements that follow one another, each after those before it. -/
def Statement.sites (around : List Statement → Frames) (before : List Statement) : List Statement → List Site
  | [] => []
  | s :: rest => ⟨around before, .statement s⟩ :: sites around (before ++ [s]) rest

/-- The arguments that are evaluated, of a list from a position on. -/
def Expr.evaluated (callee : String) (position : Nat) (args : List Expr) : List Expr :=
  ((args.zipIdx position).filter fun arg => !dialect.wantsLiteral callee arg.2).map Prod.fst

/-- The nodes directly in an expression. -/
def Expr.parts (frames : Frames) : Expr → List Site
  | .call name args => (Expr.evaluated dialect name 0 args).map fun e => ⟨frames, .expression e⟩
  | _ => []

/-- The nodes directly in a statement. -/
def Statement.parts (frames : Frames) : Statement → List Site
  | .expression e => [⟨frames, .expression e⟩]
  | .assignment _ e => [⟨frames, .expression e⟩]
  | .declaration _ value => value.toList.map fun e => ⟨frames, .expression e⟩
  | .conditional condition body => [⟨frames, .expression condition⟩, ⟨frames, .block body⟩]
  | .switch scrutinee cases => ⟨frames, .expression scrutinee⟩ :: cases.map fun c => ⟨frames, .block c.body⟩
  | .function definition => [⟨.function definition :: frames, .block definition.body⟩]
  | .loop l =>
    Statement.sites (fun before => .loop before :: frames) [] l.init.statements ++
      [⟨.loop l.init.statements :: frames, .expression l.condition⟩,
        ⟨.rounds :: .loop l.init.statements :: frames, .block l.body⟩,
        ⟨.loop l.init.statements :: frames, .block l.post⟩]
  | .breakLoop | .continueLoop | .leave => []
  | .block b => [⟨frames, .block b⟩]

/-- The nodes directly in a block. -/
def Block.parts (frames : Frames) (b : Block) : List Site :=
  Statement.sites (fun before => .block b before :: frames) [] b.statements

namespace Site

/-- The nodes directly in a node. -/
def parts : Site → List Site
  | ⟨frames, .block b⟩ => b.parts frames
  | ⟨frames, .statement s⟩ => s.parts frames
  | ⟨frames, .expression e⟩ => e.parts dialect frames

/-- The rule of a node. -/
def Rule : Site → Prop
  | ⟨_, .block b⟩ => b.Rule
  | ⟨frames, .statement s⟩ => s.Rule dialect frames
  | ⟨frames, .expression e⟩ => e.Rule dialect frames

/-- A node that is another one or stands in it. -/
def Within : Site → Site → Prop := Relation.ReflTransGen fun outer inner => inner ∈ outer.parts dialect

/-- A node that keeps its rule, as do all nodes in it. -/
def Sound (site : Site) : Prop := ∀ node, site.Within dialect node → node.Rule dialect

end Site

/-- A program whose nodes all keep their rules. -/
def Block.WellScoped (program : Block) : Prop := Site.Sound dialect ⟨[], .block program⟩

/-! ### From nodes to their parts -/

variable {dialect}

/-- Whether a node is sound is decided by its own rule and by its parts. -/
theorem Site.sound_iff {site : Site} :
    site.Sound dialect ↔ site.Rule dialect ∧ ∀ part ∈ site.parts dialect, part.Sound dialect := by
  constructor
  · intro h
    exact ⟨h _ .refl, fun part hpart node hnode => h _ (.head hpart hnode)⟩
  · rintro ⟨hrule, hparts⟩ node hnode
    rcases Relation.ReflTransGen.cases_head hnode with rfl | ⟨part, hpart, hrest⟩
    · exact hrule
    · exact hparts part hpart node hrest

theorem Expr.evaluated_cons {callee : String} {position : Nat} {e : Expr} {rest : List Expr} :
    Expr.evaluated dialect callee position (e :: rest) =
      (if dialect.wantsLiteral callee position then [] else [e]) ++
        Expr.evaluated dialect callee (position + 1) rest := by
  unfold Expr.evaluated
  rw [List.zipIdx_cons]
  cases hwants : dialect.wantsLiteral callee position <;> simp [hwants]

theorem Statement.mem_functions {statements : List Statement} {f : FunctionDefinition} :
    f ∈ Statement.functions statements ↔ .function f ∈ statements := by
  unfold Statement.functions
  rw [List.mem_filterMap]
  constructor
  · rintro ⟨s, hs, hf⟩
    cases s <;> cases hf
    exact hs
  · exact fun hs => ⟨_, hs, rfl⟩

/-- The sites of statements: each one after those before it. -/
theorem Statement.mem_sites_iff {around : List Statement → Frames} {before statements : List Statement} {site : Site} :
    site ∈ Statement.sites around before statements ↔
      ∃ earlier s later, statements = earlier ++ s :: later ∧ site = ⟨around (before ++ earlier), .statement s⟩ := by
  induction statements generalizing before with
  | nil => simp [Statement.sites]
  | cons first rest ih =>
    rw [Statement.sites, List.mem_cons, ih]
    constructor
    · rintro (rfl | ⟨earlier, s, later, rfl, rfl⟩)
      · exact ⟨[], first, rest, rfl, by rw [List.append_nil]⟩
      · exact ⟨first :: earlier, s, later, rfl, by rw [List.append_assoc, List.singleton_append]⟩
    · rintro ⟨_ | ⟨s, earlier⟩, t, later, hsplit, rfl⟩ <;> cases hsplit
      · exact .inl (by rw [List.append_nil])
      · exact .inr ⟨earlier, t, later, rfl, by rw [List.append_assoc, List.singleton_append]⟩

/-- Each of some statements has its site. -/
theorem Statement.mem_sites (around : List Statement → Frames) (before : List Statement)
    {statements : List Statement} {s : Statement} (hs : s ∈ statements) :
    ∃ earlier, ⟨around earlier, .statement s⟩ ∈ Statement.sites around before statements := by
  obtain ⟨earlier, later, rfl⟩ := List.append_of_mem hs
  exact ⟨before ++ earlier, Statement.mem_sites_iff.mpr ⟨earlier, s, later, rfl, rfl⟩⟩

end BlockIR
