import BlockIR.Proofs.Reading
import BlockIR.Target
import Mathlib.Data.List.Find
import Mathlib.Logic.Equiv.Basic

/-! Renamed programs.

A renaming maps names to names, one to one. In a renamed program every name is
replaced by its image, also in the calls of builtins: a renaming for a dialect
leaves these alone (`Renaming.Keeps`), and then a name and its image mean the
same builtin or none (`Renaming.find?_map`). Literals and the identities of
blocks stay, so a renamed program can be written where the program was. -/
namespace BlockIR

/-- A one-to-one map of names. The empty string is no name and is mapped to itself, so that names
are mapped to names. -/
structure Renaming where
  map : String → String
  injective : Function.Injective map
  empty : map "" = ""

instance : CoeFun Renaming fun _ => String → String := ⟨Renaming.map⟩

namespace Renaming

/-- Every one-to-one map from non-empty strings to non-empty strings is a renaming. -/
def ofNames (f : String → String) (hnames : ∀ name, name ≠ "" → f name ≠ "")
    (hinj : ∀ a b, a ≠ "" → b ≠ "" → f a = f b → a = b) : Renaming where
  map name := if name = "" then "" else f name
  injective a b h := by
    by_cases ha : a = "" <;> by_cases hb : b = "" <;> simp only [ha, hb, if_true, if_false] at h ⊢
    · exact absurd h.symm (hnames b hb)
    · exact absurd h (hnames a ha)
    · exact hinj a b ha hb h
  empty := if_pos rfl

theorem ofNames_apply {f : String → String} {hnames : ∀ name, name ≠ "" → f name ≠ ""}
    {hinj : ∀ a b, a ≠ "" → b ≠ "" → f a = f b → a = b} {name : String} (h : name ≠ "") :
    ofNames f hnames hinj name = f name := if_neg h

/-- The exchange of two names. -/
def swap (a b : String) (ha : a ≠ "") (hb : b ≠ "") : Renaming :=
  ofNames (Equiv.swap a b)
    (fun name hname => by
      rw [Equiv.swap_apply_def]
      split
      · exact hb
      · split
        · exact ha
        · exact hname)
    fun _ _ _ _ h => Equiv.injective _ h

variable (ρ : Renaming)

theorem ne_empty {name : String} (h : name ≠ "") : ρ name ≠ "" :=
  fun heq => h (ρ.injective (heq.trans ρ.empty.symm))

/-! ### Builtins -/

/-- The builtins of a dialect are not renamed. -/
def Keeps (dialect : Dialect) : Prop := ∀ b ∈ dialect.builtins, ρ b.name = b.name

variable {ρ} {dialect : Dialect}

/-- A name and what it is mapped to mean the same builtin, or none. -/
theorem Keeps.find?_map (h : ρ.Keeps dialect) (name : String) : dialect.find? (ρ name) = dialect.find? name := by
  refine List.find?_congr fun b hb => ?_
  rw [decide_eq_decide]
  exact ⟨fun heq => ρ.injective ((h b hb).trans heq), fun heq => (h b hb).symm.trans (congrArg ρ heq)⟩

theorem Keeps.wantsLiteral_map (h : ρ.Keeps dialect) (name : String) :
    dialect.wantsLiteral (ρ name) = dialect.wantsLiteral name := by
  funext position
  unfold Dialect.wantsLiteral
  rw [h.find?_map]

theorem swap_apply_of_ne {a b : String} {ha : a ≠ ""} {hb : b ≠ ""} {name : String} (hname : name ≠ a)
    (hname' : name ≠ b) : swap a b ha hb name = name := by
  by_cases hempty : name = ""
  · rw [hempty]
    exact (swap a b ha hb).empty
  · exact (ofNames_apply hempty).trans (Equiv.swap_apply_of_ne_of_ne hname hname')

/-- Names that are not those of builtins can be exchanged. -/
theorem swap_keeps {a b : String} {ha : a ≠ ""} {hb : b ≠ ""} (hfree : dialect.find? a = none)
    (hfree' : dialect.find? b = none) : (swap a b ha hb).Keeps dialect := by
  have hne {name : String} (hname : dialect.find? name = none) {builtin : Builtin}
      (hmem : builtin ∈ dialect.builtins) : builtin.name ≠ name :=
    of_decide_eq_false (Bool.eq_false_of_not_eq_true (List.find?_eq_none.mp hname builtin hmem))
  exact fun builtin hmem => swap_apply_of_ne (hne hfree hmem) (hne hfree' hmem)

end Renaming

/-! ### Texts -/

variable (ρ : Renaming)

mutual
/-- An expression with its names renamed. -/
def Expr.mapNames : Expr → Expr
  | .literal l => .literal l
  | .identifier name => .identifier (ρ name)
  | .call name args => .call (ρ name) (Expr.listMapNames args)

/-- Expressions with their names renamed. -/
def Expr.listMapNames : List Expr → List Expr
  | [] => []
  | e :: rest => e.mapNames :: Expr.listMapNames rest
end

mutual
/-- A block with its names renamed. -/
def Block.mapNames : Block → Block
  | ⟨id, statements⟩ => ⟨id, Statement.listMapNames statements⟩

/-- Statements with their names renamed. -/
def Statement.listMapNames : List Statement → List Statement
  | [] => []
  | s :: rest => s.mapNames :: Statement.listMapNames rest

/-- Cases with the names in their bodies renamed. -/
def Case.listMapNames : List Case → List Case
  | [] => []
  | ⟨value, body⟩ :: rest => ⟨value, body.mapNames⟩ :: Case.listMapNames rest

/-- A statement with its names renamed. -/
def Statement.mapNames : Statement → Statement
  | .expression e => .expression (e.mapNames ρ)
  | .assignment targets e => .assignment (targets.map ρ) (e.mapNames ρ)
  | .declaration names value => .declaration (names.map ρ) (value.map (Expr.mapNames ρ))
  | .conditional condition body => .conditional (condition.mapNames ρ) body.mapNames
  | .switch scrutinee cases => .switch (scrutinee.mapNames ρ) (Case.listMapNames cases)
  | .function ⟨name, params, returns, body⟩ =>
    .function ⟨ρ name, params.map ρ, returns.map ρ, body.mapNames⟩
  | .loop ⟨init, condition, post, body⟩ =>
    .loop ⟨init.mapNames, condition.mapNames ρ, post.mapNames, body.mapNames⟩
  | .breakLoop => .breakLoop
  | .continueLoop => .continueLoop
  | .leave => .leave
  | .block body => .block body.mapNames
end

/-- A case with the names in its body renamed. -/
def Case.mapNames (c : Case) : Case := ⟨c.value, c.body.mapNames ρ⟩

/-- A function with its names renamed. -/
def FunctionDefinition.mapNames (f : FunctionDefinition) : FunctionDefinition where
  name := ρ f.name
  params := f.params.map ρ
  returns := f.returns.map ρ
  body := f.body.mapNames ρ

/-- A loop with its names renamed. -/
def ForLoop.mapNames (l : ForLoop) : ForLoop where
  init := l.init.mapNames ρ
  condition := l.condition.mapNames ρ
  post := l.post.mapNames ρ
  body := l.body.mapNames ρ

namespace FunctionDefinition
variable (f : FunctionDefinition)

theorem length_params_mapNames : (f.mapNames ρ).params.length = f.params.length := List.length_map _

theorem length_returns_mapNames : (f.mapNames ρ).returns.length = f.returns.length := List.length_map _

end FunctionDefinition

namespace Expr

theorem listMapNames_eq (es : List Expr) : listMapNames ρ es = es.map (mapNames ρ) := by
  induction es with
  | nil => rfl
  | cons e rest ih => rw [listMapNames, ih, List.map_cons]

@[simp] theorem isLiteral_mapNames (e : Expr) : (e.mapNames ρ).isLiteral = e.isLiteral := by
  cases e <;> rfl

end Expr

namespace Statement

theorem listMapNames_eq (statements : List Statement) : listMapNames ρ statements = statements.map (mapNames ρ) := by
  induction statements with
  | nil => rfl
  | cons s rest ih => rw [listMapNames, ih, List.map_cons]

@[simp] theorem mapNames_function (f : FunctionDefinition) :
    (Statement.function f).mapNames ρ = .function (f.mapNames ρ) := by
  cases f
  rfl

@[simp] theorem mapNames_loop (l : ForLoop) : (Statement.loop l).mapNames ρ = .loop (l.mapNames ρ) := by
  cases l
  rfl

theorem functions_map (statements : List Statement) :
    functions (statements.map (mapNames ρ)) = (functions statements).map (FunctionDefinition.mapNames ρ) := by
  induction statements with
  | nil => rfl
  | cons s rest ih =>
    cases s with
    | function f =>
      rw [List.map_cons, mapNames_function]
      exact congrArg (f.mapNames ρ :: ·) ih
    | loop l =>
      rw [List.map_cons, mapNames_loop]
      exact ih
    | _ => exact ih

end Statement

theorem Case.listMapNames_eq (cases : List Case) : listMapNames ρ cases = cases.map (mapNames ρ) := by
  induction cases with
  | nil => rfl
  | cons c rest ih =>
    obtain ⟨value, body⟩ := c
    rw [listMapNames, ih, List.map_cons, mapNames]

namespace Block
variable (b : Block)

@[simp] theorem id_mapNames : (b.mapNames ρ).id = b.id := by
  cases b
  rfl

@[simp] theorem statements_mapNames : (b.mapNames ρ).statements = b.statements.map (Statement.mapNames ρ) := by
  obtain ⟨id, statements⟩ := b
  exact Statement.listMapNames_eq ρ statements

@[simp] theorem functions_mapNames :
    (b.mapNames ρ).functions = b.functions.map (FunctionDefinition.mapNames ρ) := by
  rw [functions, statements_mapNames, Statement.functions_map, functions]

end Block

/-! ### Written texts -/

theorem Renaming.forall_ne_empty {names : List String} (h : ∀ name ∈ names, name ≠ "") :
    ∀ name ∈ names.map ρ, name ≠ "" :=
  List.forall_mem_map.mpr fun name hname => ρ.ne_empty (h name hname)

mutual
theorem Expr.written_mapNames {e : Expr} (h : e.Written) : (e.mapNames ρ).Written := by
  match e with
  | .literal _ => trivial
  | .identifier _ => exact ρ.ne_empty h
  | .call _ _ => exact ⟨ρ.ne_empty h.1, Expr.listWritten_mapNames h.2⟩

theorem Expr.listWritten_mapNames {es : List Expr} (h : Expr.ListWritten es) :
    Expr.ListWritten (Expr.listMapNames ρ es) := by
  match es with
  | [] => trivial
  | _ :: _ => exact ⟨Expr.written_mapNames h.1, Expr.listWritten_mapNames h.2⟩
end

mutual
/-- A renamed block can stand where the block can. -/
theorem Block.writtenAt_mapNames {place : Place} {b : Block} (h : b.WrittenAt place) :
    (b.mapNames ρ).WrittenAt place := by
  obtain ⟨id, statements⟩ := b
  exact ⟨h.1, Statement.listWrittenAt_mapNames h.2⟩

theorem Statement.listWrittenAt_mapNames {place : Place} {position : Nat} {statements : List Statement}
    (h : Statement.ListWrittenAt place position statements) :
    Statement.ListWrittenAt place position (Statement.listMapNames ρ statements) := by
  match statements with
  | [] => trivial
  | _ :: _ => exact ⟨Statement.writtenAt_mapNames h.1, Statement.listWrittenAt_mapNames h.2⟩

theorem Case.listWrittenAt_mapNames {place : Place} {position : Nat} {cases : List Case}
    (h : Case.ListWrittenAt place position cases) :
    Case.ListWrittenAt place position (Case.listMapNames ρ cases) := by
  match cases with
  | [] => trivial
  | ⟨_, _⟩ :: _ => exact ⟨Block.writtenAt_mapNames h.1, Case.listWrittenAt_mapNames h.2⟩

theorem Statement.writtenAt_mapNames {place : Place} {s : Statement} (h : s.WrittenAt place) :
    (s.mapNames ρ).WrittenAt place := by
  match s with
  | .expression _ => exact Expr.written_mapNames ρ h
  | .assignment _ _ => exact ⟨mt List.map_eq_nil_iff.mp h.1, ρ.forall_ne_empty h.2.1, Expr.written_mapNames ρ h.2.2⟩
  | .declaration _ value =>
    refine ⟨mt List.map_eq_nil_iff.mp h.1, ρ.forall_ne_empty h.2.1, fun e he => ?_⟩
    obtain ⟨e, hvalue, rfl⟩ := Option.map_eq_some_iff.mp he
    exact Expr.written_mapNames ρ (h.2.2 e hvalue)
  | .conditional _ _ => exact ⟨Expr.written_mapNames ρ h.1, Block.writtenAt_mapNames h.2⟩
  | .switch _ cases =>
    refine ⟨Expr.written_mapNames ρ h.1, ?_, Case.listWrittenAt_mapNames h.2.2⟩
    rw [Case.listMapNames_eq]
    exact mt List.map_eq_nil_iff.mp h.2.1
  | .function ⟨_, _, _, _⟩ =>
    obtain ⟨hname, hparams, hreturns, hbody⟩ := h
    exact ⟨ρ.ne_empty hname, ρ.forall_ne_empty hparams, ρ.forall_ne_empty hreturns,
      Block.writtenAt_mapNames hbody⟩
  | .loop ⟨_, _, _, _⟩ =>
    obtain ⟨hinit, hcondition, hpost, hbody⟩ := h
    exact ⟨Block.writtenAt_mapNames hinit, Expr.written_mapNames ρ hcondition,
      Block.writtenAt_mapNames hpost, Block.writtenAt_mapNames hbody⟩
  | .breakLoop | .continueLoop | .leave => trivial
  | .block b =>
    have hblock : b.WrittenAt place := h
    exact Block.writtenAt_mapNames hblock
end

end BlockIR
