import BlockIR.Proofs.Acceptance
import BlockIR.Proofs.Renamed
import Mathlib.Data.List.Nodup

/-! Renaming keeps programs well scoped.

What stands around a renamed node is what stood around the node, renamed, and
the parts of a renamed node are its parts, renamed (`Site.parts_mapNames`). A
rule asks of names only whether two are the same and whether one is that of a
builtin, and a renaming that keeps the builtins changes neither
(`Site.rule_mapNames`). So the nodes of the two programs keep their rules
together (`Block.wellScoped_mapNames`). -/
namespace BlockIR

variable (ρ : Renaming)

/-! ### What stands around a node -/

@[simp] theorem Statement.names_mapNames (s : Statement) : (s.mapNames ρ).names = s.names.map ρ := by
  cases s with
  | function f => cases f; rfl
  | loop l => cases l; rfl
  | _ => rfl

theorem Statement.flatMap_names_map (statements : List Statement) :
    (statements.map (Statement.mapNames ρ)).flatMap Statement.names = (statements.flatMap Statement.names).map ρ := by
  rw [List.flatMap_map, List.map_flatMap]
  exact List.flatMap_congr fun s _ => s.names_mapNames ρ

/-- One thing that a node stands in, renamed. -/
def Frame.mapNames : Frame → Frame
  | .block b before => .block (b.mapNames ρ) (before.map (Statement.mapNames ρ))
  | .loop before => .loop (before.map (Statement.mapNames ρ))
  | .rounds => .rounds
  | .function definition => .function (definition.mapNames ρ)

namespace Frames

/-- All that a node stands in, renamed. -/
def mapNames (frames : Frames) : Frames := frames.map (Frame.mapNames ρ)

variable (frames : Frames)

theorem vars_mapNames : (frames.mapNames ρ).vars = frames.vars.map ρ := by
  induction frames with
  | nil => rfl
  | cons frame outer ih =>
    cases frame with
    | block b before =>
      show (before.map (Statement.mapNames ρ)).flatMap Statement.names ++ (mapNames ρ outer).vars = _
      rw [Statement.flatMap_names_map, ih, ← List.map_append, vars]
    | loop before => 
      show (before.map (Statement.mapNames ρ)).flatMap Statement.names ++ (mapNames ρ outer).vars = _
      rw [Statement.flatMap_names_map, ih, ← List.map_append, vars]
    | rounds => exact ih
    | function definition => exact List.map_append.symm

theorem functions_mapNames : (frames.mapNames ρ).functions = frames.functions.map (FunctionDefinition.mapNames ρ) := by
  induction frames with
  | nil => rfl
  | cons frame outer ih =>
    cases frame with
    | block b before =>
      show (b.mapNames ρ).functions ++ (mapNames ρ outer).functions = _
      rw [Block.functions_mapNames, ih, ← List.map_append, functions]
    | _ => exact ih

theorem inLoopBody_mapNames : (frames.mapNames ρ).InLoopBody ↔ frames.InLoopBody := by
  induction frames with
  | nil => exact .rfl
  | cons frame outer ih =>
    cases frame with
    | block b before => exact ih
    | _ => exact .rfl

theorem inFunction_mapNames : (frames.mapNames ρ).InFunction ↔ frames.InFunction := by
  unfold InFunction mapNames
  constructor
  · rintro ⟨definition, hmem⟩
    obtain ⟨frame, hframe, heq⟩ := List.mem_map.mp hmem
    cases frame with
    | function f => exact ⟨f, hframe⟩
    | _ => cases heq
  · rintro ⟨definition, hmem⟩
    exact ⟨_, List.mem_map_of_mem hmem⟩

theorem mem_vars_mapNames {name : String} : ρ name ∈ (frames.mapNames ρ).vars ↔ name ∈ frames.vars := by
  rw [vars_mapNames, List.mem_map_of_injective ρ.injective]

/-- Whether a function of a name stands around, of which something holds that does not depend on names. -/
theorem exists_function_mapNames {name : String} {P : FunctionDefinition → Prop}
    (hP : ∀ f, P (f.mapNames ρ) ↔ P f) :
    (∃ f ∈ (frames.mapNames ρ).functions, f.name = ρ name ∧ P f) ↔ ∃ f ∈ frames.functions, f.name = name ∧ P f := by
  rw [functions_mapNames]
  constructor
  · rintro ⟨_, hrenamed, hname, hP'⟩
    obtain ⟨f, hf, rfl⟩ := List.mem_map.mp hrenamed
    exact ⟨f, hf, ρ.injective hname, (hP f).mp hP'⟩
  · rintro ⟨f, hf, rfl, hP'⟩
    exact ⟨_, List.mem_map_of_mem hf, rfl, (hP f).mpr hP'⟩

end Frames

/-! ### The rules -/

variable {ρ} {dialect : Dialect} (hkeeps : ρ.Keeps dialect)
include hkeeps

theorem free_mapNames {vars : List String} {functions : List FunctionDefinition} {name : String} :
    Free dialect (vars.map ρ) (functions.map (FunctionDefinition.mapNames ρ)) (ρ name) ↔
      Free dialect vars functions name := by
  have hvars : ρ name ∉ vars.map ρ ↔ name ∉ vars := not_congr (List.mem_map_of_injective ρ.injective)
  have hfunctions : (∀ f ∈ functions.map (FunctionDefinition.mapNames ρ), f.name ≠ ρ name) ↔
      ∀ f ∈ functions, f.name ≠ name := by
    rw [List.forall_mem_map]
    exact forall₂_congr fun f _ => ρ.injective.ne_iff
  constructor
  · rintro ⟨hbuiltin, hunbound, hfunction⟩
    exact ⟨(hkeeps.find?_map name).symm.trans hbuiltin, hvars.mp hunbound, hfunctions.mp hfunction⟩
  · rintro ⟨hbuiltin, hunbound, hfunction⟩
    exact ⟨(hkeeps.find?_map name).trans hbuiltin, hvars.mpr hunbound, hfunctions.mpr hfunction⟩

theorem Expr.yields_mapNames {frames : Frames} {count : Nat} (e : Expr) :
    (e.mapNames ρ).Yields dialect (frames.mapNames ρ) count ↔ e.Yields dialect frames count := by
  cases e with
  | call name args =>
    simp only [mapNames, Yields, hkeeps.find?_map]
    split
    · exact .rfl
    · exact frames.exists_function_mapNames ρ fun f => by rw [f.length_returns_mapNames]
  | _ => exact .rfl

theorem Frames.takes_mapNames (frames : Frames) {name : String} {count : Nat} :
    (frames.mapNames ρ).Takes dialect (ρ name) count ↔ frames.Takes dialect name count := by
  unfold Takes
  rw [hkeeps.find?_map]
  split
  · exact .rfl
  · exact frames.exists_function_mapNames ρ fun f => by rw [f.length_params_mapNames]

theorem Expr.argumentRule_mapNames {frames : Frames} {callee : String} {position : Nat} (e : Expr) :
    (e.mapNames ρ).ArgumentRule dialect (frames.mapNames ρ) (ρ callee) position ↔
      e.ArgumentRule dialect frames callee position := by
  unfold ArgumentRule
  rw [hkeeps.wantsLiteral_map, isLiteral_mapNames, yields_mapNames hkeeps]

theorem Expr.rule_mapNames {frames : Frames} (e : Expr) :
    (e.mapNames ρ).Rule dialect (frames.mapNames ρ) ↔ e.Rule dialect frames := by
  cases e with
  | literal l => exact .rfl
  | identifier name => exact frames.mem_vars_mapNames ρ
  | call name args =>
    rw [mapNames, Rule, Rule, frames.takes_mapNames hkeeps, listMapNames_eq, List.length_map, List.zipIdx_map,
      List.forall_mem_map]
    exact and_congr_right fun _ => forall₂_congr fun arg _ => argumentRule_mapNames hkeeps arg.1

omit hkeeps in
theorem Case.rule_mapNames (cases : List Case) : Case.Rule (cases.map (Case.mapNames ρ)) ↔ Case.Rule cases := by
  have hall {P : Case → Prop} (cases : List Case) (hP : ∀ c : Case, P (c.mapNames ρ) ↔ P c) :
      (∀ c ∈ cases.map (Case.mapNames ρ), P c) ↔ ∀ c ∈ cases, P c := by
    rw [List.forall_mem_map]
    exact forall₂_congr fun c _ => hP c
  have hwords : (cases.map (Case.mapNames ρ)).filterMap Case.word? = cases.filterMap Case.word? := by
    rw [List.filterMap_map]
    rfl
  constructor
  · rintro ⟨hvalues, hdistinct, hlast⟩
    rw [← List.map_dropLast] at hlast
    exact ⟨(hall _ fun _ => .rfl).mp hvalues, hwords ▸ hdistinct, (hall _ fun _ => .rfl).mp hlast⟩
  · rintro ⟨hvalues, hdistinct, hlast⟩
    refine ⟨(hall _ fun _ => .rfl).mpr hvalues, hwords.symm ▸ hdistinct, ?_⟩
    rw [← List.map_dropLast]
    exact (hall _ fun _ => .rfl).mpr hlast

theorem Statement.rule_mapNames {frames : Frames} (s : Statement) :
    (s.mapNames ρ).Rule dialect (frames.mapNames ρ) ↔ s.Rule dialect frames := by
  cases s with
  | expression e => exact e.yields_mapNames hkeeps
  | assignment targets e =>
    simp only [mapNames, Rule, List.length_map, e.yields_mapNames hkeeps, List.nodup_map_iff ρ.injective,
      List.forall_mem_map, frames.vars_mapNames, List.mem_map_of_injective ρ.injective]
  | declaration names value =>
    simp only [mapNames, Rule, List.length_map, List.nodup_map_iff ρ.injective, List.forall_mem_map,
      frames.vars_mapNames, frames.functions_mapNames, free_mapNames hkeeps, Option.map_eq_some_iff,
      forall_exists_index, and_imp, forall_apply_eq_imp_iff₂, Expr.yields_mapNames hkeeps]
  | conditional condition body => exact condition.yields_mapNames hkeeps
  | switch scrutinee cases =>
    simp only [mapNames, Rule, scrutinee.yields_mapNames hkeeps, Case.listMapNames_eq, Case.rule_mapNames]
  | function f =>
    have htail : List.tail (frames.mapNames ρ) = Frames.mapNames ρ frames.tail := List.map_tail.symm
    have hlocal (name : String) : Free dialect ([].map ρ) (frames.functions.map (FunctionDefinition.mapNames ρ))
        (ρ name) ↔ Free dialect [] frames.functions name := free_mapNames hkeeps
    rw [List.map_nil] at hlocal
    simp only [mapNames_function, Rule, FunctionDefinition.mapNames, htail, frames.vars_mapNames,
      Frames.functions_mapNames, free_mapNames hkeeps, ← List.map_append, List.nodup_map_iff ρ.injective,
      List.forall_mem_map, hlocal]
  | loop l =>
    have hframes : Frame.loop (l.init.mapNames ρ).statements :: frames.mapNames ρ =
        Frames.mapNames ρ (.loop l.init.statements :: frames) := by
      rw [Block.statements_mapNames]
      rfl
    simp only [mapNames_loop, Rule, ForLoop.mapNames, Block.functions_mapNames, List.map_eq_nil_iff, hframes,
      Expr.yields_mapNames hkeeps]
  | breakLoop => exact frames.inLoopBody_mapNames ρ
  | continueLoop => exact frames.inLoopBody_mapNames ρ
  | leave => exact frames.inFunction_mapNames ρ
  | block b => exact .rfl

omit hkeeps in
theorem Block.rule_mapNames (b : Block) : (b.mapNames ρ).Rule ↔ b.Rule := by
  have hnames : (b.functions.map (FunctionDefinition.mapNames ρ)).map FunctionDefinition.name =
      (b.functions.map FunctionDefinition.name).map ρ := by
    rw [List.map_map, List.map_map]
    rfl
  rw [Rule, Rule, functions_mapNames, hnames, List.nodup_map_iff ρ.injective]

/-! ### Nodes -/

omit hkeeps

variable (ρ) in
/-- A node with its names renamed. -/
def Node.mapNames : Node → Node
  | .block b => .block (b.mapNames ρ)
  | .statement s => .statement (s.mapNames ρ)
  | .expression e => .expression (e.mapNames ρ)

variable (ρ) in
/-- A node and what stands around it, with their names renamed. -/
def Site.mapNames (site : Site) : Site := ⟨site.around.mapNames ρ, site.node.mapNames ρ⟩

theorem Statement.sites_map {around around' : List Statement → Frames}
    (haround : ∀ before, around' (before.map (Statement.mapNames ρ)) = (around before).mapNames ρ)
    (before statements : List Statement) :
    Statement.sites around' (before.map (Statement.mapNames ρ)) (statements.map (Statement.mapNames ρ)) =
      (Statement.sites around before statements).map (Site.mapNames ρ) := by
  induction statements generalizing before with
  | nil => rfl
  | cons s rest ih =>
    have hnext := ih (before ++ [s])
    rw [List.map_append] at hnext
    rw [List.map_cons, sites, haround, sites, List.map_cons, ← hnext]
    rfl

theorem Block.parts_mapNames (frames : Frames) (b : Block) :
    (b.mapNames ρ).parts (frames.mapNames ρ) = (b.parts frames).map (Site.mapNames ρ) := by
  unfold parts
  rw [statements_mapNames]
  exact Statement.sites_map (fun _ => rfl) [] b.statements

theorem Statement.parts_mapNames (frames : Frames) (s : Statement) :
    (s.mapNames ρ).parts (frames.mapNames ρ) = (s.parts frames).map (Site.mapNames ρ) := by
  cases s with
  | declaration names value => cases value <;> rfl
  | switch scrutinee cases =>
    rw [mapNames, parts, parts, Case.listMapNames_eq, List.map_map, List.map_cons, List.map_map]
    rfl
  | function f =>
    rw [mapNames_function]
    rfl
  | loop l =>
    have hsites : Statement.sites (fun before => .loop before :: frames.mapNames ρ) []
        (l.init.statements.map (Statement.mapNames ρ)) =
          (Statement.sites (fun before => .loop before :: frames) [] l.init.statements).map (Site.mapNames ρ) :=
      Statement.sites_map (fun _ => rfl) [] l.init.statements
    rw [mapNames_loop, parts, parts, List.map_append, ← hsites, ForLoop.mapNames, Block.statements_mapNames]
    rfl
  | _ => rfl

include hkeeps

theorem Expr.evaluated_map (callee : String) (position : Nat) (args : List Expr) :
    Expr.evaluated dialect (ρ callee) position (args.map (Expr.mapNames ρ)) =
      (Expr.evaluated dialect callee position args).map (Expr.mapNames ρ) := by
  induction args generalizing position with
  | nil => rfl
  | cons e rest ih =>
    rw [List.map_cons, evaluated_cons, evaluated_cons, ih, hkeeps.wantsLiteral_map, List.map_append]
    split <;> rfl

theorem Expr.parts_mapNames (frames : Frames) (e : Expr) :
    (e.mapNames ρ).parts dialect (frames.mapNames ρ) = (e.parts dialect frames).map (Site.mapNames ρ) := by
  cases e with
  | call name args =>
    rw [mapNames, parts, parts, listMapNames_eq, Expr.evaluated_map hkeeps, List.map_map, List.map_map]
    rfl
  | _ => rfl

/-- The parts of a renamed node are its parts, renamed. -/
theorem Site.parts_mapNames (site : Site) :
    (site.mapNames ρ).parts dialect = (site.parts dialect).map (Site.mapNames ρ) := by
  obtain ⟨frames, node⟩ := site
  cases node with
  | block b => exact b.parts_mapNames frames
  | statement s => exact s.parts_mapNames frames
  | expression e => exact e.parts_mapNames hkeeps frames

theorem Site.rule_mapNames (site : Site) : (site.mapNames ρ).Rule dialect ↔ site.Rule dialect := by
  obtain ⟨frames, node⟩ := site
  cases node with
  | block b => exact b.rule_mapNames
  | statement s => exact s.rule_mapNames hkeeps
  | expression e => exact e.rule_mapNames hkeeps

/-- The nodes in a renamed node are the nodes in it, renamed. -/
theorem Site.within_mapNames {site other : Site} :
    (site.mapNames ρ).Within dialect other ↔ ∃ node, site.Within dialect node ∧ other = node.mapNames ρ := by
  constructor
  · intro h
    induction h with
    | refl => exact ⟨site, .refl, rfl⟩
    | tail _ hpart ih =>
      obtain ⟨node, hnode, rfl⟩ := ih
      rw [node.parts_mapNames hkeeps] at hpart
      obtain ⟨part, hmem, rfl⟩ := List.mem_map.mp hpart
      exact ⟨part, hnode.tail hmem, rfl⟩
  · rintro ⟨node, hnode, rfl⟩
    refine hnode.lift (Site.mapNames ρ) fun outer inner hinner => ?_
    show inner.mapNames ρ ∈ (outer.mapNames ρ).parts dialect
    rw [outer.parts_mapNames hkeeps]
    exact List.mem_map_of_mem hinner

theorem Site.sound_mapNames (site : Site) : (site.mapNames ρ).Sound dialect ↔ site.Sound dialect := by
  constructor
  · intro h node hnode
    exact (node.rule_mapNames hkeeps).mp (h _ ((within_mapNames hkeeps).mpr ⟨node, hnode, rfl⟩))
  · intro h other hother
    obtain ⟨node, hnode, rfl⟩ := (within_mapNames hkeeps).mp hother
    exact (node.rule_mapNames hkeeps).mpr (h node hnode)

/-- A program is well scoped just if it is with its names renamed. -/
theorem Block.wellScoped_mapNames (program : Block) :
    (program.mapNames ρ).WellScoped dialect ↔ program.WellScoped dialect :=
  Site.sound_mapNames hkeeps ⟨[], .block program⟩

end BlockIR
