import BlockIR.Proofs.Acceptance
import BlockIR.Proofs.Beside
import BlockIR.Proofs.MovedScoping

/-! Moving function definitions does not change what programs do.

A block declares its functions before anything runs, and where their names
differ the order does not matter (`Exec.declareFunctions_perm`). A definition
that is come upon later is counted and passed over, so statements and the same
statements with definitions among them elsewhere do the same as long as each
begins with no signal pending (`Pairing.moving_sequence`). That is so in a
well-scoped program, where `break` and `continue` stand only in the bodies of
loops. Without a limit on steps the two runs then end alike
(`moved_functions_run_alike`). -/
namespace BlockIR

open FunctionDefinition (named? named?_of_mem mem_of_named? name_of_named? named?_eq_none)

/-! ### Declaring in another order -/

/-- Where names differ, a name means the same whatever the order. -/
theorem FunctionDefinition.named?_perm {fs gs : List FunctionDefinition} (hperm : fs.Perm gs)
    (hnodup : (fs.map FunctionDefinition.name).Nodup) (name : String) : named? name gs = named? name fs := by
  have hnodup' : (gs.map FunctionDefinition.name).Nodup := (hperm.map _).nodup_iff.mp hnodup
  rcases hf : named? name fs with _ | f
  · exact named?_eq_none.mpr fun g hg => named?_eq_none.mp hf g (hperm.mem_iff.mpr hg)
  · obtain rfl := name_of_named? hf
    exact named?_of_mem hnodup' (hperm.mem_iff.mp (mem_of_named? hf))

theorem Scope.register_perm {fs gs : List FunctionDefinition} (hperm : fs.Perm gs)
    (hnodup : (fs.map FunctionDefinition.name).Nodup) : Scope.register gs = Scope.register fs := by
  funext names
  apply Std.ExtTreeMap.ext_getElem?
  intro name
  rw [Scope.getElem?_register ((hperm.map _).nodup_iff.mp hnodup), Scope.getElem?_register hnodup,
    FunctionDefinition.named?_perm hperm hnodup]

/-- Functions of different names can be declared in any order. -/
theorem Exec.declareFunctions_perm {fs gs : List FunctionDefinition} (hperm : fs.Perm gs)
    (hnodup : (fs.map FunctionDefinition.name).Nodup) : declareFunctions gs = declareFunctions fs := by
  funext c
  rcases hscope : c.scopes.scopes[c.activation.scope]? with _ | scope
  · -- Where there is no scope, declaring any function fails.
    have hfails (f : FunctionDefinition) (rest : List FunctionDefinition) : declareFunctions (f :: rest) c =
        (.error (.failed (.unknownScope (.ofNat c.activation.scope))), c) := by
      have hdeclare : c.scopes.declare c.activation.scope f.name (.ofFunction f) =
          .error (.unknownScope (.ofNat c.activation.scope)) := by
        unfold ScopeArena.declare ScopeArena.get
        rw [hscope]
        rfl
      refine Effect.bind_of_error ?_
      unfold declare
      rw [Effect.bind_of_ok (Effect.get_apply c), hdeclare]
      rfl
    cases fs with
    | nil => rw [hperm.symm.eq_nil]
    | cons f rest =>
      cases gs with
      | nil => cases hperm.eq_nil
      | cons g others => rw [hfails, hfails]
  · rw [declareFunctions_apply hscope, declareFunctions_apply hscope, Scope.register_perm hperm hnodup]

/-! ### Statements with definitions among them -/

/-- The same statements up to `R`, with function definitions anywhere among them. -/
inductive Statement.Aligned (R : Statement → Statement → Prop) : List Statement → List Statement → Prop
  | nil : Aligned R [] []
  | left (f : FunctionDefinition) {ss ts : List Statement} : Aligned R ss ts → Aligned R (.function f :: ss) ts
  | right (g : FunctionDefinition) {ss ts : List Statement} : Aligned R ss ts → Aligned R ss (.function g :: ts)
  | both {s t : Statement} {ss ts : List Statement} : R s t → Aligned R ss ts → Aligned R (s :: ss) (t :: ts)

theorem Statement.aligned_of_others {R : Statement → Statement → Prop} {ss ts : List Statement}
    (h : List.Forall₂ R (Statement.others ss) (Statement.others ts)) : Statement.Aligned R ss ts := by
  induction ss generalizing ts with
  | nil =>
    induction ts with
    | nil => exact .nil
    | cons t ts ih =>
      rcases Statement.cons_cases t ts with ⟨g, rfl⟩ | ⟨hothers, -⟩
      · exact .right g (ih h)
      · rw [hothers] at h
        cases h
  | cons s ss ih =>
    rcases Statement.cons_cases s ss with ⟨f, rfl⟩ | ⟨hothers, -⟩
    · exact .left f (ih h)
    · rw [hothers] at h
      induction ts with
      | nil => cases h
      | cons t ts ih' =>
        rcases Statement.cons_cases t ts with ⟨g, rfl⟩ | ⟨hothers', -⟩
        · exact .right g (ih' h)
        · rw [hothers'] at h
          cases h with
          | cons hst hrest => exact .both hst (ih hrest)

namespace Node.Moved
variable {K : BlockId → BlockId → Prop} {b b' : Block} {R : Statement → Statement → Prop}

theorem related_ids (h : Moved K (.block b) (.block b')) : K b.id b'.id := by
  cases h
  assumption

theorem forall₂_others (h : Moved K (.block b) (.block b'))
    (hR : ∀ s ∈ b.statements, ∀ t, Moved K (.statement s) (.statement t) → R s t) :
    List.Forall₂ R b.others b'.others := by
  cases h with
  | block _ others _ _ _ hothers hothers' _ hsame =>
    rw [← hothers, ← hothers', List.forall₂_map_left_iff, List.forall₂_map_right_iff, List.forall₂_same]
    intro q hq
    have hmem : q.1 ∈ b.others := hothers ▸ List.mem_map_of_mem hq
    exact hR q.1 (List.mem_of_mem_filter hmem) q.2 (hsame q hq)

theorem forall₂_functions (h : Moved K (.block b) (.block b')) {S : FunctionDefinition → FunctionDefinition → Prop}
    (hS : ∀ f ∈ b.functions, ∀ g, Moved K (.statement (.function f)) (.statement (.function g)) → S f g) :
    ∃ fs gs, fs.Perm b.functions ∧ gs.Perm b'.functions ∧ List.Forall₂ S fs gs := by
  cases h with
  | block functions _ _ hfunctions hfunctions' _ _ hsame _ =>
    refine ⟨_, _, hfunctions, hfunctions', ?_⟩
    rw [List.forall₂_map_left_iff, List.forall₂_map_right_iff, List.forall₂_same]
    exact fun q hq => hS q.1 (hfunctions.mem_iff.mp (List.mem_map_of_mem hq)) q.2 (hsame q hq)

theorem length_eq (h : Moved K (.block b) (.block b')) : b'.statements.length = b.statements.length := by
  have hothers := (h.forall₂_others (R := fun _ _ => True) fun _ _ _ _ => trivial).length_eq
  have hfunctions := h.function_names.length_eq
  rw [List.length_map, List.length_map] at hfunctions
  rw [Statement.length_eq, Statement.length_eq b.statements]
  exact congrArg₂ _ hfunctions hothers.symm

end Node.Moved

/-! ### The pairing -/

namespace Pairing

/-- Runs of a program that was checked for a dialect and of the program with its functions moved, which
may count differently. -/
def moving (dialect : Dialect) (K : BlockId → BlockId → Prop) : Pairing where
  machine := Machine.Beside fun _ _ => True
  level i j := i = j
  word _ := True
  blockId := K
  block loop b b' := ∃ frames : Frames, Site.Sound dialect ⟨frames, .block b⟩ ∧ (frames.InLoopBody → loop = true) ∧
    Node.Moved K (.block b) (.block b')
  statement loop s s' := ∃ frames : Frames, Site.Sound dialect ⟨frames, .statement s⟩ ∧
    (frames.InLoopBody → loop = true) ∧ Node.Moved K (.statement s) (.statement s')
  strict := True

variable {dialect : Dialect} {K : BlockId → BlockId → Prop} {loop : Bool} {b b' : Block} {s s' : Statement}
  {ctx : Context} {runner better : Runner}

theorem moving_keeps (hK : OneToOne K) {options : Options} (hsteps : options.setting.maxSteps = 0) :
    (moving dialect K).Keeps (Run.context options) := by
  have hmachine : (moving dialect K).machine = Machine.Beside fun _ _ => True := rfl
  refine keeps_beside hmachine (fun _ _ _ => trivial) hsteps rfl ?_ hK
  rintro i _ rfl
  exact ⟨rfl, rfl⟩

/-- What has been counted does not matter. -/
theorem moving_related {c d : Config} (h : (moving dialect K).Related c d) (i j : Nat) :
    (moving dialect K).Related (c.recount i) (d.recount j) where
  machine := by
    refine ⟨?_, trivial⟩
    show d.machine.recount j = (c.machine.recount i).recount j
    rw [h.machine.1]
    rfl
  scopes := h.scopes
  activation := h.activation

/-- Statements of a block belong together as the block does with the moved one. -/
theorem moving_statements (h : (moving dialect K).block loop b b') :
    List.Forall₂ ((moving dialect K).statement loop) b.others b'.others := by
  obtain ⟨frames, hsound, hloop, hmoved⟩ := h
  refine hmoved.forall₂_others fun s hs t hst => ?_
  obtain ⟨before, hsite⟩ := Statement.mem_sites (fun before => .block b before :: frames) [] hs
  exact ⟨_, (Site.sound_iff.mp hsound).2 _ hsite, hloop, hst⟩

theorem moving_functions (h : (moving dialect K).block loop b b') :
    ∃ fs gs, fs.Perm b.functions ∧ gs.Perm b'.functions ∧ List.Forall₂ (moving dialect K).Functions fs gs := by
  obtain ⟨frames, hsound, -, hmoved⟩ := h
  refine hmoved.forall₂_functions fun f hf g hfg => ?_
  obtain ⟨before, hsite⟩ := Statement.mem_sites (fun before => .block b before :: frames) []
    (Statement.mem_functions.mp hf)
  have hbody := (Site.sound_iff.mp ((Site.sound_iff.mp hsound).2 _ hsite)).2 _ (List.mem_singleton_self _)
  cases hfg with
  | function hname hparams hreturns hsame => exact ⟨hname, hparams, hreturns, _, hbody, False.elim, hsame⟩

theorem moving_declared (h : (moving dialect K).block loop b b') (S : Signal → Prop) :
    (moving dialect K).Parts S S Free (Exec.declareFunctions b.functions) (Exec.declareFunctions b'.functions) := by
  obtain ⟨fs, gs, hfs, hgs, hpairs⟩ := moving_functions h
  obtain ⟨_, hsound, -, hmoved⟩ := h
  have hnodup : (b.functions.map FunctionDefinition.name).Nodup := hsound _ .refl
  have hnodup' : (b'.functions.map FunctionDefinition.name).Nodup := hmoved.function_names.nodup_iff.mpr hnodup
  rw [Exec.declareFunctions_perm hfs.symm hnodup |>.symm, Exec.declareFunctions_perm hgs.symm hnodup' |>.symm]
  exact parts_declareFunctions hpairs

/-- Where definitions are passed over, they can stand anywhere. -/
theorem moving_aligned (hsteps : ctx.setting.maxSteps = 0) (keeps : (moving dialect K).Keeps ctx)
    (hruns : (moving dialect K).Runs runner better) (hpasses : runner.Passes) (hpasses' : better.Passes)
    {ss ts : List Statement} (h : Statement.Aligned ((moving dialect K).statement loop) ss ts) :
    (moving dialect K).Parts (moving dialect K).Idle ((moving dialect K).Settled loop) Free
      (ctx.sequence runner ss) (ctx.sequence better ts) := by
  induction h with
  | nil => exact (parts_pure trivial).after fun _ hs => hs.settled loop
  | left f _ ih =>
    intro c d hcd hidle
    rw [sequence_definition hsteps hpasses f _ (hidle trivial)]
    exact ih _ _ (moving_related hcd _ d.machine.steps) hidle
  | right g _ ih =>
    intro c d hcd hidle
    have hsignal : d.machine.signal = .proceed := (keeps.signal hcd.machine).trans (hidle trivial)
    rw [sequence_definition hsteps hpasses' g _ hsignal]
    exact ih _ _ (moving_related hcd c.machine.steps _) hidle
  | both hst _ ih => exact keeps.sequence_cons hruns hst ih

/-- Where no depth is left, the first statement fails whatever it is. -/
theorem sequence_spent (hsteps : ctx.setting.maxSteps = 0) (hspent : runner.Spent) (s : Statement)
    (rest : List Statement) (c : Config) :
    ctx.sequence runner (s :: rest) c = (.error .outOfDepth, c.recount (c.machine.steps + 1)) := by
  have hrun : runner.run (.statement s) (c.recount (c.machine.steps + 1)) =
      (.error .outOfDepth, c.recount (c.machine.steps + 1)) := Effect.bind_of_error (hspent _ _)
  rw [Context.sequence, Effect.bind_of_ok (count_unlimited hsteps c), Effect.bind_of_error hrun]

/-- The statements of a block and of the moved one do the same. -/
theorem moving_sequence (hsteps : ctx.setting.maxSteps = 0) (keeps : (moving dialect K).Keeps ctx)
    (h : (moving dialect K).block loop b b') (hruns : (moving dialect K).Runs runner better) :
    (moving dialect K).Parts (moving dialect K).Idle ((moving dialect K).Settled loop) Free
      (ctx.sequence runner b.statements) (ctx.sequence better b'.statements) := by
  rcases hruns.alone trivial with ⟨hpasses, hpasses'⟩ | ⟨hspent, hspent'⟩
  · exact moving_aligned hsteps keeps hruns hpasses hpasses' (Statement.aligned_of_others (moving_statements h))
  · obtain ⟨_, -, -, hmoved⟩ := h
    have hlength := hmoved.length_eq
    rcases hss : b.statements with _ | ⟨s, ss⟩ <;> rcases hts : b'.statements with _ | ⟨t, ts⟩ <;>
      rw [hss, hts] at hlength
    · exact (parts_pure trivial).after fun _ hs => hs.settled loop
    · cases hlength
    · cases hlength
    · intro c d hcd _
      rw [sequence_spent hsteps hspent, sequence_spent hsteps hspent']
      exact .error _ (moving_related hcd _ _)

/-- Statements that belong together have the same shape. -/
theorem moving_shape (h : (moving dialect K).statement loop s s') : (moving dialect K).Shape loop s s' := by
  obtain ⟨frames, hsound, hloop, hmoved⟩ := h
  obtain ⟨hrule, hparts⟩ := Site.sound_iff.mp hsound
  cases hmoved with
  | evaluation e => exact .expression e
  | assignment targets e => exact .assignment targets e
  | declaration names value => exact .declaration names value
  | conditional condition hbody =>
    exact .conditional condition ⟨frames, hparts _ (.tail _ (.head _)), hloop, hbody⟩
  | switch scrutinee cases hvalues hbodies =>
    refine .switch scrutinee ?_
    rw [List.forall₂_map_left_iff, List.forall₂_map_right_iff, List.forall₂_same]
    refine fun q hq => ⟨hvalues q hq, frames, hparts _ (.tail _ ?_), hloop, hbodies q hq⟩
    exact List.mem_map.mpr ⟨q.1, List.mem_map_of_mem hq, rfl⟩
  | function => exact .function _ _
  | @loop l m hcondition hinit hbody hpost =>
    have hothers : l.init.others = l.init.statements := Statement.others_eq_self hrule.1
    have hothers' : m.init.others = m.init.statements := Statement.others_eq_self (hinit.no_functions hrule.1)
    refine .loop hinit.related_ids ?_ ⟨hcondition, ?_, ?_⟩
    · rw [← hothers, ← hothers']
      refine hinit.forall₂_others fun s hs t hst => ?_
      obtain ⟨before, hsite⟩ := Statement.mem_sites (fun before => .loop before :: frames) [] hs
      exact ⟨_, hparts _ (List.mem_append_left _ hsite), False.elim, hst⟩
    · exact ⟨_, hparts _ (List.mem_append_right _ (.tail _ (.head _))), fun _ => rfl, hbody⟩
    · exact ⟨_, hparts _ (List.mem_append_right _ (.tail _ (.tail _ (.head _)))), False.elim, hpost⟩
  | breakLoop => exact .breakLoop fun _ => hloop hrule
  | continueLoop => exact .continueLoop fun _ => hloop hrule
  | leave => exact .leave
  | inner hblock => exact .block ⟨frames, hparts _ (.head _), hloop, hblock⟩

/-- A pairing with a program whose functions have been moved is lawful. -/
theorem moving_lawful (hK : OneToOne K) {options : Options} (hsteps : options.setting.maxSteps = 0) :
    (moving dialect K).Lawful (Run.context options) where
  toKeeps := moving_keeps hK hsteps
  shape := moving_shape
  entered h := by
    obtain ⟨_, -, -, hmoved⟩ := h
    exact hmoved.related_ids
  declared := moving_declared
  sequence h hruns := moving_sequence hsteps (moving_keeps hK hsteps) h hruns
  empty h := by
    obtain ⟨_, -, -, hmoved⟩ := h
    rw [Bool.eq_iff_iff, List.isEmpty_iff_length_eq_zero, List.isEmpty_iff_length_eq_zero, hmoved.length_eq]

end Pairing

/-! ### Whole runs -/

/-- A program that was read and one with its function definitions moved to other positions in their
blocks are both accepted or both rejected. If they are accepted then, without a limit on steps and
whatever the other options are, one ends just when the other does, in the same way, with the same
variables, the same trace and the same stores. -/
theorem moved_functions_run_alike {doc doc' : Option Json} {program program' : Block}
    (hread : Validation.readProgram doc = .ok program) (hread' : Validation.readProgram doc' = .ok program')
    (hmoved : Node.Moved (fun _ _ => True) (.block program) (.block program')) (target : Target) :
    (Validation.validate target doc = .ok program ↔ Validation.validate target doc' = .ok program') ∧
      (Validation.validate target doc = .ok program → ∀ (opts : Option Json) (options : Options),
        Options.resolve opts = .ok options → options.setting.maxSteps = 0 →
          Alike (Report.Beside (fun _ _ => True) fun table table' => table' = table)
            (fun depth => interpret depth program opts) fun depth => interpret depth program' opts) := by
  refine ⟨?_, fun hvalid opts options hoptions hsteps => ?_⟩
  · rw [validate_eq_ok_iff, validate_eq_ok_iff, issues_eq_nil_iff_wellScoped, issues_eq_nil_iff_wellScoped,
      hmoved.wellScoped_iff target.dialect, and_iff_right hread, and_iff_right hread']
  · have hscoped := (issues_eq_nil_iff_wellScoped _ _).mp (validate_eq_ok_iff.mp hvalid).2
    obtain ⟨K, hK, hsame⟩ := hmoved.numbered.exists_oneToOne (readProgram_written hread) (readProgram_written hread')
    have lawful : (Pairing.moving target.dialect K).Lawful (Run.context options) := Pairing.moving_lawful hK hsteps
    have hblocks : (Pairing.moving target.dialect K).block false program program' := ⟨[], hscoped, False.elim, hsame⟩
    refine alike_of_shift (interpret_steady hoptions program) (interpret_steady hoptions program') 0 0 fun depth => ?_
    rw [Run.interpret_eq hoptions, Run.interpret_eq hoptions]
    have houtcome := lawful.outermost (lawful.perform depth) hblocks {} {}
      (Pairing.related_start ⟨rfl, trivial⟩ rfl) fun _ => rfl
    have hmachine : Machine.Beside (fun _ _ => True) _ _ := houtcome.related.machine
    exact Run.guarded_beside (houtcome.results.mono fun _ _ h => h.1) hmachine options

/-! ### A sample -/

namespace Sample

/-- A function that yields one, written at a place. -/
def one (place : Place) : FunctionDefinition :=
  ⟨"one", [], ["r"], ⟨place.field "body", [.assignment ["r"] (.literal ⟨.number, "1"⟩)]⟩⟩

/-- A program that defines the function after it is called. -/
def callFirst : Block :=
  ⟨[], [.declaration ["x"] (some (.call "one" [])), .function (one (Place.item [] "statements" 1))]⟩

/-- The program with the definition moved to the front. -/
def defineFirst : Block :=
  ⟨[], [.function (one (Place.item [] "statements" 0)), .declaration ["x"] (some (.call "one" []))]⟩

theorem callFirst_read : Validation.readProgram (some callFirst.toJson) = .ok callFirst := by
  with_unfolding_all rfl

theorem defineFirst_read : Validation.readProgram (some defineFirst.toJson) = .ok defineFirst := by
  with_unfolding_all rfl

theorem callFirst_moved : Node.Moved (fun _ _ => True) (.block callFirst) (.block defineFirst) := by
  refine .block [(one (Place.item [] "statements" 1), one (Place.item [] "statements" 0))]
    [(.declaration ["x"] (some (.call "one" [])), .declaration ["x"] (some (.call "one" [])))]
    trivial .rfl .rfl rfl rfl ?_ ?_
  · refine List.forall_mem_singleton.mpr (.function rfl rfl rfl ?_)
    refine .block [] [(_, _)] trivial .rfl .rfl rfl rfl nofun (List.forall_mem_singleton.mpr ?_)
    exact .assignment _ _
  · exact List.forall_mem_singleton.mpr (.declaration _ _)

end Sample

theorem moved_functions_run_alike_sample :
    (Validation.validate .evm (some Sample.callFirst.toJson) = .ok Sample.callFirst ↔
      Validation.validate .evm (some Sample.defineFirst.toJson) = .ok Sample.defineFirst) ∧
      Alike (Report.Beside (fun _ _ => True) fun table table' => table' = table)
        (fun depth => interpret depth Sample.callFirst none) fun depth => interpret depth Sample.defineFirst none := by
  have halike := moved_functions_run_alike Sample.callFirst_read Sample.defineFirst_read Sample.callFirst_moved .evm
  have hvalid : Validation.validate .evm (some Sample.callFirst.toJson) = .ok Sample.callFirst :=
    validate_eq_ok_iff.mpr ⟨Sample.callFirst_read, rfl⟩
  exact ⟨halike.1, halike.2 hvalid none Sample.options Sample.options_resolved rfl⟩

end BlockIR
