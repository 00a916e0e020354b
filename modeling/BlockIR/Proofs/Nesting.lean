import BlockIR.Proofs.Budget
import BlockIR.Proofs.Level
import Mathlib.Algebra.Order.Ring.Nat

/-! The nesting limit bounds recursion.

A call is made at least one level deeper than the base of the activation it is
made in, and its own activation has that level for its base. So along the tasks
that are under way at a moment the bases grow with every call, and since no level
is beyond the bound, neither is the number of calls (`Trail.stands`).

A program without loops therefore ends: what a task asks for is a smaller part of
its own text, or it is the body of a function, in an activation that has less
room left up to the bound (`Task.Stands.rank_lt`). -/
namespace BlockIR

/-! ### Trails -/

/-- The moments of a run, each with the tasks that are under way there, innermost first. -/
inductive Trail {α : Type} (ctx : Context) (x : Runner → Exec α) (depth : Nat) :
    Nat → List Task → Task → Config → Prop
  | first {u : Task} {d : Config} : Asks x (ctx.perform depth) {} u d → Trail ctx x depth depth [] u d
  | next {left : Nat} {stack : List Task} {t u : Task} {c d : Config} :
    Trail ctx x depth (left + 1) stack t c →
      Asks (fun runner => ctx.advance runner t) (ctx.perform left) c u d →
        Trail ctx x depth left (t :: stack) u d

/-- The calls among tasks that are under way: so many activations of functions are open. -/
def Task.openCalls (tasks : List Task) : Nat := (tasks.map Task.calls).sum

theorem Task.openCalls_cons (t : Task) (tasks : List Task) :
    openCalls (t :: tasks) = t.calls + openCalls tasks := by
  simp [openCalls]

section Trails
variable {α : Type} {ctx : Context} {x : Runner → Exec α} {depth left : Nat} {stack : List Task} {t : Task}
  {c : Config}

/-- Every moment has a trail. -/
theorem Moment.trail (h : Moment ctx x depth left t c) : ∃ stack, Trail ctx x depth left stack t c := by
  induction h with
  | first hasks => exact ⟨[], .first hasks⟩
  | next _ hasks ih =>
    obtain ⟨stack, htrail⟩ := ih
    exact ⟨_, .next htrail hasks⟩

variable {Good : Task → Prop} {options : Options} {extra : Nat}

/-- Along a trail the calls under way are no more than the levels that they have reached. -/
theorem Trail.stands (hgood : Task.Hereditary Good) (hbound : 0 < options.setting.maxNesting)
    (hstart : ∀ u d, Asks x ((Run.context options).perform depth) {} u d →
      u.Stands Good options.setting.maxNesting d ∧ u.calls ≤ u.reach d + extra)
    (h : Trail (Run.context options) x depth left stack t c) :
    t.Stands Good options.setting.maxNesting c ∧ Task.openCalls (t :: stack) ≤ t.reach c + extra := by
  induction h with
  | first hasks =>
    obtain ⟨hstands, hcalls⟩ := hstart _ _ hasks
    exact ⟨hstands, by simpa [Task.openCalls_cons, Task.openCalls] using hcalls⟩
  | next _ hasks ih =>
    obtain ⟨hstands, hcalls⟩ := ih
    obtain ⟨hnext, hreach, -⟩ := hstands.asks hgood hbound hasks
    refine ⟨hnext, ?_⟩
    rw [Task.openCalls_cons]
    omega

end Trails

/-! ### Where runs begin -/

theorem Config.held_start (Good : Task → Prop) (bound : Nat) : Config.Held Good bound 0 0 {} :=
  ⟨rfl, Nat.zero_le _, Nat.zero_le _, ScopeArena.functions_start⟩

namespace Run
variable {Good : Task → Prop} (hgood : Task.Hereditary Good) {options : Options}
  (hbound : 0 < options.setting.maxNesting) {program : Block} (hprogram : Good (.block program))
  {depth : Nat} {u : Task} {d : Config}
include hgood hbound hprogram

/-- A program begins with its statements, none of which is a call. -/
theorem outermost_stands (hasks : Asks (outermost (context options) program)
    ((context options).perform depth) {} u d) :
    u.Stands Good options.setting.maxNesting d ∧ u.calls ≤ u.reach d := by
  have cong : (context options).Congruence (context options) fun _ x y =>
      Exec.Preserves (Config.Held Good options.setting.maxNesting 0 0) x y := held_congruence hbound
  obtain ⟨hpart, hheld⟩ : Task.Part (.block program) u ∧ d.Held Good options.setting.maxNesting 0 0 := by
    refine hasks.confined (fun v hv => perform_preserves hgood hbound depth (hgood.part hprogram hv) (.inr rfl))
      (fun other hother => ?_) (Config.held_start Good _)
    exact cong.block program (cong.gets _) (held_functions hgood hprogram) fun s hs => hother _ (.item hs)
  refine ⟨⟨hgood.part hprogram hpart, hheld.base ▸ hheld⟩, ?_⟩
  cases hpart
  exact Nat.zero_le _

/-- An entry begins with a call. -/
theorem entry_stands {name : String} {args : List Word} (hcall : Good (.invoke name args))
    (hasks : Asks (entry program name args) ((context options).perform depth) {} u d) :
    u.Stands Good options.setting.maxNesting d ∧ u.calls ≤ u.reach d + 1 := by
  have cong : (context options).Congruence (context options) fun _ x y =>
      Exec.Preserves (Config.Held Good options.setting.maxNesting 0 0) x y := held_congruence hbound
  obtain ⟨rfl, hheld⟩ : u = .invoke name args ∧ d.Held Good options.setting.maxNesting 0 0 := by
    refine hasks.confined (T := fun v => v = .invoke name args)
      (fun v hv => perform_preserves hgood hbound depth (hv ▸ hcall) (.inr rfl))
      (fun other hother => ?_) (Config.held_start Good _)
    exact cong.bind (cong.enterScope _) fun _ =>
      cong.bind (cong.declareFunctions (held_functions hgood hprogram)) fun _ => hother _ rfl
  exact ⟨⟨hcall, hheld.base ▸ hheld⟩, Nat.le_add_left _ _⟩

end Run

/-! ### Programs without loops -/

mutual
/-- Whether a block has no loop, anywhere in its text. -/
def Block.loopFree : Block → Bool
  | ⟨_, statements⟩ => Statement.listLoopFree statements

/-- Whether statements have no loop. -/
def Statement.listLoopFree : List Statement → Bool
  | [] => true
  | s :: rest => s.loopFree && Statement.listLoopFree rest

/-- Whether the bodies of cases have no loop. -/
def Case.listLoopFree : List Case → Bool
  | [] => true
  | ⟨_, body⟩ :: rest => body.loopFree && Case.listLoopFree rest

/-- Whether a statement has no loop, anywhere in its text. -/
def Statement.loopFree : Statement → Bool
  | .conditional _ body => body.loopFree
  | .switch _ cases => Case.listLoopFree cases
  | .function ⟨_, _, _, body⟩ => body.loopFree
  | .loop _ => false
  | .block b => b.loopFree
  | .expression _ | .assignment _ _ | .declaration _ _ | .breakLoop | .continueLoop | .leave => true
end

theorem Block.loopFree_eq (b : Block) : b.loopFree = Statement.listLoopFree b.statements := by
  obtain ⟨id, statements⟩ := b
  rfl

theorem Statement.loopFree_of_mem {s : Statement} {statements : List Statement} (h : s ∈ statements)
    (hfree : Statement.listLoopFree statements = true) : s.loopFree = true := by
  induction statements with
  | nil => cases h
  | cons first rest ih =>
    obtain ⟨hfirst, hrest⟩ := Bool.and_eq_true_iff.mp hfree
    rcases List.mem_cons.mp h with rfl | h
    · exact hfirst
    · exact ih h hrest

theorem Case.loopFree_of_mem {c : Case} {cases : List Case} (h : c ∈ cases)
    (hfree : Case.listLoopFree cases = true) : c.body.loopFree = true := by
  induction cases with
  | nil => cases h
  | cons first rest ih =>
    obtain ⟨value, body⟩ := first
    obtain ⟨hfirst, hrest⟩ := Bool.and_eq_true_iff.mp hfree
    rcases List.mem_cons.mp h with rfl | h
    · exact hfirst
    · exact ih h hrest

/-- The size of the text of a task. -/
noncomputable def Task.size : Task → Nat
  | .expression e => sizeOf e
  | .invoke _ _ => 0
  | .statement s => sizeOf s
  | .block b => sizeOf b
  | .rounds l => sizeOf l

/-- A task without loops, of some size at most. -/
def Task.LoopFree (bound : Nat) (t : Task) : Prop :=
  t.size ≤ bound ∧
    match t with
    | .expression _ | .invoke _ _ => True
    | .statement s => s.loopFree = true
    | .block b => b.loopFree = true
    | .rounds _ => False

namespace Task

/-- In a text without loops, the parts of it are smaller. -/
theorem Part.size_lt {bound : Nat} {t u : Task} (h : t.Part u) (ht : t.LoopFree bound) : u.size < t.size := by
  cases h with
  | argument hmem =>
    have hless := List.sizeOf_lt_of_mem hmem
    simp only [size, Expr.call.sizeOf_spec]
    omega
  | callee =>
    simp only [size, Expr.call.sizeOf_spec]
    omega
  | value =>
    simp only [size, Statement.expression.sizeOf_spec]
    omega
  | assigned =>
    simp only [size, Statement.assignment.sizeOf_spec]
    omega
  | declared =>
    simp only [size, Statement.declaration.sizeOf_spec, Option.some.sizeOf_spec]
    omega
  | condition =>
    simp only [size, Statement.conditional.sizeOf_spec]
    omega
  | branch =>
    simp only [size, Statement.conditional.sizeOf_spec]
    omega
  | scrutinee =>
    simp only [size, Statement.switch.sizeOf_spec]
    omega
  | candidate hmem =>
    have hless := List.sizeOf_lt_of_mem hmem
    simp only [size, Case.mk.sizeOf_spec, Option.some.sizeOf_spec, Statement.switch.sizeOf_spec,
      Expr.literal.sizeOf_spec] at hless ⊢
    omega
  | @chosen _ _ c hmem =>
    have hless := List.sizeOf_lt_of_mem hmem
    obtain ⟨value, body⟩ := c
    simp only [size, Case.mk.sizeOf_spec, Statement.switch.sizeOf_spec] at hless ⊢
    omega
  | front => cases ht.2
  | begin => cases ht.2
  | nested =>
    simp only [size, Statement.block.sizeOf_spec]
    omega
  | @item b s hmem =>
    have hless := List.sizeOf_lt_of_mem hmem
    obtain ⟨id, statements⟩ := b
    simp only [size, Block.mk.sizeOf_spec] at hless ⊢
    omega
  | test => exact ht.2.elim
  | round => exact ht.2.elim
  | post => exact ht.2.elim
  | again => exact ht.2.elim

/-- Parts of a text without loops are without loops. -/
theorem Part.loopFree {bound : Nat} {t u : Task} (h : t.Part u) (ht : t.LoopFree bound) :
    u.LoopFree bound := by
  have hsize : u.size ≤ bound := Nat.le_trans (Nat.le_of_lt (h.size_lt ht)) ht.1
  refine ⟨hsize, ?_⟩
  cases h with
  | branch => exact ht.2
  | chosen hmem => exact Case.loopFree_of_mem hmem ht.2
  | front => cases ht.2
  | begin => cases ht.2
  | nested => exact ht.2
  | @item b s hmem => exact Statement.loopFree_of_mem hmem (b.loopFree_eq ▸ ht.2)
  | test => trivial
  | round => exact ht.2.elim
  | post => exact ht.2.elim
  | again => exact ht.2.elim
  | _ => trivial

/-- To be without loops, and no larger than some size, is inherited. -/
theorem loopFree_hereditary (bound : Nat) : Hereditary (LoopFree bound) where
  part ht hpart := hpart.loopFree ht
  body {b f} hb hf := by
    have hregion : f ∈ (Region.block b).functions := hf
    have hmem : .function f ∈ b.statements := Region.function_mem hregion
    have hfree : Statement.loopFree (.function f) = true :=
      Statement.loopFree_of_mem hmem (b.loopFree_eq ▸ hb.2)
    have hsize := List.sizeOf_lt_of_mem hmem
    have hbound := hb.1
    obtain ⟨id, statements⟩ := b
    obtain ⟨name, params, returns, body⟩ := f
    simp only [Statement.function.sizeOf_spec, FunctionDefinition.mk.sizeOf_spec] at hsize
    simp only [size, Block.mk.sizeOf_spec] at hbound
    have hbody : sizeOf body ≤ bound := by omega
    exact ⟨hbody, hfree⟩

/-- How much is still ahead of a task at most: the room up to the bound on nesting counts before the text. -/
noncomputable def rank (levels size : Nat) (t : Task) (c : Config) : Nat :=
  (levels - t.reach c + t.calls) * (size + 1) + t.size

theorem calls_le (t : Task) : t.calls ≤ 1 := by
  cases t <;> simp [calls]

/-- What a task asks for has less ahead. -/
theorem Stands.rank_lt {size : Nat} {options : Options} (hbound : 0 < options.setting.maxNesting) {left : Nat}
    {t u : Task} {c d : Config} (h : t.Stands (LoopFree size) options.setting.maxNesting c)
    (hasks : Asks (fun runner => (Run.context options).advance runner t)
      ((Run.context options).perform left) c u d) :
    u.rank options.setting.maxNesting size d < t.rank options.setting.maxNesting size c := by
  obtain ⟨hnext, hreach, hpart⟩ := h.asks (loopFree_hereditary size) hbound hasks
  have hroom := hnext.reach_le
  unfold rank
  rcases hpart with hpart | ⟨hcall, b, rfl⟩
  · have hsmaller := hpart.size_lt h.good
    have hrooms : options.setting.maxNesting - u.reach d + u.calls ≤
        options.setting.maxNesting - t.reach c + t.calls := by omega
    have hproduct := Nat.mul_le_mul_right (size + 1) hrooms
    omega
  · -- The body of a function is of any size, but the call is over.
    have hsize := hnext.good.1
    have hblock : Task.calls (.block b) = 0 := rfl
    have hrooms : options.setting.maxNesting - Task.reach (.block b) d + Task.calls (.block b) + 1 ≤
        options.setting.maxNesting - t.reach c + t.calls := by omega
    have hproduct := Nat.mul_le_mul_right (size + 1) hrooms
    rw [Nat.succ_mul] at hproduct
    omega

end Task

/-! ### Running out of depth -/

open Classical in
/-- Fails otherwise where a runner runs out of depth. -/
noncomputable def Runner.shallowed (runner : Runner) : Runner := fun t c =>
  if (runner t c).1 = .error .outOfDepth then (.error (.failed .scopeUnderflow), c) else runner t c

theorem Runner.shallowed_shallow (runner : Runner) (t : Task) : Exec.Shallow (runner.shallowed t) := by
  intro c hout
  unfold Runner.shallowed at hout
  split at hout
  · cases hout
  · rename_i hends
    exact hends hout

/-- A part that runs out of depth asks for a task that does. -/
theorem AsksAll.outOfDepth {α : Type} {x : Runner → Exec α} (hx : AsksAll x)
    (hshallow : ∀ runner : Runner, (∀ t, Exec.Shallow (runner t)) → Exec.Shallow (x runner))
    {runner : Runner} {c : Config} (hout : (x runner c).1 = .error .outOfDepth) :
    ∃ u d, Asks x runner c u d ∧ (runner u d).1 = .error .outOfDepth := by
  apply Classical.byContradiction
  intro hnone
  have hsame : x runner.shallowed c = x runner c := by
    refine hx runner runner.shallowed c fun u d hasks => if_neg fun hfail => ?_
    exact hnone ⟨u, d, hasks, hfail⟩
  refine hshallow runner.shallowed runner.shallowed_shallow c ?_
  rw [hsame]
  exact hout

section Ending
variable {size : Nat} {options : Options} (hbound : 0 < options.setting.maxNesting)
include hbound

/-- A task without loops is done when the depth is more than its rank. -/
theorem Task.Stands.answers {depth : Nat} {t : Task} {c : Config}
    (h : t.Stands (Task.LoopFree size) options.setting.maxNesting c)
    (hdepth : t.rank options.setting.maxNesting size c < depth) :
    ((Run.context options).perform depth t c).1 ≠ .error .outOfDepth := by
  induction depth generalizing t c with
  | zero => exact absurd hdepth (Nat.not_lt_zero _)
  | succ depth ih =>
    intro hout
    obtain ⟨u, d, hasks, hfail⟩ := (advance_asksAll (Run.context options) t).outOfDepth
      (fun runner hrunner => @Context.Uniform.advance _ _ _ runner runner
        (Exec.shallow_uniform (Run.context options)) hrunner t) hout
    have hless := h.rank_lt hbound hasks
    exact ih (h.asks (Task.loopFree_hereditary size) hbound hasks).1 (by omega) hfail

/-- A part of a run settles if the tasks it begins with have no loops. -/
theorem settles_of_stands {α : Type} {x : Runner → Exec α} (hx : AsksAll x)
    (hshallow : ∀ runner : Runner, (∀ t, Exec.Shallow (runner t)) → Exec.Shallow (x runner))
    (hstart : ∀ depth u d, Asks x ((Run.context options).perform depth) {} u d →
      u.Stands (Task.LoopFree size) options.setting.maxNesting d) :
    Exec.Settles (fun depth => x ((Run.context options).perform depth)) {} := by
  refine ⟨(options.setting.maxNesting + 1) * (size + 1) + size + 1, fun hout => ?_⟩
  obtain ⟨u, d, hasks, hfail⟩ := hx.outOfDepth hshallow hout
  have hstands := hstart _ u d hasks
  refine hstands.answers hbound ?_ hfail
  have hcalls := u.calls_le
  have hrooms : options.setting.maxNesting - u.reach d + u.calls ≤ options.setting.maxNesting + 1 := by omega
  have hproduct := Nat.mul_le_mul_right (size + 1) hrooms
  have hsize := hstands.good.1
  unfold Task.rank
  omega

end Ending

/-! ### Runs -/

namespace Run

/-- At every moment of a run so many activations of functions are open at most. -/
structure OpensAtMost {α : Type} (ctx : Context) (x : Runner → Exec α) (depth most : Nat) : Prop where
  /-- Every moment has a trail, which tells what is under way. -/
  trail : ∀ left t c, Moment ctx x depth left t c → ∃ stack, Trail ctx x depth left stack t c
  calls : ∀ left stack t c, Trail ctx x depth left stack t c → Task.openCalls (t :: stack) ≤ most

theorem opensAtMost {α : Type} {options : Options} (hbound : 0 < options.setting.maxNesting)
    {x : Runner → Exec α} {depth : Nat} (extra : Nat)
    (hstart : ∀ u d, Asks x ((context options).perform depth) {} u d →
      u.Stands (fun _ => True) options.setting.maxNesting d ∧ u.calls ≤ u.reach d + extra) :
    OpensAtMost (context options) x depth (options.setting.maxNesting + extra) where
  trail _ _ _ h := h.trail
  calls left stack t c h := by
    obtain ⟨hstands, hcalls⟩ := h.stands ⟨fun _ _ => trivial, fun _ _ => trivial⟩ hbound hstart
    have hreach := hstands.reach_le
    omega

end Run

/-- The bound on nesting bounds the activations that are open at any moment, in the run of a program and,
with the one it begins with, in a call of a function. A program without loops therefore ends, and so does
every call of its functions. -/
theorem nesting_bounds_recursion (program : Block) {doc : Option Json} {options : Options}
    (hresolve : Options.resolve doc = .ok options) (hbound : 0 < options.setting.maxNesting) :
    (∀ depth, Run.OpensAtMost (Run.context options) (Run.outermost (Run.context options) program) depth
      options.setting.maxNesting) ∧
    (∀ name args depth, Run.OpensAtMost (Run.context options) (Run.entry program name args) depth
      (options.setting.maxNesting + 1)) ∧
    (program.loopFree = true → (Terminates fun depth => interpret depth program doc) ∧
      ∀ name args, Terminates fun depth => callFunction depth program name args doc) := by
  have htrue : Task.Hereditary fun _ => True := ⟨fun _ _ => trivial, fun _ _ => trivial⟩
  refine ⟨fun depth => ?_, fun name args depth => ?_, fun hfree => ?_⟩
  · exact Run.opensAtMost hbound 0 fun u d hasks => Run.outermost_stands htrue hbound trivial hasks
  · exact Run.opensAtMost hbound 1 fun u d hasks => Run.entry_stands htrue hbound trivial trivial hasks
  · have hgood := Task.loopFree_hereditary (sizeOf program)
    have hprogram : Task.LoopFree (sizeOf program) (.block program) := ⟨Nat.le_refl _, hfree⟩
    have hshallow := Exec.shallow_uniform (Run.context options)
    refine ⟨?_, fun name args => ?_⟩
    · unfold interpret Run.withOptions
      rw [hresolve]
      refine terminates_guarded options (program_growing _ program) (settles_of_stands hbound
        (Run.outermost_asksAll _ program) (fun runner hrunner => ?_) fun depth u d hasks =>
          (Run.outermost_stands hgood hbound hprogram hasks).1)
      exact @Context.Congruence.block _ _ _ runner runner hshallow.toCongruence _ program _ (hshallow.gets _)
        (fun f _ => hshallow.declareFunction f) fun s _ => hrunner _
    · unfold callFunction Run.withOptions
      rw [hresolve]
      rcases Run.argumentFault? 0 args with _ | error
      · refine terminates_guarded options (call_growing _ program name _) (settles_of_stands hbound
          (Run.entry_asksAll program name _) (fun runner hrunner => ?_) fun depth u d hasks =>
            (Run.entry_stands hgood hbound hprogram ⟨Nat.zero_le _, trivial⟩ hasks).1)
        exact (Exec.plain_enterScope _).shallow.bind fun _ =>
          (Exec.plain_declareFunctions _).shallow.bind fun _ => hrunner _
      · exact terminates_const nofun

/-- A function that calls itself, and a call of it. -/
def recurring : Block :=
  ⟨[], [.function ⟨"f", [], [], ⟨Place.field (Place.item [] "statements" 0) "body",
    [.expression (.call "f" [])]⟩⟩, .expression (.call "f" [])]⟩

theorem nesting_bounds_recursion_recurring :
    Terminates fun depth =>
      interpret depth recurring (some (.object [("maxExprNesting", .number (.ofNat 3))])) := by
  have hresolve : Options.resolve (some (.object [("maxExprNesting", .number (.ofNat 3))])) =
      .ok ⟨{ maxNesting := 3 }, .evm, false⟩ := rfl
  exact ((nesting_bounds_recursion recurring hresolve (by decide)).2.2 rfl).1

end BlockIR
