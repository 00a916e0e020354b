import BlockIR.Proofs.Abreast
import BlockIR.Proofs.Recast

/-! Runs of recast programs.

A task of a program and the task that came of it keep their runs abreast, if
those that they lead to do (`Task.Recast`, `Task.Tallied`). Two facts about
checked programs are used throughout. A task asks only for tasks that are ready,
so one that is asked for elsewhere may be taken to fail (`Runner.confined`), and
the steps of a run need no account of what is ready on the way. And leaving a
region takes away just what was not bound around it (`Config.Sheds`), so it does
not matter that the two runs leave different regions.

The run of the recast program may need more depth. What a replaced statement and
the one in its place come to has to be shown for each way of replacing
(`Statement.Exchanges`); from it whole runs are alike (`Node.Recast.alike`). -/
namespace BlockIR

open Exec

/-! ### Tasks that are asked for -/

open Classical in
/-- Does the tasks in the places of `P`, and fails elsewhere. -/
noncomputable def Runner.confined (runner : Runner) (P : Task → Config → Prop) : Runner := fun u e =>
  if P u e then runner u e else (.error (.failed .scopeUnderflow), e)

/-- What a task in a chain asks for, where it is ready. -/
def Task.Reaches (job : Job) (t : Task) (chain : Chain) (u : Task) (e : Config) : Prop :=
  ∃ inner visible, Leads t chain u inner ∧ u.Ready job visible inner e

/-- Does the tasks that `t` leads to where they are ready. -/
noncomputable def Job.serving (job : Job) (depth : Nat) (t : Task) (chain : Chain) : Runner :=
  (job.ctx.perform depth).confined (t.Reaches job chain)

section Confined
variable {job : Job} {visible : Visible} {chain inner : Chain} {t u : Task} {c : Config} {depth : Nat}

theorem serving_of_ready (hleads : Leads t chain u inner) (h : u.Ready job visible inner c) :
    job.serving depth t chain u c = job.ctx.perform depth u c := if_pos ⟨inner, visible, hleads, h⟩

theorem serving_serves (hjob : job.Valid) (t : Task) (chain : Chain) (depth : Nat) :
    (job.serving depth t chain).Serves job chain t := fun _ _ _ hleads _ hready =>
  (perform_meets hjob depth hready).congr (serving_of_ready hleads hready)

/-- Nothing else is asked for. -/
theorem Task.Ready.perform_succ (hjob : job.Valid) (h : t.Ready job visible chain c) (depth : Nat) :
    job.ctx.perform (depth + 1) t c = job.ctx.advance (job.serving depth t chain) t c :=
  (advance_asksAll job.ctx t _ _ c fun _ _ hasks => if_pos (h.asks hjob hasks)).symm

/-- After a task the run is in the scope that it was in. -/
theorem Task.Ready.seated (hjob : job.Valid) (h : t.Ready job visible chain c) (depth : Nat) :
    (job.ctx.perform depth t c).2.Seated := by
  have hstands := h.poised.stands.follows (perform_meets hjob depth h).goes.1
  exact hstands.scope.valid hstands.mirrors.sound

/-- Evaluation leaves no signal, and all variables as they were. -/
theorem serving_calm (hjob : job.Valid) {e : Expr} {values : List Word} {d : Config}
    (h : job.serving depth t chain (.expression e) c = (.ok values, d)) :
    d.machine.signal = .proceed ∧ ∀ name ∈ c.activation.bindings,
      d.activation.bindings[name]? = c.activation.bindings[name]? := by
  by_cases hreaches : t.Reaches job chain (.expression e) c
  · have hserve : job.serving depth t chain (.expression e) c = job.ctx.perform depth (.expression e) c :=
      if_pos hreaches
    obtain ⟨inner, visible, -, hready⟩ := hreaches
    obtain ⟨hfollows, hdone⟩ := (perform_meets hjob depth hready).goes
    rw [← hserve, h] at hfollows hdone
    exact ⟨hdone.2.1, fun name hname => hfollows.kept name hname List.not_mem_nil⟩
  · have hserve : job.serving depth t chain (.expression e) c = (.error (.failed .scopeUnderflow), c) := if_neg hreaches
    rw [h] at hserve
    cases hserve

section Steps
variable {side : Side} {agree : Prop} {α β : Type} {S : Config → Config → Prop}

/-- A task that the left run asks for, a step further. Asked for elsewhere it has gone astray. -/
theorem tallies_serving_left (hjob : job.Valid) (hleads : Leads t chain u inner) {f : List Word → Exec α} {y : Exec β}
    {Q : α → β → Config → Config → Prop}
    (h : Tallies side agree S Q (job.ctx.advance (job.serving depth u inner) u >>= f) y) :
    Tallies side agree S Q (job.serving (depth + 1) t chain u >>= f) y := by
  intro c d hcd hanswers
  by_cases hreaches : t.Reaches job chain u c
  · have hserve : job.serving (depth + 1) t chain u c = job.ctx.perform (depth + 1) u c := if_pos hreaches
    obtain ⟨inner', visible, hleads', hready⟩ := hreaches
    obtain rfl := hleads'.unique hleads rfl
    rw [hready.perform_succ hjob] at hserve
    rw [Effect.bind_apply, hserve, ← Effect.bind_apply] at hanswers ⊢
    exact h c d hcd hanswers
  · have hserve : job.serving (depth + 1) t chain u c = (.error (.failed .scopeUnderflow), c) := if_neg hreaches
    rw [Effect.bind_of_error hserve]
    exact .strayLeft fun hallowed => hallowed.1 rfl

/-- A task that the right run asks for, a step further. -/
theorem tallies_serving_right (hjob : job.Valid) (hleads : Leads t chain u inner) {x : Exec α}
    {Q : α → List Word → Config → Config → Prop}
    (h : Tallies side agree S Q x (job.ctx.advance (job.serving depth u inner) u)) :
    Tallies side agree S Q x (job.serving (depth + 1) t chain u) := by
  intro c d hcd hanswers
  by_cases hreaches : t.Reaches job chain u d
  · have hserve : job.serving (depth + 1) t chain u d = job.ctx.perform (depth + 1) u d := if_pos hreaches
    obtain ⟨inner', visible, hleads', hready⟩ := hreaches
    obtain rfl := hleads'.unique hleads rfl
    rw [hserve, hready.perform_succ hjob] at hanswers ⊢
    exact h c d hcd hanswers
  · rw [show job.serving (depth + 1) t chain u d = (.error (.failed .scopeUnderflow), d) from if_neg hreaches]
    exact .strayRight fun hallowed => hallowed.1 rfl

/-- Without depth the right run has no answer for a task it asks for. -/
theorem tallies_serving_spent {x : Exec α} {Q : α → List Word → Config → Config → Prop} :
    Tallies .right agree S Q x (job.serving 0 t chain u) := by
  intro c d _ hanswers
  by_cases hreaches : t.Reaches job chain u d
  · have hserve : job.serving 0 t chain u d = (.error .outOfDepth, d) := if_pos hreaches
    exact absurd (congrArg Prod.fst hserve) hanswers
  · rw [show job.serving 0 t chain u d = (.error (.failed .scopeUnderflow), d) from if_neg hreaches]
    exact .strayRight fun hallowed => hallowed.1 rfl

/-- A task that the right run asks for, a step further where there is depth for one. -/
theorem tallies_serving_next (hjob : job.Valid) (hleads : Leads t chain u inner) {x : Exec α}
    {Q : α → List Word → Config → Config → Prop} (hspent : depth = 0 → side = .right)
    (h : ∀ less, depth = less + 1 → Tallies side agree S Q x (job.ctx.advance (job.serving less u inner) u)) :
    Tallies side agree S Q x (job.serving depth t chain u) := by
  rcases depth with _ | less
  · obtain rfl := hspent rfl
    exact tallies_serving_spent
  · exact tallies_serving_right hjob hleads (h less rfl)

end Steps

end Confined

theorem Config.Stands.seated {program : Block} {chain : Chain} {c : Config} (h : c.Stands program chain) :
    c.Seated := h.scope.valid h.mirrors.sound

/-! ### Entering and leaving regions -/

/-- `e` is what `d` becomes when the variables go that are not bound in `c`. -/
structure Config.Sheds (c d e : Config) : Prop where
  machine : e.machine = d.machine
  kept : ∀ name ∈ c.activation.bindings, e.activation.bindings[name]? = d.activation.bindings[name]?
  gone : ∀ name, name ∉ c.activation.bindings → e.activation.bindings[name]? = none
  base : e.activation.base = d.activation.base
  level : e.activation.level = d.activation.level
  seated : e.Seated

section Regions
variable {program : Block} {chain : Chain} {region : Region} {targets : List String} {c d e o o' : Config}
  {ctx : Context} {hidden : String → Prop}

/-- Nothing goes if the same variables are bound as before. -/
theorem Config.Shows.sheds {visible : Visible} (h : c.Shows visible) (hd : d.Shows visible) (hseated : d.Seated) :
    c.Sheds d d where
  machine := rfl
  kept _ _ := rfl
  gone name hname := Std.ExtTreeMap.getElem?_eq_none fun hbound => hname ((h name).mpr ((hd name).mp hbound))
  base := rfl
  level := rfl
  seated := hseated

theorem leaveScope_eq_ok (h : leaveScope d = (.ok (), e)) : ∃ scope names,
    e = { d with activation := { d.activation with
      scope := scope, bindings := ScopeArena.without d.activation.bindings names } } := by
  obtain ⟨names, htable⟩ := d.scopes.leave_table d.activation.scope d.activation.bindings
  unfold leaveScope at h
  rcases hleave : d.scopes.leave d.activation.scope d.activation.bindings with ⟨_ | scope, bindings⟩ <;>
    rw [hleave] at h htable <;> cases h
  exact ⟨scope, names, by rw [← htable]⟩

/-- What is left of a region that was opened in `c`. -/
theorem Config.Opens.sheds (hprogram : program.WrittenAt []) (hopens : c.Opens program chain region o)
    (hapart : ∀ name ∈ region.names, name ∉ c.activation.bindings) (hstands : c.Stands program chain)
    (hfollows : o.Follows program targets d) :
    ∃ e, leaveScope d = (.ok (), e) ∧ c.Sheds d e := by
  obtain ⟨e, hleave, hback, hstill, hmachine⟩ := hopens.leaves hprogram hapart hfollows
  refine ⟨e, hleave, hmachine, fun name hname => ?_, fun name hname => ?_, ?_, ?_,
    (hstands.follows hback).seated⟩
  · have hbound := Std.ExtTreeMap.isSome_getElem?_iff_mem.mpr (hback.bound name hname)
    obtain ⟨scope, names, rfl⟩ := leaveScope_eq_ok hleave
    have hleft := ScopeArena.getElem?_without names d.activation.bindings name
    change (ScopeArena.without d.activation.bindings names)[name]?.isSome = true at hbound
    show (ScopeArena.without d.activation.bindings names)[name]? = _
    rw [hleft] at hbound ⊢
    split at hbound
    · cases hbound
    · rename_i hkept
      rw [if_neg hkept]
  · exact Std.ExtTreeMap.getElem?_eq_none fun hbound => hname (hstill name hbound)
  · obtain ⟨scope, names, rfl⟩ := leaveScope_eq_ok hleave
    rfl
  · obtain ⟨scope, names, rfl⟩ := leaveScope_eq_ok hleave
    rfl

theorem Config.Abreast.opens_left (h : c.Abreast ctx hidden d) (hopens : c.Opens program chain region o) :
    o.Abreast ctx hidden d where
  machine := hopens.machine.symm ▸ h.machine
  bindings := hopens.bindings.symm ▸ h.bindings
  unbound := hopens.bindings.symm ▸ h.unbound
  levels := by
    rw [hopens.base, hopens.level]
    exact h.levels
  seated := hopens.stands.seated
  seated' := h.seated'

theorem Config.Abreast.opens_right (h : c.Abreast ctx hidden d) (hopens : d.Opens program chain region o) :
    c.Abreast ctx hidden o where
  machine := hopens.machine.symm ▸ h.machine
  bindings := hopens.bindings.symm ▸ h.bindings
  unbound := h.unbound
  levels := by
    rw [hopens.base, hopens.level]
    exact h.levels
  seated := h.seated
  seated' := hopens.stands.seated

/-- Two runs stay abreast when the same variables are left on both sides, and hidden ones go. -/
theorem Config.Abreast.sheds {d d' e e' : Config} (h : d.Abreast ctx hidden d') (hsheds : c.Sheds d e)
    (hsheds' : o.Sheds d' e') (hsame : ∀ name, name ∈ o.activation.bindings ↔ name ∈ c.activation.bindings)
    (hhidden : ∀ name, hidden name → name ∉ c.activation.bindings) : e.Abreast ctx (fun _ => False) e' where
  machine := by
    rw [hsheds.machine, hsheds'.machine]
    exact h.machine
  bindings name _ := by
    by_cases hname : name ∈ c.activation.bindings
    · rw [hsheds.kept name hname, hsheds'.kept name ((hsame name).mpr hname)]
      exact h.bindings name fun hh => hhidden name hh hname
    · rw [hsheds.gone name hname, hsheds'.gone name (mt (hsame name).mp hname)]
  unbound := nofun
  levels := by
    rw [hsheds.base, hsheds.level, hsheds'.base, hsheds'.level]
    exact h.levels
  seated := hsheds.seated
  seated' := hsheds'.seated

theorem Config.Abreast.mem_iff (h : c.Abreast ctx (fun _ => False) d) (name : String) :
    name ∈ d.activation.bindings ↔ name ∈ c.activation.bindings := by
  rw [← Std.ExtTreeMap.isSome_getElem?_iff_mem, ← Std.ExtTreeMap.isSome_getElem?_iff_mem, h.bindings name id]

/-- Results stay abreast when a region is left. -/
theorem Tally.sheds {agree : Prop} {α : Type} {r r' : Except Stop α × Config} {e' : Config}
    (h : Tally agree (fun a b c d => b = a ∧ c.Abreast ctx hidden d) r r')
    (hmachine : e.machine = r.2.machine) (hmachine' : e'.machine = r'.2.machine)
    (hsheds : ∀ a, r.1 = .ok a → c.Sheds r.2 e) (hsheds' : ∀ a, r'.1 = .ok a → o.Sheds r'.2 e')
    (hsame : ∀ name, name ∈ o.activation.bindings ↔ name ∈ c.activation.bindings)
    (hhidden : ∀ name, hidden name → name ∉ c.activation.bindings) :
    Tally agree (fun a b c d => b = a ∧ c.Abreast ctx (fun _ => False) d) (r.1, e) (r'.1, e') := by
  cases h with
  | strayLeft hstray => exact .strayLeft hstray
  | strayRight hstray => exact .strayRight hstray
  | error stop h =>
    refine .error stop ?_
    rw [hmachine, hmachine']
    exact h
  | ok h => exact .ok ⟨h.1, h.2.sheds (hsheds _ rfl) (hsheds' _ rfl) hsame hhidden⟩

/-- What is done in a region, and the leaving of it. -/
theorem Config.Opens.leaving (hprogram : program.WrittenAt []) (hopens : c.Opens program chain region o)
    (hapart : ∀ name ∈ region.names, name ∉ c.activation.bindings) (hstands : c.Stands program chain)
    {agree : Prop} {α : Type} {x : Exec α} {post : α → Config → Prop} (hx : x.Goes program agree targets o post) :
    ∃ e, x.ensuring leaveScope o = ((x o).1, e) ∧ c.Sheds (x o).2 e := by
  obtain ⟨e, hleave, hsheds⟩ := hopens.sheds hprogram hapart hstands hx.1
  exact ⟨e, Effect.ensuring_apply rfl hleave, hsheds⟩

end Regions

/-! ### Blocks and loops -/

section Opening
variable {job : Job} {visible : Visible} {chain : Chain} {c : Config}

/-- A block that is ready opens its region, and whatever runs in it leaves the region at the end. -/
theorem Task.Ready.block (hjob : job.Valid) {b : Block} (h : c.Poised job visible chain)
    (hfits : (Task.block b).Fits job visible chain) {runner : Runner} (hrunner : runner.Serves job chain (.block b))
    {α : Type} (f : Config → α) :
    ∃ o e, c.Opens job.program chain (.block b) o ∧
      job.ctx.block runner b (Effect.gets f) c =
        (((job.ctx.sequence runner b.statements >>= fun _ => Effect.gets f) o).1, e) ∧
      c.Sheds ((job.ctx.sequence runner b.statements >>= fun _ => Effect.gets f) o).2 e := by
  obtain ⟨hchecked, hinner⟩ := hfits
  have hregion : (Region.block b).Checked job.dialect visible := hchecked
  obtain ⟨entered, o, henter, hdeclare, hopens⟩ := h.stands.opens hjob.written hinner hchecked.functions.2
  have hsequence := sequence_goes (fun s hs visible => hrunner _ _ visible (.item hs)) (fun s hs => hs)
    hregion.statements (hopens.poised h hregion) (List.Subset.refl _)
  have hgoes : Goes job.program job.Agrees _ (job.ctx.sequence runner b.statements >>= fun _ => Effect.gets f) o
      fun _ _ => True := hsequence.bind fun _ _ hfollows _ => goes_gets hfollows.mirrors f trivial
  obtain ⟨e, hleaving, hsheds⟩ := hopens.leaving hjob.written (hregion.apart h.shows) h.stands hgoes
  refine ⟨o, e, hopens, ?_, hsheds⟩
  rw [← hleaving]
  exact (Effect.bind_of_ok henter).trans (Effect.ensuring_bind_of_ok hdeclare)

/-- A block of which nothing is read off at the end. -/
theorem Task.Ready.block_unit (hjob : job.Valid) {b : Block} (h : (Task.block b).Ready job visible chain c)
    {runner : Runner} (hrunner : runner.Serves job chain (.block b)) :
    ∃ o e, c.Opens job.program chain (.block b) o ∧
      job.ctx.block runner b (pure ()) c = ((job.ctx.sequence runner b.statements o).1, e) ∧
      c.Sheds (job.ctx.sequence runner b.statements o).2 e := by
  have hunit : (job.ctx.sequence runner b.statements >>= fun _ => Effect.gets fun _ => ()) =
      job.ctx.sequence runner b.statements := bind_pure_unit
  have hblock := Task.Ready.block hjob h.poised h.fits hrunner fun _ => ()
  rwa [hunit] at hblock

/-- What runs in the region of a loop: the statements in front of it, and its rounds unless one of them leaves. -/
def Runner.inLoop (runner : Runner) (front : List Statement) (l : ForLoop) : Exec Unit := do
  let left ← runner.initialise front
  if left then pure () else runner.run (.rounds l)

theorem Task.Ready.loop (hjob : job.Valid) {l : ForLoop} (h : (Task.statement (.loop l)).Ready job visible chain c)
    {runner : Runner} (hrunner : runner.Serves job chain (.statement (.loop l))) :
    ∃ o e, c.Opens job.program chain (.loop l) o ∧
      runner.statement (.loop l) c = ((runner.inLoop l.init.statements l o).1, e) ∧
      c.Sheds (runner.inLoop l.init.statements l o).2 e := by
  obtain ⟨hpoised, hchecked, region, outer, rfl, hmem⟩ := h
  have hregion : (Region.loop l).Checked job.dialect visible := hchecked
  obtain ⟨entered, o, henter, hdeclare, hopens⟩ := hpoised.stands.opens hjob.written
    (Region.mem_inner hmem (List.mem_singleton_self (Region.loop l))) List.nodup_nil
  obtain ⟨-, rfl⟩ := Prod.mk.inj hdeclare
  have hgoes := loop_goes (hopens.poised hpoised hregion) hchecked.fits hrunner
  obtain ⟨e, hleaving, hsheds⟩ := hopens.leaving hjob.written (hregion.apart hpoised.shows) hpoised.stands hgoes
  refine ⟨entered, e, hopens, ?_, hsheds⟩
  rw [Runner.inLoop, ← hleaving]
  exact Effect.bind_of_ok henter

end Opening

/-- A part that yields nothing, as the doing of a task. -/
theorem tally_yielding {side : Side} {agree : Prop} {ctx : Context} {hidden : String → Prop} {x y : Exec Unit}
    {c d : Config} (h : side.Answers (x c).1 (y d).1 →
      Tally agree (fun a b c d => b = a ∧ c.Abreast ctx hidden d) (x c) (y d)) :
    side.Answers (Context.yielding x c).1 (Context.yielding y d).1 →
      Tally agree (fun a b c d => b = a ∧ c.Abreast ctx hidden d) (Context.yielding x c) (Context.yielding y d) := by
  have hx : Tallies side agree (fun c' d' => c' = c ∧ d' = d) (fun a b c d => b = a ∧ c.Abreast ctx hidden d) x y := by
    rintro _ _ ⟨rfl, rfl⟩
    exact h
  exact hx.bind (fun _ _ _ _ hcd _ => .ok ⟨rfl, hcd.2⟩) c d ⟨rfl, rfl⟩

/-! ### Calls -/

/-- The configuration that the body of a function is run from. -/
def Config.calling (c : Config) (scope : ScopeId) (f : FunctionDefinition) (args : List Word) : Config where
  machine := { c.machine with signal := .proceed }
  scopes := c.scopes
  activation := { scope := scope, bindings := f.bindings args, base := c.activation.level, level := c.activation.level }

section Calls
variable {X : Statement → Statement → Prop} {ctx : Context} {hidden : String → Prop} {c d : Config}

theorem Config.Abreast.reset (h : c.Abreast ctx hidden d) :
    Config.Abreast ctx hidden { c with machine := { c.machine with signal := .proceed } }
      { d with machine := { d.machine with signal := .proceed } } where
  machine := by
    refine ⟨?_, trivial⟩
    show { d.machine with signal := .proceed } =
      ({ c.machine with signal := .proceed } : Machine).recount d.machine.steps
    rw [h.machine.1]
    rfl
  bindings := h.bindings
  unbound := h.unbound
  levels := h.levels
  seated := h.seated
  seated' := h.seated'

/-- The bodies of functions that belong together are begun abreast. -/
theorem Config.Abreast.calls (h : c.Abreast ctx hidden d) {f g : FunctionDefinition} (hfg : f.Recast X g)
    (args : List Word) {scope scope' : ScopeId} (hscope : ∃ found, c.scopes.scopes[scope]? = some found)
    (hscope' : ∃ found, d.scopes.scopes[scope']? = some found) :
    (c.calling scope f args).Abreast ctx (fun _ => False) (d.calling scope' g args) where
  machine := h.reset.machine
  bindings x _ := by
    show (g.bindings args)[x]? = (f.bindings args)[x]?
    rw [FunctionDefinition.bindings, hfg.params, hfg.returns]
    rfl
  unbound := nofun
  levels := h.levels.imp_right fun hlevels => ⟨hlevels.2, hlevels.2⟩
  seated := hscope
  seated' := hscope'

/-- Back from calls the runs are abreast as they were before. -/
theorem Tally.back {agree : Prop} {α : Type} {r r' : Except Stop α × Config}
    (h : Tally agree (fun a b c d => b = a ∧ c.Abreast ctx (fun _ => False) d) r r') (hcd : c.Abreast ctx hidden d)
    (hseated : Config.Seated { r.2 with activation := c.activation })
    (hseated' : Config.Seated { r'.2 with activation := d.activation }) :
    Tally agree (fun a b c d => b = a ∧ c.Abreast ctx hidden d) (r.1, { r.2 with activation := c.activation })
      (r'.1, { r'.2 with activation := d.activation }) := by
  cases h with
  | strayLeft hstray => exact .strayLeft hstray
  | strayRight hstray => exact .strayRight hstray
  | error stop h => exact .error stop h
  | ok h => exact .ok ⟨h.1, h.2.machine, hcd.bindings, hcd.unbound, hcd.levels, hseated, hseated'⟩

end Calls

/-! ### Tasks that belong together -/

/-- The program of a job, replaced by another one. -/
abbrev Job.recast (job : Job) (program : Block) : Job := { job with program := program }

/-- A task in its chain and the one that came of it. Hidden variables may be around expressions and
calls, if the run agrees with the check. -/
inductive Task.Recast (X : Statement → Statement → Prop) (agree : Prop) :
    (String → Prop) → Task → Chain → Task → Chain → Prop
  | expression {hidden : String → Prop} {e : Expr} {chain chain' : Chain} : (∀ name, hidden name → agree) →
    chain.Recast X chain' → Recast X agree hidden (.expression e) chain (.expression e) chain'
  | invoke {hidden : String → Prop} {name : String} {args : List Word} {chain chain' : Chain} :
    chain.Recast X chain' → Recast X agree hidden (.invoke name args) chain (.invoke name args) chain'
  | statement {s t : Statement} {chain chain' : Chain} : Node.Recast X (.statement s) (.statement t) →
    chain.Recast X chain' → Recast X agree (fun _ => False) (.statement s) chain (.statement t) chain'
  | block {b b' : Block} {chain chain' : Chain} : Node.Recast X (.block b) (.block b') →
    chain.Recast X chain' → Recast X agree (fun _ => False) (.block b) chain (.block b') chain'
  | rounds {l m : ForLoop} {chain chain' : Chain} : m.condition = l.condition →
    Node.Recast X (.block l.body) (.block m.body) → Node.Recast X (.block l.post) (.block m.post) →
    chain.Recast X chain' → Recast X agree (fun _ => False) (.rounds l) chain (.rounds m) chain'

/-- The depths at which an answer on one side is an answer on the other one. The run of the recast
program needs at most four times the depth. -/
def Side.Reaches : Side → Nat → Nat → Prop
  | left, n, m => 4 * n ≤ m
  | right, n, m => m ≤ n

section Tasks
variable {X : Statement → Statement → Prop} {job : Job} {program' : Block} {side : Side}
  {hidden : String → Prop} {t t' u u' : Task} {chain chain' inner inner' : Chain} {n m : Nat}

variable (job program' side) in
/-- Done at these depths, the tasks keep the runs abreast wherever both are ready. -/
def Task.Tallied (n m : Nat) (hidden : String → Prop) (t : Task) (chain : Chain) (t' : Task) (chain' : Chain) : Prop :=
  ∀ c d visible visible', t.Ready job visible chain c → t'.Ready (job.recast program') visible' chain' d →
    c.Abreast job.ctx hidden d → side.Answers (job.ctx.perform n t c).1 (job.ctx.perform m t' d).1 →
      Tally job.Agrees (fun a b c d => b = a ∧ c.Abreast job.ctx hidden d) (job.ctx.perform n t c)
        (job.ctx.perform m t' d)

variable (X job program' side) in
/-- Tasks that belong together are tallied at such depths, from `n` levels on the left. -/
def Task.AllTallied (n : Nat) : Prop :=
  ∀ m, side.Reaches n m → ∀ hidden t chain t' chain', Task.Recast X job.Agrees hidden t chain t' chain' →
    Task.Tallied job program' side n m hidden t chain t' chain'

/-- Nothing is declared by a replaced statement nor by what is put in its place, and the two keep the runs
abreast, if all that belongs together does at lesser depths. -/
structure Statement.Exchanges (X : Statement → Statement → Prop) (job : Job) (program' : Block) : Prop where
  neutral : ∀ s t, X s t → s.Neutral ∧ t.Neutral
  tallied : ∀ side n, (∀ k ≤ n, Task.AllTallied X job program' side k) → ∀ s t, X s t → ∀ m chain chain',
    side.Reaches (n + 1) m → chain.Recast X chain' →
      Task.Tallied job program' side (n + 1) m (fun _ => False) (.statement s) chain (.statement t) chain'

/-- Without depth there is no answer. -/
theorem Task.tallied_zero (hreaches : side.Reaches 0 m) :
    Task.Tallied job program' side 0 m hidden t chain t' chain' := by
  intro c d visible visible' _ _ _ hanswers
  cases side with
  | left => exact absurd rfl hanswers
  | right =>
    obtain rfl := Nat.le_zero.mp hreaches
    exact absurd rfl hanswers

/-- Without depth on the right there is no answer there. -/
theorem Task.tallied_spent : Task.Tallied job program' .right n 0 hidden t chain t' chain' :=
  fun _ _ _ _ _ _ _ hanswers => absurd rfl hanswers

/-- For an answer of the left run there are four levels on the right to each of its own. -/
theorem Side.Reaches.right_of_lt (h : side.Reaches n m) (hm : m < 4 * n) : side = .right := by
  cases side with
  | left => exact absurd h (Nat.not_le.mpr hm)
  | right => rfl

/-- The right side goes down by as many levels as the left one at least, and by four to each at most. -/
theorem Side.Reaches.lower {n' m' : Nat} (h : side.Reaches n m) (hmost : m + 4 * n' ≤ m' + 4 * n)
    (hleast : m' + n ≤ m + n') : side.Reaches n' m' := by
  cases side <;> simp only [Reaches] at h ⊢ <;> omega

theorem Side.Reaches.succ_cases (h : side.Reaches (n + 1) m) :
    (side = .right ∧ m = 0) ∨ ∃ m', m = m' + 1 ∧ side.Reaches n m' := by
  rcases m with _ | m'
  · exact .inl ⟨h.right_of_lt (by omega), rfl⟩
  · exact .inr ⟨m', rfl, h.lower (by omega) (by omega)⟩

/-- Tasks asked for elsewhere have gone astray, so what is tallied where both are ready can be used
without a look at where the runs stand. -/
theorem Task.Tallied.walks (h : Task.Tallied job program' side n m hidden u inner u' inner')
    (hleads : Leads t chain u inner) (hleads' : Leads t' chain' u' inner') :
    Walks side job.Agrees job.ctx hidden (List Word) (job.serving n t chain u)
      ((job.recast program').serving m t' chain' u') := by
  intro c d hcd hanswers
  have hastray : ¬(Stop.failed .scopeUnderflow).Allowed job.Agrees := fun hallowed => hallowed.1 rfl
  by_cases hc : t.Reaches job chain u c
  · by_cases hd : t'.Reaches (job.recast program') chain' u' d
    · have hserve : job.serving n t chain u c = job.ctx.perform n u c := if_pos hc
      have hserve' : (job.recast program').serving m t' chain' u' d = job.ctx.perform m u' d := if_pos hd
      obtain ⟨inner₁, visible, hleads₁, hready⟩ := hc
      obtain ⟨inner₂, visible', hleads₂, hready'⟩ := hd
      obtain rfl := hleads₁.unique hleads rfl
      obtain rfl := hleads₂.unique hleads' rfl
      rw [hserve, hserve'] at hanswers ⊢
      exact h c d visible visible' hready hready' hcd hanswers
    · have hserve' : (job.recast program').serving m t' chain' u' d = (.error (.failed .scopeUnderflow), d) := if_neg hd
      rw [hserve']
      exact .strayRight hastray
  · have hserve : job.serving n t chain u c = (.error (.failed .scopeUnderflow), c) := if_neg hc
    rw [hserve]
    exact .strayLeft hastray

/-- What statements do in the scope they stand in keeps the runs of a job abreast. -/
theorem Job.Valid.walks_local (hjob : job.Valid) (hsteps : job.ctx.setting.maxSteps = 0) (side : Side) :
    job.ctx.Local job.ctx (Walks side job.Agrees job.ctx fun _ => False) := Context.walks_local hjob.target hsteps

/-- A block put in place of a statement needs one level more. -/
theorem Task.Tallied.nested {b : Block} (h : Task.Tallied job program' side n m hidden t chain (.block b) chain') :
    Task.Tallied job program' side n (m + 1) hidden t chain (.statement (.block b)) chain' := by
  intro c d visible visible' hready hready'
  rw [show job.ctx.perform (m + 1) (.statement (.block b)) d = _ from Context.perform_nested _ m b d]
  obtain ⟨hpoised, hchecked, region, outer, rfl, hmem⟩ := hready'
  exact h c d visible visible' hready
    ⟨hpoised, hchecked.fits, Region.mem_inner hmem (List.mem_singleton_self (Region.block b))⟩

/-- Of the levels of the right run, one is for the statement and one for the block that it is. -/
theorem Task.tallied_inner {b : Block} (hreaches : side.Reaches (n + 1) m)
    (h : ∀ j, m = j + 2 → Task.Tallied job program' side (n + 1) (j + 1) hidden t chain (.block b) chain') :
    Task.Tallied job program' side (n + 1) m hidden t chain (.statement (.block b)) chain' := by
  rcases m with _ | _ | j
  · obtain rfl := hreaches.right_of_lt (by omega)
    exact Task.tallied_spent
  · obtain rfl := hreaches.right_of_lt (by omega)
    exact Task.tallied_spent.nested
  · exact (h j rfl).nested

variable (hjob : job.Valid) (hjob' : (job.recast program').Valid) (hsteps : job.ctx.setting.maxSteps = 0)
include hjob hjob'

/-- A step on both sides. -/
theorem Task.tallied_succ
    (h : ∀ c d visible visible', t.Ready job visible chain c → t'.Ready (job.recast program') visible' chain' d →
      c.Abreast job.ctx hidden d →
      side.Answers (job.ctx.advance (job.serving n t chain) t c).1
        (job.ctx.advance ((job.recast program').serving m t' chain') t' d).1 →
      Tally job.Agrees (fun a b c d => b = a ∧ c.Abreast job.ctx hidden d)
        (job.ctx.advance (job.serving n t chain) t c)
        (job.ctx.advance ((job.recast program').serving m t' chain') t' d)) :
    Task.Tallied job program' side (n + 1) (m + 1) hidden t chain t' chain' := by
  intro c d visible visible' hready hready' hcd
  rw [hready.perform_succ hjob n, hready'.perform_succ hjob' m]
  exact h c d visible visible' hready hready' hcd

/-- A step on both sides that keeps the runs abreast wherever they are. -/
theorem Task.tallied_of_walks
    (h : Walks side job.Agrees job.ctx hidden (List Word) (job.ctx.advance (job.serving n t chain) t)
      (job.ctx.advance ((job.recast program').serving m t' chain') t')) :
    Task.Tallied job program' side (n + 1) (m + 1) hidden t chain t' chain' :=
  Task.tallied_succ hjob hjob' fun c d _ _ _ _ hcd => h c d hcd

theorem Task.tallied_expression (hhidden : ∀ name, hidden name → job.Agrees)
    (ih : Task.AllTallied X job program' side n) (hreaches : side.Reaches n m) (e : Expr)
    (hchains : chain.Recast X chain') :
    Task.Tallied job program' side (n + 1) (m + 1) hidden (.expression e) chain (.expression e) chain' := by
  refine Task.tallied_of_walks hjob hjob' ((Context.walks_evaluates hjob.target hhidden).expression e fun u hu => ?_)
  have hpart {inner : Expr} (hleads : ∀ chain, Leads (.expression e) chain (.expression inner) chain) :=
    (ih m hreaches _ _ _ _ _ (.expression hhidden hchains)).walks (hleads chain) (hleads chain')
  cases hu with
  | argument hmem => exact hpart fun _ => .argument hmem
  | callee => exact (ih m hreaches hidden _ _ _ _ (.invoke hchains)).walks .callee .callee

omit hjob' in
include hsteps in
/-- The body of a function and what is read off at its end. -/
theorem Task.walks_body {f g : FunctionDefinition} (hfg : f.Recast X g)
    (hbody : Walks side job.Agrees job.ctx (fun _ => False) (List Word) (job.serving n t chain (.block f.body))
      ((job.recast program').serving m t' chain' (.block g.body))) :
    Walks side job.Agrees job.ctx (fun _ => False) (List Word)
      (do
        (job.serving n t chain).run (.block f.body)
        setSignal .proceed
        valuesOf f.returns)
      (do
        ((job.recast program').serving m t' chain').run (.block g.body)
        setSignal .proceed
        valuesOf g.returns) := by
  have cong := hjob.walks_local hsteps side
  rw [hfg.returns]
  exact cong.bind (cong.run hbody) fun _ => cong.bind cong.reset fun _ => cong.valuesOf f.returns

include hsteps in
theorem Task.tallied_invoke (hX : ∀ s t, X s t → s.Neutral ∧ t.Neutral) (ih : Task.AllTallied X job program' side n)
    (hreaches : side.Reaches n m) (name : String) (args : List Word) (hchains : chain.Recast X chain') :
    Task.Tallied job program' side (n + 1) (m + 1) hidden (.invoke name args) chain (.invoke name args) chain' := by
  refine fun c d visible visible' hready hready' hcd hanswers => ?_
  have hseated := hready.seated hjob (n + 1)
  have hseated' := hready'.seated hjob' (m + 1)
  have hstands := hready.poised.stands
  have hstands' := hready'.poised.stands
  have hfound := hchains.function? hX name
  rw [hready.perform_succ hjob n] at hanswers hseated ⊢
  rw [hready'.perform_succ hjob' m] at hanswers hseated' ⊢
  unfold Context.advance at hanswers hseated hseated' ⊢
  dsimp only at hanswers hseated hseated' ⊢
  rcases hstands.mirrors.lookup hjob.written hstands.inside hstands.scope name with
    ⟨hnone, hlookup⟩ | ⟨f, found, scope, hsome, hlookup, hat⟩ <;>
  rcases hstands'.mirrors.lookup hjob'.written hstands'.inside hstands'.scope name with
    ⟨hnone', hlookup'⟩ | ⟨g, found', scope', hsome', hlookup', hat'⟩
  · rw [invoke_of_none hlookup, invoke_of_none hlookup']
    exact .error _ hcd.machine
  · rw [hnone, hsome'] at hfound
    cases hfound
  · rw [hsome, hnone'] at hfound
    cases hfound
  · obtain ⟨hfg, hfounds⟩ : f.Recast X g ∧ found.Recast X found' := by
      rw [hsome, hsome'] at hfound
      cases hfound with
      | some hpair => exact hpair
    by_cases hcount : args.length = f.params.length
    · have hcount' : args.length = g.params.length := by rw [hfg.params, hcount]
      rw [invoke_of_found hlookup hcount, within_apply] at hanswers hseated ⊢
      rw [invoke_of_found hlookup' hcount', within_apply] at hanswers hseated' ⊢
      have hbody := Task.walks_body hjob hsteps hfg
        ((ih m hreaches _ _ _ _ _ (.block hfg.body hfounds)).walks
          (@Leads.body _ args _ _ _ hsome) (@Leads.body _ args _ _ _ hsome'))
      have hinner := hcd.calls hfg args (hat.valid hstands.mirrors.sound) (hat'.valid hstands'.mirrors.sound)
      exact (hbody _ _ hinner hanswers).back hcd.reset hseated hseated'
    · have hcount' : args.length ≠ g.params.length := by rwa [hfg.params]
      rw [invoke_of_mismatch hlookup hcount, invoke_of_mismatch hlookup' hcount', hfg.params, hfg.name]
      exact .error _ hcd.machine

section Steps
variable (ih : Task.AllTallied X job program' side n) (hreaches : side.Reaches n m)
include ih hreaches hsteps

omit hjob' in
/-- The statements of a block, one by one. -/
theorem Task.walks_sequence {b b' : Block} (hblock : Node.Recast X (.block b) (.block b'))
    (hchains : chain.Recast X chain') :
    Walks side job.Agrees job.ctx (fun _ => False) Unit
      (job.ctx.sequence (job.serving n (.block b) chain) b.statements)
      (job.ctx.sequence ((job.recast program').serving m (.block b') chain') b'.statements) := by
  have cong := hjob.walks_local hsteps side
  refine cong.sequencing ((Node.Recast.forall₂_mem hblock.statements).imp ?_)
  rintro s t ⟨⟨hs, ht⟩, hst⟩
  exact (ih m hreaches _ _ _ _ _ (.statement hst (.block hblock hchains))).walks (.item hs) (.item ht)

/-- Blocks with something read off at their ends. -/
theorem Task.block_tally {b b' : Block} (hblock : Node.Recast X (.block b) (.block b'))
    (hchains : chain.Recast X chain') {visible visible' : Visible} {c d : Config} (hc : c.Poised job visible chain)
    (hd : d.Poised (job.recast program') visible' chain') (hfits : (Task.block b).Fits job visible chain)
    (hfits' : (Task.block b').Fits (job.recast program') visible' chain')
    (hcd : c.Abreast job.ctx (fun _ => False) d) {α : Type} (f : Config → α)
    (hexit : Walks side job.Agrees job.ctx (fun _ => False) α (Effect.gets f) (Effect.gets f))
    (hanswers : side.Answers
      (job.ctx.block (job.serving n (.block b) chain) b (Effect.gets f) c).1
      (job.ctx.block ((job.recast program').serving m (.block b') chain') b' (Effect.gets f) d).1) :
    Tally job.Agrees (fun a b c d => b = a ∧ c.Abreast job.ctx (fun _ => False) d)
      (job.ctx.block (job.serving n (.block b) chain) b (Effect.gets f) c)
      (job.ctx.block ((job.recast program').serving m (.block b') chain') b' (Effect.gets f) d) := by
  have cong := hjob.walks_local hsteps side
  obtain ⟨o, e, hopens, hrun, hsheds⟩ := Task.Ready.block hjob hc hfits (serving_serves hjob _ _ n) f
  obtain ⟨o', e', hopens', hrun', hsheds'⟩ := Task.Ready.block hjob' hd hfits' (serving_serves hjob' _ _ m) f
  rw [hrun, hrun'] at hanswers ⊢
  have hwalks := cong.bind (Task.walks_sequence hjob hsteps ih hreaches hblock hchains) fun _ => hexit
  have htally := hwalks _ _ ((hcd.opens_left hopens).opens_right hopens') hanswers
  exact htally.sheds hsheds.machine hsheds'.machine (fun _ _ => hsheds) (fun _ _ => hsheds') hcd.mem_iff
    fun _ => False.elim

theorem Task.tallied_block {b b' : Block} (hblock : Node.Recast X (.block b) (.block b'))
    (hchains : chain.Recast X chain') :
    Task.Tallied job program' side (n + 1) (m + 1) (fun _ => False) (.block b) chain (.block b') chain' := by
  have cong := hjob.walks_local hsteps side
  refine Task.tallied_succ hjob hjob' fun c d visible visible' hready hready' hcd => tally_yielding ?_
  exact Task.block_tally hjob hjob' hsteps ih hreaches hblock hchains hready.poised hready'.poised hready.fits
    hready'.fits hcd (fun _ => ()) (cong.pure ())

theorem Task.tallied_rounds {l l' : ForLoop} (hcondition : l'.condition = l.condition)
    (hbody : Node.Recast X (.block l.body) (.block l'.body)) (hpost : Node.Recast X (.block l.post) (.block l'.post))
    (hchains : chain.Recast X chain') :
    Task.Tallied job program' side (n + 1) (m + 1) (fun _ => False) (.rounds l) chain (.rounds l') chain' := by
  have cong := hjob.walks_local hsteps side
  have hspins : l'.spins = l.spins := by
    have hempty {b b' : Block} (h : Node.Recast X (.block b) (.block b')) :
        b'.statements.isEmpty = b.statements.isEmpty := by
      rw [Bool.eq_iff_iff, List.isEmpty_iff_length_eq_zero, List.isEmpty_iff_length_eq_zero, h.statements.length_eq]
    rw [ForLoop.spins, ForLoop.spins, hempty hbody, hempty hpost]
  refine Task.tallied_of_walks hjob hjob' (cong.bind (cong.rounding hcondition hspins ?_ ?_ ?_ ?_) fun _ => cong.pure _)
  · have htest := ih m hreaches (fun _ => False) (.expression l.condition) _ _ _
      (.expression (fun _ => False.elim) hchains)
    refine htest.walks .condition ?_
    rw [← hcondition]
    exact .condition
  · exact (ih m hreaches _ _ _ _ _ (.block hbody hchains)).walks .round .round
  · exact (ih m hreaches _ _ _ _ _ (.block hpost hchains)).walks .post .post
  · exact (ih m hreaches _ _ _ _ _ (.rounds hcondition hbody hpost hchains)).walks .again .again

/-- Loops with the same statements in front. -/
theorem Task.tallied_loop {l l' : ForLoop} (hcondition : l'.condition = l.condition)
    (hfront : List.Forall₂ (fun s t => Node.Recast X (.statement s) (.statement t))
      l.init.statements l'.init.statements)
    (hbody : Node.Recast X (.block l.body) (.block l'.body)) (hpost : Node.Recast X (.block l.post) (.block l'.post))
    (hchains : chain.Recast X chain') :
    Task.Tallied job program' side (n + 1) (m + 1) (fun _ => False) (.statement (.loop l)) chain
      (.statement (.loop l')) chain' := by
  have cong := hjob.walks_local hsteps side
  have hinner := hchains.loop l l'
  have hwalks : Walks side job.Agrees job.ctx (fun _ => False) Unit
      ((job.serving n (.statement (.loop l)) chain).inLoop l.init.statements l)
      (((job.recast program').serving m (.statement (.loop l')) chain').inLoop l'.init.statements l') := by
    refine cong.bind (cong.initialising ((Node.Recast.forall₂_mem hfront).imp ?_)) fun left => ?_
    · rintro s t ⟨⟨hs, ht⟩, hst⟩
      exact (ih m hreaches _ _ _ _ _ (.statement hst hinner)).walks (.front hs) (.front ht)
    · split
      · exact cong.pure ()
      · exact cong.run ((ih m hreaches _ _ _ _ _ (.rounds hcondition hbody hpost hinner)).walks .begin .begin)
  refine Task.tallied_succ hjob hjob' fun c d visible visible' hready hready' hcd => tally_yielding fun hanswers => ?_
  obtain ⟨o, e, hopens, hrun, hsheds⟩ := hready.loop hjob (serving_serves hjob _ _ n)
  obtain ⟨o', e', hopens', hrun', hsheds'⟩ := hready'.loop hjob' (serving_serves hjob' _ _ m)
  rw [hrun, hrun'] at hanswers ⊢
  have htally := hwalks _ _ ((hcd.opens_left hopens).opens_right hopens') hanswers
  exact htally.sheds hsheds.machine hsheds'.machine (fun _ _ => hsheds) (fun _ _ => hsheds') hcd.mem_iff
    fun _ => False.elim

/-- A statement in its own scope, of the same kind on both sides. -/
theorem Task.tallied_plain {s : Statement} (hplain : s.regions = []) (hchains : chain.Recast X chain') :
    Task.Tallied job program' side (n + 1) (m + 1) (fun _ => False) (.statement s) chain (.statement s) chain' := by
  have cong := hjob.walks_local hsteps side
  refine Task.tallied_of_walks hjob hjob' (cong.bind (cong.statement s (fun signal _ => walks_setSignal signal) ?_ ?_)
    fun _ => cong.pure _)
  · rintro l rfl
    cases hplain
  · intro _ u hu
    have hpart {e : Expr} (he : e ∈ s.expressions) :=
      (ih m hreaches (fun _ => False) _ _ _ _ (.expression (fun _ => False.elim) hchains)).walks
        (@Leads.expression _ _ chain he) (@Leads.expression _ _ chain' he)
    cases hu with
    | value => exact hpart (List.mem_singleton_self _)
    | assigned => exact hpart (List.mem_singleton_self _)
    | declared => exact hpart (List.mem_singleton_self _)
    | scrutinee => exact hpart (List.mem_cons_self ..)
    | candidate hmem =>
      obtain rfl := List.map_eq_nil_iff.mp hplain
      cases hmem
    | chosen hmem =>
      obtain rfl := List.map_eq_nil_iff.mp hplain
      cases hmem
    | _ => cases hplain

theorem Task.tallied_conditional (condition : Expr) {b b' : Block} (hbody : Node.Recast X (.block b) (.block b'))
    (hchains : chain.Recast X chain') :
    Task.Tallied job program' side (n + 1) (m + 1) (fun _ => False) (.statement (.conditional condition b)) chain
      (.statement (.conditional condition b')) chain' := by
  have cong := hjob.walks_local hsteps side
  have htest := ih m hreaches (fun _ => False) (.expression condition) _ _ _ (.expression (fun _ => False.elim) hchains)
  refine Task.tallied_of_walks hjob hjob' (cong.bind (cong.bind (cong.evaluate (htest.walks
    (.expression (List.mem_singleton_self _)) (.expression (List.mem_singleton_self _)))) fun value => ?_)
    fun _ => cong.pure _)
  split
  · exact cong.pure ()
  · exact cong.run ((ih m hreaches _ _ _ _ _ (.block hbody hchains)).walks
      (.inner (List.mem_singleton_self _)) (.inner (List.mem_singleton_self _)))

theorem Task.tallied_switch (scrutinee : Expr) {cases cases' : List Case}
    (hcases : List.Forall₂ (fun c d : Case =>
      d.value = c.value ∧ Node.Recast X (.block c.body) (.block d.body)) cases cases')
    (hchains : chain.Recast X chain') :
    Task.Tallied job program' side (n + 1) (m + 1) (fun _ => False) (.statement (.switch scrutinee cases)) chain
      (.statement (.switch scrutinee cases')) chain' := by
  have cong := hjob.walks_local hsteps side
  have hpart {e : Expr} (he : e ∈ (Statement.switch scrutinee cases).expressions)
      (he' : e ∈ (Statement.switch scrutinee cases').expressions) :=
    (ih m hreaches (fun _ => False) _ _ _ _ (.expression (fun _ => False.elim) hchains)).walks
      (@Leads.expression _ _ chain he) (@Leads.expression _ _ chain' he')
  refine Task.tallied_of_walks hjob hjob' (cong.bind (cong.bind (cong.evaluate (hpart (List.mem_cons_self ..)
    (List.mem_cons_self ..))) fun value => ?_) fun _ => cong.pure _)
  refine cong.selecting value (cong.pure ()) ((Node.Recast.forall₂_mem hcases).imp ?_)
  rintro c d ⟨⟨hc, hd⟩, hvalue, hbody⟩
  refine ⟨hvalue, fun literal hliteral => hpart ?_ ?_, cong.run ?_⟩
  · exact List.mem_cons_of_mem _ (List.mem_filterMap.mpr ⟨c, hc, by rw [Option.mem_def.mp hliteral]; rfl⟩)
  · exact List.mem_cons_of_mem _ (List.mem_filterMap.mpr ⟨d, hd, by rw [hvalue, Option.mem_def.mp hliteral]; rfl⟩)
  · exact (ih m hreaches _ _ _ _ _ (.block hbody hchains)).walks
      (.inner (List.mem_map_of_mem hc)) (.inner (List.mem_map_of_mem hd))

end Steps

include hsteps

theorem Task.tallied_statement (hX : Statement.Exchanges X job program')
    (hall : ∀ k ≤ n, Task.AllTallied X job program' side k) (hreaches : side.Reaches n m)
    (hmore : side.Reaches (n + 1) (m + 1)) {s t : Statement} (hst : Node.Recast X (.statement s) (.statement t))
    (hchains : chain.Recast X chain') :
    Task.Tallied job program' side (n + 1) (m + 1) (fun _ => False) (.statement s) chain (.statement t) chain' := by
  have cong := hjob.walks_local hsteps side
  have ih := hall n (Nat.le_refl n)
  cases hst with
  | replaced h => exact hX.tallied side n hall _ _ h _ _ _ hmore hchains
  | plain hplain => exact Task.tallied_plain hjob hjob' hsteps ih hreaches hplain hchains
  | conditional condition hbody => exact Task.tallied_conditional hjob hjob' hsteps ih hreaches condition hbody hchains
  | switch scrutinee cases hvalues hbodies =>
    refine Task.tallied_switch hjob hjob' hsteps ih hreaches scrutinee ?_ hchains
    rw [List.forall₂_map_left_iff, List.forall₂_map_right_iff, List.forall₂_same]
    exact fun q hq => ⟨hvalues q hq, hbodies q hq⟩
  | function _ _ _ _ => exact Task.tallied_of_walks hjob hjob' (cong.bind (cong.pure ()) fun _ => cong.pure _)
  | loop front hcondition hfst hsnd hsame hbody hpost =>
    exact Task.tallied_loop hjob hjob' hsteps ih hreaches hcondition
      (Node.Recast.forall₂_of_pairs hfst hsnd hsame) hbody hpost hchains
  | inner hblock =>
    refine Task.tallied_of_walks hjob hjob' (cong.bind (cong.run ?_) fun _ => cong.pure _)
    exact (ih m hreaches _ _ _ _ _ (.block hblock hchains)).walks
      (.inner (List.mem_singleton_self _)) (.inner (List.mem_singleton_self _))

/-- Tasks that belong together keep runs abreast at all depths. -/
theorem Statement.Exchanges.all (hX : Statement.Exchanges X job program') (side : Side) (n : Nat) :
    Task.AllTallied X job program' side n := by
  induction n using Nat.strongRecOn with
  | _ n hless =>
    rcases n with _ | n
    · exact fun m hreaches _ _ _ _ _ _ => Task.tallied_zero hreaches
    intro m hreaches hidden t chain t' chain' hrecast
    have hall (k : Nat) (hk : k ≤ n) := hless k (Nat.lt_succ_of_le hk)
    have ih := hall n (Nat.le_refl n)
    rcases hreaches.succ_cases with ⟨rfl, rfl⟩ | ⟨m', rfl, hreaches'⟩
    · exact Task.tallied_spent
    · cases hrecast with
      | expression hhidden hchains => exact Task.tallied_expression hjob hjob' hhidden ih hreaches' _ hchains
      | invoke hchains => exact Task.tallied_invoke hjob hjob' hsteps hX.neutral ih hreaches' _ _ hchains
      | statement hst hchains =>
        exact Task.tallied_statement hjob hjob' hsteps hX hall hreaches' hreaches hst hchains
      | block hblock hchains => exact Task.tallied_block hjob hjob' hsteps ih hreaches' hblock hchains
      | rounds hcondition hbody hpost hchains =>
        exact Task.tallied_rounds hjob hjob' hsteps ih hreaches' hcondition hbody hpost hchains

/-! ### Whole runs -/

omit hjob' hsteps in
/-- A program asks only for tasks that are ready in its block. -/
theorem Run.outermost_serving (n : Nat) :
    outermost job.ctx job.program (job.ctx.perform n) {} =
      outermost job.ctx job.program (job.serving n (.block job.program) []) {} :=
  (outermost_asksAll job.ctx job.program _ _ {} fun _ _ hasks =>
    if_pos (hasks.ready (outermost_begins hjob).ends fun _ _ _ _ => perform_does hjob n)).symm

/-- Programs of which one was recast from the other come to the same. -/
theorem Run.outermost_tally (hX : Statement.Exchanges X job program')
    (hblock : Node.Recast X (.block job.program) (.block program')) (hreaches : side.Reaches n m)
    (hanswers : side.Answers (outermost job.ctx job.program (job.ctx.perform n) {}).1
      (outermost job.ctx program' (job.ctx.perform m) {}).1) :
    Tally job.Agrees (fun a b c d => b = a ∧ c.Abreast job.ctx (fun _ => False) d)
      (outermost job.ctx job.program (job.ctx.perform n) {}) (outermost job.ctx program' (job.ctx.perform m) {}) := by
  have hserving' := outermost_serving hjob' m
  rw [outermost_serving hjob n, hserving'] at hanswers ⊢
  have hstart := Config.poised_start job
  have hstart' := Config.poised_start (job.recast program')
  have hseated := hstart.stands.seated
  refine Task.block_tally hjob hjob' hsteps (hX.all hjob hjob' hsteps side n) hreaches hblock .nil hstart hstart'
    ⟨hjob.checked, List.mem_singleton_self _⟩ ⟨hjob'.checked, List.mem_singleton_self _⟩
    ⟨⟨rfl, trivial⟩, fun _ _ => rfl, nofun, .inr ⟨rfl, rfl⟩, hseated, hseated⟩
    (fun config => config.activation.bindings) (walks_of_ok fun c d hcd => ?_) hanswers
  refine ⟨_, c, d, rfl, ?_, hcd⟩
  show (Except.ok d.activation.bindings, d) = _
  rw [Std.ExtTreeMap.ext_getElem? fun name => hcd.bindings name id]

/-- What they report is the same but for the count. -/
theorem Run.interpret_sides (hX : Statement.Exchanges X job program')
    (hblock : Node.Recast X (.block job.program) (.block program')) (options : Options) (hreaches : side.Reaches n m)
    (hanswers : side.Answers (guarded options (outermost job.ctx job.program (job.ctx.perform n)))
      (guarded options (outermost job.ctx program' (job.ctx.perform m)))) :
    Results (Report.Beside (fun _ _ => True) fun table table' => table' = table)
      (guarded options (outermost job.ctx job.program (job.ctx.perform n)))
      (guarded options (outermost job.ctx program' (job.ctx.perform m))) := by
  have hfirst : side.Answers (outermost job.ctx job.program (job.ctx.perform n) {}).1
      (outermost job.ctx program' (job.ctx.perform m) {}).1 := by
    cases side with
    | left => exact guarded_ne_outOfDepth.mp hanswers
    | right => exact guarded_ne_outOfDepth.mp hanswers
  have htally := outermost_tally hjob hjob' hsteps hX hblock hreaches hfirst
  have hallowed {stop : Stop} (hstop : (outermost job.ctx job.program (job.ctx.perform n) {}).1 = .error stop) :
      stop.Allowed job.Agrees := (outermost_begins hjob).allowed hjob n hstop
  have hallowed' {stop : Stop} (hstop : (outermost job.ctx program' (job.ctx.perform m) {}).1 = .error stop) :
      stop.Allowed job.Agrees := (outermost_begins hjob').allowed hjob' m hstop
  suffices h : Results (fun table table' => table' = table)
      (outermost job.ctx job.program (job.ctx.perform n) {}).1 (outermost job.ctx program' (job.ctx.perform m) {}).1 ∧
      (outermost job.ctx job.program (job.ctx.perform n) {}).2.machine.Beside (fun _ _ => True)
        (outermost job.ctx program' (job.ctx.perform m) {}).2.machine from guarded_beside h.1 h.2 options
  generalize outermost job.ctx job.program (job.ctx.perform n) {} = r at htally hallowed ⊢
  generalize hr' : outermost job.ctx program' (job.ctx.perform m) {} = r' at htally ⊢
  cases htally with
  | strayLeft hstray => exact absurd (hallowed rfl) hstray
  | strayRight hstray => exact absurd (hallowed' (congrArg Prod.fst hr')) hstray
  | error stop hmachine => exact ⟨.error stop, hmachine⟩
  | ok h => exact ⟨.ok h.1, h.2.machine⟩

end Tasks

/-- Where statements are exchanged for others, runs without a limit on steps stay alike. -/
theorem Node.Recast.alike {X : Statement → Statement → Prop} {job : Job} {program' : Block} (hjob : job.Valid)
    (hjob' : (job.recast program').Valid) (hX : Statement.Exchanges X job program')
    (hblock : Node.Recast X (.block job.program) (.block program')) {opts : Option Json} {options : Options}
    (hoptions : Options.resolve opts = .ok options) (hctx : job.ctx = Run.context options)
    (hsteps : options.setting.maxSteps = 0) :
    Alike (Report.Beside (fun _ _ => True) fun table table' => table' = table)
      (fun depth => interpret depth job.program opts) fun depth => interpret depth program' opts := by
  have hlimit : job.ctx.setting.maxSteps = 0 := by rw [hctx]; exact hsteps
  have hsides (side : Side) (n m : Nat) (hreaches : side.Reaches n m) :
      side.Answers (interpret n job.program opts) (interpret m program' opts) →
      Results (Report.Beside (fun _ _ => True) fun table table' => table' = table)
        (interpret n job.program opts) (interpret m program' opts) := by
    rw [Run.interpret_eq hoptions, Run.interpret_eq hoptions, ← hctx]
    exact Run.interpret_sides hjob hjob' hlimit hX hblock options hreaches
  refine alike_of_sides (interpret_steady hoptions job.program) (interpret_steady hoptions program') (4 * ·) ?_ ?_
  · exact fun n => hsides .left n (4 * n) (Nat.le_refl _)
  · exact fun m => hsides .right m m (Nat.le_refl _)

end BlockIR
