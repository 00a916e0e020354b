import BlockIR.Proofs.Evaluation

/-! Statements, blocks and loops as they were checked.

Whatever a statement does between its parts, the variables of the blocks around
it stay bound and those that it declares are new. A block or a loop opens a
region and closes it again, however its statements end. -/
namespace BlockIR

open FunctionDefinition (named?)
open Exec

variable {job : Job} {runner : Runner} {visible later : Visible} {chain : Chain} {c d : Config}
  {targets : List String}

/-- Outside the body of a loop a signal that is admitted leaves the function. -/
theorem Visible.Admits.proceed {signal : Signal} (h : visible.Admits signal)
    (hloop : visible.inLoopBody = false) (hleave : signal ≠ .leave) : signal = .proceed := by
  cases signal with
  | proceed => rfl
  | breakLoop => exact absurd (hloop.symm.trans h) Bool.false_ne_true
  | continueLoop => exact absurd (hloop.symm.trans h) Bool.false_ne_true
  | leave => exact absurd rfl hleave

theorem Visible.admits_of_proceed {signal : Signal} (h : signal = .proceed) : visible.Admits signal := by
  subst h
  trivial

/-! ### Expressions of statements -/

section Values
variable (h : c.Poised job visible chain)
include h

theorem evaluateAll_goes {e : Expr} (hrunner : runner.Does job visible chain (.expression e))
    (hchecked : e.Checked job.dialect visible) :
    (runner.evaluateAll e).Goes job.program job.Agrees targets c fun values d =>
      (Task.expression e).Done job visible values d := by
  have hrestart : restart.Goes job.program job.Agrees targets c fun _ d =>
      d.activation.bindings = c.activation.bindings ∧ d.machine = c.machine :=
    goes_modifyActivation h.mirrors _ rfl rfl ⟨rfl, rfl⟩
  refine hrestart.bind fun _ d hfollows hd => ?_
  have hpoised := h.follows hfollows (h.shows.of_eq hd.1) rfl (hd.2 ▸ h.signal)
  exact (hrunner d ⟨hpoised, fun _ => hchecked⟩).goes.mono (List.nil_subset _) fun values e _ hdone => hdone

theorem evaluate_goes {e : Expr} (hrunner : runner.Does job visible chain (.expression e))
    (hchecked : e.Single job.dialect visible) :
    (runner.evaluate e).Goes job.program job.Agrees targets c fun _ d =>
      d.Shows visible ∧ d.machine.signal = .proceed := by
  refine single_goes ((evaluateAll_goes h hrunner hchecked.1).imp fun values d _ hdone => ?_)
  obtain ⟨hshows, hsignal, hcount⟩ := hdone
  exact ⟨hshows, hsignal, fun hagree => hcount hagree 1 hchecked.2 Nat.one_ne_zero⟩

/-- The body that is chosen is that of a case. -/
theorem select_goes {value : Word} {cases : List Case}
    (hrunner : ∀ c ∈ cases, ∀ literal ∈ c.value,
      runner.Does job visible chain (.expression (.literal literal)))
    (hchecked : ∀ c ∈ cases, c.Checked job.dialect visible) :
    (runner.select value cases).Goes job.program job.Agrees targets c fun chosen d =>
      (∀ body ∈ chosen, ∃ c ∈ cases, c.body = body) ∧ d.Shows visible ∧
        d.machine.signal = .proceed := by
  induction cases generalizing c with
  | nil => exact goes_pure h.mirrors none ⟨nofun, h.shows, h.signal⟩
  | cons first rest ih =>
    obtain ⟨hfirst, hrest⟩ := List.forall_mem_cons.mp hchecked
    obtain ⟨hrunner', hrunners⟩ := List.forall_mem_cons.mp hrunner
    have hmem : ∀ body ∈ some first.body, ∃ c ∈ first :: rest, c.body = body := by
      intro body hbody
      exact ⟨first, List.mem_cons_self .., Option.some.inj hbody⟩
    obtain ⟨_ | literal, body⟩ := first
    · exact goes_pure h.mirrors _ ⟨hmem, h.shows, h.signal⟩
    · have hsingle : (Expr.literal literal).Single job.dialect visible := ⟨hfirst.1 literal rfl, rfl⟩
      refine (evaluate_goes h (hrunner' literal rfl) hsingle).bind fun candidate d hfollows hcalm => ?_
      split
      · exact goes_pure hfollows.mirrors _ ⟨hmem, hcalm⟩
      · refine (ih (h.follows hfollows hcalm.1 rfl hcalm.2) hrunners hrest).imp fun chosen e _ hchosen => ?_
        refine ⟨fun body hbody => ?_, hchosen.2⟩
        obtain ⟨c', hc', hsame⟩ := hchosen.1 body hbody
        exact ⟨c', List.mem_cons_of_mem _ hc', hsame⟩

end Values

/-! ### Statements in turn -/

section Lists
variable {region : Region} {outer : Chain} {statements : List Statement}
  (hrunner : ∀ s ∈ statements, ∀ visible, runner.Does job visible (region :: outer) (.statement s))
  (hstatements : ∀ s ∈ statements, s ∈ region.statements)
  (hchecked : Statement.ListChecked job.dialect visible statements)
  (h : c.Poised job visible (region :: outer)) (htargets : Statement.listTargets statements ⊆ targets)
include hrunner hstatements hchecked h htargets

/-- All of the statements are done, or a signal has cut them short. -/
theorem sequence_goes :
    (job.ctx.sequence runner statements).Goes job.program job.Agrees targets c fun _ d =>
      visible.Admits d.machine.signal ∧
        (d.machine.signal = .proceed → d.Shows (visible.afterAll job.dialect statements)) := by
  induction statements generalizing visible c with
  | nil =>
    exact goes_pure h.mirrors () ⟨Visible.admits_of_proceed h.signal, fun _ => h.shows⟩
  | cons s rest ih =>
    obtain ⟨hs, hrest⟩ := hchecked.cons
    obtain ⟨hfirst, hothers⟩ := List.forall_mem_cons.mp hrunner
    obtain ⟨hmem, hmems⟩ := List.forall_mem_cons.mp hstatements
    obtain ⟨htarget, htargets'⟩ := List.append_subset.mp htargets
    have hadds := hs.adds.1
    have hcount : (onMachine (countStep job.ctx.setting)).Goes job.program job.Agrees targets c fun _ d =>
        d.Poised job visible (region :: outer) :=
      goes_count h.mirrors _ fun m hm => ⟨⟨h.stands.inside, h.mirrors, h.stands.scope⟩, h.sees, h.shows,
        hm.trans h.signal⟩
    refine hcount.bind fun _ d _ hd => ?_
    refine (run_goes (hfirst visible) ⟨hd, hs, region, outer, rfl, hmem⟩ htarget).bind
      fun _ e hfollows hdone => ?_
    obtain ⟨-, hshows, hadmits⟩ := hdone
    have hsignal : Goes job.program job.Agrees targets signal e fun a f => a = e.machine.signal ∧ f = e :=
      goes_gets hfollows.mirrors _ ⟨rfl, rfl⟩
    refine hsignal.bind fun a f _ hf => ?_
    obtain ⟨rfl, rfl⟩ := hf
    split
    · rename_i hproceed
      refine (ih hothers hmems hrest (hd.follows hfollows hshows hadds.functions hproceed) htargets').imp
        fun _ g _ hg => ⟨hg.1.congr hadds.inLoopBody.symm hadds.inFunction.symm, hg.2⟩
    · rename_i hother
      exact goes_pure hfollows.mirrors () ⟨hadmits, fun hproceed => absurd hproceed hother⟩

/-- The statements in front of a loop are all done, or the function is left. -/
theorem initialise_goes (hloop : visible.inLoopBody = false) :
    (runner.initialise statements).Goes job.program job.Agrees targets c fun left d =>
      if left then d.machine.signal = .leave ∧ visible.inFunction = true
      else d.machine.signal = .proceed ∧ d.Shows (visible.afterAll job.dialect statements) := by
  induction statements generalizing visible c with
  | nil => exact goes_pure h.mirrors false ⟨h.signal, h.shows⟩
  | cons s rest ih =>
    obtain ⟨hs, hrest⟩ := hchecked.cons
    obtain ⟨hfirst, hothers⟩ := List.forall_mem_cons.mp hrunner
    obtain ⟨hmem, hmems⟩ := List.forall_mem_cons.mp hstatements
    obtain ⟨htarget, htargets'⟩ := List.append_subset.mp htargets
    have hadds := hs.adds.1
    refine (run_goes (hfirst visible) ⟨h, hs, region, outer, rfl, hmem⟩ htarget).bind
      fun _ e hfollows hdone => ?_
    obtain ⟨-, hshows, hadmits⟩ := hdone
    have hsignal : Goes job.program job.Agrees targets signal e fun a f => a = e.machine.signal ∧ f = e :=
      goes_gets hfollows.mirrors _ ⟨rfl, rfl⟩
    refine hsignal.bind fun a f _ hf => ?_
    obtain ⟨rfl, rfl⟩ := hf
    split
    · rename_i hleave
      rw [hleave] at hadmits
      exact goes_pure hfollows.mirrors true ⟨hleave, hadmits⟩
    · rename_i hleave
      have hproceed := hadmits.proceed hloop hleave
      refine (ih hothers hmems hrest (h.follows hfollows hshows hadds.functions hproceed) htargets'
        (hadds.inLoopBody.trans hloop)).imp fun left g _ hg => ?_
      cases left with
      | true => exact ⟨hg.1, hadds.inFunction.symm.trans hg.2⟩
      | false => exact hg

end Lists

/-! ### Blocks -/

/-- Inside a region that has been opened. -/
theorem Config.Opens.poised {region : Region} (hopens : c.Opens job.program chain region d)
    (h : c.Poised job visible chain) (hchecked : region.Checked job.dialect visible) :
    d.Poised job (region.inside job.dialect visible) (region :: chain) where
  stands := hopens.stands
  sees := h.sees.inside hchecked
  shows name := by
    rw [hopens.bindings, Region.isVariable_inside]
    exact h.shows name
  signal := by
    rw [hopens.machine]
    exact h.signal

/-- No variable of a checked region is bound where the region is entered. -/
theorem Region.Checked.apart {region : Region} (hchecked : region.Checked job.dialect visible)
    (hshows : c.Shows visible) : ∀ name ∈ region.names, name ∉ c.activation.bindings := by
  intro name hname hbound
  have hfresh := (hchecked.fresh hname).1
  rw [(hshows name).mp hbound] at hfresh
  cases hfresh

/-- A block opens its region, runs its statements, reads something off at their end and closes the region. -/
theorem block_ends (hjob : job.Valid) {b : Block} (h : c.Poised job visible chain)
    (hfits : (Task.block b).Fits job visible chain)
    (hrunner : ∀ s ∈ b.statements, ∀ visible, runner.Does job visible (.block b :: chain) (.statement s))
    {α : Type} (f : Config → α) :
    Effect.Ends (job.ctx.block runner b (Effect.gets f)) c fun r d =>
      c.Follows job.program b.targets d ∧ c.Still d ∧
        match r with
        | .ok a => ∃ before, (a = f before ∧ visible.Admits before.machine.signal ∧
            (before.machine.signal = .proceed → before.Shows
              (((Region.block b).inside job.dialect visible).afterAll job.dialect b.statements))) ∧
          d.machine = before.machine
        | .error stop => stop.Allowed job.Agrees := by
  obtain ⟨hchecked, hinner⟩ := hfits
  have hregion : (Region.block b).Checked job.dialect visible := hchecked
  obtain ⟨entered, opened, henter, hdeclare, hopens⟩ :=
    h.stands.opens hjob.written hinner hchecked.functions.2
  have hpoised := hopens.poised h hregion
  have htargets : Statement.listTargets b.statements ⊆ b.targets := by
    rw [b.targets_eq]
    exact List.Subset.refl _
  have hsequence := sequence_goes hrunner (fun s hs => hs) hregion.statements hpoised htargets
  have hbody : Goes job.program job.Agrees b.targets (do
      job.ctx.sequence runner b.statements
      Effect.gets f) opened fun a before => a = f before ∧ visible.Admits before.machine.signal ∧
        (before.machine.signal = .proceed → before.Shows
          (((Region.block b).inside job.dialect visible).afterAll job.dialect b.statements)) := by
    refine hsequence.bind fun _ before hfollows hbefore => ?_
    exact goes_gets hfollows.mirrors f ⟨rfl, hbefore.1.congr rfl rfl, hbefore.2⟩
  have heq : job.ctx.block runner b (Effect.gets f) c = Effect.ensuring (do
      job.ctx.sequence runner b.statements
      Effect.gets f) leaveScope opened := by
    unfold Context.block
    exact (Effect.bind_of_ok henter).trans (Effect.ensuring_bind_of_ok hdeclare)
  exact .of_eq heq (hopens.closes hjob.written (hregion.apart h.shows) hbody)

/-- A part that yields nothing, as a task. -/
theorem yielding_meets {t : Task} {x : Exec Unit}
    (hx : x.Goes job.program job.Agrees t.targets c fun _ d => t.Done job visible [] d)
    (hclosed : t.Closed → c.Still (x c).2) : t.Meets job visible (Context.yielding x) c where
  goes := hx.bind fun _ d hfollows hdone => goes_pure hfollows.mirrors [] hdone
  closed ht := by
    have hsame : (Context.yielding x c).2 = (x c).2 := by
      unfold Context.yielding
      rw [Effect.bind_apply]
      rcases x c with ⟨_ | _, _⟩ <;> rfl
    rw [hsame]
    exact hclosed ht

theorem block_meets (hjob : job.Valid) {b : Block} (h : (Task.block b).Ready job visible chain c)
    (hrunner : runner.Serves job chain (.block b)) :
    (Task.block b).Meets job visible (Context.yielding (job.ctx.block runner b (pure ()))) c := by
  have hends : Effect.Ends (job.ctx.block runner b (pure ())) c _ :=
    block_ends hjob h.poised h.fits (fun s hs visible => hrunner _ _ visible (.item hs)) fun _ => ()
  refine yielding_meets (hends.mono fun r d hd => ?_) fun _ => hends.2.1
  obtain ⟨hfollows, hstill, hresult⟩ := hd
  refine ⟨hfollows, ?_⟩
  cases r with
  | ok _ =>
    obtain ⟨before, ⟨-, hadmits, -⟩, hmachine⟩ := hresult
    exact ⟨hstill.shows hfollows h.poised.shows, hmachine ▸ hadmits⟩
  | error stop => exact hresult

/-! ### Loops -/

section Rounds
variable {l : ForLoop} {outer : Chain} (hfits : (Task.rounds l).Fits job visible (.loop l :: outer))
  (hrunner : runner.Serves job (.loop l :: outer) (.rounds l))

theorem settle_goes (hmirrors : Mirrors job.program c.scopes) (hshows : c.Shows visible)
    (hleave : c.machine.signal = .leave → visible.inFunction = true) :
    settle.Goes job.program job.Agrees targets c fun _ d =>
      d.Shows visible ∧ visible.Admits d.machine.signal := by
  have hsignal : Goes job.program job.Agrees targets signal c fun a d => a = c.machine.signal ∧ d = c :=
    goes_gets hmirrors _ ⟨rfl, rfl⟩
  refine hsignal.bind fun a d _ hd => ?_
  obtain ⟨rfl, rfl⟩ := hd
  split
  · rename_i hpending
    refine goes_pure hmirrors () ⟨hshows, ?_⟩
    rw [hpending]
    exact hleave hpending
  · exact goes_setSignal hmirrors _ ⟨hshows, trivial⟩

/-- Without a pending signal a run stands ready. -/
theorem Config.Stands.reset (h : c.Stands job.program chain) (hsees : visible.Sees chain)
    (hshows : c.Shows visible) :
    Config.Poised job visible chain { c with machine := { c.machine with signal := .proceed } } :=
  ⟨⟨h.inside, h.mirrors, h.scope⟩, hsees, hshows, rfl⟩

variable (hstands : c.Stands job.program (.loop l :: outer)) (hsees : visible.Sees (.loop l :: outer))
  (hshows : c.Shows visible)
include hfits hrunner hstands hsees hshows

theorem afterPost_goes (hadmits : visible.Admits c.machine.signal) :
    (runner.afterPost l).Goes job.program job.Agrees (Task.rounds l).targets c fun _ d =>
      d.Shows visible ∧ visible.Admits d.machine.signal := by
  have hsignal : Goes job.program job.Agrees (Task.rounds l).targets signal c
      fun a d => a = c.machine.signal ∧ d = c := goes_gets hstands.mirrors _ ⟨rfl, rfl⟩
  refine hsignal.bind fun a d _ hd => ?_
  obtain ⟨rfl, rfl⟩ := hd
  split
  · rename_i hleave
    rw [hleave] at hadmits
    exact settle_goes hstands.mirrors hshows fun _ => hadmits
  · rename_i hleave
    have hpoised : d.Poised job visible (.loop l :: outer) :=
      ⟨hstands, hsees, hshows, hadmits.proceed hfits.2.2.2.1 hleave⟩
    refine (run_goes (hrunner _ _ visible .again) ⟨hpoised, hfits⟩ (List.Subset.refl _)).imp
      fun _ e _ hdone => ?_
    obtain ⟨_, hcalm⟩ := hdone
    exact hcalm

theorem afterBody_goes (hadmits : Visible.Admits { visible with inLoopBody := true } c.machine.signal) :
    (runner.afterBody l).Goes job.program job.Agrees (Task.rounds l).targets c fun _ d =>
      d.Shows visible ∧ visible.Admits d.machine.signal := by
  have hsignal : Goes job.program job.Agrees (Task.rounds l).targets signal c
      fun a d => a = c.machine.signal ∧ d = c := goes_gets hstands.mirrors _ ⟨rfl, rfl⟩
  refine hsignal.bind fun a d _ hd => ?_
  obtain ⟨rfl, rfl⟩ := hd
  split
  · refine settle_goes hstands.mirrors hshows fun hleave => ?_
    rw [hleave] at hadmits
    exact hadmits
  · have hreset : (setSignal .proceed).Goes job.program job.Agrees (Task.rounds l).targets d
        fun _ e => e.Poised job visible (.loop l :: outer) :=
      goes_setSignal hstands.mirrors _ (hstands.reset hsees hshows)
    refine hreset.bind fun _ e _ hpoised => ?_
    have hpost : (Task.block l.post).Ready job visible (.loop l :: outer) e :=
      ⟨hpoised, hfits.2.2.1, List.mem_append_right _ (List.mem_cons_of_mem _ (List.mem_singleton_self _))⟩
    refine (run_goes (hrunner _ _ visible .post) hpost (List.subset_append_left _ _)).bind
      fun _ f hfollows hdone => ?_
    obtain ⟨-, hshows', hadmits'⟩ := hdone
    exact afterPost_goes hfits hrunner (hpoised.stands.follows hfollows) hsees hshows' hadmits'

theorem round_goes :
    (job.ctx.round runner l).Goes job.program job.Agrees (Task.rounds l).targets c fun _ d =>
      d.Shows visible ∧ visible.Admits d.machine.signal := by
  have hcount : Goes job.program job.Agrees (Task.rounds l).targets
      (Effect.when l.spins (onMachine (countStep job.ctx.setting))) c fun _ d =>
        d.scopes = c.scopes ∧ d.activation = c.activation := by
    unfold Effect.when
    split
    · exact goes_count hstands.mirrors _ fun m _ => ⟨rfl, rfl⟩
    · exact goes_pure hstands.mirrors () ⟨rfl, rfl⟩
  refine hcount.bind fun _ d hfollows hd => ?_
  have hshows' : d.Shows visible := hshows.of_eq (congrArg Activation.bindings hd.2)
  have hreset : (setSignal .proceed).Goes job.program job.Agrees (Task.rounds l).targets d
      fun _ e => e.Poised job { visible with inLoopBody := true } (.loop l :: outer) :=
    goes_setSignal hfollows.mirrors _
      ((hstands.follows hfollows).reset (hsees.congr rfl) hshows')
  refine hreset.bind fun _ e _ hpoised => ?_
  have hbody : (Task.block l.body).Ready job { visible with inLoopBody := true } (.loop l :: outer) e :=
    ⟨hpoised, hfits.2.1, List.mem_append_right _ (List.mem_cons_self ..)⟩
  refine (run_goes (hrunner _ _ _ .round) hbody (List.subset_append_right _ _)).bind
    fun _ f hfollows' hdone => ?_
  obtain ⟨-, hshows'', hadmits⟩ := hdone
  exact afterBody_goes hfits hrunner (hpoised.stands.follows hfollows') hsees hshows'' hadmits

end Rounds

theorem rounds_goes {l : ForLoop} (h : (Task.rounds l).Ready job visible chain c)
    (hrunner : runner.Serves job chain (.rounds l)) :
    (job.ctx.rounds runner l).Goes job.program job.Agrees (Task.rounds l).targets c fun _ d =>
      d.Shows visible ∧ visible.Admits d.machine.signal := by
  obtain ⟨hpoised, hfits⟩ := h
  obtain ⟨outer, rfl⟩ := hfits.2.2.2.2
  refine (evaluate_goes hpoised (hrunner _ _ visible .condition) hfits.1).bind fun value d hfollows hcalm => ?_
  split
  · refine settle_goes hfollows.mirrors hcalm.1 fun hleave => ?_
    rw [hcalm.2] at hleave
    cases hleave
  · exact round_goes hfits hrunner (hpoised.stands.follows hfollows) hpoised.sees hcalm.1

/-- What runs in the region of a loop: the statements in front of it, and then its rounds. -/
theorem loop_goes {l : ForLoop} {outer : Chain} (h : c.Poised job visible.enterLoop (.loop l :: outer))
    (hfits : (Statement.loop l).Fits job.dialect visible)
    (hrunner : runner.Serves job outer (.statement (.loop l))) :
    Goes job.program job.Agrees (Statement.loop l).targets (do
      let left ← runner.initialise l.init.statements
      if left then pure () else runner.run (.rounds l)) c fun _ d => visible.Admits d.machine.signal := by
  obtain ⟨hinit, hcondition, hbody, hpost⟩ := hfits
  have hadds := hinit.adds.1
  have htargets : Statement.listTargets l.init.statements ⊆ (Statement.loop l).targets ∧
      (Task.rounds l).targets ⊆ (Statement.loop l).targets := by
    obtain ⟨init, condition, post, body⟩ := l
    unfold Statement.targets
    rw [init.targets_eq, List.append_assoc]
    exact ⟨List.subset_append_left _ _, List.subset_append_right _ _⟩
  refine (initialise_goes (fun s hs visible => hrunner _ _ visible (.front hs)) (fun s hs => hs)
    hinit h htargets.1 rfl).bind fun left d hfollows hleft => ?_
  split
  · rename_i htrue
    rw [if_pos htrue] at hleft
    refine goes_pure hfollows.mirrors () ?_
    rw [hleft.1]
    exact hleft.2
  · rename_i hfalse
    rw [if_neg hfalse] at hleft
    have hready : (Task.rounds l).Ready job (visible.enterLoop.afterAll job.dialect l.init.statements)
        (.loop l :: outer) d :=
      ⟨h.follows hfollows hleft.2 hadds.functions hleft.1, hcondition, hbody, hpost, hadds.inLoopBody, _, rfl⟩
    refine (run_goes (hrunner _ _ _ .begin) hready htargets.2).imp fun _ e _ hdone => ?_
    obtain ⟨-, -, hadmits⟩ := hdone
    -- After the loop only a pending leave is left.
    by_cases hleave : e.machine.signal = .leave
    · rw [hleave] at hadmits ⊢
      exact hadds.inFunction.symm.trans hadmits
    · exact Visible.admits_of_proceed (hadmits.proceed hadds.inLoopBody hleave)

/-- A loop opens its region for the statements in front of it and for its rounds. -/
theorem loop_ends (hjob : job.Valid) {l : ForLoop} (h : (Task.statement (.loop l)).Ready job visible chain c)
    (hrunner : runner.Serves job chain (.statement (.loop l))) :
    Effect.Ends (runner.statement (.loop l)) c fun r d =>
      c.Follows job.program (Statement.loop l).targets d ∧ c.Still d ∧
        match r with
        | .ok _ => visible.Admits d.machine.signal
        | .error stop => stop.Allowed job.Agrees := by
  obtain ⟨hpoised, hchecked, region, outer, rfl, hmem⟩ := h
  have hregion : (Region.loop l).Checked job.dialect visible := hchecked
  obtain ⟨entered, opened, henter, hdeclare, hopens⟩ := hpoised.stands.opens hjob.written
    (Region.mem_inner hmem (List.mem_singleton_self (Region.loop l))) List.nodup_nil
  obtain ⟨-, rfl⟩ := Prod.mk.inj hdeclare
  have hgoes := loop_goes (hopens.poised hpoised hregion) hchecked.fits hrunner
  have heq : runner.statement (.loop l) c = Effect.ensuring (do
      let left ← runner.initialise l.init.statements
      if left then pure () else runner.run (.rounds l)) leaveScope entered :=
    Effect.bind_of_ok henter
  refine (Effect.Ends.of_eq heq (hopens.closes hjob.written (hregion.apart hpoised.shows) hgoes)).mono
    fun r d hd => ?_
  obtain ⟨hfollows, hstill, hresult⟩ := hd
  refine ⟨hfollows, hstill, ?_⟩
  cases r with
  | ok _ =>
    obtain ⟨before, hadmits, hmachine⟩ := hresult
    exact hmachine ▸ hadmits
  | error stop => exact hresult

theorem rounds_meets {l : ForLoop} (h : (Task.rounds l).Ready job visible chain c)
    (hrunner : runner.Serves job chain (.rounds l)) :
    (Task.rounds l).Meets job visible (Context.yielding (job.ctx.rounds runner l)) c :=
  yielding_meets (rounds_goes h hrunner) nofun

theorem loop_meets (hjob : job.Valid) {l : ForLoop} (h : (Task.statement (.loop l)).Ready job visible chain c)
    (hrunner : runner.Serves job chain (.statement (.loop l))) :
    (Task.statement (.loop l)).Meets job visible (Context.yielding (runner.statement (.loop l))) c := by
  have hends := loop_ends hjob h hrunner
  refine yielding_meets (hends.mono fun r d hd => ?_) fun _ => hends.2.1
  obtain ⟨hfollows, hstill, hresult⟩ := hd
  refine ⟨hfollows, ?_⟩
  cases r with
  | ok _ => exact ⟨hstill.shows hfollows h.poised.shows, hresult⟩
  | error stop => exact hresult

/-! ### Other statements -/

section Simple
variable (h : c.Poised job visible chain)
include h

/-- As many values as targets are assigned, and no name is bound. -/
theorem assignment_goes {names : List String} {e : Expr}
    (hrunner : runner.Does job visible chain (.expression e))
    (hfits : (Statement.assignment names e).Fits job.dialect visible) :
    (runner.statement (.assignment names e)).Goes job.program job.Agrees names c fun _ d =>
      d.Shows visible ∧ d.machine.signal = .proceed := by
  obtain ⟨hsome, hchecked, hcount, hvisible⟩ := hfits
  refine (evaluateAll_goes h hrunner hchecked).bind fun values d hfollows hdone => ?_
  obtain ⟨hshows, hsignal, hvalues⟩ := hdone
  split
  · rename_i hmismatch
    refine goes_fails hfollows.mirrors rfl ⟨nofun, fun hagree => ?_⟩
    exact absurd (hvalues hagree _ hcount (mt List.length_eq_zero_iff.mp hsome)) hmismatch
  · refine goes_assign hfollows.mirrors (fun pair hpair => ?_) fun e hbound hmachine => ?_
    · have hname := (List.of_mem_zip hpair).1
      exact ⟨(hshows _).mpr (hvisible _ hname), hname⟩
    · exact ⟨fun name => (hbound name).trans (hshows name), hmachine ▸ hsignal⟩

/-- The values of a declaration are those of its expression, or zeros. -/
theorem declared_goes {names : List String} {value : Option Expr}
    (hrunner : ∀ e ∈ value, runner.Does job visible chain (.expression e)) (hsome : names ≠ [])
    (hchecked : ∀ e ∈ value, e.Checked job.dialect visible ∧
      e.count? job.dialect visible = some names.length) :
    (runner.declared names value).Goes job.program job.Agrees targets c fun values d =>
      d.Shows visible ∧ d.machine.signal = .proceed ∧ (job.Agrees → values.length = names.length) := by
  cases value with
  | none =>
    refine goes_pure h.mirrors _ ⟨h.shows, h.signal, fun _ => ?_⟩
    exact List.length_map (fun _ => 0)
  | some e =>
    obtain ⟨he, hcount⟩ := hchecked e rfl
    refine (evaluateAll_goes h (hrunner e rfl) he).imp fun values d _ hdone => ?_
    obtain ⟨hshows, hsignal, hvalues⟩ := hdone
    exact ⟨hshows, hsignal, fun hagree => hvalues hagree _ hcount (mt List.length_eq_zero_iff.mp hsome)⟩

/-- A declaration binds its names, which are variables of the innermost region. -/
theorem declaration_goes (hjob : job.Valid) {names : List String} {value : Option Expr}
    (hrunner : ∀ e ∈ value, runner.Does job visible chain (.expression e))
    (hfits : (Task.statement (.declaration names value)).Fits job visible chain) :
    (runner.statement (.declaration names value)).Goes job.program job.Agrees [] c fun _ d =>
      d.Shows (visible.declareAll job.dialect names) ∧ d.machine.signal = .proceed := by
  obtain ⟨hchecked, region, outer, rfl, hmem⟩ := hfits
  obtain ⟨hsome, hvalue, hfresh, hnodup, hadds⟩ := hchecked.fits
  refine (declared_goes h hrunner hsome hvalue).bind fun values d hfollows hdone => ?_
  obtain ⟨hshows, hsignal, hvalues⟩ := hdone
  split
  · rename_i hmismatch
    refine goes_fails hfollows.mirrors rfl ⟨nofun, fun hagree => ?_⟩
    exact absurd (hvalues hagree) hmismatch
  · rename_i hmatch
    have hfst : (names.zip values).map Prod.fst = names :=
      List.map_fst_zip (Nat.le_of_eq (Decidable.not_not.mp hmatch).symm)
    refine goes_bindNew hjob.written (h.stands.follows hfollows) (hfst.symm ▸ hnodup) ?_ ?_ ?_
    · intro name hname hbound
      rw [hfst] at hname
      rw [hshows, (hfresh name hname).unbound] at hbound
      cases hbound
    · intro name hname
      rw [hfst] at hname
      refine ⟨List.mem_flatMap.mpr ⟨_, hmem, hname⟩, ?_⟩
      have hnone := h.sees name
      rw [(hfresh name hname).function] at hnone
      rcases hnamed : named? name region.functions with _ | definition
      · rfl
      · rw [Chain.function?_of_some hnamed] at hnone
        cases hnone
    · intro e hbound hmachine
      rw [hfst] at hbound
      refine ⟨fun name => ?_, hmachine ▸ hsignal⟩
      rw [hbound, hshows, hadds.vars]

end Simple

/-- A block inside a statement, at the end of the statement. -/
theorem inner_goes {s : Statement} {b : Block} (h : c.Poised job visible chain)
    (hrunner : runner.Serves job chain (.statement s)) (hfits : (Task.statement s).Fits job visible chain)
    (hb : .block b ∈ s.regions) (hchecked : b.Checked job.dialect visible) (htargets : b.targets ⊆ targets) :
    (runner.run (.block b)).Goes job.program job.Agrees targets c fun _ d =>
      d.Shows visible ∧ visible.Admits d.machine.signal := by
  obtain ⟨-, region, outer, rfl, hmem⟩ := hfits
  refine (run_goes (hrunner _ _ visible (.inner hb)) ⟨h, hchecked, Region.mem_inner hmem hb⟩ htargets).imp
    fun _ d _ hdone => ?_
  obtain ⟨_, hcalm⟩ := hdone
  exact hcalm

/-- One of the blocks of a switch is run, or none. -/
theorem switch_goes {scrutinee : Expr} {cases : List Case} (h : c.Poised job visible chain)
    (hrunner : runner.Serves job chain (.statement (.switch scrutinee cases)))
    (hfits : (Task.statement (.switch scrutinee cases)).Fits job visible chain) :
    (runner.statement (.switch scrutinee cases)).Goes job.program job.Agrees (Case.listTargets cases) c
      fun _ d => d.Shows visible ∧ visible.Admits d.machine.signal := by
  obtain ⟨hscrutinee, hcases⟩ := hfits.1.fits
  have hliteral : ∀ c ∈ cases, ∀ literal ∈ c.value,
      runner.Does job visible chain (.expression (.literal literal)) := by
    intro c hc literal hvalue
    refine hrunner _ _ visible (.expression (List.mem_cons_of_mem _ (List.mem_filterMap.mpr ⟨c, hc, ?_⟩)))
    rw [Option.mem_def.mp hvalue]
    rfl
  refine (evaluate_goes h (hrunner _ _ visible (.expression (List.mem_cons_self ..))) hscrutinee).bind
    fun value d hfollows hcalm => ?_
  have hpoised := h.follows hfollows hcalm.1 rfl hcalm.2
  refine (select_goes hpoised hliteral hcases).bind fun chosen e hfollows' hchosen => ?_
  obtain ⟨hbodies, hcalm'⟩ := hchosen
  cases chosen with
  | none =>
    exact goes_pure hfollows'.mirrors () ⟨hcalm'.1, Visible.admits_of_proceed hcalm'.2⟩
  | some body =>
    obtain ⟨chosenCase, hmem, rfl⟩ := hbodies body rfl
    exact inner_goes (hpoised.follows hfollows' hcalm'.1 rfl hcalm'.2) hrunner hfits
      (List.mem_map.mpr ⟨chosenCase, hmem, rfl⟩) (hcases chosenCase hmem).2 (Case.targets_subset hmem)

/-- A statement without a scope of its own, by its kind. -/
theorem statement_meets (hjob : job.Valid) {s : Statement} (h : (Task.statement s).Ready job visible chain c)
    (hrunner : runner.Serves job chain (.statement s)) :
    (Task.statement s).Meets job visible (Context.yielding (runner.statement s)) c := by
  obtain ⟨hpoised, hfits⟩ := id h
  have hrule := hfits.1.fits
  have hquiet {d : Config} (hd : d.Shows visible ∧ d.machine.signal = .proceed) :
      d.Shows visible ∧ visible.Admits d.machine.signal := ⟨hd.1, Visible.admits_of_proceed hd.2⟩
  have hraise (signal : Signal) (hadmits : visible.Admits signal) :
      (setSignal signal).Goes job.program job.Agrees [] c fun _ d =>
        d.Shows visible ∧ visible.Admits d.machine.signal :=
    goes_setSignal hpoised.mirrors signal ⟨hpoised.shows, hadmits⟩
  cases s with
  | loop l => exact loop_meets hjob h hrunner
  | expression e =>
    refine yielding_meets ?_ nofun
    refine (evaluateAll_goes hpoised (hrunner _ _ visible (.expression (List.mem_singleton_self e)))
      hrule.1).bind fun values d hfollows hdone => ?_
    exact goes_pure hfollows.mirrors () (hquiet ⟨hdone.1, hdone.2.1⟩)
  | assignment names e =>
    refine yielding_meets ?_ nofun
    exact (assignment_goes hpoised (hrunner _ _ visible (.expression (List.mem_singleton_self e))) hrule).imp
      fun _ d _ hd => hquiet hd
  | declaration names value =>
    refine yielding_meets ?_ nofun
    refine (declaration_goes hpoised hjob (fun e he => hrunner _ _ visible (.expression ?_)) hfits).imp
      fun _ d _ hd => ⟨hd.1, Visible.admits_of_proceed hd.2⟩
    exact Option.mem_toList.mpr he
  | conditional condition body =>
    refine yielding_meets ?_ nofun
    refine (evaluate_goes hpoised (hrunner _ _ visible (.expression (List.mem_singleton_self condition)))
      hrule.1).bind fun value d hfollows hcalm => ?_
    split
    · exact goes_pure hfollows.mirrors () (hquiet hcalm)
    · exact inner_goes (hpoised.follows hfollows hcalm.1 rfl hcalm.2) hrunner hfits
        (List.mem_singleton_self _) hrule.2 (List.Subset.refl _)
  | switch scrutinee cases => exact yielding_meets (switch_goes hpoised hrunner hfits) nofun
  | function definition =>
    refine yielding_meets ?_ nofun
    exact goes_pure hpoised.mirrors () (hquiet ⟨hpoised.shows, hpoised.signal⟩)
  | breakLoop => exact yielding_meets (hraise .breakLoop hrule) nofun
  | continueLoop => exact yielding_meets (hraise .continueLoop hrule) nofun
  | leave => exact yielding_meets (hraise .leave hrule) nofun
  | block b =>
    refine yielding_meets ?_ nofun
    exact inner_goes hpoised hrunner hfits (List.mem_singleton_self _) hrule (List.Subset.refl _)

end BlockIR
