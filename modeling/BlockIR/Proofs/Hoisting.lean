import BlockIR.Proofs.Acceptance
import BlockIR.Proofs.RecastRuns

/-! Moving what stands in front of a loop out of it.

A loop `for {S} c {post} {body}` is hoisted when the block `{ S; for {} c {post} {body} }`
is put in its place (`Statement.Hoisted`). The statements of `S` are then
counted, stop at every signal and not only at `leave`, and share their scope with
the loop but not with its rounds, which run one scope further in. None of this
can be told apart from outside: in front of a loop a checked program raises no
signal but `leave`, and the rounds bind nothing. -/
namespace BlockIR

open Exec

/-- A loop and the block that is put in its place. -/
inductive Statement.Hoisted : Statement → Statement → Prop
  | loop {l m : ForLoop} {b : Block} (front : List Statement) : b.statements = front ++ [.loop m] →
    List.Forall₂ (fun s t => Node.Same (.statement s) (.statement t)) l.init.statements front →
    m.init.statements = [] → m.condition = l.condition → Node.Same (.block l.body) (.block m.body) →
    Node.Same (.block l.post) (.block m.post) → Hoisted (.loop l) (.block b)

/-- No function is defined in front of a checked loop. -/
theorem Statement.Checked.front_functions {dialect : Dialect} {visible : Visible} {l : ForLoop}
    (h : (Statement.loop l).Checked dialect visible) : l.init.functions = [] := by
  obtain ⟨_, -, hissues⟩ := h
  obtain ⟨⟨_, _⟩, _, _, _⟩ := l
  simp only [Statement.issues, List.append_eq_nil_iff] at hissues
  exact (Statement.initIssues_eq_nil_iff.mp hissues.1.1.1).1

namespace Statement.Hoisted

/-! ### Scoping -/

theorem front_functions {b : Block} {l m : ForLoop} {front : List Statement} (hb : b.statements = front ++ [.loop m])
    (hfront : List.Forall₂ (fun s t => Node.Same (.statement s) (.statement t)) l.init.statements front)
    (hnone : l.init.functions = []) : b.functions = [] := by
  have hfunctions := Node.Recast.functions_of_forall₂ (X := fun _ _ => False) nofun hfront
  rw [show Statement.functions l.init.statements = [] from hnone] at hfunctions
  show Statement.functions b.statements = []
  rw [hb, Statement.functions, List.filterMap_append]
  exact List.append_eq_nil_iff.mpr ⟨List.forall₂_nil_left_iff.mp hfunctions, rfl⟩

section Around
variable {taken : List String} {frames frames' : Frames} (h : frames.Recast taken frames') {b : Block}
  (hnone : b.functions = []) {before before' : List Statement}
  (hnames : before'.flatMap Statement.names = before.flatMap Statement.names)
include h hnone

include hnames

/-- Around the statements in front of a loop there is now a block. -/
theorem frames_front (hbefore : before.flatMap Statement.names ⊆ taken) :
    Frames.Recast taken (.loop before :: frames) (.block b before' :: frames') where
  alike := by
    have halike : Frames.Alike (.loop before :: frames) frames' :=
      ⟨h.alike.functions, False.elim, fun hin => h.alike.inFunction (by simpa [Frames.InFunction] using hin)⟩
    exact halike.enter hnone before'
  tail := h.alike
  vars := congrArg₂ List.append hnames h.vars
  varsTaken := List.append_subset.mpr ⟨hbefore, h.varsTaken⟩
  functionsTaken := h.functionsTaken

/-- Around the other parts of a loop there are now a block and the loop. -/
theorem frames_rounds (hbefore : before.flatMap Statement.names ⊆ taken) :
    Frames.Recast taken (.loop before :: frames) (.loop [] :: .block b before' :: frames') where
  alike := (h.alike.enter hnone before').loop before []
  tail := h.alike.enter hnone before'
  vars := by
    show before'.flatMap Statement.names ++ frames'.vars = before.flatMap Statement.names ++ frames.vars
    rw [hnames, h.vars]
  varsTaken := List.append_subset.mpr ⟨hbefore, h.varsTaken⟩
  functionsTaken := h.functionsTaken

end Around

theorem sound {dialect : Dialect} {taken : List String} {s t : Statement} (h : Hoisted s t) {frames frames' : Frames}
    (hframes : frames.Recast taken frames') (htaken : s.declared ⊆ taken)
    (hsound : Site.Sound dialect ⟨frames, .statement s⟩) : Site.Sound dialect ⟨frames', .statement t⟩ := by
  cases h with
  | @loop l m b front hb hfront hinit hcondition hbody hpost =>
    obtain ⟨⟨hnone, hyields⟩, hparts⟩ := Site.sound_iff.mp hsound
    have hX := Statement.replaces_nothing dialect taken
    have hfunctions := front_functions hb hfront hnone
    obtain ⟨⟨hbefore, hpostTaken⟩, hbodyTaken⟩ := l.declared_subset htaken
    have hfrontTaken := List.Subset.trans (Statement.listNames_declared _) hbefore
    have hinner := frames_rounds hframes hfunctions (Node.Recast.listNames hX.neutral hfront) hfrontTaken
    obtain ⟨hsites, htest, hrounds, hend⟩ : _ ∧ _ ∧ _ ∧ _ := by
      simpa only [Site.parts, Statement.parts, List.forall_mem_append, List.forall_mem_cons, List.not_mem_nil,
        IsEmpty.forall_iff, implies_true, and_true] using hparts
    have hloop : Site.Sound dialect ⟨.block b front :: frames', .statement (.loop m)⟩ := by
      refine Site.sound_iff.mpr ⟨⟨?_, ?_⟩, ?_⟩
      · show Statement.functions m.init.statements = []
        rw [hinit]
        rfl
      · rw [hinit, hcondition]
        exact hinner.alike.yields hyields
      · simp only [Site.parts, Statement.parts, hinit, hcondition, Statement.sites, List.nil_append,
          List.forall_mem_cons, List.not_mem_nil, IsEmpty.forall_iff, implies_true, and_true]
        exact ⟨Expr.sound_of_alike hinner.alike hinner.vars_subset htest,
          hbody.sound hX hbodyTaken _ _ hinner.rounds hrounds, hpost.sound hX hpostTaken _ _ hinner hend⟩
    refine Site.sound_iff.mpr ⟨trivial, List.forall_mem_singleton.mpr (Site.sound_iff.mpr ⟨?_, ?_⟩)⟩
    · show (b.functions.map FunctionDefinition.name).Nodup
      rw [hfunctions]
      exact List.nodup_nil
    · show ∀ site ∈ Statement.sites _ [] b.statements, _
      rw [hb, Statement.sites_append, List.forall_mem_append]
      refine ⟨?_, List.forall_mem_singleton.mpr hloop⟩
      refine Node.Recast.sites_sound hX.neutral (fun _ _ => frames_front hframes hfunctions) rfl hfrontTaken
        ((Node.Recast.forall₂_mem hfront).imp fun s t hst => ⟨hst.2, hst.2.sound hX ?_⟩) hsites
      exact List.Subset.trans (Statement.declared_subset hst.1.1) hbefore

/-! ### Runs -/

section Runs
variable {job : Job} {program' : Block} {side : Side} {chain chain' : Chain} {n m : Nat} {l l' : ForLoop} {b : Block}

/-- With a signal pending nothing is ready. -/
theorem serving_pending {t : Task} {c : Config} (hsignal : c.machine.signal ≠ .proceed) (u : Task) :
    job.serving n t chain u c = (.error (.failed .scopeUnderflow), c) := by
  refine if_neg ?_
  rintro ⟨inner, visible, -, hready⟩
  exact hsignal hready.poised.signal

/-- What is left in the region of a loop after the first statement in front. -/
theorem inLoop_cons (runner : Runner) (s : Statement) (rest : List Statement) (l : ForLoop) :
    runner.inLoop (s :: rest) l = runner.run (.statement s) >>= fun _ => Exec.signal >>= fun pending =>
      if pending = .leave then pure () else runner.inLoop rest l := by
  rw [Runner.inLoop, Runner.initialise, bind_assoc]
  refine congrArg _ (funext fun _ => ?_)
  rw [bind_assoc]
  refine congrArg _ (funext fun signal => ?_)
  split <;> rfl

/-- With a signal pending that does not end it, what runs in the region of a loop goes on, and fails. -/
theorem inLoop_pending {t : Task} {c : Config} (hsignal : c.machine.signal ≠ .proceed) (ss : List Statement)
    (l : ForLoop) : (job.serving n t chain).inLoop ss l c = (.error (.failed .scopeUnderflow), c) := by
  cases ss with
  | nil =>
    show (job.serving n t chain).run (.rounds l) c = _
    exact Effect.bind_of_error (serving_pending hsignal _)
  | cons s rest =>
    rw [inLoop_cons]
    exact Effect.bind_of_error (Effect.bind_of_error (serving_pending hsignal _))

/-- The statements in front of a loop and its rounds, and the statements of the block: the first leaves
out what follows only a `leave`, the second what follows any signal; after another one nothing is ready. -/
theorem walks_front (hjob : job.Valid) (hsteps : job.ctx.setting.maxSteps = 0) {runner : Runner} {t : Task}
    {ss ts : List Statement}
    (hstatements : List.Forall₂ (fun s t' => Walks side job.Agrees job.ctx (fun _ => False) (List Word)
      (job.serving n t chain (.statement s)) (runner (.statement t'))) ss ts)
    (hrounds : Walks side job.Agrees job.ctx (fun _ => False) (List Word) (job.serving n t chain (.rounds l))
      (runner (.statement (.loop l')))) :
    Walks side job.Agrees job.ctx (fun _ => False) Unit ((job.serving n t chain).inLoop ss l)
      (job.ctx.sequence runner (ts ++ [.loop l'])) := by
  have cong := hjob.walks_local hsteps side
  induction hstatements with
  | nil =>
    intro c d hcd
    rw [List.nil_append, sequence_last hsteps]
    exact cong.run hrounds c _ (hcd.recount _)
  | @cons s t' ss ts hfirst _ ih =>
    intro c d hcd
    rw [inLoop_cons, List.cons_append, Context.sequence, Effect.bind_of_ok (count_unlimited hsteps d)]
    refine Tallies.bind (cong.run hfirst) (fun _ _ => ?_) c _ (hcd.recount _)
    rintro c d ⟨-, hcd⟩
    show side.Answers ((if c.machine.signal = .leave then _ else _ : Exec Unit) c).1
        ((if d.machine.signal = .proceed then _ else _ : Exec Unit) d).1 →
      Tally _ _ ((if c.machine.signal = .leave then _ else _ : Exec Unit) c)
        ((if d.machine.signal = .proceed then _ else _ : Exec Unit) d)
    have hsame : d.machine.signal = c.machine.signal := by
      rw [hcd.machine.1]
      rfl
    rw [hsame]
    by_cases hproceed : c.machine.signal = .proceed
    · rw [if_neg (by rw [hproceed]; decide), if_pos hproceed]
      exact ih c d hcd
    · rw [if_neg hproceed]
      split
      · exact fun _ => .ok ⟨rfl, hcd⟩
      · rw [inLoop_pending hproceed]
        exact fun _ => .strayLeft fun hallowed => hallowed.1 rfl

/-- Rounds of a loop and the loop that has nothing in front of its own. -/
theorem tallied_rounds (hjob : job.Valid) (hjob' : (job.recast program').Valid) (hinit : l'.init.statements = [])
    (h : Task.Tallied job program' side n m (fun _ => False) (.rounds l) chain (.rounds l') (.loop l' :: chain')) :
    Task.Tallied job program' side n (m + 1) (fun _ => False) (.rounds l) chain (.statement (.loop l')) chain' := by
  intro c d visible visible' hready hready' hcd hanswers
  let runner := (job.recast program').serving m (.statement (.loop l')) chain'
  obtain ⟨o, e, hopens, hrun, hsheds⟩ := hready'.loop hjob' (serving_serves hjob' _ _ m)
  have hloop : runner.inLoop l'.init.statements l' = runner.run (.rounds l') := by
    rw [hinit]
    rfl
  rw [hloop, Runner.run_apply] at hrun hsheds
  have hright : job.ctx.perform (m + 1) (.statement (.loop l')) d =
      ((runner (.rounds l') o).1.map fun _ => [], e) := by
    rw [show job.ctx.perform (m + 1) (.statement (.loop l')) d = _ from hready'.perform_succ hjob' m]
    show Context.yielding (runner.statement (.loop l')) d = _
    rw [Context.yielding_apply, hrun]
    rcases (runner (.rounds l') o).1 with _ | _ <;> rfl
  rw [hright] at hanswers ⊢
  by_cases hreaches : (Task.statement (.loop l')).Reaches (job.recast program') chain' (.rounds l') o
  · have hserve : runner (.rounds l') o = job.ctx.perform m (.rounds l') o := if_pos hreaches
    obtain ⟨inner, visible₁, hleads, hready₁⟩ := hreaches
    obtain rfl := hleads.unique .begin rfl
    rw [hserve] at hanswers hsheds ⊢
    rw [Context.perform_rounds] at hanswers ⊢
    have htally := h c o visible visible₁ hready hready₁ (hcd.opens_right hopens) hanswers
    refine htally.sheds rfl hsheds.machine (fun a ha => ?_) (fun _ _ => hsheds) hcd.mem_iff fun _ => False.elim
    -- Rounds bind nothing.
    have hmeets := (perform_meets hjob n hready).goes
    have hdone := hmeets.2
    rw [ha] at hdone
    exact hready.poised.shows.sheds hdone.1 (hready.seated hjob n)
  · have hserve : runner (.rounds l') o = (.error (.failed .scopeUnderflow), o) := if_neg hreaches
    rw [hserve]
    exact .strayRight fun hallowed => hallowed.1 rfl

/-- What runs in the region of a loop, and the statements of the block that was put in its place. -/
theorem walks_block (hjob : job.Valid) (hjob' : (job.recast program').Valid) (hsteps : job.ctx.setting.maxSteps = 0)
    (ih : Task.AllTallied Hoisted job program' side n) {front : List Statement}
    (hb : b.statements = front ++ [.loop l'])
    (hfront : List.Forall₂ (fun s t => Node.Same (.statement s) (.statement t)) l.init.statements front)
    (hinit : l'.init.statements = []) (hcondition : l'.condition = l.condition)
    (hbody : Node.Same (.block l.body) (.block l'.body)) (hpost : Node.Same (.block l.post) (.block l'.post))
    (hnone : b.functions = []) (hreaches : side.Reaches (n + 1) (m + 2)) (hchains : chain.Recast Hoisted chain') :
    Walks side job.Agrees job.ctx (fun _ => False) Unit
      ((job.serving n (.statement (.loop l)) chain).inLoop l.init.statements l)
      (job.ctx.sequence ((job.recast program').serving m (.block b) chain') b.statements) := by
  have hreaches' : side.Reaches n m := hreaches.lower (by omega) (by omega)
  have hinner : Chain.Recast Hoisted (.loop l :: chain) (.block b :: chain') := .left rfl (.right hnone hchains)
  rw [hb]
  refine walks_front hjob hsteps ((Node.Recast.forall₂_mem hfront).imp ?_) ?_
  · rintro s t ⟨⟨hs, ht⟩, hst⟩
    refine (ih m hreaches' _ _ _ _ _ (.statement hst.of_same hinner)).walks (.front hs) (.item ?_)
    rw [hb]
    exact List.mem_append_left _ ht
  · have hlast : .loop l' ∈ b.statements := by
      rw [hb]
      exact List.mem_append_right _ (List.mem_singleton_self _)
    suffices hrounds : Task.Tallied job program' side n m (fun _ => False) (.rounds l) (.loop l :: chain)
        (.statement (.loop l')) (.block b :: chain') from hrounds.walks .begin (.item hlast)
    rcases m with _ | m
    · obtain rfl := hreaches.right_of_lt (by omega)
      exact Task.tallied_spent
    · refine tallied_rounds hjob hjob' hinit (ih m (hreaches.lower (by omega) (by omega)) _ _ _ _ _ ?_)
      exact .rounds hcondition hbody.of_same hpost.of_same (.left rfl (.right rfl (.right hnone hchains)))

/-- A loop and the block that was put in its place. -/
theorem tallied (hjob : job.Valid) (hjob' : (job.recast program').Valid) (hsteps : job.ctx.setting.maxSteps = 0)
    (ih : Task.AllTallied Hoisted job program' side n) {s t : Statement} (h : Hoisted s t)
    (hreaches : side.Reaches (n + 1) m) (hchains : chain.Recast Hoisted chain') :
    Task.Tallied job program' side (n + 1) m (fun _ => False) (.statement s) chain (.statement t) chain' := by
  cases h with
  | @loop l l' b front hb hfront hinit hcondition hbody hpost =>
    suffices h : b.functions = [] → Task.Tallied job program' side (n + 1) m (fun _ => False) (.statement (.loop l))
        chain (.statement (.block b)) chain' by
      intro c d visible visible' hready
      exact h (front_functions hb hfront hready.fits.1.front_functions) c d visible visible' hready
    intro hnone
    refine Task.tallied_inner hreaches ?_
    rintro m rfl
    refine Task.tallied_succ hjob hjob' fun c d visible visible' hready hready' hcd =>
      tally_yielding fun hanswers => ?_
    have hwalks := walks_block hjob hjob' hsteps ih hb hfront hinit hcondition hbody hpost hnone hreaches hchains
    obtain ⟨o, e, hopens, hrun, hsheds⟩ := hready.loop hjob (serving_serves hjob _ _ n)
    obtain ⟨o', e', hopens', hrun', hsheds'⟩ := hready'.block_unit hjob' (serving_serves hjob' _ _ m)
    rw [hrun, show (job.recast program').ctx.block _ b (pure ()) d = _ from hrun'] at hanswers ⊢
    have htally := hwalks _ _ ((hcd.opens_left hopens).opens_right hopens') hanswers
    exact htally.sheds hsheds.machine hsheds'.machine (fun _ _ => hsheds) (fun _ _ => hsheds') hcd.mem_iff
      fun _ => False.elim

end Runs

theorem neutral {s t : Statement} (h : Hoisted s t) : s.Neutral ∧ t.Neutral := by
  cases h
  exact ⟨⟨rfl, nofun⟩, rfl, nofun⟩

theorem replaces (dialect : Dialect) (taken : List String) : Statement.Replaces dialect taken Hoisted where
  neutral _ _ := neutral
  sound _ _ h _ _ := h.sound

theorem exchanges {job : Job} {program' : Block} (hjob : job.Valid) (hjob' : (job.recast program').Valid)
    (hsteps : job.ctx.setting.maxSteps = 0) : Statement.Exchanges Hoisted job program' where
  neutral _ _ := neutral
  tallied _ n hall _ _ h _ _ _ := h.tallied hjob hjob' hsteps (hall n (Nat.le_refl n))

end Statement.Hoisted

/-! ### Whole runs -/

/-- In a program that was accepted, loops may be replaced by blocks in which the statements in front of them
stand before loops with nothing in front. The program is accepted again and, without a limit on steps and
whatever the other options are, it ends just when it did before, in the same way, with the same variables,
the same trace and the same stores. -/
theorem hoisted_loops_run_alike {target : Target} {doc doc' : Option Json} {program program' : Block}
    (hvalid : Validation.validate target doc = .ok program) (hread' : Validation.readProgram doc' = .ok program')
    (hhoisted : Node.Recast Statement.Hoisted (.block program) (.block program')) :
    Validation.validate target doc' = .ok program' ∧
      ∀ (opts : Option Json) (options : Options), Options.resolve opts = .ok options → options.setting.maxSteps = 0 →
        Alike (Report.Beside (fun _ _ => True) fun table table' => table' = table)
          (fun depth => interpret depth program opts) fun depth => interpret depth program' opts := by
  have hscoped := (issues_eq_nil_iff_wellScoped _ _).mp (validate_eq_ok_iff.mp hvalid).2
  have hscoped' := hhoisted.wellScoped (Statement.Hoisted.replaces target.dialect _) hscoped
  have hvalid' : Validation.validate target doc' = .ok program' :=
    validate_eq_ok_iff.mpr ⟨hread', (issues_eq_nil_iff_wellScoped _ _).mpr hscoped'⟩
  refine ⟨hvalid', fun opts options hoptions hsteps => ?_⟩
  have hjob : (Run.job target program options False).Valid := Run.job_valid hvalid False.elim
  have hjob' : (Run.job target program' options False).Valid := Run.job_valid hvalid' False.elim
  exact hhoisted.alike hjob hjob' (Statement.Hoisted.exchanges hjob hjob' hsteps) hoptions rfl hsteps

/-! ### A sample -/

namespace Sample

/-- A loop at a place. It counts a variable down, or leaves the function in front of the first round. -/
def countdown (place : Place) (init : List Statement) : ForLoop where
  init := ⟨place.field "pre", init⟩
  condition := .identifier "r"
  post := ⟨place.field "post", [.assignment ["r"] (.literal ⟨.number, "0"⟩)]⟩
  body := ⟨place.field "body", []⟩

/-- What stands in front of the loop. -/
def front (place : Place) : List Statement :=
  [.assignment ["r"] (.literal ⟨.number, "1"⟩), .conditional (.identifier "n") ⟨place.field "body", [.leave]⟩]

/-- A program that calls a function with a statement for its body. -/
def calling (body : Place → Statement) : Block :=
  ⟨[], [.function ⟨"count", ["n"], ["r"], ⟨Place.field (Place.item [] "statements" 0) "body",
      [body (Place.item (Place.field (Place.item [] "statements" 0) "body") "statements" 0)]⟩⟩,
    .declaration ["x"] (some (.call "count" [.literal ⟨.number, "3"⟩]))]⟩

/-- The statements stand in front of the loop, in it. -/
def looping : Block :=
  calling fun place => .loop (countdown place (front (Place.item (place.field "pre") "statements" 1)))

/-- They stand before the loop, in a block. -/
def hoisting : Block := calling fun place =>
  .block ⟨place, front (place.item "statements" 1) ++ [.loop (countdown (place.item "statements" 2) [])]⟩

theorem looping_valid : Validation.validate .evm (some looping.toJson) = .ok looping := by
  have hread : Validation.readProgram (some looping.toJson) = .ok looping := by
    with_unfolding_all rfl
  exact validate_eq_ok_iff.mpr ⟨hread, rfl⟩

theorem hoisting_read : Validation.readProgram (some hoisting.toJson) = .ok hoisting := by
  with_unfolding_all rfl

theorem looping_hoisted : Node.Recast Statement.Hoisted (.block looping) (.block hoisting) := by
  refine .block [(_, _), (_, _)] rfl rfl (List.forall_mem_cons.mpr ⟨?_, List.forall_mem_singleton.mpr (.plain rfl)⟩)
  refine .function rfl rfl rfl (.block [(_, _)] rfl rfl (List.forall_mem_singleton.mpr (.replaced ?_)))
  refine .loop _ rfl (.cons (.plain rfl) (.cons (.conditional _ ?_) .nil)) rfl rfl ?_ ?_
  · exact .block [(_, _)] rfl rfl (List.forall_mem_singleton.mpr (.plain rfl))
  · exact .block [] rfl rfl nofun
  · exact .block [(_, _)] rfl rfl (List.forall_mem_singleton.mpr (.plain rfl))

end Sample

theorem hoisted_loops_run_alike_sample :
    Validation.validate .evm (some Sample.hoisting.toJson) = .ok Sample.hoisting ∧
      Alike (Report.Beside (fun _ _ => True) fun table table' => table' = table)
        (fun depth => interpret depth Sample.looping none) fun depth => interpret depth Sample.hoisting none := by
  have halike := hoisted_loops_run_alike Sample.looping_valid Sample.hoisting_read Sample.looping_hoisted
  exact ⟨halike.1, halike.2 none Sample.options Sample.options_resolved rfl⟩

end BlockIR
