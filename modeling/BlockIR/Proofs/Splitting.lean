import BlockIR.Proofs.Acceptance
import BlockIR.Proofs.RecastRuns

/-! Splitting assignments of calls.

An assignment `x := g(e1, .., en)` is split when the block
`{ let tn := en .. let t1 := e1  x := g(t1, .., tn) }` is put in its place, with
names that are declared nowhere else (`Statement.Split`); arguments that have to
be literals stay where they are. Nothing changes but the count, since arguments
are evaluated from right to left, each once, and handed over in order. While the
declarations run, the names that are declared already are hidden from the first
run, and the second one has the values of the first one's arguments in them
(`Config.Holds`). -/
namespace BlockIR

open Exec

/-- Arguments from a position on, the names declared for them, the statements that declare these, and what
is handed over instead. An argument that has to be a literal stays; each other one is declared after those
to its right. -/
inductive Expr.Split (wants : Nat → Bool) : Nat → List Expr → List String → List Statement → List Expr → Prop
  | nil {position : Nat} : Split wants position [] [] [] []
  | kept {position : Nat} {e : Expr} {args handed : List Expr} {names : List String} {front : List Statement} :
    wants position = true → Split wants (position + 1) args names front handed →
      Split wants position (e :: args) names front (e :: handed)
  | declared {position : Nat} {e : Expr} {args handed : List Expr} {names : List String} {front : List Statement}
    {name : String} : wants position = false → Split wants (position + 1) args names front handed →
      Split wants position (e :: args) (name :: names) (front ++ [.declaration [name] (some e)])
        (.identifier name :: handed)

/-- An assignment of a call, and the block that is put in its place where some names are taken. -/
inductive Statement.Split (dialect : Dialect) (taken : List String) : Statement → Statement → Prop
  | assignment {targets names : List String} {callee : String} {args handed : List Expr} {front : List Statement}
    {b : Block} : Expr.Split (dialect.wantsLiteral callee) 0 args names front handed → names.Nodup →
    (∀ name ∈ names, name ∉ taken) → (∀ name ∈ names, dialect.find? name = none) →
    b.statements = front ++ [.assignment targets (.call callee handed)] →
      Split dialect taken (.assignment targets (.call callee args)) (.block b)

/-! ### The statements in front -/

namespace Expr.Split
variable {wants : Nat → Bool} {position : Nat} {args handed : List Expr} {names : List String} {front : List Statement}

theorem length_eq (h : Split wants position args names front handed) : handed.length = args.length := by
  induction h with
  | nil => rfl
  | kept _ _ ih => rw [List.length_cons, List.length_cons, ih]
  | declared _ _ ih => rw [List.length_cons, List.length_cons, ih]

/-- What is declared in front is what the names are for. -/
theorem mem_front (h : Split wants position args names front handed) (name : String) :
    name ∈ front.flatMap Statement.names ↔ name ∈ names := by
  induction h with
  | nil => rfl
  | kept _ _ ih => exact ih
  | declared _ _ ih =>
    rw [List.flatMap_append, List.mem_append, ih, List.mem_cons, or_comm]
    exact or_congr_left List.mem_singleton

theorem front_functions (h : Split wants position args names front handed) : Statement.functions front = [] := by
  induction h with
  | nil => rfl
  | kept _ _ ih => exact ih
  | declared _ _ ih =>
    rw [Statement.functions, List.filterMap_append]
    exact List.append_eq_nil_iff.mpr ⟨ih, rfl⟩

/-- Arguments that have to be literals are handed over as they were. -/
theorem literals (h : Split wants position args names front handed) (i : Nat) (hi : wants (position + i) = true) :
    handed[i]? = args[i]? := by
  induction h generalizing i with
  | nil => rfl
  | kept _ _ ih =>
    rcases i with _ | i
    · rfl
    · exact ih i (by rwa [Nat.add_right_comm, Nat.add_assoc])
  | declared hwants _ ih =>
    rcases i with _ | i
    · exact absurd (hwants.symm.trans hi) Bool.false_ne_true
    · exact ih i (by rwa [Nat.add_right_comm, Nat.add_assoc])

/-! ### Scoping -/

section Scoping
variable {dialect : Dialect} {callee : String} {taken : List String} {frames frames' : Frames} {b : Block}
  (hframes : frames.Recast taken frames') (hnone : b.functions = [])

/-- What is handed over keeps the rules of arguments. -/
theorem handed_rules (h : Split (dialect.wantsLiteral callee) position args names front handed)
    (hrules : ∀ arg ∈ args.zipIdx position, arg.1.ArgumentRule dialect frames callee arg.2) (around : Frames) :
    ∀ arg ∈ handed.zipIdx position, arg.1.ArgumentRule dialect around callee arg.2 := by
  induction h with
  | nil => nofun
  | kept hwants _ ih =>
    obtain ⟨hfirst, hrest⟩ := List.forall_mem_cons.mp hrules
    refine List.forall_mem_cons.mpr ⟨?_, ih hrest⟩
    unfold Expr.ArgumentRule at hfirst ⊢
    rw [if_pos hwants] at hfirst ⊢
    exact hfirst
  | declared hwants _ ih =>
    refine List.forall_mem_cons.mpr ⟨?_, ih (List.forall_mem_cons.mp hrules).2⟩
    unfold Expr.ArgumentRule
    rw [if_neg (by rw [hwants]; decide)]
    rfl

/-- Of what is handed over, variables are evaluated. -/
theorem handed_evaluated (h : Split (dialect.wantsLiteral callee) position args names front handed) :
    ∀ e ∈ Expr.evaluated dialect callee position handed, ∃ name ∈ names, e = .identifier name := by
  induction h with
  | nil => nofun
  | kept hwants _ ih =>
    rw [Expr.evaluated_cons, if_pos hwants]
    exact ih
  | declared hwants _ ih =>
    rw [Expr.evaluated_cons, if_neg (by rw [hwants]; decide)]
    refine List.forall_mem_cons.mpr ⟨⟨_, List.mem_cons_self .., rfl⟩, fun e he => ?_⟩
    obtain ⟨name, hname, rfl⟩ := ih e he
    exact ⟨name, List.mem_cons_of_mem _ hname, rfl⟩

include hframes hnone

/-- A name that is not taken is free after declarations of other names. -/
theorem free_of_apart (h : Split (dialect.wantsLiteral callee) position args names front handed) {name : String}
    (hother : name ∉ names) (hapart : name ∉ taken) (hbuiltin : dialect.find? name = none) :
    Free dialect (Frames.vars (.block b front :: frames')) (Frames.functions (.block b front :: frames')) name where
  builtin := hbuiltin
  unbound hmem := by
    rcases List.mem_append.mp hmem with hmem | hmem
    · exact hother ((h.mem_front name).mp hmem)
    · exact hapart (hframes.varsTaken (hframes.vars ▸ hmem))
  function g hg hname := by
    obtain ⟨f, hf, hheading⟩ := (hframes.alike.enter hnone front).partner' hg
    rw [← hname, ← (Prod.mk.inj hheading).1] at hapart
    exact hapart (hframes.functionsTaken (List.mem_map_of_mem hf))

/-- The declarations in front are sound. -/
theorem front_sound (h : Split (dialect.wantsLiteral callee) position args names front handed)
    (hdistinct : names.Nodup) (hapart : ∀ name ∈ names, name ∉ taken)
    (hbuiltin : ∀ name ∈ names, dialect.find? name = none)
    (hrules : ∀ arg ∈ args.zipIdx position, arg.1.ArgumentRule dialect frames callee arg.2)
    (hparts : ∀ e ∈ Expr.evaluated dialect callee position args, Site.Sound dialect ⟨frames, .expression e⟩) :
    ∀ site ∈ Statement.sites (fun before => .block b before :: frames') [] front, site.Sound dialect := by
  induction h with
  | nil => nofun
  | kept hwants _ ih =>
    rw [Expr.evaluated_cons, if_pos hwants] at hparts
    exact ih hdistinct hapart hbuiltin (List.forall_mem_cons.mp hrules).2 hparts
  | @declared position e args handed names front name hwants hsplit ih =>
    have hevaluated : ¬dialect.wantsLiteral callee position = true := by
      rw [hwants]
      decide
    rw [Expr.evaluated_cons, if_neg hevaluated] at hparts
    obtain ⟨hfirst, hrest⟩ := List.forall_mem_cons.mp hparts
    obtain ⟨hrule, hrules'⟩ := List.forall_mem_cons.mp hrules
    obtain ⟨hother, hdistinct'⟩ := List.nodup_cons.mp hdistinct
    obtain ⟨happart, hapart'⟩ := List.forall_mem_cons.mp hapart
    obtain ⟨hfree, hbuiltin'⟩ := List.forall_mem_cons.mp hbuiltin
    have halike := hframes.alike.enter hnone front
    rw [Statement.sites_append, List.forall_mem_append]
    refine ⟨ih hdistinct' hapart' hbuiltin' hrules' hrest,
      List.forall_mem_singleton.mpr (Site.sound_iff.mpr ⟨⟨?_, ?_, ?_⟩, ?_⟩)⟩
    · rintro _ ⟨⟩
      unfold Expr.ArgumentRule at hrule
      rw [if_neg hevaluated] at hrule
      exact halike.yields hrule
    · exact List.nodup_singleton name
    · exact List.forall_mem_singleton.mpr (free_of_apart hframes hnone hsplit hother happart hfree)
    · exact List.forall_mem_singleton.mpr (Expr.sound_of_alike halike
        (List.Subset.trans hframes.vars_subset (List.subset_append_right _ _)) hfirst)

end Scoping
end Expr.Split

namespace Statement.Split
variable {dialect : Dialect} {taken : List String}

theorem neutral {s t : Statement} (h : Split dialect taken s t) : s.Neutral ∧ t.Neutral := by
  cases h
  exact ⟨⟨rfl, nofun⟩, rfl, nofun⟩

/-- The block that is put in place of an assignment defines no functions. -/
theorem functions_eq_nil {b : Block} {front : List Statement} {targets : List String} {e : Expr}
    (hb : b.statements = front ++ [.assignment targets e]) (hfront : Statement.functions front = []) :
    b.functions = [] := by
  show Statement.functions b.statements = []
  rw [hb, Statement.functions, List.filterMap_append]
  exact List.append_eq_nil_iff.mpr ⟨hfront, rfl⟩

theorem sound {s t : Statement} (h : Split dialect taken s t) {frames frames' : Frames}
    (hframes : frames.Recast taken frames') (hsound : Site.Sound dialect ⟨frames, .statement s⟩) :
    Site.Sound dialect ⟨frames', .statement t⟩ := by
  cases h with
  | @assignment targets names callee args handed front b hsplit hdistinct hapart hbuiltin hb =>
    obtain ⟨⟨hyields, htargets, hbound⟩, hparts⟩ := Site.sound_iff.mp hsound
    obtain ⟨⟨htakes, hrules⟩, hargs⟩ := Site.sound_iff.mp (List.forall_mem_singleton.mp hparts)
    have hnone := functions_eq_nil hb hsplit.front_functions
    have halike := hframes.alike.enter hnone front
    have hcall : Site.Sound dialect ⟨.block b front :: frames', .expression (.call callee handed)⟩ := by
      refine Site.sound_iff.mpr ⟨⟨?_, hsplit.handed_rules hrules _⟩, List.forall_mem_map.mpr fun e he => ?_⟩
      · rw [hsplit.length_eq]
        exact halike.takes htakes
      · obtain ⟨name, hname, rfl⟩ := hsplit.handed_evaluated e he
        exact Site.sound_iff.mpr ⟨List.mem_append_left _ ((hsplit.mem_front name).mpr hname), nofun⟩
    refine Site.sound_iff.mpr ⟨trivial, List.forall_mem_singleton.mpr (Site.sound_iff.mpr ⟨?_, ?_⟩)⟩
    · show (b.functions.map FunctionDefinition.name).Nodup
      rw [hnone]
      exact List.nodup_nil
    · show ∀ site ∈ Statement.sites _ [] b.statements, _
      rw [hb, Statement.sites_append, List.forall_mem_append]
      refine ⟨hsplit.front_sound hframes hnone hdistinct hapart hbuiltin hrules (List.forall_mem_map.mp hargs), ?_⟩
      refine List.forall_mem_singleton.mpr (Site.sound_iff.mpr ⟨⟨?_, htargets, fun name hname => ?_⟩, ?_⟩)
      · exact halike.yields hyields
      · exact List.mem_append_right _ (hframes.vars_subset (hbound name hname))
      · exact List.forall_mem_singleton.mpr hcall

end Statement.Split

/-! ### Variables with the values of arguments -/

/-- The runs are abreast but for variables of the second one, which have these values. -/
structure Config.Holds (ctx : Context) (table : List (String × Word)) (c d : Config) : Prop where
  abreast : c.Abreast ctx (fun name => name ∈ table.map Prod.fst) d
  values : ∀ p ∈ table, d.activation.bindings[p.1]? = some p.2

/-- Both computations give the same, and leave the variables with their values. -/
def Exec.GivesAlike (side : Side) (agree : Prop) (ctx : Context) (table : List (String × Word)) {α : Type}
    (x y : Exec α) : Prop :=
  Tallies side agree (Config.Holds ctx table) (fun a b c d => b = a ∧ Config.Holds ctx table c d) x y

/-- What is handed over stands for values: variables that have them, and literals for zero. -/
inductive Expr.Stands (wants : Nat → Bool) (table : List (String × Word)) : Nat → List Expr → List Word → Prop
  | nil {position : Nat} : Stands wants table position [] []
  | kept {position : Nat} {e : Expr} {handed : List Expr} {values : List Word} : wants position = true →
    Stands wants table (position + 1) handed values → Stands wants table position (e :: handed) (0 :: values)
  | declared {position : Nat} {handed : List Expr} {values : List Word} {name : String} {value : Word} :
    wants position = false → (name, value) ∈ table → Stands wants table (position + 1) handed values →
      Stands wants table position (.identifier name :: handed) (value :: values)

theorem Expr.Stands.mono {wants : Nat → Bool} {table more : List (String × Word)} {position : Nat} {handed : List Expr}
    {values : List Word} (h : Stands wants table position handed values) (hmore : table ⊆ more) :
    Stands wants more position handed values := by
  induction h with
  | nil => exact .nil
  | kept hwants _ ih => exact .kept hwants ih
  | declared hwants hmem _ ih => exact .declared hwants (hmore hmem) ih

namespace Config.Holds
variable {ctx : Context} {table : List (String × Word)} {c d : Config}

/-- At first there are no such variables. -/
theorem start (h : c.Abreast ctx (fun _ => False) d) : Holds ctx [] c d :=
  ⟨h.hiding (fun _ => False.elim) nofun, nofun⟩

theorem recount (h : Holds ctx table c d) (steps : Nat) : Holds ctx table c (d.recount steps) :=
  ⟨h.abreast.recount steps, h.values⟩

section Levels
variable (hnesting : ctx.setting.maxNesting = 0) (level : Nat)
include hnesting

/-- Without a limit on nesting, levels do not matter. -/
theorem level_left (h : Holds ctx table c d) : Holds ctx table (c.atLevel level) d where
  abreast := ⟨h.abreast.machine, h.abreast.bindings, h.abreast.unbound, .inl hnesting, h.abreast.seated,
    h.abreast.seated'⟩
  values := h.values

theorem level_right (h : Holds ctx table c d) : Holds ctx table c (d.atLevel level) where
  abreast := ⟨h.abreast.machine, h.abreast.bindings, h.abreast.unbound, .inl hnesting, h.abreast.seated,
    h.abreast.seated'⟩
  values := h.values

end Levels
end Config.Holds

/-- A further variable in the second run, bound to the value of an argument, or bound already. -/
theorem Config.Holds.bind {ctx : Context} {table : List (String × Word)} {c d : Config} (h : Holds ctx table c d)
    (name : String) (value : Word) :
    (∃ e, bindNew [(name, value)] d = (.ok (), e) ∧ Holds ctx ((name, value) :: table) c e) ∨
      bindNew [(name, value)] d = (.error (.failed (.redeclaration name)), d) := by
  rw [bindNew_eq]
  have hlook : look name d = (.ok d.activation.bindings[name]?, d) := rfl
  rw [Effect.bind_of_ok hlook]
  rcases hbound : d.activation.bindings[name]? with _ | old
  · left
    let put : Config :=
      { d with activation := { d.activation with bindings := d.activation.bindings.insert name value } }
    have hput : Exec.put name value d = (.ok (), put) := rfl
    have hother {x : String} (hx : x ≠ name) : put.activation.bindings[x]? = d.activation.bindings[x]? := by
      show (d.activation.bindings.insert name value)[x]? = _
      rw [Std.ExtTreeMap.getElem?_insert, if_neg fun heq => hx (Std.LawfulEqCmp.eq_of_compare heq).symm]
    obtain ⟨later, hdeclare, hseated⟩ := Config.Seated.declare (c := put) h.abreast.seated' name .ofVariable
    refine ⟨{ put with scopes := later }, ?_, ⟨h.abreast.machine, fun x hx => ?_, fun x hx => ?_, h.abreast.levels,
      h.abreast.seated, hseated⟩, fun p hp => ?_⟩
    · show (Exec.put name value >>= fun _ => declare name .ofVariable >>= fun _ => bindNew []) d = _
      rw [Effect.bind_of_ok hput, Effect.bind_of_ok (declare_apply hdeclare)]
      rfl
    · obtain ⟨hname, hx⟩ := not_or.mp (mt List.mem_cons.mpr hx)
      exact (hother hname).trans (h.abreast.bindings x hx)
    · by_cases hx' : x ∈ table.map Prod.fst
      · exact h.abreast.unbound x hx'
      · obtain rfl := (List.mem_cons.mp hx).resolve_right hx'
        exact (h.abreast.bindings _ hx').symm.trans hbound
    · rcases List.mem_cons.mp hp with rfl | hp
      · exact Std.ExtTreeMap.getElem?_insert_self
      · refine (hother fun hname => ?_).trans (h.values p hp)
        cases (h.values p hp).symm.trans (hname ▸ hbound)
  · exact .inr rfl

section Runs
variable {X : Statement → Statement → Prop} {job : Job} {program' : Block} {side : Side} {chain chain' inner' : Chain}
  {t' : Task} {k j : Nat} {b : Block} {callee : String} {args handed : List Expr} {table : List (String × Word)}
  (hjob : job.Valid) (hjob' : (job.recast program').Valid) (hagree : job.Agrees)
  (hnesting : job.ctx.setting.maxNesting = 0)

/-! ### The declarations in front -/

include hjob hjob' hagree hnesting

/-- The declaration of an argument gives its variable the value that the argument has. -/
theorem tallies_declaration (ih : Task.AllTallied X job program' side k) (hreaches : side.Reaches (k + 2) (j + 2))
    (hchains : chain.Recast X (.block b :: chain')) {e : Expr} (he : e ∈ args) {name : String}
    (hmem : .declaration [name] (some e) ∈ b.statements) :
    Tallies side job.Agrees (Config.Holds job.ctx table)
      (fun value _ c d => Config.Holds job.ctx ((name, value) :: table) c d ∧ c.machine.signal = .proceed)
      ((job.serving k (.expression (.call callee args)) chain).argument false e)
      ((job.recast program').serving j (.block b) chain' (.statement (.declaration [name] (some e)))) := by
  refine tallies_serving_next hjob' (.item hmem) (fun _ => hreaches.right_of_lt (by omega)) ?_
  rintro i rfl
  have hreaches' : side.Reaches k i := hreaches.lower (by omega) (by omega)
  let runner := job.serving k (.expression (.call callee args)) chain
  let runner' := (job.recast program').serving i (.statement (.declaration [name] (some e))) (.block b :: chain')
  have hvalue : Tallies side job.Agrees (Config.Holds job.ctx table)
      (fun values values' c d => values' = values ∧ Config.Holds job.ctx table c d ∧ c.machine.signal = .proceed)
      (runner (.expression e)) (runner'.evaluateAll e) := by
    refine Tallies.step_right (fun c d h => ⟨_, rfl, h.level_right hnesting _⟩) ?_
    have hwalks : Walks side job.Agrees job.ctx (fun name => name ∈ table.map Prod.fst) (List Word)
        (runner (.expression e)) (runner' (.expression e)) :=
      (ih i hreaches' _ _ _ _ _ (.expression (fun _ _ => hagree) hchains)).walks (.argument he)
        (.expression (List.mem_singleton_self e))
    refine (hwalks.mono (fun _ _ h => h.abreast) fun _ _ _ _ => id).knowing ?_
    rintro c d hholds values values' c' d' hleft hright ⟨rfl, habreast⟩
    refine ⟨rfl, ⟨habreast, fun p hp => ?_⟩, (serving_calm hjob hleft).1⟩
    have hbound := hholds.values p hp
    have hmem : p.1 ∈ d.activation.bindings := Std.ExtTreeMap.isSome_getElem?_iff_mem.mp (by rw [hbound]; rfl)
    exact ((serving_calm hjob' hright).2 p.1 hmem).trans hbound
  show Tallies side job.Agrees _ _ (Exec.single (runner (.expression e))) ((runner'.evaluateAll e >>= fun values => if
    values.length ≠ [name].length then _ else Exec.bindNew ([name].zip values)) >>= fun _ => pure [])
  rw [bind_assoc]
  refine hvalue.bind fun values values' => ?_
  rintro c d ⟨rfl, hholds, hsignal⟩ -
  rcases values' with _ | ⟨value, _ | ⟨_, _⟩⟩
  · exact .strayLeft fun hallowed => absurd (hallowed.2 hagree) Bool.false_ne_true
  · show Tally _ _ (.ok value, c) ((bindNew [(name, value)] >>= fun _ => pure []) d)
    rcases hholds.bind name value with ⟨e, hbind, hmore⟩ | hbind
    · rw [Effect.bind_of_ok hbind]
      exact .ok ⟨hmore, hsignal⟩
    · rw [Effect.bind_of_error hbind]
      exact .strayRight fun hallowed => absurd (hallowed.2 hagree) Bool.false_ne_true
  · exact .strayLeft fun hallowed => absurd (hallowed.2 hagree) Bool.false_ne_true

omit hjob hjob' hagree hnesting in
/-- Arguments are evaluated on the left while they are declared on the right. What comes after them starts
with variables that have their values. -/
theorem tallies_front {runner runner' : Runner} {ctx : Context} {agree : Prop} (hsteps : ctx.setting.maxSteps = 0)
    {wants : Nat → Bool} {position : Nat} {names : List String} {front : List Statement}
    (h : Expr.Split wants position args names front handed)
    (hdeclared : ∀ table, ∀ e ∈ args, ∀ name, .declaration [name] (some e) ∈ front →
      Tallies side agree (Config.Holds ctx table)
        (fun value _ c d => Config.Holds ctx ((name, value) :: table) c d ∧ c.machine.signal = .proceed)
        (runner.argument false e) (runner' (.statement (.declaration [name] (some e)))))
    {α : Type} {Q : α → Unit → Config → Config → Prop} {f : List Word → Exec α} {following : List Statement}
    (hfollowing : ∀ values table, table.map Prod.fst = names → Expr.Stands wants table position handed values →
      Tallies side agree (Config.Holds ctx table) Q (f values) (ctx.sequence runner' following)) :
    Tallies side agree (Config.Holds ctx []) Q (runner.arguments wants position args >>= f)
      (ctx.sequence runner' (front ++ following)) := by
  induction h generalizing f following with
  | nil => exact hfollowing [] [] rfl .nil
  | @kept position e args handed names front hwants _ ih =>
    have hrest := ih (fun table e he => hdeclared table e (List.mem_cons_of_mem _ he))
      (f := fun values => f (0 :: values)) fun values table hnames hstands =>
        hfollowing _ table hnames (.kept hwants hstands)
    rw [Runner.arguments, bind_assoc, hwants]
    exact hrest
  | @declared position e args handed names front name hwants _ ih =>
    rw [Runner.arguments, bind_assoc, hwants, List.append_assoc]
    refine ih (fun table e he name hmem => ?_) fun values table hnames hstands => ?_
    · exact hdeclared table e (List.mem_cons_of_mem _ he) name (List.mem_append_left _ hmem)
    have hfirst := hdeclared table e (List.mem_cons_self ..) name (List.mem_append_right _ (List.mem_singleton_self _))
    rw [bind_assoc]
    refine Tallies.step_right (fun c d hcd => ⟨_, count_unlimited hsteps d, hcd.recount _⟩) ?_
    rw [Runner.run, bind_assoc]
    refine hfirst.bind fun value _ => ?_
    rintro c d ⟨hholds, hsignal⟩
    have hproceed : d.machine.signal = .proceed := by
      rw [hholds.abreast.machine.1]
      exact hsignal
    show side.Answers _ ((if d.machine.signal = .proceed then ctx.sequence runner' following else pure ()) d).1 →
      Tally _ _ _ ((if d.machine.signal = .proceed then ctx.sequence runner' following else pure ()) d)
    rw [if_pos hproceed]
    exact hfollowing (value :: values) ((name, value) :: table) (congrArg (name :: ·) hnames)
      (.declared hwants (List.mem_cons_self ..) (hstands.mono (List.subset_cons_self _ _))) c d hholds

/-! ### The call -/

omit hjob hagree in
/-- A variable with the value of an argument is handed over. -/
theorem tallies_identifier (hreaches : side.Reaches (k + 2) (j + 4)) {name : String} {value : Word}
    (hmem : (name, value) ∈ table) (hhanded : .identifier name ∈ handed) :
    GivesAlike side job.Agrees job.ctx table (pure [value]) ((job.recast program').serving j
      (.expression (.call callee handed)) chain' (.expression (.identifier name))) := by
  refine tallies_serving_next hjob' (.argument hhanded) (fun _ => hreaches.right_of_lt (by omega)) ?_
  rintro i rfl
  have hvalue (c d : Config) (hcd : Config.Holds job.ctx table c d) :
      ∃ d', valueOf name d = (.ok value, d') ∧ Config.Holds job.ctx table c d' := by
    refine ⟨d, ?_, hcd⟩
    rw [valueOf_apply, hcd.values _ hmem]
  refine Tallies.step_right hvalue ?_
  refine Tallies.step_right (fun c d hcd => ⟨_, deepen_unlimited hnesting d, hcd.level_right hnesting _⟩) ?_
  exact fun c d hcd _ => .ok ⟨rfl, hcd⟩

omit hjob hjob' hagree hnesting in
/-- What is handed over has the values that it stands for. -/
theorem tallies_handed {runner' : Runner} {ctx : Context} {agree : Prop} {wants : Nat → Bool} {position : Nat}
    {values : List Word} (h : Expr.Stands wants table position handed values)
    (hidentifier : ∀ name value, (name, value) ∈ table → .identifier name ∈ handed →
      GivesAlike side agree ctx table (pure [value]) (runner' (.expression (.identifier name)))) :
    GivesAlike side agree ctx table (pure values) (runner'.arguments wants position handed) := by
  induction h with
  | nil => exact fun c d hcd _ => .ok ⟨rfl, hcd⟩
  | @kept position e handed values hwants _ ih =>
    have hrest := ih fun name value hmem hhanded => hidentifier name value hmem (List.mem_cons_of_mem _ hhanded)
    rw [Runner.arguments, hwants]
    refine hrest.bind (f := fun values => pure (0 :: values)) fun values values' => ?_
    rintro c d ⟨rfl, hcd⟩ -
    exact .ok ⟨rfl, hcd⟩
  | @declared position handed values name value hwants hmem _ ih =>
    have hrest := ih fun name value hmem hhanded => hidentifier name value hmem (List.mem_cons_of_mem _ hhanded)
    have hfirst := hidentifier name value hmem (List.mem_cons_self ..)
    have hsingle : GivesAlike side agree ctx table (Exec.single (pure [value]))
        (Exec.single (runner' (.expression (.identifier name)))) := by
      refine hfirst.bind fun found found' => ?_
      rintro c d ⟨rfl, hcd⟩ -
      rcases found' with _ | ⟨value, _ | ⟨_, _⟩⟩
      · exact .error _ hcd.abreast.machine
      · exact .ok ⟨rfl, hcd⟩
      · exact .error _ hcd.abreast.machine
    rw [Runner.arguments, hwants]
    refine hrest.bind (f := fun values => Exec.single (pure [value]) >>= fun value => pure (value :: values))
      fun values values' => ?_
    rintro c d ⟨rfl, hcd⟩
    refine hsingle.bind (fun value value' => ?_) c d hcd
    rintro c d ⟨rfl, hcd⟩ -
    exact .ok ⟨rfl, hcd⟩

omit hjob' hnesting in
/-- A call with the same values does the same, if arguments that have to be literals are as they were. -/
theorem walks_apply (ih : Task.AllTallied X job program' side k) (hreaches : side.Reaches k j)
    (hchains : chain.Recast X chain') {hidden : String → Prop}
    (hliterals : ∀ i : Nat, job.ctx.dialect.wantsLiteral callee i = true → handed[i]? = args[i]?) (values : List Word) :
    Walks side job.Agrees job.ctx hidden (List Word)
      (job.ctx.apply (job.serving k (.expression (.call callee args)) chain) callee args values)
      (job.ctx.apply ((job.recast program').serving j (.expression (.call callee handed)) chain') callee handed
        values) := by
  have cong : job.ctx.Evaluates job.ctx (Walks side job.Agrees job.ctx hidden) :=
    Context.walks_evaluates hjob.target fun _ _ => hagree
  unfold Context.apply
  rcases hfind : job.ctx.dialect.find? callee with _ | builtin
  · exact (ih j hreaches hidden _ _ _ _ (.invoke hchains)).walks .callee .callee
  · have hsame : job.ctx.dialect.evaluate job.ctx.setting builtin ⟨values, handed.map .expression⟩ =
        job.ctx.dialect.evaluate job.ctx.setting builtin ⟨values, args.map .expression⟩ := by
      obtain ⟨target, htarget⟩ := hjob.target
      rw [htarget] at hfind hliterals ⊢
      refine target.evaluate_seesLiterals hfind _ fun i hi => ?_
      rw [List.getElem?_map, List.getElem?_map, hliterals i]
      unfold Dialect.wantsLiteral
      rw [hfind]
      exact hi
    dsimp only
    rw [hsame]
    exact cong.bind (cong.builtin hfind _) fun _ => cong.pure _

/-- The call of what was declared, made where the call itself would be after its arguments. -/
theorem tallies_call (ih : Task.AllTallied X job program' side k) (hreaches : side.Reaches (k + 2) (j + 3))
    (hchains : chain.Recast X inner') (hleads : Leads t' chain' (.expression (.call callee handed)) inner')
    (hliterals : ∀ i : Nat, job.ctx.dialect.wantsLiteral callee i = true → handed[i]? = args[i]?) {values : List Word}
    (hstands : Expr.Stands (job.ctx.dialect.wantsLiteral callee) table 0 handed values) :
    Tallies side job.Agrees (Config.Holds job.ctx table)
      (fun results results' c d => results' = results ∧ c.Abreast job.ctx (fun name => name ∈ table.map Prod.fst) d)
      (job.ctx.apply (job.serving k (.expression (.call callee args)) chain) callee args values)
      ((job.recast program').serving j t' chain' (.expression (.call callee handed))) := by
  refine tallies_serving_next hjob' hleads (fun _ => hreaches.right_of_lt (by omega)) ?_
  rintro i rfl
  refine Tallies.step_right (fun c d hcd => ⟨_, deepen_unlimited hnesting d, hcd.level_right hnesting _⟩) ?_
  have hreaches' : side.Reaches k i := hreaches.lower (by omega) (by omega)
  have hhanded : GivesAlike side job.Agrees job.ctx table (pure values)
      (((job.recast program').serving i (.expression (.call callee handed)) inner').arguments
        (job.ctx.dialect.wantsLiteral callee) 0 handed) :=
    tallies_handed hstands fun name value hmem hhanded => tallies_identifier hjob' hnesting hreaches hmem hhanded
  refine hhanded.bind (f := fun values => job.ctx.apply _ callee args values) fun values values' => ?_
  rintro c d ⟨rfl, hcd⟩
  exact walks_apply hjob hagree ih hreaches' hchains hliterals values' c d hcd.abreast

/-- The assignment at the end of the block does what is left of the one that was there. -/
theorem tallies_assignment (hsteps : job.ctx.setting.maxSteps = 0) (ih : Task.AllTallied X job program' side k)
    (hreaches : side.Reaches (k + 2) (j + 2)) (hchains : chain.Recast X (.block b :: chain')) {targets : List String}
    (hmem : .assignment targets (.call callee handed) ∈ b.statements)
    (hliterals : ∀ i : Nat, job.ctx.dialect.wantsLiteral callee i = true → handed[i]? = args[i]?) {values : List Word}
    (hstands : Expr.Stands (job.ctx.dialect.wantsLiteral callee) table 0 handed values) :
    Tallies side job.Agrees (Config.Holds job.ctx table)
      (fun _ _ c d => c.Abreast job.ctx (fun name => name ∈ table.map Prod.fst) d)
      (job.ctx.apply (job.serving k (.expression (.call callee args)) chain) callee args values >>= fun results =>
        if results.length ≠ targets.length then
          Exec.fail (.arityMismatch (.ofNat targets.length) (.ofNat results.length) "assignment")
        else Exec.assign (targets.zip results))
      (job.ctx.sequence ((job.recast program').serving j (.block b) chain')
        [.assignment targets (.call callee handed)]) := by
  suffices h : Tallies side job.Agrees (Config.Holds job.ctx table)
      (fun _ _ c d => c.Abreast job.ctx (fun name => name ∈ table.map Prod.fst) d) _
      ((job.recast program').serving j (.block b) chain' (.statement (.assignment targets (.call callee handed)))) by
    intro c d hcd
    rw [sequence_last hsteps]
    exact h.ignoring () c _ (hcd.recount _)
  refine tallies_serving_next hjob' (.item hmem) (fun _ => hreaches.right_of_lt (by omega)) ?_
  rintro i rfl
  refine Tallies.ignoring ?_ []
  let runner' := (job.recast program').serving i (.statement (.assignment targets (.call callee handed)))
    (.block b :: chain')
  show Tallies _ _ _ _ _ ((restart >>= fun _ => runner' (.expression (.call callee handed))) >>= _)
  rw [bind_assoc]
  refine Tallies.step_right (fun c d hcd => ⟨_, rfl, hcd.level_right hnesting _⟩) ?_
  have hleads : Leads (.statement (.assignment targets (.call callee handed))) (.block b :: chain')
      (.expression (.call callee handed)) (.block b :: chain') := .expression (List.mem_singleton_self _)
  have hcall := tallies_call hjob hjob' hagree hnesting ih hreaches hchains hleads hliterals hstands
  refine hcall.bind fun results results' => ?_
  rintro c d ⟨rfl, hcd⟩
  split
  · exact fun _ => .error _ hcd.machine
  · have hassign : Walks side job.Agrees job.ctx (fun name => name ∈ table.map Prod.fst) Unit _ _ :=
      Context.walks_assign hjob.target (fun _ _ => hagree) (targets.zip results')
    exact hassign.mono (fun _ _ => id) (fun _ _ _ _ h => h.2) c d hcd

/-- The value of an assignment of a call and what is done with it, and the statements of the block that is put in
its place. -/
theorem tallies_split (hsteps : job.ctx.setting.maxSteps = 0) (ih : Task.AllTallied X job program' side k)
    (hreaches : side.Reaches (k + 2) (j + 2)) (hchains : chain.Recast X (.block b :: chain'))
    {targets names : List String} {front : List Statement}
    (hsplit : Expr.Split (job.dialect.wantsLiteral callee) 0 args names front handed)
    (hb : b.statements = front ++ [.assignment targets (.call callee handed)]) :
    Tallies side job.Agrees (Config.Abreast job.ctx fun _ => False)
      (fun _ _ c d => c.Abreast job.ctx (fun name => name ∈ names) d)
      ((job.serving (k + 1) (.statement (.assignment targets (.call callee args))) chain).statement
        (.assignment targets (.call callee args)))
      (job.ctx.sequence ((job.recast program').serving j (.block b) chain') b.statements) := by
  have hdialect := hjob.agrees hagree
  rw [← hdialect] at hsplit
  let runner := job.serving (k + 1) (.statement (.assignment targets (.call callee args))) chain
  refine Tallies.mono ?_ (fun _ _ => Config.Holds.start) fun _ _ _ _ => id
  show Tallies _ _ _ _ ((restart >>= fun _ => runner (.expression (.call callee args))) >>= _) _
  rw [bind_assoc]
  refine Tallies.step_left (fun c d hcd => ⟨_, rfl, hcd.level_left hnesting _⟩) ?_
  refine tallies_serving_left hjob (.expression (List.mem_singleton_self _)) ?_
  let inner := job.serving k (.expression (.call callee args)) chain
  show Tallies _ _ _ _ ((deepen job.ctx >>= fun _ =>
    inner.arguments (job.ctx.dialect.wantsLiteral callee) 0 args >>= fun values =>
      job.ctx.apply inner callee args values) >>= _) _
  rw [bind_assoc]
  refine Tallies.step_left (fun c d hcd => ⟨_, deepen_unlimited hnesting c, hcd.level_left hnesting _⟩) ?_
  have hmem {s : Statement} (hs : s ∈ front ++ [.assignment targets (.call callee handed)]) : s ∈ b.statements :=
    hb ▸ hs
  rw [bind_assoc, hb]
  refine tallies_front hsteps hsplit (fun table e he name hs => ?_) fun values table hnames hstands => ?_
  · exact tallies_declaration hjob hjob' hagree hnesting ih hreaches hchains he (hmem (List.mem_append_left _ hs))
  · rw [← hnames]
    exact tallies_assignment hjob hjob' hagree hnesting hsteps ih hreaches hchains
      (hmem (List.mem_append_right _ (List.mem_singleton_self _)))
      (fun i hi => hsplit.literals i (by rwa [Nat.zero_add])) hstands

end Runs

/-! ### Whole runs -/

namespace Statement.Split
variable {job : Job} {program' : Block} {side : Side} {chain chain' : Chain} {n m : Nat} {taken : List String}

/-- An assignment of a call and the block that was put in its place. -/
theorem tallied {X : Statement → Statement → Prop} (hjob : job.Valid) (hjob' : (job.recast program').Valid)
    (hagree : job.Agrees) (hnesting : job.ctx.setting.maxNesting = 0) (hsteps : job.ctx.setting.maxSteps = 0)
    (hall : ∀ k ≤ n, Task.AllTallied X job program' side k) {s t : Statement} (h : Split job.dialect taken s t)
    (hreaches : side.Reaches (n + 1) m) (hchains : chain.Recast X chain') :
    Task.Tallied job program' side (n + 1) m (fun _ => False) (.statement s) chain (.statement t) chain' := by
  cases h with
  | @assignment targets names callee args handed front b hsplit _ _ _ hb =>
    have hnone := functions_eq_nil hb hsplit.front_functions
    refine Task.tallied_inner hreaches ?_
    rintro j rfl
    rcases n with _ | k
    · cases side with
      | left => exact fun _ _ _ _ _ _ _ hanswers => absurd rfl hanswers
      | right => exact absurd hreaches (by simp only [Side.Reaches]; omega)
    refine Task.tallied_succ hjob hjob' fun c d visible visible' hready hready' hcd => tally_yielding fun hanswers => ?_
    have hwalks := tallies_split hjob hjob' hagree hnesting hsteps (hall k (Nat.le_succ k)) hreaches
      (.right hnone hchains) hsplit hb
    obtain ⟨o, e, hopens, hrun, hsheds⟩ := hready'.block_unit hjob' (serving_serves hjob' _ _ j)
    rw [show (job.recast program').ctx.block _ b (pure ()) d = _ from hrun] at hanswers ⊢
    have htally := hwalks _ _ (hcd.opens_right hopens) hanswers
    have hregion : (Region.block b).Checked job.dialect visible' := hready'.fits.1
    refine (htally.mono fun _ _ _ _ h => ⟨rfl, h⟩).sheds rfl hsheds.machine (fun a ha => ?_) (fun _ _ => hsheds)
      hcd.mem_iff fun name hname => ?_
    · -- An assignment binds nothing.
      have hseated := hready.seated hjob (k + 2)
      have hdone := (perform_meets hjob (k + 2) hready).goes.2
      have hperform : job.ctx.perform (k + 2) (.statement (.assignment targets (.call callee args))) c =
          Context.yielding _ c := hready.perform_succ hjob (k + 1)
      rw [hperform, Context.yielding_apply] at hseated hdone
      rw [ha] at hdone
      exact hready.poised.shows.sheds hdone.1 hseated
    · refine mt (hcd.mem_iff name).mpr (hregion.apart hready'.poised.shows name ?_)
      show name ∈ b.statements.flatMap Statement.names
      rw [hb, List.flatMap_append]
      exact List.mem_append_left _ ((hsplit.mem_front name).mpr hname)

theorem replaces (dialect : Dialect) (taken : List String) :
    Statement.Replaces dialect taken (Split dialect taken) where
  neutral _ _ := neutral
  sound _ _ h _ _ hframes _ := h.sound hframes

theorem exchanges (hjob : job.Valid) (hjob' : (job.recast program').Valid) (hagree : job.Agrees)
    (hnesting : job.ctx.setting.maxNesting = 0) (hsteps : job.ctx.setting.maxSteps = 0) (taken : List String) :
    Statement.Exchanges (Split job.dialect taken) job program' where
  neutral _ _ := neutral
  tallied _ _ hall _ _ h _ _ _ := h.tallied hjob hjob' hagree hnesting hsteps hall

end Statement.Split

/-- In a program that is valid for the target of some options, assignments of calls may be replaced by blocks in which
the arguments are declared first, from right to left, under names that the program declares nowhere and that are no
builtins; arguments that have to be literals stay. The program is valid for this target again and, run with such
options without a limit on steps and on nesting, it ends just when it did before, in the same way, with the same
variables, the same trace and the same stores. Which names are builtins, and which arguments have to be literals, is
for the target to say. -/
theorem split_assignments_run_alike {options : Options} {doc doc' : Option Json} {program program' : Block}
    (hvalid : Validation.validate options.target doc = .ok program)
    (hread' : Validation.readProgram doc' = .ok program')
    (hsplit : Node.Recast (Statement.Split options.target.dialect program.declared) (.block program)
      (.block program')) :
    Validation.validate options.target doc' = .ok program' ∧
      (options.setting.maxSteps = 0 → options.setting.maxNesting = 0 →
        ∀ opts : Option Json, Options.resolve opts = .ok options →
          Alike (Report.Beside (fun _ _ => True) fun table table' => table' = table)
            (fun depth => interpret depth program opts) fun depth => interpret depth program' opts) := by
  have hscoped := (issues_eq_nil_iff_wellScoped _ _).mp (validate_eq_ok_iff.mp hvalid).2
  have hscoped' := hsplit.wellScoped (Statement.Split.replaces options.target.dialect program.declared) hscoped
  have hvalid' : Validation.validate options.target doc' = .ok program' :=
    validate_eq_ok_iff.mpr ⟨hread', (issues_eq_nil_iff_wellScoped _ _).mpr hscoped'⟩
  refine ⟨hvalid', fun hsteps hnesting opts hoptions => ?_⟩
  have hjob : (Run.job options.target program options True).Valid := Run.job_valid hvalid fun _ => rfl
  have hjob' : (Run.job options.target program' options True).Valid := Run.job_valid hvalid' fun _ => rfl
  have hexchanges := Statement.Split.exchanges hjob hjob' trivial hnesting hsteps program.declared
  exact hsplit.alike hjob hjob' hexchanges hoptions rfl hsteps

/-! ### A sample -/

namespace Sample

/-- A variable and an assignment of a call of `both`, which has two parameters. -/
def assigning (assignment : Place → Statement) : Block :=
  ⟨[], [.function ⟨"both", ["m", "n"], ["r"], ⟨Place.field (Place.item [] "statements" 0) "body",
      [.assignment ["r"] (.call "add" [.identifier "m", .identifier "n"])]⟩⟩,
    .declaration ["x"] none, assignment (Place.item [] "statements" 2)]⟩

/-- The call has calls for its arguments. -/
def nested : Block := assigning fun _ =>
  .assignment ["x"] (.call "both" [.call "calldatasize" [], .call "sload" [.literal ⟨.number, "1"⟩]])

/-- The arguments are declared before the call. -/
def sequenced : Block := assigning fun place => .block ⟨place,
  [.declaration ["b"] (some (.call "sload" [.literal ⟨.number, "1"⟩])),
    .declaration ["a"] (some (.call "calldatasize" [])),
    .assignment ["x"] (.call "both" [.identifier "a", .identifier "b"])]⟩

theorem nested_valid : Validation.validate .evm (some nested.toJson) = .ok nested := by
  have hread : Validation.readProgram (some nested.toJson) = .ok nested := by
    with_unfolding_all rfl
  exact validate_eq_ok_iff.mpr ⟨hread, rfl⟩

theorem sequenced_read : Validation.readProgram (some sequenced.toJson) = .ok sequenced := by
  with_unfolding_all rfl

theorem nested_split :
    Node.Recast (Statement.Split Target.evm.dialect nested.declared) (.block nested) (.block sequenced) := by
  refine .block [(_, _), (_, _), (_, _)] rfl rfl (List.forall_mem_cons.mpr ⟨?_, List.forall_mem_cons.mpr ⟨.plain rfl,
    List.forall_mem_singleton.mpr (.replaced ?_)⟩⟩)
  · exact .function rfl rfl rfl (.block [(_, _)] rfl rfl (List.forall_mem_singleton.mpr (.plain rfl)))
  · exact .assignment (.declared rfl (.declared rfl .nil)) (by decide) (by decide) (by decide) rfl

end Sample

theorem split_assignments_run_alike_sample :
    Validation.validate .evm (some Sample.sequenced.toJson) = .ok Sample.sequenced ∧
      Alike (Report.Beside (fun _ _ => True) fun table table' => table' = table)
        (fun depth => interpret depth Sample.nested none) fun depth => interpret depth Sample.sequenced none := by
  have hvalid : Validation.validate Sample.options.target (some Sample.nested.toJson) = .ok Sample.nested :=
    Sample.nested_valid
  obtain ⟨hvalid', hruns⟩ := split_assignments_run_alike hvalid Sample.sequenced_read Sample.nested_split
  exact ⟨hvalid', hruns rfl rfl none Sample.options_resolved⟩

end BlockIR
