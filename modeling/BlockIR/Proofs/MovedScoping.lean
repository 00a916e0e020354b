import BlockIR.Proofs.Moved
import BlockIR.Validation

/-! Moving function definitions keeps programs well scoped.

What the rules ask about the functions around a node does not depend on where
they stand in their blocks (`Frames.Alike`). What they ask about variables does
depend on what is declared before the node; for nodes that are no function
definitions that has not changed, and the name of a function is not that of a
variable declared anywhere in its block, because of the rule of that variable.
So each node of the one program has a partner in the other one that keeps the
same rule (`Site.Moved.rule`, `Site.Moved.part`). -/
namespace BlockIR

/-- What the rules ask about a function. -/
def FunctionDefinition.heading (f : FunctionDefinition) : String × Signature := (f.name, f.signature)

/-! ### Parts of moved blocks -/

namespace Node.Moved
variable {K : BlockId → BlockId → Prop} {b b' : Block}

theorem names {s t : Statement} (h : Moved K (.statement s) (.statement t)) : t.names = s.names := by
  cases h <;> rfl

theorem heading {f g : FunctionDefinition} (h : Moved K (.statement (.function f)) (.statement (.function g))) :
    g.heading = f.heading := by
  cases h with
  | function hname hparams hreturns _ =>
    simp only [FunctionDefinition.heading, FunctionDefinition.signature, hname, hparams, hreturns]

theorem headings (h : Moved K (.block b) (.block b')) :
    (b'.functions.map FunctionDefinition.heading).Perm (b.functions.map FunctionDefinition.heading) := by
  cases h with
  | block functions _ _ hfunctions hfunctions' _ _ hsame _ =>
    have hheadings : (functions.map Prod.snd).map FunctionDefinition.heading =
        (functions.map Prod.fst).map FunctionDefinition.heading := by
      rw [List.map_map, List.map_map]
      exact List.map_congr_left fun q hq => (hsame q hq).heading
    exact (hfunctions'.map _).symm.trans (hheadings ▸ hfunctions.map _)

theorem function_names (h : Moved K (.block b) (.block b')) :
    (b'.functions.map FunctionDefinition.name).Perm (b.functions.map FunctionDefinition.name) := by
  have hnames := h.headings.map Prod.fst
  rwa [List.map_map, List.map_map] at hnames

theorem no_functions (h : Moved K (.block b) (.block b')) (hnone : b.functions = []) : b'.functions = [] := by
  have hnames := h.function_names
  rw [hnone] at hnames
  exact List.map_eq_nil_iff.mp hnames.eq_nil

theorem function_part (h : Moved K (.block b) (.block b')) {g : FunctionDefinition} (hg : g ∈ b'.functions) :
    ∃ f ∈ b.functions, Moved K (.statement (.function f)) (.statement (.function g)) := by
  cases h with
  | block functions _ _ hfunctions hfunctions' _ _ hsame _ =>
    obtain ⟨q, hq, rfl⟩ := List.mem_map.mp (hfunctions'.mem_iff.mpr hg)
    exact ⟨q.1, hfunctions.mem_iff.mp (List.mem_map_of_mem hq), hsame q hq⟩

end Node.Moved

theorem Statement.flatMap_names_others (statements : List Statement) :
    (Statement.others statements).flatMap Statement.names = statements.flatMap Statement.names := by
  induction statements with
  | nil => rfl
  | cons s rest ih =>
    rcases Statement.cons_cases s rest with ⟨f, rfl⟩ | ⟨hothers, -⟩
    · exact ih
    · rw [hothers, List.flatMap_cons, List.flatMap_cons, ih]

/-- What comes before and after one of the other statements. -/
theorem Statement.others_split {statements first rest : List Statement} {s : Statement}
    (h : Statement.others statements = first ++ s :: rest) :
    ∃ earlier later, statements = earlier ++ s :: later ∧ Statement.others earlier = first := by
  obtain ⟨earlier, more, rfl, hfirst, hmore⟩ := List.filter_eq_append_iff.mp h
  obtain ⟨functions, later, rfl, hfunctions, -, -⟩ := List.filter_eq_cons_iff.mp hmore
  refine ⟨earlier ++ functions, later, (List.append_assoc _ _ _).symm, ?_⟩
  have hnone : Statement.others functions = [] := List.filter_eq_nil_iff.mpr hfunctions
  rw [Statement.others_append, hnone, List.append_nil]
  exact hfirst

/-- A statement that is no function definition has a partner, before which the same is declared. -/
theorem Node.Moved.other_part {K : BlockId → BlockId → Prop} {b b' : Block} (h : Moved K (.block b) (.block b'))
    {earlier later : List Statement} {t : Statement} (hsplit : b'.statements = earlier ++ t :: later)
    (hother : ∀ g, t ≠ .function g) :
    ∃ before after s, b.statements = before ++ s :: after ∧ Moved K (.statement s) (.statement t) ∧
      earlier.flatMap Statement.names = before.flatMap Statement.names := by
  cases h with
  | block _ others _ _ _ hothers hothers' _ hsame =>
    have hall : others.map Prod.snd = Statement.others earlier ++ t :: Statement.others later := by
      rcases Statement.cons_cases t later with ⟨g, rfl⟩ | ⟨hcons, -⟩
      · exact absurd rfl (hother g)
      · rw [hothers', Block.others, hsplit, Statement.others_append, hcons]
    obtain ⟨first, more, rfl, hfirst, hmore⟩ := List.map_eq_append_iff.mp hall
    obtain ⟨q, rest, rfl, rfl, -⟩ := List.map_eq_cons_iff.mp hmore
    rw [List.map_append, List.map_cons] at hothers
    obtain ⟨before, after, hbefore, hcut⟩ := Statement.others_split hothers.symm
    refine ⟨before, after, q.1, hbefore, hsame q (by simp), ?_⟩
    rw [← Statement.flatMap_names_others earlier, ← Statement.flatMap_names_others before, hcut, ← hfirst,
      List.flatMap_map, List.flatMap_map]
    exact List.flatMap_congr fun q hq => (hsame q (List.mem_append_left _ hq)).names

/-- The blocks declare the same variables. -/
theorem Node.Moved.block_names {K : BlockId → BlockId → Prop} {b b' : Block} (h : Moved K (.block b) (.block b')) :
    b'.statements.flatMap Statement.names = b.statements.flatMap Statement.names := by
  cases h with
  | block _ others _ _ _ hothers hothers' _ hsame =>
    rw [← Statement.flatMap_names_others b'.statements, ← Statement.flatMap_names_others b.statements]
    show b'.others.flatMap Statement.names = b.others.flatMap Statement.names
    rw [← hothers, ← hothers', List.flatMap_map, List.flatMap_map]
    exact List.flatMap_congr fun q hq => (hsame q hq).names

/-! ### Frames -/

/-- Frames with the same functions around, wherever these stand. Where a loop or a function can be left
in the first ones, one can be in the second ones. -/
structure Frames.Alike (frames frames' : Frames) : Prop where
  functions : (frames'.functions.map FunctionDefinition.heading).Perm
    (frames.functions.map FunctionDefinition.heading)
  inLoopBody : frames.InLoopBody → frames'.InLoopBody
  inFunction : frames.InFunction → frames'.InFunction

namespace Frames.Alike
variable {frames frames' : Frames} {dialect : Dialect}

theorem refl (frames : Frames) : frames.Alike frames := ⟨.rfl, id, id⟩

theorem block (h : frames.Alike frames') {b b' : Block}
    (hheadings : (b'.functions.map FunctionDefinition.heading).Perm (b.functions.map FunctionDefinition.heading))
    (before before' : List Statement) : Alike (.block b before :: frames) (.block b' before' :: frames') where
  functions := by
    show ((b'.functions ++ frames'.functions).map FunctionDefinition.heading).Perm
      ((b.functions ++ frames.functions).map FunctionDefinition.heading)
    rw [List.map_append, List.map_append]
    exact hheadings.append h.functions
  inLoopBody := h.inLoopBody
  inFunction := by simpa [InFunction] using h.inFunction

theorem loop (h : frames.Alike frames') (before before' : List Statement) :
    Alike (.loop before :: frames) (.loop before' :: frames') where
  functions := h.functions
  inLoopBody := id
  inFunction := by simpa [InFunction] using h.inFunction

theorem rounds (h : frames.Alike frames') : Alike (.rounds :: frames) (.rounds :: frames') where
  functions := h.functions
  inLoopBody := id
  inFunction := by simpa [InFunction] using h.inFunction

theorem function (h : frames.Alike frames') (f g : FunctionDefinition) :
    Alike (.function f :: frames) (.function g :: frames') where
  functions := h.functions
  inLoopBody := id
  inFunction := by simp [InFunction]

/-- A block without functions around the second place makes no difference. -/
theorem enter (h : frames.Alike frames') {b : Block} (hnone : b.functions = []) (before : List Statement) :
    Alike frames (.block b before :: frames') where
  functions := by
    show ((b.functions ++ frames'.functions).map FunctionDefinition.heading).Perm _
    rw [hnone]
    exact h.functions
  inLoopBody := h.inLoopBody
  inFunction hin := by simpa [InFunction] using h.inFunction hin

/-- A function around one place has a partner around the other. -/
theorem partner (h : frames.Alike frames') {f : FunctionDefinition} (hf : f ∈ frames.functions) :
    ∃ g ∈ frames'.functions, g.heading = f.heading := by
  obtain ⟨g, hg, hsame⟩ := List.mem_map.mp (h.functions.mem_iff.mpr (List.mem_map_of_mem hf))
  exact ⟨g, hg, hsame⟩

theorem partner' (h : frames.Alike frames') {g : FunctionDefinition} (hg : g ∈ frames'.functions) :
    ∃ f ∈ frames.functions, f.heading = g.heading := by
  obtain ⟨f, hf, hsame⟩ := List.mem_map.mp (h.functions.mem_iff.mp (List.mem_map_of_mem hg))
  exact ⟨f, hf, hsame⟩

/-! Rules that depend on the functions around. -/

theorem yields (h : frames.Alike frames') {count : Nat} {e : Expr} (hyields : e.Yields dialect frames count) :
    e.Yields dialect frames' count := by
  cases e with
  | call name args =>
    simp only [Expr.Yields] at hyields ⊢
    rcases hfind : dialect.find? name with _ | builtin <;> rw [hfind] at hyields
    · obtain ⟨f, hf, hname, hreturns⟩ := hyields
      obtain ⟨g, hg, hheading⟩ := h.partner hf
      obtain ⟨hsame, hsignature⟩ := Prod.mk.inj hheading
      exact ⟨g, hg, hsame.trans hname, (congrArg Signature.returns hsignature).trans hreturns⟩
    · exact hyields
  | _ => exact hyields

theorem takes (h : frames.Alike frames') {name : String} {count : Nat} (htakes : frames.Takes dialect name count) :
    frames'.Takes dialect name count := by
  unfold Takes at htakes ⊢
  rcases hfind : dialect.find? name with _ | builtin <;> rw [hfind] at htakes
  · obtain ⟨f, hf, hname, hparams⟩ := htakes
    obtain ⟨g, hg, hheading⟩ := h.partner hf
    obtain ⟨hsame, hsignature⟩ := Prod.mk.inj hheading
    exact ⟨g, hg, hsame.trans hname, (congrArg Signature.params hsignature).trans hparams⟩
  · exact htakes

theorem argumentRule (h : frames.Alike frames') {callee : String} {position : Nat} {e : Expr}
    (hrule : e.ArgumentRule dialect frames callee position) : e.ArgumentRule dialect frames' callee position := by
  unfold Expr.ArgumentRule at hrule ⊢
  split
  · rename_i hwants
    rwa [if_pos hwants] at hrule
  · rename_i hwants
    rw [if_neg hwants] at hrule
    exact h.yields hrule

theorem free (h : frames.Alike frames') {vars vars' : List String} {name : String} (hvars : name ∉ vars')
    (hfree : Free dialect vars frames.functions name) : Free dialect vars' frames'.functions name where
  builtin := hfree.builtin
  unbound := hvars
  function g hg := by
    obtain ⟨f, hf, hheading⟩ := h.partner' hg
    exact fun hname => hfree.function f hf ((Prod.mk.inj hheading).1.trans hname)

end Frames.Alike

/-! ### Sites -/

/-- A node and the one that it was moved to. A function definition has other variables before it, of
which none may have its name; any other node has the same. -/
inductive Site.Moved (K : BlockId → BlockId → Prop) : Site → Site → Prop
  | function {frames frames' : Frames} {f g : FunctionDefinition} : frames.Alike frames' →
    Frames.Alike frames.tail frames'.tail → g.name ∉ frames'.vars →
      Node.Moved K (.statement (.function f)) (.statement (.function g)) →
        Moved K ⟨frames, .statement (.function f)⟩ ⟨frames', .statement (.function g)⟩
  | other {frames frames' : Frames} {n n' : Node} : frames.Alike frames' → frames'.vars = frames.vars →
    (∀ g, n' ≠ .statement (.function g)) → Node.Moved K n n' → Moved K ⟨frames, n⟩ ⟨frames', n'⟩

theorem Case.words_eq (cases : List Case) : cases.filterMap Case.word? =
    (cases.map Case.value).filterMap fun value => value.bind fun l => l.value.toOption := by
  rw [List.filterMap_map]
  rfl

/-- The rule of cases is about their values, which can be in any order with the default last. -/
theorem Case.Rule.perm {cases cases' : List Case} (h : Case.Rule cases)
    (hvalues : (cases'.map Case.value).Perm (cases.map Case.value))
    (hlast : ∀ c ∈ cases'.dropLast, c.value ≠ none) : Case.Rule cases' where
  literals c hc := by
    have hmem : c.value ∈ cases.map Case.value := hvalues.mem_iff.mp (List.mem_map_of_mem hc)
    obtain ⟨d, hd, hsame⟩ := List.mem_map.mp hmem
    exact hsame ▸ h.literals d hd
  distinct := by
    have hdistinct := h.distinct
    rw [Case.words_eq] at hdistinct ⊢
    exact (hvalues.filterMap _).nodup_iff.mpr hdistinct
  last := hlast

theorem Case.Rule.congr {cases cases' : List Case} (h : Case.Rule cases)
    (hvalues : cases'.map Case.value = cases.map Case.value) : Case.Rule cases' := by
  refine h.perm (.of_eq hvalues) fun c hc => ?_
  have hmem : c.value ∈ cases.dropLast.map Case.value := by
    rw [List.map_dropLast, ← hvalues, ← List.map_dropLast]
    exact List.mem_map_of_mem hc
  obtain ⟨d, hd, hsame⟩ := List.mem_map.mp hmem
  exact hsame ▸ h.last d hd

namespace Site.Moved
variable {K : BlockId → BlockId → Prop} {dialect : Dialect} {site site' : Site}

/-- A node that is moved keeps its rule. -/
theorem rule (h : site.Moved K site') (hrule : site.Rule dialect) : site'.Rule dialect := by
  cases h with
  | function halike htail hname hmoved =>
    obtain ⟨hfree, hdistinct, hlocals⟩ := hrule
    cases hmoved with
    | function hsame hparams hreturns _ =>
      rw [← hsame] at hfree
      rw [← hparams, ← hreturns] at hdistinct hlocals
      exact ⟨htail.free hname hfree, hdistinct, fun x hx => halike.free (by simp) (hlocals x hx)⟩
  | @other frames frames' _ _ halike hvars hother hmoved =>
    have hwhole := hmoved
    cases hmoved with
    | expression e =>
      cases e with
      | literal l => exact hrule
      | identifier name =>
        show name ∈ frames'.vars
        rw [hvars]
        exact hrule
      | call name args => exact ⟨halike.takes hrule.1, fun arg harg => halike.argumentRule (hrule.2 arg harg)⟩
    | block => exact hwhole.function_names.nodup_iff.mpr hrule
    | evaluation e => exact halike.yields hrule
    | assignment targets e => exact ⟨halike.yields hrule.1, hrule.2.1, hvars.symm ▸ hrule.2.2⟩
    | declaration names value =>
      obtain ⟨hyields, hdistinct, hfree⟩ := hrule
      refine ⟨fun e he => halike.yields (hyields e he), hdistinct, fun name hname => ?_⟩
      exact halike.free (hvars.symm ▸ (hfree name hname).unbound) (hfree name hname)
    | conditional condition _ => exact halike.yields hrule
    | switch scrutinee cases hvalues _ =>
      refine ⟨halike.yields hrule.1, hrule.2.congr ?_⟩
      rw [List.map_map, List.map_map]
      exact List.map_congr_left hvalues
    | function _ _ _ _ => exact absurd rfl (hother _)
    | loop hcondition hinit _ _ =>
      refine ⟨hinit.no_functions hrule.1, ?_⟩
      rw [hcondition]
      exact (halike.loop _ _).yields hrule.2
    | breakLoop => exact halike.inLoopBody hrule
    | continueLoop => exact halike.inLoopBody hrule
    | leave => exact halike.inFunction hrule
    | inner _ => trivial

/-- The name of a variable that is declared is free where it is declared. -/
theorem names_free {frames : Frames} {s : Statement} (hrule : s.Rule dialect frames) {name : String}
    (hname : name ∈ s.names) : Free dialect frames.vars frames.functions name := by
  cases s with
  | declaration names value => exact hrule.2.2 name hname
  | _ => cases hname

/-- A statement of a moved block was moved there from the statement that it was before. -/
theorem block_part {frames frames' : Frames} {b b' : Block} (halike : frames.Alike frames')
    (hvars : frames'.vars = frames.vars) (hmoved : Node.Moved K (.block b) (.block b'))
    (hsound : Site.Sound dialect ⟨frames, .block b⟩) {part' : Site} (hpart : part' ∈ b'.parts frames') :
    ∃ part ∈ b.parts frames, part.Moved K part' := by
  obtain ⟨earlier, t, later, hsplit, rfl⟩ := Statement.mem_sites_iff.mp hpart
  have other {earlier later : List Statement} {t : Statement} (hsplit : b'.statements = earlier ++ t :: later)
      (hother : ∀ g, t ≠ .function g) : ∃ before s, ⟨.block b before :: frames, .statement s⟩ ∈ b.parts frames ∧
        Node.Moved K (.statement s) (.statement t) ∧
        earlier.flatMap Statement.names = before.flatMap Statement.names := by
    obtain ⟨before, after, s, hbefore, hsame, hnames⟩ := hmoved.other_part hsplit hother
    exact ⟨before, s, Statement.mem_sites_iff.mpr ⟨before, s, after, hbefore, rfl⟩, hsame, hnames⟩
  by_cases hfunction : ∃ g, t = .function g
  · obtain ⟨g, rfl⟩ := hfunction
    have hg : g ∈ b'.functions := Statement.mem_functions.mpr (by rw [hsplit]; simp)
    obtain ⟨f, hf, hsame⟩ := hmoved.function_part hg
    obtain ⟨before, hsite⟩ := Statement.mem_sites (fun before => .block b before :: frames) []
      (Statement.mem_functions.mp hf)
    have hname : g.name = f.name := congrArg Prod.fst hsame.heading
    refine ⟨_, hsite, .function (halike.block hmoved.headings _ _) halike (fun hbound => ?_) hsame⟩
    rw [hname] at hbound
    rcases List.mem_append.mp hbound with hbound | hbound
    · -- A variable that is declared in the block has another name than each of its functions.
      obtain ⟨t, ht, hdeclared⟩ := List.mem_flatMap.mp hbound
      obtain ⟨front, back, rfl⟩ := List.append_of_mem ht
      rw [List.append_assoc, List.cons_append] at hsplit
      have hother : ∀ g, t ≠ .function g := by
        rintro g rfl
        cases hdeclared
      obtain ⟨_, s, hsite', hsame', -⟩ := other hsplit hother
      have hrule : s.Rule dialect _ := hsound _ (.single hsite')
      exact (names_free hrule (hsame'.names ▸ hdeclared)).function f (List.mem_append_left _ hf) rfl
    · have hrule : (Statement.function f).Rule dialect _ := hsound _ (.single hsite)
      exact hrule.1.unbound (List.mem_append_right _ (hvars ▸ hbound))
  · have hother : ∀ g, t ≠ .function g := fun g h => hfunction ⟨g, h⟩
    obtain ⟨before, s, hsite, hsame, hnames⟩ := other hsplit hother
    refine ⟨_, hsite, .other (halike.block hmoved.headings _ _) (congrArg₂ List.append hnames hvars) (fun g h => ?_) hsame⟩
    exact hother g (Node.statement.inj h)

/-- What stands in a moved node was moved there from the node that it was before. -/
theorem part (h : site.Moved K site') (hsound : site.Sound dialect) {part' : Site}
    (hpart : part' ∈ site'.parts dialect) :
    ∃ part ∈ site.parts dialect, part.Moved K part' := by
  cases h with
  | @function frames frames' f g halike htail hname hmoved =>
    obtain rfl := List.mem_singleton.mp hpart
    cases hmoved with
    | function _ hparams hreturns hbody =>
      refine ⟨_, List.mem_singleton_self _, .other (halike.function f g) ?_ nofun hbody⟩
      show g.params ++ g.returns = f.params ++ f.returns
      rw [hparams, hreturns]
  | @other frames frames' _ _ halike hvars hother hmoved =>
    have hwhole := hmoved
    -- The expressions and blocks of a statement stand where the statement stands.
    have inside {n n' : Node} (hn : ∀ g, n' ≠ .statement (.function g)) (hmoved : Node.Moved K n n') :
        Site.Moved K ⟨frames, n⟩ ⟨frames', n'⟩ := .other halike hvars hn hmoved
    cases hmoved with
    | expression e =>
      cases e with
      | call name args =>
        obtain ⟨arg, harg, rfl⟩ := List.mem_map.mp hpart
        exact ⟨_, List.mem_map_of_mem harg, inside nofun (.expression arg)⟩
      | _ => cases hpart
    | block => exact block_part halike hvars hwhole hsound hpart
    | evaluation e =>
      obtain rfl := List.mem_singleton.mp hpart
      exact ⟨_, List.mem_singleton_self _, inside nofun (.expression e)⟩
    | assignment targets e =>
      obtain rfl := List.mem_singleton.mp hpart
      exact ⟨_, List.mem_singleton_self _, inside nofun (.expression e)⟩
    | declaration names value =>
      obtain ⟨e, he, rfl⟩ := List.mem_map.mp hpart
      exact ⟨_, List.mem_map_of_mem he, inside nofun (.expression e)⟩
    | conditional condition hbody =>
      rcases List.mem_pair.mp hpart with rfl | rfl
      · exact ⟨_, List.mem_cons_self .., inside nofun (.expression condition)⟩
      · exact ⟨_, List.mem_cons_of_mem _ (List.mem_singleton_self _), inside nofun hbody⟩
    | switch scrutinee cases hvalues hbodies =>
      rcases List.mem_cons.mp hpart with rfl | hpart
      · exact ⟨_, List.mem_cons_self .., inside nofun (.expression scrutinee)⟩
      · rw [List.map_map] at hpart
        obtain ⟨q, hq, rfl⟩ := List.mem_map.mp hpart
        refine ⟨_, List.mem_cons_of_mem _ (List.mem_map_of_mem (List.mem_map_of_mem hq)), inside nofun (hbodies q hq)⟩
    | function _ _ _ _ => exact absurd rfl (hother _)
    | @loop l m hcondition hinit hbody hpost =>
      have hfunctions := hinit.no_functions (hsound _ .refl).1
      have hinner : Frames.vars (.loop m.init.statements :: frames') =
          Frames.vars (.loop l.init.statements :: frames) :=
        congrArg₂ List.append hinit.block_names hvars
      have halike' := halike.loop l.init.statements m.init.statements
      rcases List.mem_append.mp hpart with hpart | hpart
      · obtain ⟨earlier, t, later, hsplit, rfl⟩ := Statement.mem_sites_iff.mp hpart
        have hother' : ∀ g, t ≠ .function g := by
          rintro g rfl
          have hmem : g ∈ m.init.functions := Statement.mem_functions.mpr (hsplit ▸ by simp)
          rw [hfunctions] at hmem
          cases hmem
        obtain ⟨before, after, s, hbefore, hsame, hnames⟩ := hinit.other_part hsplit hother'
        refine ⟨_, List.mem_append_left _ (Statement.mem_sites_iff.mpr ⟨before, s, after, hbefore, rfl⟩),
          .other (halike.loop _ _) (congrArg₂ List.append hnames hvars) (fun g h => ?_) hsame⟩
        exact hother' g (Node.statement.inj h)
      · simp only [List.mem_cons, List.not_mem_nil, or_false] at hpart
        rcases hpart with rfl | rfl | rfl
        · refine ⟨_, List.mem_append_right _ (List.mem_cons_self ..), .other halike' hinner nofun ?_⟩
          rw [hcondition]
          exact .expression l.condition
        · exact ⟨_, List.mem_append_right _ (.tail _ (.head _)), .other halike'.rounds hinner nofun hbody⟩
        · exact ⟨_, List.mem_append_right _ (.tail _ (.tail _ (.head _))), .other halike' hinner nofun hpost⟩
    | breakLoop => cases hpart
    | continueLoop => cases hpart
    | leave => cases hpart
    | inner hblock =>
      obtain rfl := List.mem_singleton.mp hpart
      exact ⟨_, List.mem_singleton_self _, inside nofun hblock⟩

/-- All that stands in a moved node was moved there. -/
theorem within (h : site.Moved K site') (hsound : site.Sound dialect) {node' : Site}
    (hwithin : site'.Within dialect node') : ∃ node, site.Within dialect node ∧ node.Moved K node' := by
  induction hwithin with
  | refl => exact ⟨site, .refl, h⟩
  | tail _ hpart ih =>
    obtain ⟨node, hnode, hmoved⟩ := ih
    obtain ⟨part, hin, hsame⟩ := hmoved.part (fun inner hinner => hsound inner (hnode.trans hinner)) hpart
    exact ⟨part, hnode.tail hin, hsame⟩

theorem sound (h : site.Moved K site') (hsound : site.Sound dialect) : site'.Sound dialect := by
  intro node' hnode'
  obtain ⟨node, hnode, hmoved⟩ := h.within hsound hnode'
  exact hmoved.rule (hsound node hnode)

end Site.Moved

/-- Moving function definitions keeps programs well scoped, and makes none so. -/
theorem Node.Moved.wellScoped_iff {K : BlockId → BlockId → Prop} {program program' : Block}
    (h : Moved K (.block program) (.block program')) (dialect : Dialect) :
    program.WellScoped dialect ↔ program'.WellScoped dialect := by
  have forward {L : BlockId → BlockId → Prop} {b b' : Block} (h : Moved L (.block b) (.block b')) :
      b.WellScoped dialect → b'.WellScoped dialect := by
    have hsites : Site.Moved L ⟨[], .block b⟩ ⟨[], .block b'⟩ := .other (.refl []) rfl nofun h
    exact hsites.sound
  exact ⟨forward h, forward (h.symm (L := fun b a => K a b) fun _ _ => id)⟩

end BlockIR
