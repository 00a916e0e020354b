import BlockIR.Proofs.MovedScoping

/-! Programs with statements replaced.

A program is recast when some of its statements are replaced, each by one that a
relation `X` allows in its place, and everything else is as it was; only the
identities of blocks may be other ones, since a replaced statement moves what
comes after it (`Node.Recast`). What is replaced declares nothing, so every name
means the same on both sides: looking a function up in a lexical chain and in the
chain that came of it finds functions that belong together
(`Chain.Recast.function?`), and a recast program is well scoped as soon as the
replaced statements are sound where they stand (`Node.Recast.sound`). -/
namespace BlockIR

open FunctionDefinition (named?)

/-- The nodes differ in the identities of blocks and in statements that are replaced as `X` says. -/
inductive Node.Recast (X : Statement → Statement → Prop) : Node → Node → Prop
  | replaced {s t : Statement} : X s t → Recast X (.statement s) (.statement t)
  | block {b b' : Block} (statements : List (Statement × Statement)) :
      statements.map Prod.fst = b.statements → statements.map Prod.snd = b'.statements →
      (∀ q ∈ statements, Recast X (.statement q.1) (.statement q.2)) → Recast X (.block b) (.block b')
  /-- A statement that no block stands in. -/
  | plain {s : Statement} : s.regions = [] → Recast X (.statement s) (.statement s)
  | conditional (condition : Expr) {body body' : Block} : Recast X (.block body) (.block body') →
    Recast X (.statement (.conditional condition body)) (.statement (.conditional condition body'))
  | switch (scrutinee : Expr) (cases : List (Case × Case)) : (∀ q ∈ cases, q.2.value = q.1.value) →
    (∀ q ∈ cases, Recast X (.block q.1.body) (.block q.2.body)) →
      Recast X (.statement (.switch scrutinee (cases.map Prod.fst)))
        (.statement (.switch scrutinee (cases.map Prod.snd)))
  | function {f g : FunctionDefinition} : g.name = f.name → g.params = f.params → g.returns = f.returns →
    Recast X (.block f.body) (.block g.body) → Recast X (.statement (.function f)) (.statement (.function g))
  | loop {l m : ForLoop} (front : List (Statement × Statement)) : m.condition = l.condition →
    front.map Prod.fst = l.init.statements → front.map Prod.snd = m.init.statements →
    (∀ q ∈ front, Recast X (.statement q.1) (.statement q.2)) →
    Recast X (.block l.body) (.block m.body) → Recast X (.block l.post) (.block m.post) →
      Recast X (.statement (.loop l)) (.statement (.loop m))
  | inner {b b' : Block} : Recast X (.block b) (.block b') →
    Recast X (.statement (.block b)) (.statement (.block b'))

/-- The same text, whatever the identities of the blocks. -/
abbrev Node.Same : Node → Node → Prop := Node.Recast fun _ _ => False

/-- A statement that declares nothing. -/
structure Statement.Neutral (s : Statement) : Prop where
  names : s.names = []
  function : ∀ f, s ≠ .function f

/-- Functions with the same heading and with bodies that belong together. -/
structure FunctionDefinition.Recast (X : Statement → Statement → Prop) (f g : FunctionDefinition) : Prop where
  name : g.name = f.name
  params : g.params = f.params
  returns : g.returns = f.returns
  body : Node.Recast X (.block f.body) (.block g.body)

theorem FunctionDefinition.Recast.heading {X : Statement → Statement → Prop} {f g : FunctionDefinition}
    (h : f.Recast X g) : g.heading = f.heading := by
  simp only [FunctionDefinition.heading, FunctionDefinition.signature, h.name, h.params, h.returns]

/-- Statements of which both or neither define functions, and functions that belong together. -/
theorem Statement.functions_forall₂ {R : Statement → Statement → Prop}
    {S : FunctionDefinition → FunctionDefinition → Prop}
    (hleft : ∀ f t, R (.function f) t → ∃ g, t = .function g ∧ S f g)
    (hright : ∀ s g, R s (.function g) → ∃ f, s = .function f) {ss ts : List Statement} (h : List.Forall₂ R ss ts) :
    List.Forall₂ S (Statement.functions ss) (Statement.functions ts) := by
  induction h with
  | nil => exact .nil
  | @cons s t ss ts hst _ ih =>
    by_cases hfunction : ∃ f, s = .function f
    · obtain ⟨f, rfl⟩ := hfunction
      obtain ⟨g, rfl, hfg⟩ := hleft f t hst
      exact .cons hfg ih
    · have hother : ¬∃ g, t = .function g := by
        rintro ⟨g, rfl⟩
        exact hfunction (hright s g hst)
      have hskip {s : Statement} (hs : ¬∃ f, s = .function f) (rest : List Statement) :
          Statement.functions (s :: rest) = Statement.functions rest :=
        ((Statement.cons_cases s rest).resolve_left hs).2
      rw [hskip hfunction, hskip hother]
      exact ih

/-! ### Parts of recast nodes -/

namespace Node.Recast
variable {X Y : Statement → Statement → Prop} {n n' : Node} {b b' : Block}

theorem mono (h : Recast X n n') (hXY : ∀ s t, X s t → Y s t) : Recast Y n n' := by
  induction h with
  | replaced h => exact .replaced (hXY _ _ h)
  | block statements hfst hsnd _ ih => exact .block statements hfst hsnd ih
  | plain hplain => exact .plain hplain
  | conditional condition _ ih => exact .conditional condition ih
  | switch scrutinee cases hvalues _ ih => exact .switch scrutinee cases hvalues ih
  | function hname hparams hreturns _ ih => exact .function hname hparams hreturns ih
  | loop front hcondition hfst hsnd _ _ _ hfront hbody hpost =>
    exact .loop front hcondition hfst hsnd hfront hbody hpost
  | inner _ ih => exact .inner ih

/-- What is the same can stand in any recast program. -/
theorem of_same (h : Same n n') : Recast X n n' := h.mono nofun

/-- What holds of pairs holds one by one. -/
theorem forall₂_of_pairs {α β : Type} {R : α → β → Prop} {xs : List α} {ys : List β} {pairs : List (α × β)}
    (hfst : pairs.map Prod.fst = xs) (hsnd : pairs.map Prod.snd = ys) (h : ∀ q ∈ pairs, R q.1 q.2) :
    List.Forall₂ R xs ys := by
  rw [← hfst, ← hsnd, List.forall₂_map_left_iff, List.forall₂_map_right_iff, List.forall₂_same]
  exact h

/-- What is related one by one is so as parts of the lists. -/
theorem forall₂_mem {α β : Type} {R : α → β → Prop} {xs : List α} {ys : List β} (h : List.Forall₂ R xs ys) :
    List.Forall₂ (fun x y => (x ∈ xs ∧ y ∈ ys) ∧ R x y) xs ys :=
  List.forall₂_iff_zip.mpr ⟨h.length_eq, fun hxy => ⟨List.of_mem_zip hxy, List.forall₂_zip h hxy⟩⟩

/-- The statements of recast blocks, one by one. -/
theorem statements (h : Recast X (.block b) (.block b')) :
    List.Forall₂ (fun s t => Recast X (.statement s) (.statement t)) b.statements b'.statements := by
  cases h with
  | block statements hfst hsnd hsame => exact forall₂_of_pairs hfst hsnd hsame

variable (hX : ∀ s t, X s t → s.Neutral ∧ t.Neutral)
include hX

theorem names {s t : Statement} (h : Recast X (.statement s) (.statement t)) : t.names = s.names := by
  cases h with
  | replaced h => rw [(hX _ _ h).1.names, (hX _ _ h).2.names]
  | _ => rfl

theorem function_left {f : FunctionDefinition} {t : Statement}
    (h : Recast X (.statement (.function f)) (.statement t)) : ∃ g, t = .function g ∧ f.Recast X g := by
  cases h with
  | replaced h => exact absurd rfl ((hX _ _ h).1.function f)
  | plain hplain => cases hplain
  | @function _ g hname hparams hreturns hbody => exact ⟨g, rfl, hname, hparams, hreturns, hbody⟩

theorem function_right {s : Statement} {g : FunctionDefinition}
    (h : Recast X (.statement s) (.statement (.function g))) : ∃ f, s = .function f := by
  cases h with
  | replaced h => exact absurd rfl ((hX _ _ h).2.function g)
  | plain hplain => cases hplain
  | @function f _ _ _ _ _ => exact ⟨f, rfl⟩

theorem functions_of_forall₂ {ss ts : List Statement}
    (h : List.Forall₂ (fun s t => Recast X (.statement s) (.statement t)) ss ts) :
    List.Forall₂ (FunctionDefinition.Recast X) (Statement.functions ss) (Statement.functions ts) :=
  Statement.functions_forall₂ (fun _ _ => function_left hX) (fun _ _ => function_right hX) h

theorem functions (h : Recast X (.block b) (.block b')) :
    List.Forall₂ (FunctionDefinition.Recast X) b.functions b'.functions := functions_of_forall₂ hX h.statements

theorem headings (h : Recast X (.block b) (.block b')) :
    b'.functions.map FunctionDefinition.heading = b.functions.map FunctionDefinition.heading := by
  have hfunctions := h.functions hX
  generalize b.functions = fs at hfunctions ⊢
  generalize b'.functions = gs at hfunctions ⊢
  induction hfunctions with
  | nil => rfl
  | cons hfg _ ih => rw [List.map_cons, List.map_cons, hfg.heading, ih]

/-- What is declared among some statements is declared among those that came of them. -/
theorem listNames {ss ts : List Statement}
    (h : List.Forall₂ (fun s t => Recast X (.statement s) (.statement t)) ss ts) :
    ts.flatMap Statement.names = ss.flatMap Statement.names := by
  induction h with
  | nil => rfl
  | cons hst _ ih => rw [List.flatMap_cons, List.flatMap_cons, names hX hst, ih]

end Node.Recast

/-! ### Chains -/

/-- Chains of recast programs: the same functions can be seen, through regions that came of one another.
A region without functions may be missing on either side. -/
inductive Chain.Recast (X : Statement → Statement → Prop) : Chain → Chain → Prop
  | nil : Recast X [] []
  | block {b b' : Block} {chain chain' : Chain} : Node.Recast X (.block b) (.block b') → Recast X chain chain' →
    Recast X (.block b :: chain) (.block b' :: chain')
  | left {region : Region} {chain chain' : Chain} : region.functions = [] → Recast X chain chain' →
    Recast X (region :: chain) chain'
  | right {region : Region} {chain chain' : Chain} : region.functions = [] → Recast X chain chain' →
    Recast X chain (region :: chain')

/-- A region of a loop on both sides. -/
theorem Chain.Recast.loop {X : Statement → Statement → Prop} {chain chain' : Chain} (h : Chain.Recast X chain chain')
    (l m : ForLoop) : Chain.Recast X (.loop l :: chain) (.loop m :: chain') := .left rfl (.right rfl h)

theorem FunctionDefinition.named?_recast {X : Statement → Statement → Prop} {fs gs : List FunctionDefinition}
    (h : List.Forall₂ (FunctionDefinition.Recast X) fs gs) (name : String) :
    Option.Rel (FunctionDefinition.Recast X) (named? name fs) (named? name gs) := by
  induction h with
  | nil => exact .none
  | @cons f g _ _ hfg _ ih =>
    rw [named?_cons, named?_cons, hfg.name]
    split
    · exact .some hfg
    · exact ih

/-- A name stands for functions that belong together, seen from chains that do. -/
theorem Chain.Recast.function? {X : Statement → Statement → Prop} (hX : ∀ s t, X s t → s.Neutral ∧ t.Neutral)
    {chain chain' : Chain} (h : Chain.Recast X chain chain') (name : String) :
    Option.Rel (fun x y => x.1.Recast X y.1 ∧ Chain.Recast X x.2 y.2) (Chain.function? name chain)
      (Chain.function? name chain') := by
  have hskip {region : Region} (hnone : region.functions = []) (outer : Chain) :
      Chain.function? name (region :: outer) = Chain.function? name outer := by
    refine Chain.function?_of_none ?_
    rw [hnone]
    rfl
  induction h with
  | nil => exact .none
  | @block b b' chain chain' hblock hchain ih =>
    have hnamed : Option.Rel _ (named? name (Region.block b).functions) (named? name (Region.block b').functions) :=
      FunctionDefinition.named?_recast (hblock.functions hX) name
    unfold Chain.function?
    generalize named? name (Region.block b).functions = x at hnamed
    generalize named? name (Region.block b').functions = y at hnamed
    cases hnamed with
    | none => exact ih
    | some hfg => exact .some ⟨hfg, .block hblock hchain⟩
  | left hnone _ ih =>
    rw [hskip hnone]
    exact ih
  | right hnone _ ih =>
    rw [hskip hnone]
    exact ih

/-! ### Declared names -/

mutual
/-- The names that a block declares, anywhere in its text. -/
def Block.declared : Block → List String
  | ⟨_, statements⟩ => Statement.listDeclared statements

/-- The names that statements declare. -/
def Statement.listDeclared : List Statement → List String
  | [] => []
  | s :: rest => s.declared ++ Statement.listDeclared rest

/-- The names that the bodies of cases declare. -/
def Case.listDeclared : List Case → List String
  | [] => []
  | ⟨_, body⟩ :: rest => body.declared ++ Case.listDeclared rest

/-- The names that a statement declares, anywhere in its text. -/
def Statement.declared : Statement → List String
  | .declaration names _ => names
  | .conditional _ body => body.declared
  | .switch _ cases => Case.listDeclared cases
  | .function ⟨name, params, returns, body⟩ => name :: (params ++ returns ++ body.declared)
  | .loop ⟨init, _, post, body⟩ => init.declared ++ post.declared ++ body.declared
  | .block b => b.declared
  | .expression _ | .assignment _ _ | .breakLoop | .continueLoop | .leave => []
end

/-- The names that a node declares. -/
def Node.declared : Node → List String
  | .block b => b.declared
  | .statement s => s.declared
  | .expression _ => []

theorem Block.declared_eq (b : Block) : b.declared = Statement.listDeclared b.statements := by
  obtain ⟨_, _⟩ := b
  rfl

theorem Statement.declared_subset {statements : List Statement} {s : Statement} (hs : s ∈ statements) :
    s.declared ⊆ Statement.listDeclared statements := by
  induction statements with
  | nil => cases hs
  | cons first rest ih =>
    intro name hname
    rcases List.mem_cons.mp hs with rfl | hs
    · exact List.mem_append_left _ hname
    · exact List.mem_append_right _ (ih hs hname)

theorem Case.declared_subset {cases : List Case} {c : Case} (hc : c ∈ cases) :
    c.body.declared ⊆ Case.listDeclared cases := by
  induction cases with
  | nil => cases hc
  | cons first rest ih =>
    obtain ⟨value, body⟩ := first
    intro name hname
    unfold Case.listDeclared
    rcases List.mem_cons.mp hc with rfl | hc
    · exact List.mem_append_left _ hname
    · exact List.mem_append_right _ (ih hc hname)

theorem Statement.names_declared (s : Statement) : s.names ⊆ s.declared := by
  cases s with
  | declaration names value => exact List.Subset.refl _
  | _ => exact List.nil_subset _

theorem Statement.listNames_declared (statements : List Statement) :
    statements.flatMap Statement.names ⊆ Statement.listDeclared statements := by
  intro name hname
  obtain ⟨s, hs, hname⟩ := List.mem_flatMap.mp hname
  exact Statement.declared_subset hs (s.names_declared hname)

/-- The parts of a loop declare what the loop does. -/
theorem ForLoop.declared_subset (l : ForLoop) {taken : List String} (h : (Statement.loop l).declared ⊆ taken) :
    (Statement.listDeclared l.init.statements ⊆ taken ∧ l.post.declared ⊆ taken) ∧ l.body.declared ⊆ taken := by
  obtain ⟨⟨_, _⟩, _, _, _⟩ := l
  obtain ⟨hfront, hbody⟩ := List.append_subset.mp h
  exact ⟨List.append_subset.mp hfront, hbody⟩

theorem Block.functions_declared (b : Block) : b.functions.map FunctionDefinition.name ⊆ b.declared := by
  intro name hname
  obtain ⟨f, hf, rfl⟩ := List.mem_map.mp hname
  rw [b.declared_eq]
  refine Statement.declared_subset (Statement.mem_functions.mp hf) ?_
  obtain ⟨_, _, _, _⟩ := f
  exact List.mem_cons_self ..

/-! ### Scoping -/

/-- Frames around a node and around the one that came of it, in a program whose names are taken. -/
structure Frames.Recast (taken : List String) (frames frames' : Frames) : Prop where
  alike : frames.Alike frames'
  tail : Frames.Alike frames.tail frames'.tail
  vars : frames'.vars = frames.vars
  varsTaken : frames.vars ⊆ taken
  functionsTaken : frames.functions.map FunctionDefinition.name ⊆ taken

/-- Replacing statements as `X` says, in a program whose names are taken: nothing is declared on either
side, and what is put in place of a sound statement is sound. -/
structure Statement.Replaces (dialect : Dialect) (taken : List String) (X : Statement → Statement → Prop) : Prop where
  neutral : ∀ s t, X s t → s.Neutral ∧ t.Neutral
  sound : ∀ s t, X s t → ∀ frames frames' : Frames, frames.Recast taken frames' → s.declared ⊆ taken →
    Site.Sound dialect ⟨frames, .statement s⟩ → Site.Sound dialect ⟨frames', .statement t⟩

/-- Where nothing is replaced nothing has to be shown. -/
theorem Statement.replaces_nothing (dialect : Dialect) (taken : List String) :
    Replaces dialect taken fun _ _ => False := ⟨nofun, nofun⟩

namespace Frames.Recast
variable {frames frames' : Frames} {dialect : Dialect} {taken : List String}

theorem nil (taken : List String) : Recast taken [] [] := ⟨.refl _, .refl _, rfl, List.nil_subset _, List.nil_subset _⟩

theorem vars_subset (h : frames.Recast taken frames') : frames.vars ⊆ frames'.vars := h.vars ▸ List.Subset.refl _

theorem block (h : frames.Recast taken frames') {b b' : Block} (htaken : b.declared ⊆ taken)
    (hheadings : b'.functions.map FunctionDefinition.heading = b.functions.map FunctionDefinition.heading)
    {before before' : List Statement} (hnames : before'.flatMap Statement.names = before.flatMap Statement.names)
    (hbefore : before.flatMap Statement.names ⊆ taken) :
    Recast taken (.block b before :: frames) (.block b' before' :: frames') where
  alike := h.alike.block (.of_eq hheadings) _ _
  tail := h.alike
  vars := congrArg₂ List.append hnames h.vars
  varsTaken := List.append_subset.mpr ⟨hbefore, h.varsTaken⟩
  functionsTaken := by
    show (b.functions ++ frames.functions).map _ ⊆ taken
    rw [List.map_append]
    exact List.append_subset.mpr ⟨List.Subset.trans b.functions_declared htaken, h.functionsTaken⟩

theorem loop (h : frames.Recast taken frames') {before before' : List Statement}
    (hnames : before'.flatMap Statement.names = before.flatMap Statement.names)
    (hbefore : before.flatMap Statement.names ⊆ taken) :
    Recast taken (.loop before :: frames) (.loop before' :: frames') where
  alike := h.alike.loop _ _
  tail := h.alike
  vars := congrArg₂ List.append hnames h.vars
  varsTaken := List.append_subset.mpr ⟨hbefore, h.varsTaken⟩
  functionsTaken := h.functionsTaken

theorem rounds (h : frames.Recast taken frames') : Recast taken (.rounds :: frames) (.rounds :: frames') :=
  ⟨h.alike.rounds, h.alike, h.vars, h.varsTaken, h.functionsTaken⟩

theorem function (h : frames.Recast taken frames') {f g : FunctionDefinition} (hparams : g.params = f.params)
    (hreturns : g.returns = f.returns) (htaken : (Statement.function f).declared ⊆ taken) :
    Recast taken (.function f :: frames) (.function g :: frames') where
  alike := h.alike.function f g
  tail := h.alike
  vars := by
    show g.params ++ g.returns = f.params ++ f.returns
    rw [hparams, hreturns]
  varsTaken := by
    obtain ⟨_, params, returns, body⟩ := f
    exact (List.append_subset.mp (List.cons_subset.mp htaken).2).1
  functionsTaken := h.functionsTaken

end Frames.Recast

/-- An expression is sound wherever the same functions and at least the same variables can be meant. -/
theorem Expr.sound_of_alike {dialect : Dialect} {frames frames' : Frames} (halike : frames.Alike frames')
    (hvars : frames.vars ⊆ frames'.vars) {e : Expr} (h : Site.Sound dialect ⟨frames, .expression e⟩) :
    Site.Sound dialect ⟨frames', .expression e⟩ := by
  intro node hnode
  -- All that stands in an expression are expressions in the same place.
  have hpart : ∃ part : Expr, node = ⟨frames', .expression part⟩ ∧
      Site.Within dialect ⟨frames, .expression e⟩ ⟨frames, .expression part⟩ := by
    induction hnode with
    | refl => exact ⟨e, rfl, .refl⟩
    | tail _ hpart ih =>
      obtain ⟨outer, rfl, hwithin⟩ := ih
      cases outer with
      | call name args =>
        obtain ⟨arg, harg, rfl⟩ := List.mem_map.mp hpart
        exact ⟨arg, rfl, hwithin.tail (List.mem_map_of_mem harg)⟩
      | _ => cases hpart
  obtain ⟨part, rfl, hwithin⟩ := hpart
  have hrule := h _ hwithin
  cases part with
  | literal value => exact hrule
  | identifier name => exact hvars hrule
  | call name args => exact ⟨halike.takes hrule.1, fun arg harg => halike.argumentRule (hrule.2 arg harg)⟩

/-- A statement that no block stands in keeps its rule. -/
theorem Statement.Rule.recast {dialect : Dialect} {taken : List String} {frames frames' : Frames}
    (h : frames.Recast taken frames') {s : Statement} (hplain : s.regions = []) (hrule : s.Rule dialect frames) :
    s.Rule dialect frames' := by
  have halike := h.alike
  cases s with
  | expression e => exact halike.yields hrule
  | assignment targets e => exact ⟨halike.yields hrule.1, hrule.2.1, h.vars.symm ▸ hrule.2.2⟩
  | declaration names value =>
    obtain ⟨hyields, hdistinct, hfree⟩ := hrule
    refine ⟨fun e he => halike.yields (hyields e he), hdistinct, fun name hname => ?_⟩
    exact halike.free (h.vars.symm ▸ (hfree name hname).unbound) (hfree name hname)
  | switch scrutinee cases => exact ⟨halike.yields hrule.1, hrule.2⟩
  | breakLoop => exact halike.inLoopBody hrule
  | continueLoop => exact halike.inLoopBody hrule
  | leave => exact halike.inFunction hrule
  | _ => cases hplain

/-- In a statement that no block stands in there are only expressions. -/
theorem Statement.plain_parts {s : Statement} (hplain : s.regions = []) (frames : Frames) {frames' : Frames}
    {site : Site} (h : site ∈ s.parts frames') :
    ∃ e, site = ⟨frames', .expression e⟩ ∧ ⟨frames, .expression e⟩ ∈ s.parts frames := by
  cases s with
  | expression e => exact ⟨e, List.mem_singleton.mp h, List.mem_singleton_self _⟩
  | assignment targets e => exact ⟨e, List.mem_singleton.mp h, List.mem_singleton_self _⟩
  | declaration names value =>
    obtain ⟨e, he, rfl⟩ := List.mem_map.mp h
    exact ⟨e, rfl, List.mem_map_of_mem he⟩
  | switch scrutinee cases =>
    obtain rfl := List.map_eq_nil_iff.mp hplain
    exact ⟨scrutinee, List.mem_singleton.mp h, List.mem_singleton_self _⟩
  | breakLoop => cases h
  | continueLoop => cases h
  | leave => cases h
  | _ => cases hplain

theorem Statement.sites_append (around : List Statement → Frames) (before ss ts : List Statement) :
    Statement.sites around before (ss ++ ts) =
      Statement.sites around before ss ++ Statement.sites around (before ++ ss) ts := by
  induction ss generalizing before with
  | nil => rw [List.nil_append, List.append_nil]; rfl
  | cons s rest ih =>
    rw [List.cons_append, sites, sites, ih, List.cons_append, List.append_assoc, List.singleton_append]

/-- Statements that follow one another are sound if each is sound where the one that it came of is. -/
theorem Node.Recast.sites_sound {dialect : Dialect} {taken : List String} {X : Statement → Statement → Prop}
    (hX : ∀ s t, X s t → s.Neutral ∧ t.Neutral) {around around' : List Statement → Frames}
    (haround : ∀ before before' : List Statement,
      before'.flatMap Statement.names = before.flatMap Statement.names →
        before.flatMap Statement.names ⊆ taken → (around before).Recast taken (around' before'))
    {before before' ss ts : List Statement}
    (hbefore : before'.flatMap Statement.names = before.flatMap Statement.names)
    (htaken : (before ++ ss).flatMap Statement.names ⊆ taken)
    (hkeeps : List.Forall₂ (fun s t => Node.Recast X (.statement s) (.statement t) ∧
      ∀ frames frames' : Frames, frames.Recast taken frames' →
        Site.Sound dialect ⟨frames, .statement s⟩ → Site.Sound dialect ⟨frames', .statement t⟩) ss ts)
    (h : ∀ site ∈ Statement.sites around before ss, site.Sound dialect) :
    ∀ site ∈ Statement.sites around' before' ts, site.Sound dialect := by
  induction hkeeps generalizing before before' with
  | nil => nofun
  | @cons s t ss ts hfirst _ ih =>
    obtain ⟨hsound, hsounds⟩ := List.forall_mem_cons.mp h
    have hfront : before.flatMap Statement.names ⊆ taken :=
      (List.append_subset.mp (List.flatMap_append ▸ htaken)).1
    refine List.forall_mem_cons.mpr ⟨hfirst.2 _ _ (haround _ _ hbefore hfront) hsound, ih ?_ ?_ hsounds⟩
    · rw [List.flatMap_append, List.flatMap_append, hbefore, List.flatMap_singleton, List.flatMap_singleton,
        hfirst.1.names hX]
    · rwa [List.append_assoc]

/-- What came of a sound node by replacing statements is sound. -/
theorem Node.Recast.sound {dialect : Dialect} {taken : List String} {X : Statement → Statement → Prop}
    (hX : Statement.Replaces dialect taken X) {n n' : Node} (h : Node.Recast X n n') :
    n.declared ⊆ taken → ∀ frames frames' : Frames, frames.Recast taken frames' →
      Site.Sound dialect ⟨frames, n⟩ → Site.Sound dialect ⟨frames', n'⟩ := by
  induction h with
  | replaced h => exact fun htaken frames frames' hframes => hX.sound _ _ h frames frames' hframes htaken
  | @block b b' statements hfst hsnd hsame ih =>
    intro htaken frames frames' hframes hsound
    obtain ⟨hrule, hparts⟩ := Site.sound_iff.mp hsound
    have hheadings := (Node.Recast.block statements hfst hsnd hsame).headings hX.neutral
    have hnames := congrArg (List.map Prod.fst) hheadings
    rw [List.map_map, List.map_map] at hnames
    have hlist : Statement.listDeclared b.statements ⊆ taken := b.declared_eq ▸ htaken
    refine Site.sound_iff.mpr ⟨?_, ?_⟩
    · exact (congrArg List.Nodup hnames).mpr hrule
    · show ∀ site ∈ Statement.sites _ _ b'.statements, _
      refine Node.Recast.sites_sound hX.neutral (fun _ _ => hframes.block htaken hheadings) rfl
        (List.Subset.trans (Statement.listNames_declared _) hlist)
        (Node.Recast.forall₂_of_pairs hfst hsnd fun q hq => ⟨hsame q hq, ih q hq ?_⟩) hparts
      exact List.Subset.trans (Statement.declared_subset (hfst ▸ List.mem_map_of_mem hq)) hlist
  | @plain s hplain =>
    intro _ frames frames' hframes hsound
    obtain ⟨hrule, hparts⟩ := Site.sound_iff.mp hsound
    have hrule' : s.Rule dialect frames' := Statement.Rule.recast hframes hplain hrule
    refine Site.sound_iff.mpr ⟨hrule', fun part hpart => ?_⟩
    obtain ⟨e, rfl, he⟩ := Statement.plain_parts hplain frames hpart
    exact Expr.sound_of_alike hframes.alike hframes.vars_subset (hparts _ he)
  | conditional condition _ ih =>
    intro htaken frames frames' hframes hsound
    obtain ⟨hrule, hparts⟩ := Site.sound_iff.mp hsound
    refine Site.sound_iff.mpr ⟨hframes.alike.yields hrule,
      List.forall_mem_cons.mpr ⟨?_, List.forall_mem_singleton.mpr ?_⟩⟩
    · exact Expr.sound_of_alike hframes.alike hframes.vars_subset (hparts _ (.head _))
    · exact ih htaken _ _ hframes (hparts _ (.tail _ (.head _)))
  | switch scrutinee cases hvalues _ ih =>
    intro htaken frames frames' hframes hsound
    obtain ⟨hrule, hparts⟩ := Site.sound_iff.mp hsound
    refine Site.sound_iff.mpr ⟨⟨hframes.alike.yields hrule.1, hrule.2.congr ?_⟩, List.forall_mem_cons.mpr ⟨?_, ?_⟩⟩
    · rw [List.map_map, List.map_map]
      exact List.map_congr_left hvalues
    · exact Expr.sound_of_alike hframes.alike hframes.vars_subset (hparts _ (.head _))
    · rw [List.map_map]
      refine List.forall_mem_map.mpr fun q hq => ih q hq ?_ _ _ hframes (hparts _ ?_)
      · exact List.Subset.trans (Case.declared_subset (List.mem_map_of_mem hq)) htaken
      · exact List.mem_cons_of_mem _ (List.mem_map_of_mem (List.mem_map_of_mem hq))
  | @function f g hname hparams hreturns _ ih =>
    intro htaken frames frames' hframes hsound
    obtain ⟨⟨hfree, hdistinct, hlocals⟩, hparts⟩ := Site.sound_iff.mp hsound
    refine Site.sound_iff.mpr ⟨⟨?_, ?_, fun name hmem => ?_⟩, List.forall_mem_singleton.mpr ?_⟩
    · rw [hname]
      exact hframes.tail.free (hframes.vars.symm ▸ hfree.unbound) hfree
    · rwa [hparams, hreturns]
    · rw [hparams, hreturns] at hmem
      exact hframes.alike.free (by simp) (hlocals name hmem)
    · refine ih ?_ _ _ (hframes.function hparams hreturns htaken) (hparts _ (.head _))
      obtain ⟨_, _, _, _⟩ := f
      exact (List.append_subset.mp (List.cons_subset.mp htaken).2).2
  | @loop l m front hcondition hfst hsnd hsame _ _ ihfront ihbody ihpost =>
    intro htaken frames frames' hframes hsound
    obtain ⟨⟨hnone, hyields⟩, hparts⟩ := Site.sound_iff.mp hsound
    have hfront : List.Forall₂ (fun s t => Node.Recast X (.statement s) (.statement t)) _ _ :=
      Node.Recast.forall₂_of_pairs hfst hsnd hsame
    obtain ⟨⟨hinit, hpost⟩, hbody⟩ := l.declared_subset htaken
    have hnames := List.Subset.trans (Statement.listNames_declared _) hinit
    have hinner := hframes.loop (Node.Recast.listNames hX.neutral hfront) hnames
    obtain ⟨hsites, htest, hrounds, hend⟩ : _ ∧ _ ∧ _ ∧ _ := by
      simpa only [Site.parts, Statement.parts, List.forall_mem_append, List.forall_mem_cons, List.not_mem_nil,
        IsEmpty.forall_iff, implies_true, and_true] using hparts
    refine Site.sound_iff.mpr ⟨⟨?_, ?_⟩, ?_⟩
    · have hfunctions := Node.Recast.functions_of_forall₂ hX.neutral hfront
      rw [show Statement.functions l.init.statements = [] from hnone] at hfunctions
      exact List.forall₂_nil_left_iff.mp hfunctions
    · rw [hcondition]
      exact hinner.alike.yields hyields
    · simp only [Site.parts, Statement.parts, List.forall_mem_append, List.forall_mem_cons, List.not_mem_nil,
        IsEmpty.forall_iff, implies_true, and_true]
      refine ⟨?_, ?_, ihbody hbody _ _ hinner.rounds hrounds, ihpost hpost _ _ hinner hend⟩
      · refine Node.Recast.sites_sound hX.neutral (fun _ _ => hframes.loop) rfl hnames
          (Node.Recast.forall₂_of_pairs hfst hsnd fun q hq => ⟨hsame q hq, ihfront q hq ?_⟩) hsites
        exact List.Subset.trans (Statement.declared_subset (hfst ▸ List.mem_map_of_mem hq)) hinit
      · rw [hcondition]
        exact Expr.sound_of_alike hinner.alike hinner.vars_subset htest
  | inner _ ih =>
    intro htaken frames frames' hframes hsound
    obtain ⟨-, hparts⟩ := Site.sound_iff.mp hsound
    exact Site.sound_iff.mpr ⟨trivial, List.forall_mem_singleton.mpr (ih htaken _ _ hframes (hparts _ (.head _)))⟩

/-- A well-scoped program stays so. -/
theorem Node.Recast.wellScoped {dialect : Dialect} {X : Statement → Statement → Prop} {program program' : Block}
    (hX : Statement.Replaces dialect program.declared X) (h : Node.Recast X (.block program) (.block program'))
    (hscoped : program.WellScoped dialect) : program'.WellScoped dialect :=
  h.sound hX (List.Subset.refl _) [] [] (.nil _) hscoped

end BlockIR
