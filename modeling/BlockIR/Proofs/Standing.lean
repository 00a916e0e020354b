import BlockIR.Execution.Flow
import BlockIR.Proofs.Mirror
import BlockIR.Run

/-! Where a run stands, and what its parts may change.

A configuration stands in a lexical chain (`Config.Stands`) when its arena
mirrors the program and its scope is the one the chain leads to. Whatever a part
of a run does, it comes back to the scope it started in, keeps the variables
that were bound and the values of those that it has no assignment to, and binds
new ones only in the current scope (`Config.Follows`); and if the run agrees with
the check it fails only with an outcome (`Stop.Allowed`). Parts are put together
by `Exec.Goes.bind`, and entering and leaving a region by `Config.Opens.closes`. -/
namespace BlockIR

open FunctionDefinition (named?)

/-- A scope is never left that has none around it. If the run agrees with the check, it stops only
with an outcome. -/
def Stop.Allowed (agree : Prop) : Stop → Prop
  | .failed error => error ≠ .scopeUnderflow ∧ (agree → error.outcome?.isSome = true)
  | .outOfDepth => True

namespace Config

/-- The run is in the scope of a lexical chain of the program. -/
structure Stands (program : Block) (chain : Chain) (c : Config) : Prop where
  inside : chain.In program
  mirrors : Mirrors program c.scopes
  scope : c.scopes.At c.activation.scope chain.ids

/-- The bound variables are the visible ones. -/
def Shows (visible : Visible) (c : Config) : Prop :=
  ∀ name, name ∈ c.activation.bindings ↔ visible.isVariable name = true

/-- From `c` to `d`: a part of a run that assigns only to targets. -/
structure Follows (program : Block) (targets : List String) (c d : Config) : Prop where
  mirrors : Mirrors program d.scopes
  grows : c.scopes.Grows d.scopes
  scope : d.activation.scope = c.activation.scope
  bound : ∀ name ∈ c.activation.bindings, name ∈ d.activation.bindings
  kept : ∀ name ∈ c.activation.bindings, name ∉ targets →
    d.activation.bindings[name]? = c.activation.bindings[name]?
  fresh : ∀ name ∈ d.activation.bindings,
    name ∈ c.activation.bindings ∨ d.scopes.Remembers d.activation.scope name

/-- Nothing is bound in `d` that was not bound in `c`. -/
def Still (c d : Config) : Prop := ∀ name ∈ d.activation.bindings, name ∈ c.activation.bindings

variable {program : Block} {chain : Chain} {visible : Visible} {targets : List String} {c d e : Config}

/-- What changes neither scopes nor variables. -/
theorem follows_of_eq (h : Mirrors program c.scopes) (hscopes : d.scopes = c.scopes)
    (hscope : d.activation.scope = c.activation.scope)
    (hbindings : d.activation.bindings = c.activation.bindings) : c.Follows program targets d where
  mirrors := hscopes ▸ h
  grows := hscopes ▸ .refl c.scopes
  scope := hscope
  bound name hname := hbindings ▸ hname
  kept name _ _ := by rw [hbindings]
  fresh name hname := .inl (hbindings ▸ hname)

theorem Follows.trans (h : c.Follows program targets d) (h' : d.Follows program targets e) :
    c.Follows program targets e where
  mirrors := h'.mirrors
  grows := h.grows.trans h'.grows
  scope := h'.scope.trans h.scope
  bound name hname := h'.bound name (h.bound name hname)
  kept name hname hkeep := (h'.kept name (h.bound name hname) hkeep).trans (h.kept name hname hkeep)
  fresh name hname := by
    rcases h'.fresh name hname with hd | hnew
    · refine (h.fresh name hd).imp_right fun hnew => ?_
      rw [h'.scope]
      exact hnew.grows h'.grows
    · exact .inr hnew

theorem Follows.mono {more : List String} (h : c.Follows program targets d) (hsub : targets ⊆ more) :
    c.Follows program more d :=
  { h with kept := fun name hname hkeep => h.kept name hname fun hmem => hkeep (hsub hmem) }

/-- A part of a run comes back to where it stood. -/
theorem Stands.follows (h : c.Stands program chain) (hfollows : c.Follows program targets d) :
    d.Stands program chain where
  inside := h.inside
  mirrors := hfollows.mirrors
  scope := by
    rw [hfollows.scope]
    exact h.scope.grows hfollows.grows

theorem Still.shows (hstill : c.Still d) (hfollows : c.Follows program targets d) (hshows : c.Shows visible) :
    d.Shows visible := fun name =>
  ⟨fun hname => (hshows name).mp (hstill name hname),
    fun hname => hfollows.bound name ((hshows name).mpr hname)⟩

theorem Shows.of_eq (h : c.Shows visible) (hbindings : d.activation.bindings = c.activation.bindings) :
    d.Shows visible := fun name => by
  rw [hbindings]
  exact h name

end Config

/-! ### Parts of a run -/

namespace Exec
variable {α β : Type} {program : Block} {agree : Prop} {targets : List String} {c : Config}

/-- Started in `c`, the part keeps to the program; if it has a value, `post` holds, and a failure is
one that is allowed. -/
def Goes (program : Block) (agree : Prop) (targets : List String) (x : Exec α) (c : Config)
    (post : α → Config → Prop) : Prop :=
  x.Ends c fun r d => c.Follows program targets d ∧
    match r with
    | .ok a => post a d
    | .error stop => stop.Allowed agree

theorem Goes.bind {x : Exec α} {f : α → Exec β} {mid : α → Config → Prop} {post : β → Config → Prop}
    (hx : x.Goes program agree targets c mid)
    (hf : ∀ a d, c.Follows program targets d → mid a d → (f a).Goes program agree targets d post) :
    Goes program agree targets (x >>= f) c post := by
  refine Effect.Ends.bind hx (fun a d h => ?_) fun stop d h => h
  obtain ⟨hfollows, hmid⟩ := h
  refine (hf a d hfollows hmid).mono fun r e he => ⟨hfollows.trans he.1, he.2⟩

theorem Goes.mono {x : Exec α} {more : List String} {mid post : α → Config → Prop}
    (h : x.Goes program agree targets c mid) (hsub : targets ⊆ more)
    (himp : ∀ a d, c.Follows program targets d → mid a d → post a d) : x.Goes program agree more c post := by
  refine Effect.Ends.mono h fun r d hd => ⟨hd.1.mono hsub, ?_⟩
  cases r with
  | ok a => exact himp a d hd.1 hd.2
  | error stop => exact hd.2

/-- The same targets, another postcondition. -/
theorem Goes.imp {x : Exec α} {mid post : α → Config → Prop} (h : x.Goes program agree targets c mid)
    (himp : ∀ a d, c.Follows program targets d → mid a d → post a d) : x.Goes program agree targets c post :=
  h.mono (List.Subset.refl _) himp

theorem goes_of_ok {x : Exec α} {a : α} {d : Config} {post : α → Config → Prop} (hx : x c = (.ok a, d))
    (hfollows : c.Follows program targets d) (hpost : post a d) : x.Goes program agree targets c post := by
  unfold Goes Effect.Ends
  rw [hx]
  exact ⟨hfollows, hpost⟩

theorem goes_of_error {x : Exec α} {stop : Stop} {d : Config} {post : α → Config → Prop}
    (hx : x c = (.error stop, d)) (hfollows : c.Follows program targets d) (hstop : stop.Allowed agree) :
    x.Goes program agree targets c post := by
  unfold Goes Effect.Ends
  rw [hx]
  exact ⟨hfollows, hstop⟩

/-- A part that does what another one does from a configuration that follows. -/
theorem goes_of_eq {x y : Exec α} {d : Config} {post : α → Config → Prop} (hxy : x c = y d)
    (hfollows : c.Follows program targets d) (hy : y.Goes program agree targets d post) :
    x.Goes program agree targets c post :=
  (Effect.Ends.of_eq hxy hy).mono fun _ _ hd => ⟨hfollows.trans hd.1, hd.2⟩

/-- What runs in another activation leaves the current one alone. -/
theorem goes_within (targets : List String) {x : Exec α} {inner : Activation} {more : List String}
    {post : α → Config → Prop} (h : x.Goes program agree more { c with activation := inner } post) :
    (within inner x).Goes program agree targets c fun a d =>
      d.activation = c.activation ∧ ∃ e, post a e ∧ d.machine = e.machine := by
  unfold Goes Effect.Ends at h ⊢
  rw [within_apply]
  obtain ⟨hfollows, hresult⟩ := h
  refine ⟨⟨hfollows.mirrors, hfollows.grows, rfl, fun _ hname => hname, fun _ _ _ => rfl,
    fun _ hname => .inl hname⟩, ?_⟩
  rcases hx : x { c with activation := inner } with ⟨stop | a, e⟩ <;> rw [hx] at hresult
  · exact hresult
  · exact ⟨rfl, e, hresult, rfl⟩

/-! ### Simple parts -/

section Simple
variable (hmirrors : Mirrors program c.scopes)
include hmirrors

/-- A failure on the spot. -/
theorem goes_fails {x : Exec α} {stop : Stop} {post : α → Config → Prop} (hx : x c = (.error stop, c))
    (hstop : stop.Allowed agree) : x.Goes program agree targets c post :=
  goes_of_error hx (Config.follows_of_eq hmirrors rfl rfl rfl) hstop

theorem goes_pure (a : α) {post : α → Config → Prop} (hpost : post a c) :
    Goes program agree targets (pure a : Exec α) c post :=
  goes_of_ok rfl (Config.follows_of_eq hmirrors rfl rfl rfl) hpost

theorem goes_gets (f : Config → α) {post : α → Config → Prop} (hpost : post (f c) c) :
    Goes program agree targets (Effect.gets f : Exec α) c post :=
  goes_of_ok rfl (Config.follows_of_eq hmirrors rfl rfl rfl) hpost

theorem goes_setSignal (signal : Signal) {post : Unit → Config → Prop}
    (hpost : post () { c with machine := { c.machine with signal := signal } }) :
    (setSignal signal).Goes program agree targets c post :=
  goes_of_ok rfl (Config.follows_of_eq hmirrors rfl rfl rfl) hpost

theorem goes_modifyActivation (f : Activation → Activation) (hscope : (f c.activation).scope = c.activation.scope)
    (hbindings : (f c.activation).bindings = c.activation.bindings) {post : Unit → Config → Prop}
    (hpost : post () { c with activation := f c.activation }) :
    (modifyActivation f).Goes program agree targets c post :=
  goes_of_ok rfl (Config.follows_of_eq hmirrors rfl hscope hbindings) hpost

/-- An action on the machine whose failures are outcomes. -/
theorem goes_onMachine {action : Action α} {post : α → Config → Prop}
    (hok : ∀ a m, action c.machine = (.ok a, m) → post a { c with machine := m })
    (herror : ∀ error m, action c.machine = (.error error, m) → (Stop.failed error).Allowed agree) :
    (onMachine action).Goes program agree targets c post := by
  have happly := onMachine_apply action c
  rcases haction : action c.machine with ⟨error | a, m⟩ <;> rw [haction] at happly
  · exact goes_of_error happly (Config.follows_of_eq hmirrors rfl rfl rfl) (herror error m haction)
  · exact goes_of_ok happly (Config.follows_of_eq hmirrors rfl rfl rfl) (hok a m haction)

/-- Counting a step changes the machine, and not the signal. -/
theorem goes_count (setting : Setting) {post : Unit → Config → Prop}
    (hpost : ∀ m, m.signal = c.machine.signal → post () { c with machine := m }) :
    (onMachine (countStep setting)).Goes program agree targets c post := by
  refine goes_onMachine hmirrors (fun a m h => ?_) fun error m h => ?_
  · rw [countStep_apply] at h
    split at h <;> cases h
    exact hpost _ rfl
  · rw [countStep_apply] at h
    split at h <;> cases h
    exact ⟨nofun, fun _ => rfl⟩

/-- Going a level deeper changes the machine at most by a line, and fails only at the limit. -/
theorem goes_deepen (ctx : Context) {post : Unit → Config → Prop}
    (hpost : ∀ d : Config, d.scopes = c.scopes → d.activation.scope = c.activation.scope →
      d.activation.bindings = c.activation.bindings → d.machine.signal = c.machine.signal → post () d) :
    (deepen ctx).Goes program agree targets c post := by
  have happly := deepen_apply ctx c
  simp only at happly
  split at happly
  · exact goes_of_error happly (Config.follows_of_eq hmirrors rfl rfl rfl) ⟨nofun, fun _ => rfl⟩
  · exact goes_of_ok happly (Config.follows_of_eq hmirrors rfl rfl rfl) (hpost _ rfl rfl rfl rfl)

/-- A bound variable has a value. -/
theorem goes_valueOf {name : String} (hbound : name ∈ c.activation.bindings) {post : Word → Config → Prop}
    (hpost : ∀ value, post value c) : (valueOf name).Goes program agree targets c post := by
  unfold valueOf
  have hactivation : Goes program agree targets activation c fun a d => a = c.activation ∧ d = c :=
    goes_gets hmirrors _ ⟨rfl, rfl⟩
  refine hactivation.bind fun a d _ h => ?_
  obtain ⟨rfl, rfl⟩ := h
  rw [Std.ExtTreeMap.getElem?_eq_some_getElem hbound]
  exact goes_pure hmirrors _ (hpost _)

theorem goes_valuesOf {names : List String} (hbound : ∀ name ∈ names, name ∈ c.activation.bindings) :
    (valuesOf names).Goes program agree targets c fun values d => values.length = names.length ∧ d = c := by
  induction names with
  | nil => exact goes_pure hmirrors [] ⟨rfl, rfl⟩
  | cons first rest ih =>
    obtain ⟨hfirst, hrest⟩ := List.forall_mem_cons.mp hbound
    have hvalue : (valueOf first).Goes program agree targets c fun _ d => d = c :=
      goes_valueOf hmirrors hfirst fun _ => rfl
    refine hvalue.bind fun value d _ hd => ?_
    subst hd
    refine (ih hrest).bind fun values d _ h => ?_
    obtain ⟨hlength, rfl⟩ := h
    exact goes_pure hmirrors _ ⟨congrArg Nat.succ hlength, rfl⟩

/-- Assigning to bound variables, all of them targets. -/
theorem goes_assign {pairs : List (String × Word)}
    (hbound : ∀ pair ∈ pairs, pair.1 ∈ c.activation.bindings ∧ pair.1 ∈ targets)
    {post : Unit → Config → Prop}
    (hpost : ∀ d : Config, (∀ name, name ∈ d.activation.bindings ↔ name ∈ c.activation.bindings) →
      d.machine = c.machine → post () d) :
    (assign pairs).Goes program agree targets c post := by
  induction pairs generalizing c with
  | nil => exact goes_pure hmirrors () (hpost c (fun _ => .rfl) rfl)
  | cons first rest ih =>
    obtain ⟨name, value⟩ := first
    obtain ⟨⟨hname, htarget⟩, hrest⟩ := List.forall_mem_cons.mp hbound
    -- The assignment rebinds a bound name.
    have hsame (x : String) : x ∈ c.activation.bindings.insert name value ↔ x ∈ c.activation.bindings := by
      rw [Std.ExtTreeMap.mem_insert]
      constructor
      · rintro (hx | hx)
        · exact Std.LawfulEqCmp.eq_of_compare hx ▸ hname
        · exact hx
      · exact .inr
    let d : Config :=
      { c with activation := { c.activation with bindings := c.activation.bindings.insert name value } }
    have hstep : (assign ((name, value) :: rest)) c = assign rest d := by
      show (if name ∈ c.activation.bindings then _ else _ : Exec Unit) c = _
      rw [if_pos hname]
      rfl
    have hfollows : c.Follows program targets d := by
      refine ⟨hmirrors, .refl _, rfl, fun x hx => (hsame x).mpr hx, fun x hx hkeep => ?_,
        fun x hx => .inl ((hsame x).mp hx)⟩
      show (c.activation.bindings.insert name value)[x]? = _
      rw [Std.ExtTreeMap.getElem?_insert, if_neg]
      intro heq
      exact hkeep (Std.LawfulEqCmp.eq_of_compare heq ▸ htarget)
    have hgoes : (assign rest).Goes program agree targets d post :=
      ih (c := d) hmirrors (fun pair hpair => ⟨(hsame _).mpr (hrest pair hpair).1, (hrest pair hpair).2⟩)
        fun e he hmachine => hpost e (fun x => (he x).trans (hsame x)) hmachine
    exact goes_of_eq hstep hfollows hgoes

end Simple

/-! ### Scopes -/

theorem enterScope_apply {block : BlockId} {id : ScopeId} {entered : Scopes}
    (h : c.scopes.enter c.activation.scope block = .ok (id, entered)) :
    enterScope block c =
      (.ok (), { c with scopes := entered, activation := { c.activation with scope := id } }) := by
  unfold enterScope
  rw [Effect.bind_of_ok (Effect.get_apply c), h]
  rfl

theorem declare_apply {name : String} {binding : Binding FunctionDefinition} {declared : Scopes}
    (h : c.scopes.declare c.activation.scope name binding = .ok declared) :
    declare name binding c = (.ok (), { c with scopes := declared }) := by
  unfold declare
  rw [Effect.bind_of_ok (Effect.get_apply c), h]
  rfl

theorem declareFunctions_apply {scope : Scope BlockId FunctionDefinition}
    (h : c.scopes.scopes[c.activation.scope]? = some scope) (definitions : List FunctionDefinition) :
    declareFunctions definitions c =
      (.ok (), { c with scopes := c.scopes.rename c.activation.scope (Scope.register definitions) }) := by
  induction definitions generalizing c scope with
  | nil =>
    show (Except.ok (), c) = _
    have hself : c.scopes.rename c.activation.scope (Scope.register []) = c.scopes :=
      ScopeArena.rename_self _ _
    rw [hself]
  | cons first rest ih =>
    unfold declareFunctions
    rw [Effect.bind_of_ok (declare_apply (ScopeArena.declare_eq h))]
    obtain ⟨new, hnew, -⟩ := ScopeArena.eq_some_rename c.activation.scope
      (fun names => names.insert first.name (.ofFunction first)) h
    rw [ih hnew, ScopeArena.rename_rename]
    rfl

/-- Leaving goes to the scope around and drops what the scope remembers. -/
theorem leaveScope_apply {scope : Scope BlockId FunctionDefinition} {outer : ScopeId}
    (h : c.scopes.scopes[c.activation.scope]? = some scope) (hparent : scope.parent = some outer) :
    leaveScope c =
      (.ok (), { c with activation := { c.activation with
        scope := outer
        bindings := ScopeArena.without c.activation.bindings scope.variableNames } }) := by
  unfold leaveScope
  rw [ScopeArena.leave_eq h hparent]

/-- Binding new variables of the innermost region. -/
theorem goes_bindNew (hprogram : program.WrittenAt []) {region : Region} {outer : Chain}
    (hstands : c.Stands program (region :: outer)) {pairs : List (String × Word)}
    (hnodup : (pairs.map Prod.fst).Nodup)
    (hnew : ∀ name ∈ pairs.map Prod.fst, name ∉ c.activation.bindings)
    (hregion : ∀ name ∈ pairs.map Prod.fst, name ∈ region.names ∧ named? name region.functions = none)
    {post : Unit → Config → Prop}
    (hpost : ∀ d : Config, (∀ name, name ∈ d.activation.bindings ↔
      name ∈ c.activation.bindings ∨ name ∈ pairs.map Prod.fst) → d.machine = c.machine → post () d) :
    (bindNew pairs).Goes program agree targets c post := by
  induction pairs generalizing c with
  | nil => exact goes_pure hstands.mirrors () (hpost c (fun _ => by simp) rfl)
  | cons first rest ih =>
    obtain ⟨name, value⟩ := first
    obtain ⟨hfirst, hrest⟩ := List.nodup_cons.mp hnodup
    obtain ⟨hname, hnew'⟩ := List.forall_mem_cons.mp hnew
    obtain ⟨⟨hmem, hnone⟩, hregion'⟩ := List.forall_mem_cons.mp hregion
    obtain ⟨declared, hdeclare, hmirrors, hgrows, hremembers⟩ :=
      hstands.mirrors.declare hprogram hstands.inside hstands.scope hmem hnone
    let bound : Config :=
      { c with activation := { c.activation with bindings := c.activation.bindings.insert name value } }
    let d : Config := { bound with scopes := declared }
    have hdeclared : declare name .ofVariable bound = (.ok (), d) := declare_apply (c := bound) hdeclare
    have hstep : bindNew ((name, value) :: rest) c = bindNew rest d := by
      show (if name ∈ c.activation.bindings then _ else _ : Exec Unit) c = _
      rw [if_neg hname]
      exact Effect.bind_of_ok hdeclared
    have hmem_insert (x : String) : x ∈ d.activation.bindings ↔ x = name ∨ x ∈ c.activation.bindings := by
      show x ∈ c.activation.bindings.insert name value ↔ _
      rw [Std.ExtTreeMap.mem_insert, Std.LawfulEqCmp.compare_eq_iff_eq]
      exact or_congr_left eq_comm
    have hfollows : c.Follows program targets d := by
      refine ⟨hmirrors, hgrows, rfl, fun x hx => (hmem_insert x).mpr (.inr hx), fun x hx _ => ?_,
        fun x hx => ?_⟩
      · show (c.activation.bindings.insert name value)[x]? = _
        rw [Std.ExtTreeMap.getElem?_insert, if_neg]
        intro heq
        exact hname (Std.LawfulEqCmp.eq_of_compare heq ▸ hx)
      · rcases (hmem_insert x).mp hx with rfl | hx
        · exact .inr hremembers
        · exact .inl hx
    have hgoes : (bindNew rest).Goes program agree targets d post := by
      refine ih (hstands.follows hfollows) hrest (fun x hx hbound => ?_) hregion' fun e he hmachine => ?_
      · rcases (hmem_insert x).mp hbound with rfl | hbound
        · exact hfirst hx
        · exact hnew' x hx hbound
      · refine hpost e (fun x => ?_) hmachine
        rw [he, hmem_insert, List.map_cons, List.mem_cons]
        grind
    exact goes_of_eq hstep hfollows hgoes

end Exec

/-! ### Regions -/

namespace Config
variable {program : Block} {agree : Prop} {chain : Chain} {targets : List String} {c d : Config}
  {region : Region}

/-- From `c` to `d`: a region is entered and its functions are declared. -/
structure Opens (program : Block) (chain : Chain) (region : Region) (c d : Config) : Prop where
  stands : d.Stands program (region :: chain)
  grows : c.scopes.Grows d.scopes
  bindings : d.activation.bindings = c.activation.bindings
  base : d.activation.base = c.activation.base
  level : d.activation.level = c.activation.level
  machine : d.machine = c.machine
  parent : ∃ scope, d.scopes.scopes[d.activation.scope]? = some scope ∧ scope.parent = some c.activation.scope

/-- A region that stands directly in the chain can be entered. -/
theorem Stands.opens (hprogram : program.WrittenAt []) (h : c.Stands program chain)
    (hregion : region ∈ chain.inner program)
    (hnodup : (region.functions.map FunctionDefinition.name).Nodup) :
    ∃ entered d, Exec.enterScope region.id c = (.ok (), entered) ∧
      Exec.declareFunctions region.functions entered = (.ok (), d) ∧ c.Opens program chain region d := by
  obtain ⟨id, scopes, henter, hmirrors, hgrows, hat, scope, hscope, hparent⟩ :=
    h.mirrors.enter hprogram h.inside h.scope hregion hnodup
  refine ⟨_, _, Exec.enterScope_apply henter, Exec.declareFunctions_apply hscope region.functions, ?_⟩
  obtain ⟨new, hnew, hparent', -⟩ := ScopeArena.eq_some_rename id
    (Scope.register region.functions) hscope
  exact ⟨⟨⟨hregion, h.inside⟩, hmirrors, ScopeArena.at_rename hat⟩, hgrows, rfl, rfl, rfl, rfl, new, hnew,
    hparent'.trans hparent⟩

/-- Leaving a region in which its variables were declared: they are gone, and those of the region
around it are still there. -/
theorem Opens.leaves {before : Config} (hprogram : program.WrittenAt [])
    (hopens : c.Opens program chain region d)
    (hapart : ∀ name ∈ region.names, name ∉ c.activation.bindings)
    (hfollows : d.Follows program targets before) :
    ∃ e, Exec.leaveScope before = (.ok (), e) ∧ c.Follows program targets e ∧ c.Still e ∧
      e.machine = before.machine := by
  obtain ⟨scope, hscope, hparent⟩ := hopens.parent
  obtain ⟨grown, hgrown, hgrows⟩ := hfollows.grows _ _ hscope
  have hstands := hopens.stands.follows hfollows
  rw [← hfollows.scope] at hgrown
  have hreflects := hstands.mirrors.reflects hprogram hstands.inside hstands.scope hgrown
  have hleft (name : String) : (ScopeArena.without before.activation.bindings grown.variableNames)[name]? =
      if name ∈ grown.variableNames then none else before.activation.bindings[name]? :=
    ScopeArena.getElem?_without _ _ name
  have hstill (name : String)
      (hname : name ∈ ScopeArena.without before.activation.bindings grown.variableNames) :
      name ∈ c.activation.bindings := by
    rw [← Std.ExtTreeMap.isSome_getElem?_iff_mem, hleft] at hname
    split at hname
    · cases hname
    · rename_i hkeep
      rcases hfollows.fresh name (Std.ExtTreeMap.isSome_getElem?_iff_mem.mp hname) with hbound | hremembers
      · exact hopens.bindings ▸ hbound
      · obtain ⟨scope', hscope', hvariable⟩ := hremembers
        obtain rfl := Option.some.inj (hgrown.symm.trans hscope')
        exact absurd hvariable hkeep
  have hkept (name : String) (hname : name ∈ c.activation.bindings) :
      (ScopeArena.without before.activation.bindings grown.variableNames)[name]? =
        before.activation.bindings[name]? := by
    -- What the scope remembers are variables of the region, and none of them was bound outside.
    rw [hleft, if_neg fun hmem => hapart name (hreflects.vars name hmem) hname]
  refine ⟨_, Exec.leaveScope_apply hgrown (hgrows.parent.trans hparent), ?_, hstill, rfl⟩
  refine ⟨hfollows.mirrors, hopens.grows.trans hfollows.grows, rfl, fun name hname => ?_,
    fun name hname hkeep => ?_, fun name hname => .inl (hstill name hname)⟩
  · have hbefore := hfollows.bound name (hopens.bindings.symm ▸ hname)
    rw [← Std.ExtTreeMap.isSome_getElem?_iff_mem] at hbefore ⊢
    rw [hkept name hname]
    exact hbefore
  · rw [hkept name hname, hfollows.kept name (hopens.bindings.symm ▸ hname) hkeep, hopens.bindings]

/-- The region is left however what was done in it ends. -/
theorem Opens.closes (hprogram : program.WrittenAt []) (hopens : c.Opens program chain region d)
    (hapart : ∀ name ∈ region.names, name ∉ c.activation.bindings) {α : Type} {x : Exec α}
    {post : α → Config → Prop} (hx : x.Goes program agree targets d post) :
    Effect.Ends (Effect.ensuring x Exec.leaveScope) d fun r e =>
      c.Follows program targets e ∧ c.Still e ∧
        match r with
        | .ok a => ∃ before, post a before ∧ e.machine = before.machine
        | .error stop => stop.Allowed agree := by
  refine Effect.Ends.ensuring hx fun r before hbefore => ?_
  obtain ⟨hfollows, hresult⟩ := hbefore
  obtain ⟨e, hleave, hfollows', hstill, hmachine⟩ := hopens.leaves hprogram hapart hfollows
  refine ⟨e, hleave, hfollows', hstill, ?_⟩
  cases r with
  | ok a => exact ⟨before, hresult, hmachine⟩
  | error stop => exact hresult

end Config
end BlockIR
