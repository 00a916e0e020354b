import BlockIR.Execution.Config
import BlockIR.Proofs.Arena
import BlockIR.Proofs.Ends
import BlockIR.Proofs.Visibility

/-! The arena as a mirror of the program.

Scopes are made, found again and filled while a program runs, by all activations
alike. What stays true is that a scope reached by a path stands for the lexical
chain with these identities: it has all functions of the innermost region, and
it remembers no variables but those that the region declares (`Mirrors`). So
looking a function up in the arena finds what the chain says
(`Mirrors.lookup`). -/
namespace BlockIR

open FunctionDefinition (named?)

/-- The names of a scope are those of the innermost region of a chain. -/
structure Scope.Reflects (scope : Scope BlockId FunctionDefinition) (chain : Chain) : Prop where
  functions : ∀ name, (scope.names[name]? >>= Binding.function?) = named? name chain.functions
  vars : ∀ name ∈ scope.variableNames, name ∈ chain.names

/-- Every scope stands for a chain of the program. -/
structure Mirrors (program : Block) (scopes : Scopes) : Prop where
  sound : scopes.Sound
  scope : ∀ {id : ScopeId} {path : List BlockId} {scope : Scope BlockId FunctionDefinition},
    scopes.At id path → scopes.scopes[id]? = some scope →
      ∃ chain : Chain, chain.In program ∧ chain.ids = path ∧ scope.Reflects chain

theorem mirrors_start (program : Block) : Mirrors program .start where
  sound := ScopeArena.sound_start
  scope {id path scope} hat hscope := by
    cases hat with
    | root =>
      cases hscope
      exact ⟨[], trivial, rfl, fun _ => rfl, nofun⟩
    | child houter houter' hmem =>
      obtain ⟨hless, inner, hinner, -⟩ := ScopeArena.sound_start.child houter' hmem
      have hone := ScopeArena.lt_size hinner
      rw [ScopeArena.size_start, Nat.lt_one_iff] at hone
      exact absurd (hone ▸ hless) (Nat.not_lt_zero _)

/-- A scope with the same names reflects the same chain. -/
theorem Scope.Reflects.congr {scope other : Scope BlockId FunctionDefinition} {chain : Chain}
    (h : scope.Reflects chain) (hnames : other.names = scope.names) : other.Reflects chain where
  functions name := by
    rw [hnames]
    exact h.functions name
  vars name hname := by
    rw [mem_variableNames, hnames] at hname
    exact h.vars name (mem_variableNames.mpr hname)

/-! ### Registering functions -/

/-- Names with functions declared after them. -/
def Scope.register (functions : List FunctionDefinition)
    (names : Std.ExtTreeMap String (Binding FunctionDefinition)) :
    Std.ExtTreeMap String (Binding FunctionDefinition) :=
  functions.foldl (fun names f => names.insert f.name (.ofFunction f)) names

theorem Scope.getElem?_register {functions : List FunctionDefinition}
    (hnodup : (functions.map FunctionDefinition.name).Nodup)
    (names : Std.ExtTreeMap String (Binding FunctionDefinition)) (name : String) :
    (register functions names)[name]? =
      match named? name functions with
      | some f => some (.ofFunction f)
      | none => names[name]? := by
  unfold register
  induction functions generalizing names with
  | nil => rfl
  | cons first rest ih =>
    obtain ⟨hfirst, hrest⟩ := List.nodup_cons.mp hnodup
    rw [List.foldl_cons, ih hrest, FunctionDefinition.named?_cons]
    by_cases hname : first.name = name
    · have hnone : named? name rest = none := by
        refine FunctionDefinition.named?_eq_none.mpr fun f hf hsame => hfirst ?_
        rw [hname, ← hsame]
        exact List.mem_map_of_mem hf
      simp [hnone, hname]
    · simp [hname, Std.ExtTreeMap.getElem?_insert]

/-- A scope has no names but those of a region. -/
structure Scope.Inside (scope : Scope BlockId FunctionDefinition) (region : Region) : Prop where
  functions : ∀ name f, scope.names[name]? = some (.ofFunction f) → named? name region.functions ≠ none
  vars : ∀ name ∈ scope.variableNames, named? name region.functions = none ∧ name ∈ region.names

theorem Scope.Reflects.inside {scope : Scope BlockId FunctionDefinition} {region : Region} {outer : Chain}
    (h : scope.Reflects (region :: outer)) : scope.Inside region where
  functions name f hname hnone := by
    have hfunction : _ = named? name region.functions := h.functions name
    rw [hname, hnone] at hfunction
    cases hfunction
  vars name hname := by
    have hfunction : _ = named? name region.functions := h.functions name
    rw [mem_variableNames.mp hname] at hfunction
    exact ⟨hfunction.symm, h.vars name hname⟩

/-- Once the functions of its region are registered, a scope has all the names it has to. -/
theorem Scope.Inside.reflects {scope new : Scope BlockId FunctionDefinition} {region : Region}
    (h : scope.Inside region) (hnodup : (region.functions.map FunctionDefinition.name).Nodup)
    (hnames : new.names = register region.functions scope.names) (outer : Chain) :
    new.Reflects (region :: outer) where
  functions name := by
    rw [hnames, getElem?_register hnodup]
    show _ = named? name region.functions
    rcases hnamed : named? name region.functions with _ | f
    · rcases hname : scope.names[name]? with _ | _ | f
      · rfl
      · rfl
      · exact absurd hnamed (h.functions name f hname)
    · rfl
  vars name hname := by
    rw [mem_variableNames, hnames, getElem?_register hnodup] at hname
    split at hname
    · cases hname
    · exact (h.vars name (mem_variableNames.mpr hname)).2

namespace Mirrors
variable {program : Block} (hprogram : program.WrittenAt []) {scopes : Scopes}
include hprogram

/-- A scope stands for the chain whose identities lead to it. -/
theorem reflects (mirrors : Mirrors program scopes) {chain : Chain} (hchain : chain.In program)
    {id : ScopeId} (hat : scopes.At id chain.ids) {scope : Scope BlockId FunctionDefinition}
    (hscope : scopes.scopes[id]? = some scope) : scope.Reflects chain := by
  obtain ⟨chain', hchain', hids, hreflects⟩ := mirrors.scope hat hscope
  rwa [Chain.eq_of_ids hprogram hchain' hchain hids] at hreflects

/-! ### Looking up -/

/-- Walking outwards from a scope finds what the chain says. -/
theorem lookupWithin (mirrors : Mirrors program scopes) {chain : Chain} (hchain : chain.In program)
    {id : ScopeId} (hat : scopes.At id chain.ids) (name : String) {bound : Nat}
    (hbound : chain.length < bound) :
    (Chain.function? name chain = none ∧ scopes.lookupWithin name bound id = .ok none) ∨
      ∃ definition found scope, Chain.function? name chain = some (definition, found) ∧
        scopes.lookupWithin name bound id = .ok (some (scope, definition)) ∧
          scopes.At scope (Chain.ids found) := by
  induction chain generalizing id bound with
  | nil =>
    cases hat
    obtain ⟨bound, rfl⟩ : ∃ n, bound = n + 1 := ⟨bound - 1, by omega⟩
    obtain ⟨root, hroot, hparent⟩ := mirrors.sound.root
    have hnone := (mirrors.reflects hprogram hchain .root hroot).functions name
    left
    rw [ScopeArena.lookupWithin_succ hroot, hnone, hparent]
    exact ⟨rfl, rfl⟩
  | cons region outer ih =>
    obtain ⟨bound, rfl⟩ : ∃ n, bound = n + 1 := ⟨bound - 1, by omega⟩
    obtain ⟨scope, parent, hscope, hparent, hat'⟩ := ScopeArena.At.outer hat mirrors.sound
    have hfunctions : _ = named? name region.functions :=
      (mirrors.reflects hprogram hchain hat hscope).functions name
    rw [ScopeArena.lookupWithin_succ hscope, hfunctions, hparent]
    rcases hnamed : named? name region.functions with _ | definition
    · rw [Chain.function?_of_none hnamed]
      exact ih hchain.2 hat' (by simpa using hbound)
    · right
      exact ⟨definition, region :: outer, id, Chain.function?_of_some hnamed, rfl, hat⟩

/-- Looking a function up gives what the chain says, in the scope of the region that declares it. -/
theorem lookup (mirrors : Mirrors program scopes) {chain : Chain} (hchain : chain.In program)
    {id : ScopeId} (hat : scopes.At id chain.ids) (name : String) :
    (Chain.function? name chain = none ∧ scopes.lookup id name = .ok none) ∨
      ∃ definition found scope, Chain.function? name chain = some (definition, found) ∧
        scopes.lookup id name = .ok (some (scope, definition)) ∧ scopes.At scope (Chain.ids found) := by
  refine mirrors.lookupWithin hprogram hchain hat name ?_
  obtain ⟨scope, hscope⟩ := hat.valid mirrors.sound
  have hlength := hat.length_le mirrors.sound
  rw [Chain.ids, List.length_map] at hlength
  exact Nat.lt_succ_of_lt (Nat.lt_of_le_of_lt hlength (ScopeArena.lt_size hscope))

/-! ### Entering and declaring -/

omit hprogram in
/-- Registering the functions of a region keeps the arena a mirror if its scope has no other names. -/
theorem register {entered : Scopes} (sound : entered.Sound) {id : ScopeId} {region : Region} {outer : Chain}
    (hchain : Chain.In program (region :: outer)) (hid : entered.At id (Chain.ids (region :: outer)))
    (hnodup : (region.functions.map FunctionDefinition.name).Nodup)
    (hinside : ∀ {scope : Scope BlockId FunctionDefinition}, entered.scopes[id]? = some scope →
      scope.Inside region)
    (hothers : ∀ {other : ScopeId} {path : List BlockId} {scope : Scope BlockId FunctionDefinition},
      other ≠ id → entered.At other path → entered.scopes[other]? = some scope →
        ∃ chain : Chain, chain.In program ∧ chain.ids = path ∧ scope.Reflects chain) :
    Mirrors program (entered.rename id (Scope.register region.functions)) ∧
      entered.Grows (entered.rename id (Scope.register region.functions)) := by
  refine ⟨⟨ScopeArena.sound_rename sound, ?_⟩,
    ScopeArena.grows_rename fun scope name hscope hvariable => ?_⟩
  · intro other path new hother hnew
    obtain ⟨old, hold, -, -, hnames⟩ := ScopeArena.rename_eq_some hnew
    by_cases hsame : id = other
    · subst hsame
      rw [if_pos rfl] at hnames
      exact ⟨region :: outer, hchain, hid.unique hother.of_rename sound,
        (hinside hold).reflects hnodup hnames outer⟩
    · rw [if_neg hsame] at hnames
      obtain ⟨chain, hchain, hids, hreflects⟩ := hothers (Ne.symm hsame) hother.of_rename hold
      exact ⟨chain, hchain, hids, hreflects.congr hnames⟩
  · obtain ⟨hnone, -⟩ := (hinside hscope).vars name (Scope.mem_variableNames.mpr hvariable)
    rw [Scope.getElem?_register hnodup, hnone]
    exact hvariable

/-- Entering a region and registering its functions keeps the arena a mirror. -/
theorem enter (mirrors : Mirrors program scopes) {chain : Chain} (hchain : chain.In program)
    {current : ScopeId} (hat : scopes.At current chain.ids) {region : Region}
    (hregion : region ∈ chain.inner program)
    (hnodup : (region.functions.map FunctionDefinition.name).Nodup) :
    ∃ id entered, scopes.enter current region.id = .ok (id, entered) ∧
      Mirrors program (entered.rename id (Scope.register region.functions)) ∧
      scopes.Grows (entered.rename id (Scope.register region.functions)) ∧
      entered.At id (Chain.ids (region :: chain)) ∧
      ∃ scope, entered.scopes[id]? = some scope ∧ scope.parent = some current := by
  have hinside : Chain.In program (region :: chain) := ⟨hregion, hchain⟩
  obtain ⟨scope, hscope⟩ := hat.valid mirrors.sound
  rcases ScopeArena.enter_cases hscope region.id with ⟨child, hchild, henter⟩ | ⟨-, henter⟩
  · have hat' : scopes.At child (Chain.ids (region :: chain)) := .child hat hscope hchild
    obtain ⟨hmirrors, hgrows⟩ := register mirrors.sound hinside hat' hnodup
      (fun hfound => (mirrors.reflects hprogram hinside hat' hfound).inside)
      (fun _ hother hold => mirrors.scope hother hold)
    exact ⟨child, scopes, henter, hmirrors, hgrows, hat', (mirrors.sound.child hscope hchild).2⟩
  · have hsound := ScopeArena.sound_link mirrors.sound hscope region.id
    have hat' : (scopes.link current region.id).At scopes.size (Chain.ids (region :: chain)) :=
      ScopeArena.at_link hat hscope
    obtain ⟨hmirrors, hgrows⟩ := register hsound hinside hat' hnodup
      (fun {fresh} hfresh => by
        rw [ScopeArena.scopes_link, if_pos rfl] at hfresh
        cases hfresh
        exact ⟨nofun, nofun⟩)
      (fun hne hother hold => by
        rcases ScopeArena.link_eq_some hold with ⟨hnew, -⟩ | ⟨before, hbefore, -, hnames, -⟩
        · exact absurd hnew hne
        · obtain ⟨chain', hchain', hids, hreflects⟩ := mirrors.scope (hother.of_link hne) hbefore
          exact ⟨chain', hchain', hids, hreflects.congr hnames⟩)
    refine ⟨scopes.size, _, henter, hmirrors, ScopeArena.grows_link.trans hgrows, hat',
      { parent := some current }, ?_, rfl⟩
    rw [ScopeArena.scopes_link, if_pos rfl]

/-- Declaring a variable of the innermost region keeps the arena a mirror. -/
theorem declare (mirrors : Mirrors program scopes) {region : Region} {outer : Chain}
    (hchain : Chain.In program (region :: outer)) {current : ScopeId}
    (hat : scopes.At current (Chain.ids (region :: outer))) {name : String} (hname : name ∈ region.names)
    (hnone : named? name region.functions = none) :
    ∃ declared, scopes.declare current name .ofVariable = .ok declared ∧ Mirrors program declared ∧
      scopes.Grows declared ∧ declared.Remembers current name := by
  obtain ⟨scope, hscope⟩ := hat.valid mirrors.sound
  have hreflects := mirrors.reflects hprogram hchain hat hscope
  refine ⟨_, ScopeArena.declare_eq hscope, ⟨ScopeArena.sound_rename mirrors.sound, ?_⟩, ?_, ?_⟩
  · intro other path new hother hnew
    obtain ⟨old, hold, -, -, hnames⟩ := ScopeArena.rename_eq_some hnew
    by_cases hsame : current = other
    · subst hsame
      obtain rfl := Option.some.inj (hscope.symm.trans hold)
      rw [if_pos rfl] at hnames
      refine ⟨region :: outer, hchain, hat.unique hother.of_rename mirrors.sound, fun x => ?_, fun x hx => ?_⟩
      · rw [hnames, Std.ExtTreeMap.getElem?_insert]
        by_cases hx : name = x
        · subst hx
          rw [if_pos Std.ReflCmp.compare_self]
          exact hnone.symm
        · simpa [hx] using hreflects.functions x
      · rw [Scope.mem_variableNames, hnames, Std.ExtTreeMap.getElem?_insert] at hx
        by_cases hsame : name = x
        · exact hsame ▸ hname
        · simp only [Std.LawfulEqCmp.compare_eq_iff_eq, hsame, if_false] at hx
          exact hreflects.vars x (Scope.mem_variableNames.mpr hx)
    · rw [if_neg hsame] at hnames
      obtain ⟨chain', hchain', hids, hreflects'⟩ := mirrors.scope hother.of_rename hold
      exact ⟨chain', hchain', hids, hreflects'.congr hnames⟩
  · refine ScopeArena.grows_rename fun old x _ hvariable => ?_
    rw [Std.ExtTreeMap.getElem?_insert]
    split
    · rfl
    · exact hvariable
  · obtain ⟨new, hnew, -, -, hnames⟩ := ScopeArena.eq_some_rename current
      (fun names => names.insert name .ofVariable) hscope
    refine ⟨new, hnew, Scope.mem_variableNames.mpr ?_⟩
    rw [hnames, if_pos rfl, Std.ExtTreeMap.getElem?_insert_self]

end Mirrors
end BlockIR
