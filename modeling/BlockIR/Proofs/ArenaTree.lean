import BlockIR.Proofs.Arena

/-! The arena under any use.

A host may ask anything of an arena, in any order and with any number in place of a
scope (`Request`). Whatever it asks, parents and children go on telling of the same
tree (`Tree`): what a request can do is to rename in one scope or to link a new one
(`after_cases`), and both keep it. Parents have smaller numbers than their children,
so the way outwards from a scope ends at the root (`Outwards`), and looking a name up
finds the first function on it. What a name stands for in a scope is what it was last
declared as there (`latest`), however often a host has gone back and forth between
variables and functions. -/
namespace BlockIR
namespace ScopeArena
variable {κ φ : Type}

/-! ### Requests -/

/-- What a host may ask of a scope. -/
inductive Action (κ φ : Type) where
  | enter (block : κ)
  | leave (table : Variables)
  | declare (name : String) (binding : Binding φ)
  | lookup (name : String)

/-- Something that is asked of what a host takes for a scope, which may be any number. -/
structure Request (κ φ : Type) where
  scope : Json.Number
  action : Action κ φ

section Requests
variable [BEq κ]

/-- The arena that comes of what is asked of a scope. -/
def Action.perform (arena : ScopeArena κ φ) (id : ScopeId) : Action κ φ → Except Error (ScopeArena κ φ)
  | enter block => (arena.enter id block).map Prod.snd
  | leave table => (arena.leave id table).1.map fun _ => arena
  | declare name binding => arena.declare id name binding
  | lookup name => (arena.lookup id name).map fun _ => arena

/-- The arena that comes of a request. -/
def Request.perform (arena : ScopeArena κ φ) (request : Request κ φ) : Except Error (ScopeArena κ φ) := do
  request.action.perform arena (← arena.known request.scope)

/-- The arena after a request, whether it was met or not. -/
def after (arena : ScopeArena κ φ) (request : Request κ φ) : ScopeArena κ φ :=
  match request.perform arena with
  | .ok later => later
  | .error _ => arena

/-- The arena after requests, one after another. -/
def afterAll (arena : ScopeArena κ φ) (requests : List (Request κ φ)) : ScopeArena κ φ := requests.foldl after arena

/-- The declaration that a request comes to: none, if there is no such scope. -/
def declaration? (arena : ScopeArena κ φ) (request : Request κ φ) : Option ((ScopeId × String) × Binding φ) :=
  match request.action, arena.known request.scope with
  | .declare name binding, .ok id => some ((id, name), binding)
  | _, _ => none

/-- The declarations that requests come to, the last one first. -/
def declarations (arena : ScopeArena κ φ) : List (Request κ φ) → List ((ScopeId × String) × Binding φ)
  | [] => []
  | request :: rest => (arena.after request).declarations rest ++ (arena.declaration? request).toList

/-- What a name was last declared as in a scope. -/
def latest (requests : List (Request κ φ)) (id : ScopeId) (name : String) : Option (Binding φ) :=
  (start.declarations requests).lookup (id, name)

end Requests

/-! ### Known scopes -/

section Known
variable {arena : ScopeArena κ φ} {number : Json.Number}

theorem known_eq_ok_iff {id : ScopeId} :
    arena.known number = .ok id ↔ number.toInt? = some (id : Int) ∧ id < arena.size := by
  unfold known
  rcases number.toInt? with _ | n
  · simp
  · simp only [Option.some.injEq]
    constructor
    · intro h
      split at h <;> cases h
      rename_i hn
      exact ⟨(Int.toNat_of_nonneg hn.1).symm, (Int.toNat_lt hn.1).mpr hn.2⟩
    · rintro ⟨rfl, hid⟩
      rw [if_pos ⟨Int.natCast_nonneg id, Int.ofNat_lt.mpr hid⟩, Int.toNat_natCast]

theorem known_eq_error (h : ∀ id, arena.known number ≠ .ok id) :
    arena.known number = .error (.unknownScope number) := by
  rcases hknown : arena.known number with error | id
  · unfold known at hknown
    split at hknown
    · split at hknown <;> cases hknown
      rfl
    · cases hknown
      rfl
  · exact absurd hknown (h id)

theorem exists_scope {id : ScopeId} (h : id < arena.size) : ∃ scope, arena.scopes[id]? = some scope :=
  ⟨_, Array.getElem?_eq_some_iff.mpr ⟨h, rfl⟩⟩

end Known

/-! ### What a request does -/

section After
variable [BEq κ] {arena : ScopeArena κ φ} {request : Request κ φ}

/-- A request fails in a scope that there is not. -/
theorem perform_unknown (h : ∀ id, arena.known request.scope ≠ .ok id) :
    request.perform arena = .error (.unknownScope request.scope) := by
  unfold Request.perform
  rw [known_eq_error h]
  rfl

theorem after_of_error {error : Error} (h : request.perform arena = .error error) : arena.after request = arena := by
  unfold after
  rw [h]

theorem after_of_ok {later : ScopeArena κ φ} (h : request.perform arena = .ok later) : arena.after request = later := by
  unfold after
  rw [h]

theorem perform_known {id : ScopeId} (h : arena.known request.scope = .ok id) :
    request.perform arena = request.action.perform arena id := by
  unfold Request.perform
  rw [h]
  rfl

/-- A request that gives back the arena that there is leaves it as it is. -/
theorem after_of_map {α : Type} {x : Except Error α} (h : request.perform arena = x.map fun _ => arena) :
    arena.after request = arena := by
  rcases x with error | a
  · exact after_of_error h
  · exact after_of_ok h

theorem lt_size_of_enter {current id : ScopeId} {block : κ} {entered : ScopeArena κ φ}
    (h : arena.enter current block = .ok (id, entered)) : current < arena.size := by
  rcases hscope : arena.scopes[current]? with _ | scope
  · unfold ScopeArena.enter at h
    rw [get_eq_error hscope] at h
    cases h
  · exact lt_size hscope

theorem after_leave (number : Json.Number) (table : Variables) : arena.after ⟨number, .leave table⟩ = arena := by
  by_cases hknown : ∃ id, arena.known number = .ok id
  · obtain ⟨id, hid⟩ := hknown
    exact after_of_map (perform_known hid)
  · exact after_of_error (perform_unknown (not_exists.mp hknown))

/-- An arena changes by a declaration, or by a block that is entered for the first time. -/
theorem after_cases [LawfulBEq κ] (arena : ScopeArena κ φ) (request : Request κ φ) :
    arena.after request = arena ∧ arena.declaration? request = none ∨
      (∃ id name binding scope, arena.declaration? request = some ((id, name), binding) ∧
        arena.scopes[id]? = some scope ∧ arena.after request = arena.rename id fun names => names.insert name binding) ∨
      ∃ current block scope, arena.declaration? request = none ∧ arena.scopes[current]? = some scope ∧
        (∀ child, (block, child) ∉ scope.children) ∧ arena.after request = arena.link current block := by
  unfold declaration?
  by_cases hknown : ∃ id, arena.known request.scope = .ok id
  · obtain ⟨id, hid⟩ := hknown
    obtain ⟨scope, hscope⟩ := exists_scope (known_eq_ok_iff.mp hid).2
    have hperform := perform_known hid
    rw [hid]
    rcases haction : request.action with block | table | ⟨name, binding⟩ | name <;> rw [haction] at hperform
    · rcases enter_cases hscope block with ⟨child, -, henter⟩ | ⟨hfresh, henter⟩
      · refine .inl ⟨after_of_ok (hperform.trans ?_), rfl⟩
        rw [Action.perform, henter]
        rfl
      · refine .inr (.inr ⟨id, block, scope, rfl, hscope, hfresh, after_of_ok (hperform.trans ?_)⟩)
        rw [Action.perform, henter]
        rfl
    · exact .inl ⟨after_of_map hperform, rfl⟩
    · exact .inr (.inl ⟨id, name, binding, scope, rfl, hscope, after_of_ok (hperform.trans (declare_eq hscope))⟩)
    · exact .inl ⟨after_of_map hperform, rfl⟩
  · have hfails := perform_unknown (not_exists.mp hknown)
    rw [known_eq_error (not_exists.mp hknown)]
    exact .inl ⟨after_of_error hfails, by rcases request.action with _ | _ | _ | _ <;> rfl⟩

end After

/-! ### The tree -/

/-- A scope that lists another one as that of a block. -/
def Lists (arena : ScopeArena κ φ) (outer : ScopeId) (block : κ) (id : ScopeId) : Prop :=
  ∃ scope, arena.scopes[outer]? = some scope ∧ (block, id) ∈ scope.children

/-- Parents and children tell of the same tree. -/
structure Tree (arena : ScopeArena κ φ) : Prop extends arena.Sound where
  listed : ∀ {id : ScopeId} {scope : Scope κ φ}, arena.scopes[id]? = some scope → id ≠ 0 →
    ∃ outer block, arena.Lists outer block id
  single : ∀ {outer i j : ScopeId} {block : κ}, arena.Lists outer block i → arena.Lists outer block j → i = j

section Listing
variable {arena : ScopeArena κ φ} {outer id : ScopeId} {block : κ}

theorem lists_rename {current : ScopeId} {f : Std.ExtTreeMap String (Binding φ) → Std.ExtTreeMap String (Binding φ)} :
    (arena.rename current f).Lists outer block id ↔ arena.Lists outer block id := by
  constructor
  · rintro ⟨scope, hscope, hmem⟩
    obtain ⟨old, hold, -, hchildren, -⟩ := rename_eq_some hscope
    exact ⟨old, hold, hchildren ▸ hmem⟩
  · rintro ⟨scope, hscope, hmem⟩
    obtain ⟨new, hnew, -, hchildren, -⟩ := eq_some_rename current f hscope
    exact ⟨new, hnew, hchildren ▸ hmem⟩

theorem lists_link {current : ScopeId} {scope : Scope κ φ} {key : κ} (hcurrent : arena.scopes[current]? = some scope) :
    (arena.link current key).Lists outer block id ↔
      (outer = current ∧ block = key ∧ id = arena.size) ∨ arena.Lists outer block id := by
  constructor
  · rintro ⟨later, hlater, hmem⟩
    exact child_link hlater hmem
  · rintro (⟨rfl, rfl, rfl⟩ | ⟨old, hold, hmem⟩)
    · obtain ⟨new, hnew, -, -, hchildren⟩ := eq_some_link outer block hcurrent
      refine ⟨new, hnew, ?_⟩
      rw [hchildren, if_pos rfl]
      exact List.mem_cons_self ..
    · obtain ⟨new, hnew, -, -, hchildren⟩ := eq_some_link current key hold
      refine ⟨new, hnew, ?_⟩
      rw [hchildren]
      split
      · exact List.mem_cons_of_mem _ hmem
      · exact hmem

/-- A scope that is listed has the one that lists it as its parent. -/
theorem Lists.parent (h : arena.Lists outer block id) (tree : arena.Tree) :
    outer < id ∧ ∃ scope, arena.scopes[id]? = some scope ∧ scope.parent = some outer := by
  obtain ⟨scope, hscope, hmem⟩ := h
  exact tree.child hscope hmem

/-- A scope is listed once. -/
theorem Lists.unique {other : ScopeId} {key : κ} (h : arena.Lists outer block id) (h' : arena.Lists other key id)
    (tree : arena.Tree) : other = outer ∧ key = block := by
  obtain ⟨-, inner, hinner, hparent⟩ := h.parent tree
  obtain ⟨-, inner', hinner', hparent'⟩ := h'.parent tree
  cases hinner.symm.trans hinner'
  cases hparent.symm.trans hparent'
  obtain ⟨scope, hscope, hmem⟩ := h
  obtain ⟨scope', hscope', hmem'⟩ := h'
  cases hscope.symm.trans hscope'
  exact ⟨rfl, tree.apart hscope hmem' hmem⟩

end Listing

theorem tree_start : (start : ScopeArena κ φ).Tree where
  toSound := sound_start
  listed {id scope} hscope hid := by
    cases id with
    | zero => exact absurd rfl hid
    | succ n => cases hscope
  single {outer i j block} h _ := by
    obtain ⟨scope, hscope, hmem⟩ := h
    cases outer with
    | zero => cases hscope; cases hmem
    | succ n => cases hscope

theorem tree_rename {arena : ScopeArena κ φ} (tree : arena.Tree) {current : ScopeId}
    {f : Std.ExtTreeMap String (Binding φ) → Std.ExtTreeMap String (Binding φ)} : (arena.rename current f).Tree where
  toSound := sound_rename tree.toSound
  listed hscope hid := by
    obtain ⟨old, hold, -⟩ := rename_eq_some hscope
    obtain ⟨outer, block, hlists⟩ := tree.listed hold hid
    exact ⟨outer, block, lists_rename.mpr hlists⟩
  single h h' := tree.single (lists_rename.mp h) (lists_rename.mp h')

theorem tree_link {arena : ScopeArena κ φ} (tree : arena.Tree) {current : ScopeId} {scope : Scope κ φ} {block : κ}
    (hcurrent : arena.scopes[current]? = some scope) (hfresh : ∀ child, (block, child) ∉ scope.children) :
    (arena.link current block).Tree where
  toSound := sound_link tree.toSound hcurrent block
  listed {id later} hlater hid := by
    rcases link_eq_some hlater with ⟨rfl, -⟩ | ⟨old, hold, -⟩
    · exact ⟨current, block, (lists_link hcurrent).mpr (.inl ⟨rfl, rfl, rfl⟩)⟩
    · obtain ⟨outer, key, hlists⟩ := tree.listed hold hid
      exact ⟨outer, key, (lists_link hcurrent).mpr (.inr hlists)⟩
  single {outer i j key} h h' := by
    -- The block that is entered was not listed before.
    have hnew {id : ScopeId} (hold : arena.Lists current block id) : False := by
      obtain ⟨old, hscope, hmem⟩ := hold
      cases hcurrent.symm.trans hscope
      exact hfresh id hmem
    rcases (lists_link hcurrent).mp h with ⟨rfl, rfl, rfl⟩ | hold <;>
      rcases (lists_link hcurrent).mp h' with ⟨hsame, hkey, rfl⟩ | hold'
    · rfl
    · exact (hnew hold').elim
    · subst hsame hkey
      exact (hnew hold).elim
    · exact tree.single hold hold'

section Keeping
variable [BEq κ] [LawfulBEq κ] {arena : ScopeArena κ φ}

theorem tree_after (tree : arena.Tree) (request : Request κ φ) : (arena.after request).Tree := by
  rcases after_cases arena request with ⟨h, -⟩ | ⟨id, name, binding, scope, -, -, h⟩ |
    ⟨current, block, scope, -, hscope, hfresh, h⟩ <;> rw [h]
  · exact tree
  · exact tree_rename tree
  · exact tree_link tree hscope hfresh

theorem tree_afterAll (tree : arena.Tree) (requests : List (Request κ φ)) : (arena.afterAll requests).Tree := by
  induction requests generalizing arena with
  | nil => exact tree
  | cons request rest ih => exact ih (tree_after tree request)

/-- What is listed once is listed for ever. -/
theorem lists_after {outer id : ScopeId} {block : κ} (h : arena.Lists outer block id) (request : Request κ φ) :
    (arena.after request).Lists outer block id := by
  rcases after_cases arena request with ⟨h', -⟩ | ⟨_, _, _, _, -, -, h'⟩ | ⟨current, key, scope, -, hscope, -, h'⟩ <;>
    rw [h']
  · exact h
  · exact lists_rename.mpr h
  · exact (lists_link hscope).mpr (.inr h)

theorem lists_afterAll {outer id : ScopeId} {block : κ} (h : arena.Lists outer block id)
    (requests : List (Request κ φ)) : (arena.afterAll requests).Lists outer block id := by
  induction requests generalizing arena with
  | nil => exact h
  | cons request rest ih => exact ih (lists_after h request)

/-! ### Entering -/

/-- A scope that is entered is listed. -/
theorem Tree.enter (tree : arena.Tree) {current : ScopeId} (h : current < arena.size) (block : κ) :
    ∃ id entered, arena.enter current block = .ok (id, entered) ∧ entered.Tree ∧ entered.Lists current block id ∧
      ∀ {outer other : ScopeId} {key : κ}, arena.Lists outer key other → entered.Lists outer key other := by
  obtain ⟨scope, hscope⟩ := exists_scope h
  rcases enter_cases hscope block with ⟨child, hmem, henter⟩ | ⟨hfresh, henter⟩
  · exact ⟨child, arena, henter, tree, ⟨scope, hscope, hmem⟩, fun hlists => hlists⟩
  · exact ⟨arena.size, _, henter, tree_link tree hscope hfresh, (lists_link hscope).mpr (.inl ⟨rfl, rfl, rfl⟩),
      fun hlists => (lists_link hscope).mpr (.inr hlists)⟩

/-- A scope that is listed is found again. -/
theorem Tree.enter_of_lists (tree : arena.Tree) {current id : ScopeId} {block : κ} (h : arena.Lists current block id) :
    arena.enter current block = .ok (id, arena) := by
  have ⟨scope, hscope, hmem⟩ := h
  rcases enter_cases hscope block with ⟨child, hchild, henter⟩ | ⟨hfresh, -⟩
  · rw [henter, tree.single ⟨scope, hscope, hchild⟩ h]
  · exact absurd hmem (hfresh id)

/-- What is entered once is found for ever, and by entering the same block from the same scope only. -/
theorem Tree.enter_again (tree : arena.Tree) {current id : ScopeId} {block : κ} (h : arena.Lists current block id)
    (more : List (Request κ φ)) :
    (arena.afterAll more).enter current block = .ok (id, arena.afterAll more) ∧
      ∀ other key found last, (arena.afterAll more).enter other key = .ok (found, last) →
        (found = id ↔ other = current ∧ key = block) := by
  have treeLater := tree_afterAll tree more
  have hlater := lists_afterAll h more
  have hagain := treeLater.enter_of_lists hlater
  refine ⟨hagain, fun other key found last hfound => ⟨?_, ?_⟩⟩
  · rintro rfl
    obtain ⟨id, last', henter', treeLast, hlast, hkept⟩ := treeLater.enter (lt_size_of_enter hfound) key
    cases henter'.symm.trans hfound
    exact (hkept hlater).unique hlast treeLast
  · rintro ⟨rfl, rfl⟩
    cases hagain.symm.trans hfound
    rfl

end Keeping

/-! ### Names -/

/-- What a name stands for in a scope. -/
def binding? (arena : ScopeArena κ φ) (id : ScopeId) (name : String) : Option (Binding φ) :=
  arena.scopes[id]?.bind fun scope => scope.names[name]?

section Names
variable {arena : ScopeArena κ φ} {id : ScopeId} {scope : Scope κ φ} {name : String}

theorem binding?_eq (h : arena.scopes[id]? = some scope) : arena.binding? id name = scope.names[name]? := by
  unfold binding?
  rw [h, Option.bind_some]

theorem binding?_start : (start : ScopeArena κ φ).binding? id name = none := by
  cases id with
  | zero => exact (binding?_eq rfl).trans Std.ExtTreeMap.getElem?_empty
  | succ n => rfl

theorem binding?_declared {declared : String} {binding : Binding φ} {current : ScopeId}
    (h : arena.scopes[current]? = some scope) :
    (arena.rename current fun names => names.insert declared binding).binding? id name =
      if (id, name) = (current, declared) then some binding else arena.binding? id name := by
  unfold binding?
  rw [scopes_rename]
  by_cases hid : current = id
  · subst hid
    rw [h, Option.map_some, if_pos rfl, Option.bind_some, Option.bind_some, Std.ExtTreeMap.getElem?_insert]
    by_cases hname : name = declared
    · simp [hname]
    · simp [hname, Ne.symm hname]
  · rcases arena.scopes[id]? with _ | other <;> simp [hid, Ne.symm hid]

theorem binding?_link {current : ScopeId} {block : κ} :
    (arena.link current block).binding? id name = arena.binding? id name := by
  unfold binding?
  rw [scopes_link]
  by_cases hid : id = arena.size
  · have hnone : arena.scopes[id]? = none := Array.getElem?_eq_none (Nat.le_of_eq hid.symm)
    rw [if_pos hid, hnone]
    exact Std.ExtTreeMap.getElem?_empty
  · rw [if_neg hid]
    rcases arena.scopes[id]? with _ | other
    · rfl
    · simp only [Option.map_some, Option.bind_some]
      split <;> rfl

theorem mem_variableNames_iff (h : arena.scopes[id]? = some scope) :
    name ∈ scope.variableNames ↔ arena.binding? id name = some .ofVariable := by
  rw [Scope.mem_variableNames, binding?_eq h]

variable [BEq κ] [LawfulBEq κ]

theorem binding?_after (request : Request κ φ) : (arena.after request).binding? id name =
    ((arena.declaration? request).toList.lookup (id, name)).or (arena.binding? id name) := by
  rcases after_cases arena request with ⟨h, hdeclaration⟩ |
    ⟨current, declared, binding, scope, hdeclaration, hscope, h⟩ |
    ⟨current, block, scope, hdeclaration, -, -, h⟩ <;> rw [h, hdeclaration]
  · rfl
  · rw [binding?_declared hscope, Option.toList_some, List.lookup_cons]
    by_cases hsame : (id, name) = (current, declared)
    · rw [if_pos hsame, hsame]
      simp
    · have hother : ((id, name) == (current, declared)) = false := beq_eq_false_iff_ne.mpr hsame
      rw [if_neg hsame, hother]
      rfl
  · exact binding?_link

theorem binding?_afterAll (requests : List (Request κ φ)) : (arena.afterAll requests).binding? id name =
    ((arena.declarations requests).lookup (id, name)).or (arena.binding? id name) := by
  induction requests generalizing arena with
  | nil => rfl
  | cons request rest ih =>
    have hrest : ((arena.after request).afterAll rest).binding? id name = _ := ih
    rw [binding?_after, ← Option.or_assoc, ← List.lookup_append] at hrest
    exact hrest

/-- A name stands for what it was declared as last. -/
theorem binding?_eq_latest (requests : List (Request κ φ)) :
    (start.afterAll requests).binding? id name = latest requests id name := by
  rw [binding?_afterAll, binding?_start, Option.or_none, latest]

end Names

/-! ### Looking up -/

/-- The scopes from one outwards to the root. -/
inductive Outwards (arena : ScopeArena κ φ) : ScopeId → List ScopeId → Prop
  | root {id : ScopeId} {scope : Scope κ φ} : arena.scopes[id]? = some scope → scope.parent = none →
      Outwards arena id [id]
  | inner {id outer : ScopeId} {scope : Scope κ φ} {chain : List ScopeId} : arena.scopes[id]? = some scope →
      scope.parent = some outer → Outwards arena outer chain → Outwards arena id (id :: chain)

section Lookup
variable {arena : ScopeArena κ φ} {id : ScopeId}

/-- A scope has a parent, which lists it, unless it is the root. -/
theorem Tree.parent (tree : arena.Tree) {scope : Scope κ φ} (h : arena.scopes[id]? = some scope) :
    (id = 0 ∧ scope.parent = none) ∨
      ∃ outer block, scope.parent = some outer ∧ outer < id ∧ arena.Lists outer block id := by
  by_cases hid : id = 0
  · subst hid
    obtain ⟨root, hroot, hparent⟩ := tree.root
    cases hroot.symm.trans h
    exact .inl ⟨rfl, hparent⟩
  · obtain ⟨outer, block, hlists⟩ := tree.listed h hid
    obtain ⟨hless, inner, hinner, hparent⟩ := hlists.parent tree
    cases hinner.symm.trans h
    exact .inr ⟨outer, block, hparent, hless, hlists⟩

/-- Parents come before their children, so the way outwards ends. -/
theorem Tree.outwards (tree : arena.Tree) (h : id < arena.size) :
    ∃ chain, arena.Outwards id chain ∧ chain.length ≤ arena.size := by
  suffices hchain : ∃ chain, arena.Outwards id chain ∧ chain.length ≤ id + 1 by
    obtain ⟨chain, houtwards, hlength⟩ := hchain
    exact ⟨chain, houtwards, Nat.le_trans hlength h⟩
  induction id using Nat.strongRecOn with
  | ind id ih =>
    obtain ⟨scope, hscope⟩ := exists_scope h
    obtain ⟨-, hparent⟩ | ⟨outer, -, hparent, hless, -⟩ := tree.parent hscope
    · exact ⟨[id], .root hscope hparent, Nat.succ_le_succ (Nat.zero_le id)⟩
    · obtain ⟨chain, houtwards, hlength⟩ := ih outer hless (Nat.lt_trans hless h)
      exact ⟨id :: chain, .inner hscope hparent houtwards, Nat.succ_le_succ (Nat.le_trans hlength hless)⟩

/-- A name is looked up in one scope after the other. -/
theorem lookupWithin_outwards {chain : List ScopeId} (h : arena.Outwards id chain) (name : String) {bound : Nat}
    (hbound : chain.length ≤ bound) : arena.lookupWithin name bound id =
      .ok (chain.findSome? fun id => (arena.binding? id name >>= Binding.function?).map (id, ·)) := by
  induction h generalizing bound with
  | @root id scope hscope hparent =>
    cases bound with
    | zero => nomatch hbound
    | succ bound =>
      rw [lookupWithin_succ hscope, hparent, List.findSome?_cons, binding?_eq hscope]
      rcases scope.names[name]? >>= Binding.function? with _ | definition <;> rfl
  | @inner id outer scope chain hscope hparent _ ih =>
    cases bound with
    | zero => nomatch hbound
    | succ bound =>
      rw [lookupWithin_succ hscope, hparent, List.findSome?_cons, binding?_eq hscope]
      have hrest := ih (Nat.le_of_succ_le_succ hbound)
      rcases scope.names[name]? >>= Binding.function? with _ | definition
      · exact hrest
      · rfl

/-- Looking a name up goes the whole way outwards, and a greater bound changes nothing. -/
theorem Tree.lookup (tree : arena.Tree) (h : id < arena.size) (name : String) :
    ∃ chain, arena.Outwards id chain ∧
      arena.lookup id name =
        .ok (chain.findSome? fun id => (arena.binding? id name >>= Binding.function?).map (id, ·)) ∧
      ∀ bound, chain.length ≤ bound → arena.lookupWithin name bound id = arena.lookup id name := by
  obtain ⟨chain, houtwards, hlength⟩ := tree.outwards h
  have hlookup := lookupWithin_outwards houtwards name (Nat.le_succ_of_le hlength)
  exact ⟨chain, houtwards, hlookup, fun bound hbound =>
    (lookupWithin_outwards houtwards name hbound).trans hlookup.symm⟩

end Lookup

/-! ### Leaving -/

/-- Leaving gives the parent, if there is one, and drops what the scope remembers in any case. -/
theorem leave_apply {arena : ScopeArena κ φ} {current : ScopeId} {scope : Scope κ φ}
    (h : arena.scopes[current]? = some scope) (table : Variables) :
    arena.leave current table =
      (match scope.parent with
        | some outer => .ok outer
        | none => .error .scopeUnderflow, without table scope.variableNames) := by
  rcases hparent : scope.parent with _ | outer
  · unfold leave
    rw [get_eq_ok_iff.mpr h]
    show (match scope.parent with
      | some parent => pure parent
      | none => Effect.fail .scopeUnderflow : Effect Variables Error ScopeId) _ = _
    rw [hparent]
    rfl
  · exact leave_eq h hparent

end ScopeArena

open ScopeArena in
/-- Whatever a host asks of a new arena, in whatever order and with whatever numbers as scopes:

- A request in no known scope fails, and the arena stays as it is.
- The root alone has no parent. Any other scope has a parent with a smaller number, which lists it as that of one
  block, and nothing else lists it. What is listed is a scope.
- A block that is entered from a scope again, at any later time, gives the same scope, and another block or another
  scope to enter from gives another one.
- Looking up a name ends, and finds the function of the nearest scope outwards where the name was last declared as a
  function, if there is one.
- Leaving drops those names from a table that were last declared as variables in the scope, and no others; it gives
  the parent, or fails in the root, and the arena stays as it is. -/
theorem requests_keep_tree {κ φ : Type} [BEq κ] [LawfulBEq κ] (requests : List (Request κ φ)) :
    let arena : ScopeArena κ φ := start.afterAll requests
    (∀ request : Request κ φ, (¬∃ id : ScopeId, request.scope.toInt? = some (id : Int) ∧ id < arena.size) →
      request.perform arena = .error (.unknownScope request.scope) ∧ arena.after request = arena) ∧
    ((∃ scope, arena.scopes[0]? = some scope ∧ scope.parent = none) ∧
      (∀ id scope, arena.scopes[id]? = some scope → id ≠ 0 → ∃ outer block, scope.parent = some outer ∧ outer < id ∧
        ∀ other key, arena.Lists other key id ↔ other = outer ∧ key = block) ∧
      ∀ outer block id, arena.Lists outer block id →
        ∃ scope, arena.scopes[id]? = some scope ∧ scope.parent = some outer) ∧
    (∀ current block, current < arena.size → ∃ id entered, arena.enter current block = .ok (id, entered) ∧
      ∀ more, (entered.afterAll more).enter current block = .ok (id, entered.afterAll more) ∧
        ∀ other key found last, (entered.afterAll more).enter other key = .ok (found, last) →
          (found = id ↔ other = current ∧ key = block)) ∧
    (∀ id name, id < arena.size → ∃ chain, arena.Outwards id chain ∧
      arena.lookup id name =
        .ok (chain.findSome? fun id => (latest requests id name >>= Binding.function?).map (id, ·)) ∧
      ∀ bound, chain.length ≤ bound → arena.lookupWithin name bound id = arena.lookup id name) ∧
    ∀ id table, id < arena.size → ∃ result rest, arena.leave id table = (result, rest) ∧
      (∀ name, (latest requests id name = some .ofVariable → rest[name]? = none) ∧
        (latest requests id name ≠ some .ofVariable → rest[name]? = table[name]?)) ∧
      (id = 0 ∧ result = .error .scopeUnderflow ∨
        ∃ outer block, result = .ok outer ∧ arena.Lists outer block id) ∧
      ∀ number, arena.after ⟨number, .leave table⟩ = arena := by
  intro arena
  have tree : arena.Tree := tree_afterAll tree_start requests
  refine ⟨fun request hunknown => ?_, ⟨tree.root, fun id scope hscope hid => ?_, fun outer block id hlists => ?_⟩,
    fun current block hcurrent => ?_, fun id name hid => ?_, fun id table hid => ?_⟩
  · have hfails : request.perform arena = .error (.unknownScope request.scope) :=
      perform_unknown fun id hid => hunknown ⟨id, known_eq_ok_iff.mp hid⟩
    exact ⟨hfails, after_of_error hfails⟩
  · obtain ⟨hroot, -⟩ | ⟨outer, block, hparent, hless, hlists⟩ := tree.parent hscope
    · exact absurd hroot hid
    · refine ⟨outer, block, hparent, hless, fun other key => ⟨fun hother => hlists.unique hother tree, ?_⟩⟩
      rintro ⟨rfl, rfl⟩
      exact hlists
  · exact (hlists.parent tree).2
  · obtain ⟨id, entered, henter, treeEntered, hlists, -⟩ := tree.enter hcurrent block
    exact ⟨id, entered, henter, treeEntered.enter_again hlists⟩
  · simpa only [arena, binding?_eq_latest] using tree.lookup hid name
  · obtain ⟨scope, hscope⟩ := exists_scope hid
    refine ⟨_, _, leave_apply hscope table, fun name => ?_, ?_, fun number => ?_⟩
    · have hvariable : name ∈ scope.variableNames ↔ latest requests id name = some .ofVariable := by
        rw [mem_variableNames_iff hscope, binding?_eq_latest]
      rw [getElem?_without]
      exact ⟨fun h => if_pos (hvariable.mpr h), fun h => if_neg fun hmem => h (hvariable.mp hmem)⟩
    · obtain ⟨hroot, hparent⟩ | ⟨outer, block, hparent, -, hlists⟩ := tree.parent hscope
      · exact .inl ⟨hroot, by rw [hparent]⟩
      · exact .inr ⟨outer, block, by rw [hparent], hlists⟩
    · exact after_leave number table

namespace Sample

/-- A host that uses one name for a function outside and for a variable inside, and misses twice. -/
def hosted : List (ScopeArena.Request String String) :=
  [⟨.finite false 0 0, .declare "f" (.ofFunction "first")⟩, ⟨.finite false 0 0, .enter "a"⟩,
    ⟨.finite true 5 0, .declare "f" .ofVariable⟩, ⟨.finite false 1 0, .declare "f" .ofVariable⟩,
    ⟨.finite false 1 0, .enter "b"⟩, ⟨.finite false 1 (-1), .leave ∅⟩]

/-- A scope of a negative number is entered. -/
def astray : ScopeArena.Request String String := ⟨.finite true 5 0, .enter "a"⟩

end Sample

theorem requests_keep_tree_sample :
    let arena : ScopeArena String String := .afterAll .start Sample.hosted
    (2 < arena.size ∧ ScopeArena.latest Sample.hosted 1 "f" = some .ofVariable) ∧
    Sample.astray.perform arena = .error (.unknownScope (.finite true 5 0)) ∧
    (∃ outer block, outer < 2 ∧ ∀ other key, arena.Lists other key 2 ↔ other = outer ∧ key = block) ∧
    (∃ id entered, arena.enter 2 "a" = .ok (id, entered) ∧
      (entered.afterAll Sample.hosted).enter 2 "a" = .ok (id, entered.afterAll Sample.hosted)) ∧
    (∃ chain, arena.Outwards 2 chain ∧ arena.lookup 2 "f" = .ok (chain.findSome? fun id =>
      (ScopeArena.latest Sample.hosted id "f" >>= Binding.function?).map (id, ·))) ∧
    ∃ result rest, arena.leave 1 (.ofList [("f", 1), ("g", 2)]) = (result, rest) ∧ rest["f"]? = none := by
  intro arena
  obtain ⟨hunknown, ⟨-, hlisted, -⟩, henter, hlookup, hleave⟩ := requests_keep_tree Sample.hosted
  have hsize : 2 < arena.size := of_decide_eq_true rfl
  have hlatest : ScopeArena.latest Sample.hosted 1 "f" = some .ofVariable := rfl
  have hastray : ¬∃ id : ScopeId, Sample.astray.scope.toInt? = some (id : Int) ∧ id < arena.size := by
    rintro ⟨id, hid, -⟩
    have hnegative : (-5 : Int) = (id : Nat) := Option.some.inj hid
    omega
  obtain ⟨scope, hscope⟩ := ScopeArena.exists_scope hsize
  obtain ⟨outer, block, -, hless, hlists⟩ := hlisted 2 scope hscope (by decide)
  obtain ⟨id, entered, hentered, hagain⟩ := henter 2 "a" hsize
  obtain ⟨chain, houtwards, hfound, -⟩ := hlookup 2 "f" hsize
  obtain ⟨result, rest, hresult, hdropped, -⟩ := hleave 1 (.ofList [("f", 1), ("g", 2)]) (Nat.lt_of_succ_lt hsize)
  exact ⟨⟨hsize, hlatest⟩, (hunknown _ hastray).1, ⟨outer, block, hless, hlists⟩,
    ⟨id, entered, hentered, (hagain Sample.hosted).1⟩, ⟨chain, houtwards, hfound⟩, result, rest, hresult,
    (hdropped "f").1 hlatest⟩

end BlockIR
