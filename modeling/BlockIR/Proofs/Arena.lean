import BlockIR.Scope

/-! The arena as a tree.

`arena.At id path` says that entering the blocks of `path` one from inside the
other, the innermost first in the list, leads from the root to the scope `id`.
In a sound arena (`Sound`) a scope has one path and its parent has the rest of
it. An arena only ever grows (`Grows`): scopes keep their parents, their
children and the variables they remember, so paths stay. -/
namespace BlockIR

variable {κ φ : Type}

theorem Scope.mem_variableNames {scope : Scope κ φ} {name : String} :
    name ∈ scope.variableNames ↔ scope.names[name]? = some .ofVariable := by
  unfold variableNames
  constructor
  · intro h
    obtain ⟨⟨key, binding⟩, hentry, rfl⟩ := List.mem_map.mp h
    obtain ⟨hmem, hvariable⟩ := List.mem_filter.mp hentry
    cases binding with
    | ofVariable => exact Std.ExtTreeMap.mem_toList_iff_getElem?_eq_some.mp hmem
    | ofFunction _ => cases hvariable
  · intro h
    refine List.mem_map.mpr ⟨(name, .ofVariable), List.mem_filter.mpr ⟨?_, rfl⟩, rfl⟩
    exact Std.ExtTreeMap.mem_toList_iff_getElem?_eq_some.mpr h

/-- A later state of one scope. -/
structure Scope.Grows (scope later : Scope κ φ) : Prop where
  parent : later.parent = scope.parent
  children : ∀ entry ∈ scope.children, entry ∈ later.children
  vars : ∀ name ∈ scope.variableNames, name ∈ later.variableNames

theorem Scope.Grows.refl (scope : Scope κ φ) : scope.Grows scope := ⟨rfl, fun _ h => h, fun _ h => h⟩

namespace ScopeArena

/-- The scope that a path of blocks leads to. -/
inductive At (arena : ScopeArena κ φ) : ScopeId → List κ → Prop
  | root : At arena 0 []
  | child {outer id : ScopeId} {path : List κ} {block : κ} {scope : Scope κ φ} :
    At arena outer path → arena.scopes[outer]? = some scope → (block, id) ∈ scope.children →
      At arena id (block :: path)

/-- The scopes of an arena are a tree, whose root is scope 0. -/
structure Sound (arena : ScopeArena κ φ) : Prop where
  root : ∃ scope, arena.scopes[0]? = some scope ∧ scope.parent = none
  child : ∀ {outer id : ScopeId} {scope : Scope κ φ} {block : κ}, arena.scopes[outer]? = some scope →
    (block, id) ∈ scope.children → outer < id ∧
      ∃ inner : Scope κ φ, arena.scopes[id]? = some inner ∧ inner.parent = some outer
  apart : ∀ {outer id : ScopeId} {scope : Scope κ φ} {a b : κ}, arena.scopes[outer]? = some scope →
    (a, id) ∈ scope.children → (b, id) ∈ scope.children → a = b

/-- A later state of an arena. -/
def Grows (arena later : ScopeArena κ φ) : Prop :=
  ∀ (id : ScopeId) (scope : Scope κ φ), arena.scopes[id]? = some scope →
    ∃ grown, later.scopes[id]? = some grown ∧ scope.Grows grown

/-- The variables that a scope remembers. -/
def Remembers (arena : ScopeArena κ φ) (id : ScopeId) (name : String) : Prop :=
  ∃ scope, arena.scopes[id]? = some scope ∧ name ∈ scope.variableNames

/-! ### Paths -/

section Paths
variable {arena : ScopeArena κ φ} {id : ScopeId} {path : List κ}

theorem At.valid (h : arena.At id path) (sound : arena.Sound) : ∃ scope, arena.scopes[id]? = some scope := by
  cases h with
  | root =>
    obtain ⟨scope, hscope, -⟩ := sound.root
    exact ⟨scope, hscope⟩
  | child houter hscope hmem =>
    obtain ⟨-, inner, hinner, -⟩ := sound.child hscope hmem
    exact ⟨inner, hinner⟩

/-- The parent of a scope is where the rest of its path leads. -/
theorem At.outer {block : κ} (h : arena.At id (block :: path)) (sound : arena.Sound) :
    ∃ scope outer, arena.scopes[id]? = some scope ∧ scope.parent = some outer ∧ arena.At outer path := by
  cases h with
  | child houter hscope hmem =>
    obtain ⟨-, inner, hinner, hparent⟩ := sound.child hscope hmem
    exact ⟨inner, _, hinner, hparent, houter⟩

/-- Paths are no longer than the number of the scope they lead to. -/
theorem At.length_le (h : arena.At id path) (sound : arena.Sound) : path.length ≤ id := by
  induction h with
  | root => exact Nat.le_refl 0
  | child houter hscope hmem ih =>
    obtain ⟨hless, -⟩ := sound.child hscope hmem
    exact Nat.succ_le_of_lt (Nat.lt_of_le_of_lt ih hless)

/-- One path leads to a scope. -/
theorem At.unique {other : List κ} (h : arena.At id path) (hother : arena.At id other)
    (sound : arena.Sound) : path = other := by
  induction h generalizing other with
  | root =>
    cases hother with
    | root => rfl
    | child _ hscope hmem => exact absurd (sound.child hscope hmem).1 (Nat.not_lt_zero _)
  | child houter hscope hmem ih =>
    obtain ⟨hless, inner, hinner, hparent⟩ := sound.child hscope hmem
    cases hother with
    | root => exact absurd hless (Nat.not_lt_zero _)
    | child houter' hscope' hmem' =>
      obtain ⟨-, inner', hinner', hparent'⟩ := sound.child hscope' hmem'
      -- Both paths end with a step from the parent of the scope.
      obtain rfl := Option.some.inj (hinner.symm.trans hinner')
      obtain rfl := Option.some.inj (hparent.symm.trans hparent')
      obtain rfl := Option.some.inj (hscope.symm.trans hscope')
      rw [ih houter', sound.apart hscope hmem hmem']

theorem At.grows {later : ScopeArena κ φ} (h : arena.At id path) (grows : arena.Grows later) :
    later.At id path := by
  induction h with
  | root => exact .root
  | child _ hscope hmem ih =>
    obtain ⟨grown, hgrown, hgrows⟩ := grows _ _ hscope
    exact .child ih hgrown (hgrows.children _ hmem)

end Paths

/-! ### Growing -/

section Growing
variable {arena later : ScopeArena κ φ}

theorem Grows.refl (arena : ScopeArena κ φ) : arena.Grows arena :=
  fun _ scope h => ⟨scope, h, .refl scope⟩

theorem Grows.trans {last : ScopeArena κ φ} (h : arena.Grows later) (h' : later.Grows last) :
    arena.Grows last := by
  intro id scope hscope
  obtain ⟨grown, hgrown, hgrows⟩ := h id scope hscope
  obtain ⟨full, hfull, hgrows'⟩ := h' id grown hgrown
  refine ⟨full, hfull, hgrows'.parent.trans hgrows.parent, fun entry hentry => ?_, fun name hname => ?_⟩
  · exact hgrows'.children entry (hgrows.children entry hentry)
  · exact hgrows'.vars name (hgrows.vars name hname)

theorem Remembers.grows {id : ScopeId} {name : String} (h : arena.Remembers id name)
    (grows : arena.Grows later) : later.Remembers id name := by
  obtain ⟨scope, hscope, hname⟩ := h
  obtain ⟨grown, hgrown, hgrows⟩ := grows id scope hscope
  exact ⟨grown, hgrown, hgrows.vars name hname⟩

end Growing

theorem sound_start : (start : ScopeArena κ φ).Sound where
  root := ⟨_, rfl, rfl⟩
  child {outer id scope block} hscope hmem := by
    match outer with
    | 0 => cases hscope; cases hmem
    | n + 1 => cases hscope
  apart {outer id scope a b} hscope hmem := by
    match outer with
    | 0 => cases hscope; cases hmem
    | n + 1 => cases hscope

/-! ### Names -/

/-- An arena with the names of one scope changed. -/
def rename (arena : ScopeArena κ φ) (id : ScopeId)
    (f : Std.ExtTreeMap String (Binding φ) → Std.ExtTreeMap String (Binding φ)) : ScopeArena κ φ :=
  ⟨arena.scopes.modify id fun scope => { scope with names := f scope.names }⟩

section Rename
variable {arena : ScopeArena κ φ} {id : ScopeId}
  {f : Std.ExtTreeMap String (Binding φ) → Std.ExtTreeMap String (Binding φ)}

theorem scopes_rename (other : ScopeId) :
    (arena.rename id f).scopes[other]? =
      (arena.scopes[other]?).map fun scope =>
        if id = other then { scope with names := f scope.names } else scope := by
  unfold rename
  rw [Array.getElem?_modify]
  split
  · rfl
  · exact Option.map_id'.symm

/-- A scope after a change of names is one from before, up to its names. -/
theorem rename_eq_some {other : ScopeId} {scope : Scope κ φ}
    (h : (arena.rename id f).scopes[other]? = some scope) :
    ∃ old, arena.scopes[other]? = some old ∧ scope.parent = old.parent ∧ scope.children = old.children ∧
      scope.names = if id = other then f old.names else old.names := by
  rw [scopes_rename] at h
  obtain ⟨old, hold, rfl⟩ := Option.map_eq_some_iff.mp h
  refine ⟨old, hold, ?_⟩
  split <;> exact ⟨rfl, rfl, rfl⟩

theorem eq_some_rename (id : ScopeId)
    (f : Std.ExtTreeMap String (Binding φ) → Std.ExtTreeMap String (Binding φ)) {other : ScopeId}
    {scope : Scope κ φ} (h : arena.scopes[other]? = some scope) :
    ∃ new, (arena.rename id f).scopes[other]? = some new ∧ new.parent = scope.parent ∧
      new.children = scope.children ∧ new.names = if id = other then f scope.names else scope.names := by
  rw [scopes_rename, h]
  refine ⟨_, rfl, ?_⟩
  split <;> exact ⟨rfl, rfl, rfl⟩

theorem sound_rename (sound : arena.Sound) : (arena.rename id f).Sound where
  root := by
    obtain ⟨scope, hscope, hparent⟩ := sound.root
    obtain ⟨new, hnew, hparent', -, -⟩ := eq_some_rename id f hscope
    exact ⟨new, hnew, hparent'.trans hparent⟩
  child hscope hmem := by
    obtain ⟨old, hold, -, hchildren, -⟩ := rename_eq_some hscope
    obtain ⟨hless, inner, hinner, hparent⟩ := sound.child hold (hchildren ▸ hmem)
    obtain ⟨new, hnew, hparent', -, -⟩ := eq_some_rename id f hinner
    exact ⟨hless, new, hnew, hparent'.trans hparent⟩
  apart hscope ha hb := by
    obtain ⟨old, hold, -, hchildren, -⟩ := rename_eq_some hscope
    exact sound.apart hold (hchildren ▸ ha) (hchildren ▸ hb)

theorem At.of_rename {other : ScopeId} {path : List κ} (h : (arena.rename id f).At other path) :
    arena.At other path := by
  induction h with
  | root => exact .root
  | child _ hscope hmem ih =>
    obtain ⟨old, hold, -, hchildren, -⟩ := rename_eq_some hscope
    exact .child ih hold (hchildren ▸ hmem)

theorem at_rename {other : ScopeId} {path : List κ} (h : arena.At other path) :
    (arena.rename id f).At other path := by
  induction h with
  | root => exact .root
  | child _ hscope hmem ih =>
    obtain ⟨new, hnew, -, hchildren, -⟩ := eq_some_rename id f hscope
    exact .child ih hnew (hchildren ▸ hmem)

/-- Changing names grows the arena if it forgets no variable. -/
theorem grows_rename (h : ∀ (scope : Scope κ φ) (name : String), arena.scopes[id]? = some scope →
      scope.names[name]? = some .ofVariable → (f scope.names)[name]? = some .ofVariable) :
    arena.Grows (arena.rename id f) := by
  intro other scope hscope
  obtain ⟨new, hnew, hparent, hchildren, hnames⟩ := eq_some_rename id f hscope
  refine ⟨new, hnew, hparent, fun entry hentry => hchildren ▸ hentry, fun name hname => ?_⟩
  rw [Scope.mem_variableNames] at hname ⊢
  rw [hnames]
  split
  · rename_i hid
    exact h scope name (hid ▸ hscope) hname
  · exact hname

theorem declare_eq {name : String} {binding : Binding φ} {scope : Scope κ φ}
    (h : arena.scopes[id]? = some scope) :
    arena.declare id name binding = .ok (arena.rename id fun names => names.insert name binding) := by
  unfold declare
  rw [get_eq_ok_iff.mpr h]
  rfl

theorem rename_rename (g : Std.ExtTreeMap String (Binding φ) → Std.ExtTreeMap String (Binding φ)) :
    (arena.rename id f).rename id g = arena.rename id fun names => g (f names) := by
  unfold rename
  congr 1
  apply Array.ext_getElem?
  intro i
  simp only [Array.getElem?_modify]
  split
  · cases arena.scopes[i]? <;> rfl
  · rfl

theorem rename_self (arena : ScopeArena κ φ) (id : ScopeId) : arena.rename id (fun names => names) = arena := by
  obtain ⟨scopes⟩ := arena
  unfold rename
  congr 1
  apply Array.ext_getElem?
  intro i
  simp only [Array.getElem?_modify]
  split
  · cases scopes[i]? <;> rfl
  · rfl

end Rename

/-! ### Entering -/

/-- An arena with one more scope: that of a block entered from `current`. -/
def link (arena : ScopeArena κ φ) (current : ScopeId) (block : κ) : ScopeArena κ φ :=
  ⟨(arena.scopes.modify current fun s => { s with children := (block, arena.size) :: s.children }).push
    { parent := some current }⟩

/-- Entering finds the scope of the block, or makes it if there is none. -/
theorem enter_cases [BEq κ] [LawfulBEq κ] {arena : ScopeArena κ φ} {current : ScopeId} {scope : Scope κ φ}
    (h : arena.scopes[current]? = some scope) (block : κ) :
    (∃ child, (block, child) ∈ scope.children ∧ arena.enter current block = .ok (child, arena)) ∨
      (∀ child, (block, child) ∉ scope.children) ∧
        arena.enter current block = .ok (arena.size, arena.link current block) := by
  unfold enter
  rw [get_eq_ok_iff.mpr h]
  rcases hlookup : scope.children.lookup block with _ | child
  · right
    refine ⟨fun child hchild => ?_, ?_⟩
    · have hother := List.lookup_eq_none_iff.mp hlookup _ hchild
      simp at hother
    · simp only [bind, Except.bind, hlookup]
      rfl
  · left
    obtain ⟨before, after, hchildren, -⟩ := List.lookup_eq_some_iff.mp hlookup
    refine ⟨child, by rw [hchildren]; simp, ?_⟩
    simp only [bind, Except.bind, hlookup]

section Link
variable {arena : ScopeArena κ φ} {current : ScopeId} {block : κ}

theorem scopes_link (other : ScopeId) :
    (arena.link current block).scopes[other]? =
      if other = arena.size then some { parent := some current }
      else (arena.scopes[other]?).map fun scope =>
        if current = other then { scope with children := (block, arena.size) :: scope.children }
        else scope := by
  unfold link size
  rw [Array.getElem?_push, Array.size_modify]
  split
  · rfl
  · rw [Array.getElem?_modify]
    split
    · rfl
    · exact Option.map_id'.symm

theorem lt_size {id : ScopeId} {scope : Scope κ φ} (h : arena.scopes[id]? = some scope) :
    id < arena.size := (Array.getElem?_eq_some_iff.mp h).1

/-- A scope after linking is the new one or one from before, up to the new child. -/
theorem link_eq_some {other : ScopeId} {scope : Scope κ φ}
    (h : (arena.link current block).scopes[other]? = some scope) :
    (other = arena.size ∧ scope = { parent := some current }) ∨
      ∃ old, arena.scopes[other]? = some old ∧ scope.parent = old.parent ∧ scope.names = old.names ∧
        scope.children =
          if current = other then (block, arena.size) :: old.children else old.children := by
  rw [scopes_link] at h
  split at h
  · cases h
    exact .inl ⟨‹_›, rfl⟩
  · obtain ⟨old, hold, rfl⟩ := Option.map_eq_some_iff.mp h
    refine .inr ⟨old, hold, ?_⟩
    split <;> exact ⟨rfl, rfl, rfl⟩

theorem eq_some_link (current : ScopeId) (block : κ) {other : ScopeId} {scope : Scope κ φ}
    (h : arena.scopes[other]? = some scope) :
    ∃ new, (arena.link current block).scopes[other]? = some new ∧ new.parent = scope.parent ∧
      new.names = scope.names ∧
      new.children = if current = other then (block, arena.size) :: scope.children else scope.children := by
  rw [scopes_link, if_neg (Nat.ne_of_lt (lt_size h)), h]
  refine ⟨_, rfl, ?_⟩
  split <;> exact ⟨rfl, rfl, rfl⟩

/-- A child after linking is the new scope, or was a child before. -/
theorem child_link {other id : ScopeId} {key : κ} {scope : Scope κ φ}
    (h : (arena.link current block).scopes[other]? = some scope) (hmem : (key, id) ∈ scope.children) :
    (other = current ∧ key = block ∧ id = arena.size) ∨
      ∃ old, arena.scopes[other]? = some old ∧ (key, id) ∈ old.children := by
  rcases link_eq_some h with ⟨-, rfl⟩ | ⟨old, hold, -, -, hchildren⟩
  · cases hmem
  · rw [hchildren] at hmem
    split at hmem
    · rcases List.mem_cons.mp hmem with heq | hmem
      · cases heq
        exact .inl ⟨Eq.symm ‹_›, rfl, rfl⟩
      · exact .inr ⟨old, hold, hmem⟩
    · exact .inr ⟨old, hold, hmem⟩

theorem grows_link : arena.Grows (arena.link current block) := by
  intro other scope hscope
  obtain ⟨new, hnew, hparent, hnames, hchildren⟩ := eq_some_link current block hscope
  refine ⟨new, hnew, hparent, fun entry hentry => ?_, fun name hname => ?_⟩
  · rw [hchildren]
    split
    · exact List.mem_cons_of_mem _ hentry
    · exact hentry
  · rw [Scope.mem_variableNames] at hname ⊢
    rw [hnames]
    exact hname

theorem sound_link (sound : arena.Sound) {scope : Scope κ φ} (hcurrent : arena.scopes[current]? = some scope)
    (block : κ) : (arena.link current block).Sound where
  root := by
    obtain ⟨root, hroot, hparent⟩ := sound.root
    obtain ⟨new, hnew, hparent', -, -⟩ := eq_some_link current block hroot
    exact ⟨new, hnew, hparent'.trans hparent⟩
  child {outer id scope' key} hscope hmem := by
    rcases child_link hscope hmem with ⟨rfl, rfl, rfl⟩ | ⟨old, hold, hmem⟩
    · refine ⟨lt_size hcurrent, { parent := some outer }, ?_, rfl⟩
      rw [scopes_link, if_pos rfl]
    · obtain ⟨hless, inner, hinner, hparent⟩ := sound.child hold hmem
      obtain ⟨new, hnew, hparent', -, -⟩ := eq_some_link current block hinner
      exact ⟨hless, new, hnew, hparent'.trans hparent⟩
  apart {outer id scope' a b} hscope ha hb := by
    have fresh {key : κ} {old : Scope κ φ} (hold : arena.scopes[outer]? = some old)
        (hmem : (key, id) ∈ old.children) : id ≠ arena.size := by
      obtain ⟨-, inner, hinner, -⟩ := sound.child hold hmem
      exact Nat.ne_of_lt (lt_size hinner)
    rcases child_link hscope ha with ⟨-, rfl, hid⟩ | ⟨old, hold, ha'⟩ <;>
      rcases child_link hscope hb with ⟨-, rfl, hid'⟩ | ⟨old', hold', hb'⟩
    · rfl
    · exact absurd hid (fresh hold' hb')
    · exact absurd hid' (fresh hold ha')
    · obtain rfl := Option.some.inj (hold.symm.trans hold')
      exact sound.apart hold ha' hb'

/-- Paths to the scopes from before are the same. -/
theorem At.of_link {id : ScopeId} {path : List κ} (h : (arena.link current block).At id path)
    (hid : id ≠ arena.size) : arena.At id path := by
  induction h with
  | root => exact .root
  | child houter hscope hmem ih =>
    rcases child_link hscope hmem with ⟨-, -, hnew⟩ | ⟨old, hold, hmem'⟩
    · exact absurd hnew hid
    · exact .child (ih (Nat.ne_of_lt (lt_size hold))) hold hmem'

theorem at_link {path : List κ} {scope : Scope κ φ} (h : arena.At current path)
    (hcurrent : arena.scopes[current]? = some scope) :
    (arena.link current block).At arena.size (block :: path) := by
  obtain ⟨new, hnew, -, -, hchildren⟩ := eq_some_link current block hcurrent
  refine .child (h.grows grows_link) hnew ?_
  rw [hchildren, if_pos rfl]
  exact List.mem_cons_self ..

end Link

/-! ### Looking up and leaving -/

/-- One step outwards. -/
theorem lookupWithin_succ {arena : ScopeArena κ φ} {id : ScopeId} {scope : Scope κ φ}
    (h : arena.scopes[id]? = some scope) (name : String) (bound : Nat) :
    arena.lookupWithin name (bound + 1) id =
      match scope.names[name]? >>= Binding.function? with
      | some definition => .ok (some (id, definition))
      | none =>
        match scope.parent with
        | some parent => arena.lookupWithin name bound parent
        | none => .ok none := by
  rw [lookupWithin, get_eq_ok_iff.mpr h]
  show (match scope.names[name]? >>= Binding.function? with
      | some definition => _
      | none => _) = _
  rcases scope.names[name]? >>= Binding.function? with _ | definition
  · rcases scope.parent with _ | parent <;> rfl
  · rfl

theorem get_eq_error {arena : ScopeArena κ φ} {id : ScopeId} (h : arena.scopes[id]? = none) :
    arena.get id = .error (.unknownScope (.ofNat id)) := by
  unfold get
  rw [h]

/-- A function is found in the scope itself or in one of its parents. -/
theorem lookupWithin_eq_some {arena : ScopeArena κ φ} {id : ScopeId} {name : String} {bound : Nat}
    {found : ScopeId × φ} (h : arena.lookupWithin name (bound + 1) id = .ok (some found)) :
    (∃ scope, arena.scopes[found.1]? = some scope ∧ scope.names[name]? = some (.ofFunction found.2)) ∨
      ∃ parent, arena.lookupWithin name bound parent = .ok (some found) := by
  rcases hscope : arena.scopes[id]? with _ | scope
  · unfold lookupWithin at h
    rw [get_eq_error hscope] at h
    cases h
  · rw [lookupWithin_succ hscope] at h
    split at h
    · rename_i definition hdefinition
      cases h
      rcases hname : scope.names[name]? with _ | _ | f <;> rw [hname] at hdefinition <;> cases hdefinition
      exact .inl ⟨scope, hscope, hname⟩
    · split at h
      · exact .inr ⟨_, h⟩
      · cases h

/-- A function that is found is declared in the scope that it is found in. -/
theorem lookup_eq_some {arena : ScopeArena κ φ} {id : ScopeId} {name : String} {found : ScopeId × φ}
    (h : arena.lookup id name = .ok (some found)) :
    ∃ scope, arena.scopes[found.1]? = some scope ∧ scope.names[name]? = some (.ofFunction found.2) := by
  unfold lookup at h
  generalize arena.size + 1 = bound at h
  induction bound generalizing id with
  | zero => cases h
  | succ bound ih =>
    rcases lookupWithin_eq_some h with hfound | ⟨parent, hparent⟩
    · exact hfound
    · exact ih hparent

/-- A table without some names. -/
def without (table : Variables) (names : List String) : Variables :=
  names.foldl (fun table name => table.erase name) table

theorem getElem?_without (names : List String) (table : Variables) (name : String) :
    (without table names)[name]? = if name ∈ names then none else table[name]? := by
  unfold without
  induction names generalizing table with
  | nil => simp
  | cons first rest ih =>
    simp only [List.foldl_cons, ih, Std.ExtTreeMap.getElem?_erase, List.mem_cons]
    by_cases hrest : name ∈ rest
    · simp [hrest]
    · by_cases hfirst : first = name
      · simp [hfirst]
      · simp [hrest, hfirst, Ne.symm hfirst]

/-- Leaving a scope inside another one gives the other and drops what the scope remembers. -/
theorem leave_eq {arena : ScopeArena κ φ} {current outer : ScopeId} {scope : Scope κ φ} {table : Variables}
    (h : arena.scopes[current]? = some scope) (hparent : scope.parent = some outer) :
    arena.leave current table = (.ok outer, without table scope.variableNames) := by
  unfold leave
  rw [get_eq_ok_iff.mpr h]
  show (match scope.parent with
    | some parent => pure parent
    | none => Effect.fail .scopeUnderflow : Effect Variables Error ScopeId) _ = _
  rw [hparent]
  rfl

end ScopeArena
end BlockIR
