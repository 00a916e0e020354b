import BlockIR.Execution
import BlockIR.Proofs.Pairs
import BlockIR.Proofs.Renamed

/-! Renamed configurations.

In a renamed configuration the tables have the images of their names as keys
(`Renaming.table`), and the functions in scopes are renamed. Which scopes there
are and what belongs to which block stays. So each operation on the arena does
the same there, up to names. -/
namespace BlockIR

/-! ### Tables -/

namespace Renaming
variable {α β : Type} (ρ : Renaming)

/-- A table with its keys renamed and its values mapped. -/
def table (f : α → β) (entries : Std.ExtTreeMap String α) : Std.ExtTreeMap String β :=
  .ofList (entries.toList.map fun entry => (ρ entry.1, f entry.2))

variable (f : α → β) (entries : Std.ExtTreeMap String α)

theorem getElem?_table_eq_none {key : String} (h : ∀ name, ρ name = key → entries[name]? = none) :
    (ρ.table f entries)[key]? = none := by
  refine Std.ExtTreeMap.getElem?_ofList_of_contains_eq_false ?_
  rw [List.contains_eq_mem, decide_eq_false_iff_not, List.map_map]
  intro hmem
  obtain ⟨⟨name, value⟩, hentry, hname⟩ := List.mem_map.mp hmem
  have hnone := h name hname
  rw [Std.ExtTreeMap.mem_toList_iff_getElem?_eq_some.mp hentry] at hnone
  cases hnone

/-- The image of a name has what the name has. -/
theorem getElem?_table (name : String) : (ρ.table f entries)[ρ name]? = entries[name]?.map f := by
  rcases hname : entries[name]? with _ | value
  · refine ρ.getElem?_table_eq_none f entries fun other hother => ?_
    rw [ρ.injective hother, hname]
  · -- The images of different names differ, so each key is in the list once.
    have hdistinct : (entries.toList.map fun entry => (ρ entry.1, f entry.2)).Pairwise
        fun a b => ¬compare a.1 b.1 = .eq := by
      rw [List.pairwise_map]
      refine entries.distinct_keys_toList.imp fun {a b} hne heq => hne ?_
      rw [Std.LawfulEqCmp.compare_eq_iff_eq] at heq ⊢
      exact ρ.injective heq
    have hmem : (ρ name, f value) ∈ entries.toList.map fun entry => (ρ entry.1, f entry.2) :=
      List.mem_map.mpr ⟨_, Std.ExtTreeMap.mem_toList_iff_getElem?_eq_some.mpr hname, rfl⟩
    exact Std.ExtTreeMap.getElem?_ofList_of_mem Std.ReflCmp.compare_self hdistinct hmem

variable {f entries}

theorem table_eq {other : Std.ExtTreeMap String β} (himage : ∀ name, other[ρ name]? = entries[name]?.map f)
    (hothers : ∀ key, (∀ name, ρ name ≠ key) → other[key]? = none) : ρ.table f entries = other := by
  apply Std.ExtTreeMap.ext_getElem?
  intro key
  by_cases hkey : ∃ name, ρ name = key
  · obtain ⟨name, rfl⟩ := hkey
    rw [getElem?_table, himage]
  · rw [not_exists] at hkey
    rw [hothers key hkey]
    exact ρ.getElem?_table_eq_none f entries fun name hname => absurd hname (hkey name)

theorem table_empty : ρ.table f ∅ = ∅ := ρ.table_eq (fun name => by simp) fun key _ => by simp

theorem table_insert (name : String) (value : α) :
    ρ.table f (entries.insert name value) = (ρ.table f entries).insert (ρ name) (f value) := by
  refine ρ.table_eq (fun other => ?_) fun key hkey => ?_
  · rw [Std.ExtTreeMap.getElem?_insert, Std.ExtTreeMap.getElem?_insert, getElem?_table]
    simp only [Std.LawfulEqCmp.compare_eq_iff_eq, ρ.injective.eq_iff]
    split <;> rfl
  · rw [Std.ExtTreeMap.getElem?_insert, if_neg (mt Std.LawfulEqCmp.eq_of_compare (hkey name))]
    exact ρ.getElem?_table_eq_none f entries fun other hother => absurd hother (hkey other)

/-- Taking out names and taking out their images. -/
theorem table_without {names images : List String} (h : ∀ name, ρ name ∈ images ↔ name ∈ names)
    (entries : Variables) :
    ρ.table id (ScopeArena.without entries names) = ScopeArena.without (ρ.table id entries) images := by
  refine ρ.table_eq (fun name => ?_) fun key hkey => ?_
  · rw [ScopeArena.getElem?_without, ScopeArena.getElem?_without, getElem?_table, if_congr (h name) rfl rfl]
    split <;> rfl
  · rw [ScopeArena.getElem?_without, ρ.getElem?_table_eq_none id entries fun name hname => absurd hname (hkey name),
      ite_self]

end Renaming

variable (ρ : Renaming)

/-- Variables with their names renamed. -/
def Variables.mapNames (table : Variables) : Variables := ρ.table id table

namespace Variables

theorem getElem?_mapNames (table : Variables) (name : String) : (table.mapNames ρ)[ρ name]? = table[name]? := by
  rw [mapNames, Renaming.getElem?_table, Option.map_id, id]

theorem mapNames_empty : mapNames ρ ∅ = ∅ := ρ.table_empty

theorem mapNames_insert (table : Variables) (name : String) (value : Word) :
    mapNames ρ (table.insert name value) = (table.mapNames ρ).insert (ρ name) value := ρ.table_insert name value

theorem mapNames_insertAll (pairs : List (String × Word)) (table : Variables) :
    mapNames ρ (pairs.foldl (fun table p => table.insert p.1 p.2) table) =
      (pairs.map (Prod.map ρ id)).foldl (fun table p => table.insert p.1 p.2) (table.mapNames ρ) := by
  induction pairs generalizing table with
  | nil => rfl
  | cons p rest ih =>
    rw [List.foldl_cons, ih, List.map_cons, List.foldl_cons, mapNames_insert, Prod.map_fst, Prod.map_snd, id]

end Variables

/-- The variables that a call of a renamed function starts with. -/
theorem FunctionDefinition.bindings_mapNames (f : FunctionDefinition) (args : List Word) :
    (f.mapNames ρ).bindings args = (f.bindings args).mapNames ρ := by
  have hzeros (names : List String) (table : Variables) : names.foldl (fun table name => table.insert name 0) table =
      (names.map fun name => (name, 0)).foldl (fun table p => table.insert p.1 p.2) table := by
    rw [List.foldl_map]
  unfold bindings mapNames
  rw [hzeros, hzeros, Variables.mapNames_insertAll, Variables.mapNames_insertAll, Variables.mapNames_empty,
    List.zip_map_left, List.map_map, List.map_map]
  rfl

/-! ### Scopes -/

/-- What a name stands for, renamed. -/
def Binding.mapNames : Binding FunctionDefinition → Binding FunctionDefinition
  | .ofVariable => .ofVariable
  | .ofFunction definition => .ofFunction (definition.mapNames ρ)

/-- A scope with its names renamed. -/
def Scope.mapNames (scope : Scope BlockId FunctionDefinition) : Scope BlockId FunctionDefinition :=
  { scope with names := ρ.table (Binding.mapNames ρ) scope.names }

/-- A name is that of a variable of a scope if its image is one of the renamed scope. -/
theorem Scope.mem_variableNames_mapNames (scope : Scope BlockId FunctionDefinition) (name : String) :
    ρ name ∈ (scope.mapNames ρ).variableNames ↔ name ∈ scope.variableNames := by
  rw [mem_variableNames, mem_variableNames, mapNames, Renaming.getElem?_table]
  rcases scope.names[name]? with _ | _ | _ <;> simp [Binding.mapNames]

namespace ScopeArena

/-- All scopes with their names renamed. -/
def mapNames (arena : Scopes) : Scopes := ⟨arena.scopes.map (Scope.mapNames ρ)⟩

variable (arena : Scopes)

theorem scopes_mapNames (id : ScopeId) :
    (mapNames ρ arena).scopes[id]? = arena.scopes[id]?.map (Scope.mapNames ρ) := Array.getElem?_map

theorem size_mapNames : (mapNames ρ arena).size = arena.size := Array.size_map

theorem get_mapNames (id : ScopeId) : (mapNames ρ arena).get id = (arena.get id).map (Scope.mapNames ρ) := by
  unfold get
  rw [scopes_mapNames]
  cases arena.scopes[id]? <;> rfl

theorem ext_scopes {a b : Scopes} (h : ∀ id : ScopeId, a.scopes[id]? = b.scopes[id]?) : a = b :=
  congrArg ScopeArena.mk (Array.ext_getElem? h)

theorem rename_mapNames {f g : Std.ExtTreeMap String (Binding FunctionDefinition) →
      Std.ExtTreeMap String (Binding FunctionDefinition)}
    (h : ∀ names, g (ρ.table (Binding.mapNames ρ) names) = ρ.table (Binding.mapNames ρ) (f names)) (id : ScopeId) :
    (mapNames ρ arena).rename id g = mapNames ρ (arena.rename id f) := by
  refine ext_scopes fun other => ?_
  rw [scopes_rename, scopes_mapNames, scopes_mapNames, scopes_rename, Option.map_map, Option.map_map]
  refine congrArg (Option.map · _) (funext fun scope => ?_)
  simp only [Function.comp_apply, Scope.mapNames]
  split
  · rw [h]
  · rfl

theorem link_mapNames (current : ScopeId) (block : BlockId) :
    (mapNames ρ arena).link current block = mapNames ρ (arena.link current block) := by
  refine ext_scopes fun other => ?_
  rw [scopes_link, scopes_mapNames, scopes_mapNames, scopes_link, size_mapNames]
  split
  · refine congrArg some ?_
    unfold Scope.mapNames
    rw [ρ.table_empty]
  · rw [Option.map_map, Option.map_map]
    refine congrArg (Option.map · _) (funext fun scope => ?_)
    simp only [Function.comp_apply, Scope.mapNames]
    split <;> rfl

theorem enter_mapNames (current : ScopeId) (block : BlockId) :
    (mapNames ρ arena).enter current block =
      (arena.enter current block).map fun entered => (entered.1, mapNames ρ entered.2) := by
  unfold enter
  rw [get_mapNames]
  rcases arena.get current with e | scope
  · rfl
  · simp only [Except.map, bind, Except.bind, Scope.mapNames]
    rcases scope.children.lookup block with _ | child
    · exact congrArg Except.ok (Prod.ext (size_mapNames ρ arena) (link_mapNames ρ arena current block))
    · rfl

theorem declare_mapNames (id : ScopeId) (name : String) (binding : Binding FunctionDefinition) :
    (mapNames ρ arena).declare id (ρ name) (binding.mapNames ρ) =
      (arena.declare id name binding).map (mapNames ρ) := by
  have hscopes := scopes_mapNames ρ arena id
  rcases hscope : arena.scopes[id]? with _ | scope <;> rw [hscope] at hscopes
  · unfold declare
    rw [get_eq_error hscopes, get_eq_error hscope]
    rfl
  · rw [declare_eq hscopes, declare_eq hscope]
    exact congrArg Except.ok (rename_mapNames ρ arena (fun names => (ρ.table_insert name binding).symm) id)

theorem lookupWithin_mapNames (name : String) (bound : Nat) (current : ScopeId) :
    (mapNames ρ arena).lookupWithin (ρ name) bound current =
      (arena.lookupWithin name bound current).map (Option.map fun found => (found.1, found.2.mapNames ρ)) := by
  induction bound generalizing current with
  | zero => rfl
  | succ bound ih =>
    have hscopes := scopes_mapNames ρ arena current
    rcases hscope : arena.scopes[current]? with _ | scope <;> rw [hscope] at hscopes
    · rw [lookupWithin, lookupWithin, get_eq_error hscopes, get_eq_error hscope]
      rfl
    · rw [lookupWithin_succ hscopes, lookupWithin_succ hscope, Scope.mapNames, ρ.getElem?_table]
      rcases scope.names[name]? with _ | _ | definition
      · rcases scope.parent with _ | parent
        · rfl
        · exact ih parent
      · rcases scope.parent with _ | parent
        · rfl
        · exact ih parent
      · rfl

theorem lookup_mapNames (current : ScopeId) (name : String) :
    (mapNames ρ arena).lookup current (ρ name) =
      (arena.lookup current name).map (Option.map fun found => (found.1, found.2.mapNames ρ)) := by
  unfold lookup
  rw [size_mapNames, lookupWithin_mapNames]

theorem leave_mapNames (current : ScopeId) (table : Variables) :
    (mapNames ρ arena).leave current (table.mapNames ρ) =
      ((arena.leave current table).1, (arena.leave current table).2.mapNames ρ) := by
  have hget' := get_mapNames ρ arena current
  rcases hget : arena.get current with e | scope <;> rw [hget] at hget'
  · unfold leave
    rw [hget, hget']
    rfl
  · rw [leave_of_get hget, leave_of_get hget']
    exact congrArg _ (ρ.table_without (scope.mem_variableNames_mapNames ρ) table).symm

end ScopeArena

/-! ### Configurations -/

/-- An activation with its names renamed. -/
def Activation.mapNames (activation : Activation) : Activation :=
  { activation with bindings := activation.bindings.mapNames ρ }

/-- A configuration with its names renamed. -/
def Config.mapNames (c : Config) : Config where
  machine := c.machine
  scopes := c.scopes.mapNames ρ
  activation := c.activation.mapNames ρ

/-- A run begins the same whatever its names. -/
theorem Config.mapNames_start : mapNames ρ {} = {} := by
  have hscopes : ScopeArena.mapNames ρ .start = .start := by
    unfold ScopeArena.mapNames ScopeArena.start
    rw [List.map_toArray, List.map_singleton, Scope.mapNames, ρ.table_empty]
  unfold mapNames Activation.mapNames
  rw [hscopes, Variables.mapNames_empty]

end BlockIR
