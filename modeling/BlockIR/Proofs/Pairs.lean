import BlockIR.Proofs.Arena
import Mathlib.Data.List.Forall2

/-! Two arenas side by side.

Two runs that do the same make their scopes in the same order, so a scope of the
one has its partner under the same number in the other (`ScopeArena.Pairs`). The
blocks by which scopes are found may be other ones, as long as a relation `K`
tells them apart on both sides (`OneToOne`), and so may the functions, which are
related by `F`. Entering, declaring, looking up and leaving then have the same
results on both sides. -/
namespace BlockIR

/-- Two results: the same error, or values that are related. -/
inductive Results {ε α β : Type} (R : α → β → Prop) : Except ε α → Except ε β → Prop
  | error (e : ε) : Results R (.error e) (.error e)
  | ok {a : α} {b : β} : R a b → Results R (.ok a) (.ok b)

theorem Results.refl {ε α : Type} {R : α → α → Prop} {x : Except ε α} (h : ∀ a, x = .ok a → R a a) :
    Results R x x := by
  cases x with
  | error e => exact .error e
  | ok a => exact .ok (h a rfl)

theorem Results.bind {ε α β γ δ : Type} {R : α → β → Prop} {S : γ → δ → Prop} {x : Except ε α}
    {y : Except ε β} {f : α → Except ε γ} {g : β → Except ε δ} (h : Results R x y)
    (hf : ∀ a b, R a b → Results S (f a) (g b)) : Results S (x >>= f) (y >>= g) := by
  cases h with
  | error e => exact .error e
  | ok hab => exact hf _ _ hab

theorem Results.mono {ε α β : Type} {R S : α → β → Prop} {x : Except ε α} {y : Except ε β} (h : Results R x y)
    (hRS : ∀ a b, R a b → S a b) : Results S x y := by
  cases h with
  | error e => exact .error e
  | ok hab => exact .ok (hRS _ _ hab)

/-- Neither side of the relation is related to two. -/
def OneToOne {α β : Type} (R : α → β → Prop) : Prop := ∀ a a' b b', R a b → R a' b' → (a = a' ↔ b = b')

/-- Two meanings of a name: both a variable, or functions that are related. -/
inductive Binding.Pairs {φ ψ : Type} (F : φ → ψ → Prop) : Binding φ → Binding ψ → Prop
  | ofVariable : Pairs F .ofVariable .ofVariable
  | ofFunction {f : φ} {g : ψ} : F f g → Pairs F (.ofFunction f) (.ofFunction g)

variable {κ κ' φ ψ : Type} {K : κ → κ' → Prop} {F : φ → ψ → Prop}

/-- Two scopes with the same names, parents and children up to the relations. -/
structure Scope.Pairs (K : κ → κ' → Prop) (F : φ → ψ → Prop) (s : Scope κ φ) (t : Scope κ' ψ) : Prop where
  names : ∀ name : String, Option.Rel (Binding.Pairs F) s.names[name]? t.names[name]?
  parent : t.parent = s.parent
  children : List.Forall₂ (fun x y => K x.1 y.1 ∧ y.2 = x.2) s.children t.children

/-- Two arenas whose scopes are pairs, number by number. -/
def ScopeArena.Pairs (K : κ → κ' → Prop) (F : φ → ψ → Prop) (a : ScopeArena κ φ) (b : ScopeArena κ' ψ) :
    Prop := ∀ id : ScopeId, Option.Rel (Scope.Pairs K F) a.scopes[id]? b.scopes[id]?

/-! ### One scope -/

namespace Scope.Pairs
variable {s : Scope κ φ} {t : Scope κ' ψ}

theorem mem_variableNames (h : s.Pairs K F t) (name : String) :
    name ∈ t.variableNames ↔ name ∈ s.variableNames := by
  rw [Scope.mem_variableNames, Scope.mem_variableNames]
  have hname := h.names name
  generalize s.names[name]? = x at hname
  generalize t.names[name]? = y at hname
  cases hname with
  | none => simp
  | some hbinding => cases hbinding <;> simp

theorem without_eq (h : s.Pairs K F t) (table : Variables) :
    ScopeArena.without table t.variableNames = ScopeArena.without table s.variableNames := by
  apply Std.ExtTreeMap.ext_getElem?
  intro name
  rw [ScopeArena.getElem?_without, ScopeArena.getElem?_without]
  simp only [h.mem_variableNames name]

theorem insert (h : s.Pairs K F t) (name : String) {x : Binding φ} {y : Binding ψ} (hxy : x.Pairs F y) :
    Scope.Pairs K F { s with names := s.names.insert name x } { t with names := t.names.insert name y } where
  names other := by
    rw [Std.ExtTreeMap.getElem?_insert, Std.ExtTreeMap.getElem?_insert]
    split
    · exact .some hxy
    · exact h.names other
  parent := h.parent
  children := h.children

theorem fresh (parent : Option ScopeId) :
    Scope.Pairs K F ({ parent := parent } : Scope κ φ) ({ parent := parent } : Scope κ' ψ) where
  names name := by
    rw [Std.ExtTreeMap.getElem?_empty, Std.ExtTreeMap.getElem?_empty]
    exact .none
  parent := rfl
  children := .nil

/-- A block was entered from both scopes or from neither. -/
theorem lookup_children [BEq κ] [LawfulBEq κ] [BEq κ'] [LawfulBEq κ'] (hK : OneToOne K)
    (h : s.Pairs K F t) {k : κ} {k' : κ'} (hk : K k k') : t.children.lookup k' = s.children.lookup k := by
  have hchildren := h.children
  generalize s.children = xs at hchildren
  generalize t.children = ys at hchildren
  induction hchildren with
  | nil => rfl
  | @cons x y _ _ hhead _ ih =>
    have hsame := hK _ _ _ _ hk hhead.1
    rw [List.lookup_cons, List.lookup_cons, ih, hhead.2]
    by_cases heq : k = x.1
    · rw [beq_iff_eq.mpr heq, beq_iff_eq.mpr (hsame.mp heq)]
    · rw [beq_false_of_ne heq, beq_false_of_ne fun h => heq (hsame.mpr h)]

end Scope.Pairs

/-! ### Whole arenas -/

/-- What leaving a scope gives, and what it leaves of a table. -/
theorem ScopeArena.leave_of_get {arena : ScopeArena κ φ} {id : ScopeId} {scope : Scope κ φ}
    (h : arena.get id = .ok scope) (table : Variables) :
    arena.leave id table =
      (scope.parent.elim (.error .scopeUnderflow) .ok, without table scope.variableNames) := by
  unfold ScopeArena.leave
  rw [h]
  obtain ⟨names, parent, children⟩ := scope
  cases parent <;> rfl

theorem ScopeArena.leave_table (arena : ScopeArena κ φ) (id : ScopeId) (table : Variables) :
    ∃ names, (arena.leave id table).2 = without table names := by
  rcases hget : arena.get id with e | scope
  · refine ⟨[], ?_⟩
    unfold ScopeArena.leave
    rw [hget]
    rfl
  · exact ⟨scope.variableNames, by rw [leave_of_get hget]⟩

namespace ScopeArena.Pairs
variable {a : ScopeArena κ φ} {b : ScopeArena κ' ψ}

theorem start : (ScopeArena.start : ScopeArena κ φ).Pairs K F (ScopeArena.start : ScopeArena κ' ψ) := by
  intro id
  match id with
  | 0 => exact .some (Scope.Pairs.fresh none)
  | _ + 1 => exact .none

theorem refl {K : κ → κ → Prop} {F : φ → φ → Prop} (hK : ∀ k, K k k) (hF : ∀ f, F f f) (a : ScopeArena κ φ) :
    a.Pairs K F a := by
  intro id
  rcases a.scopes[id]? with _ | scope
  · exact .none
  · refine .some ⟨fun name => ?_, rfl, List.forall₂_same.mpr fun _ _ => ⟨hK _, rfl⟩⟩
    rcases scope.names[name]? with _ | _ | f
    · exact .none
    · exact .some .ofVariable
    · exact .some (.ofFunction (hF f))

theorem size_eq (h : a.Pairs K F b) : b.size = a.size := by
  have hbound (id : ScopeId) : b.size ≤ id ↔ a.size ≤ id := by
    have hid := h id
    unfold ScopeArena.size
    rw [← Array.getElem?_eq_none_iff, ← Array.getElem?_eq_none_iff]
    generalize a.scopes[id]? = x at hid
    generalize b.scopes[id]? = y at hid
    cases hid <;> simp
  exact Nat.le_antisymm ((hbound _).mpr (Nat.le_refl _)) ((hbound _).mp (Nat.le_refl _))

theorem get (h : a.Pairs K F b) (id : ScopeId) : Results (Scope.Pairs K F) (a.get id) (b.get id) := by
  have hid := h id
  unfold ScopeArena.get
  generalize a.scopes[id]? = x at hid
  generalize b.scopes[id]? = y at hid
  cases hid with
  | none => exact .error _
  | some hscope => exact .ok hscope

/-- Changing the scope of one number on both sides. -/
theorem modify (h : a.Pairs K F b) (id : ScopeId) {f : Scope κ φ → Scope κ φ} {g : Scope κ' ψ → Scope κ' ψ}
    (hfg : ∀ s t, s.Pairs K F t → (f s).Pairs K F (g t)) :
    Pairs K F ⟨a.scopes.modify id f⟩ ⟨b.scopes.modify id g⟩ := by
  intro other
  have hother := h other
  rw [Array.getElem?_modify, Array.getElem?_modify]
  generalize a.scopes[other]? = x at hother
  generalize b.scopes[other]? = y at hother
  split
  · cases hother with
    | none => exact .none
    | some hscope => exact .some (hfg _ _ hscope)
  · exact hother

/-- One more scope on both sides. -/
theorem push (h : a.Pairs K F b) {s : Scope κ φ} {t : Scope κ' ψ} (hst : s.Pairs K F t) :
    Pairs K F ⟨a.scopes.push s⟩ ⟨b.scopes.push t⟩ := by
  intro id
  have hsize : b.scopes.size = a.scopes.size := h.size_eq
  rw [Array.getElem?_push, Array.getElem?_push, hsize]
  split
  · exact .some hst
  · exact h id

theorem enter [BEq κ] [LawfulBEq κ] [BEq κ'] [LawfulBEq κ'] (hK : OneToOne K) (h : a.Pairs K F b)
    (id : ScopeId) {k : κ} {k' : κ'} (hk : K k k') :
    Results (fun x y => y.1 = x.1 ∧ x.2.Pairs K F y.2) (a.enter id k) (b.enter id k') := by
  unfold ScopeArena.enter
  refine (h.get id).bind fun s t hst => ?_
  rw [hst.lookup_children hK hk]
  rcases s.children.lookup k with _ | child
  · refine .ok ⟨h.size_eq, ?_⟩
    refine (h.modify id fun s t hst => ?_).push (Scope.Pairs.fresh _)
    exact ⟨hst.names, hst.parent, .cons ⟨hk, h.size_eq⟩ hst.children⟩
  · exact .ok ⟨rfl, h⟩

theorem declare (h : a.Pairs K F b) (id : ScopeId) (name : String) {x : Binding φ} {y : Binding ψ}
    (hxy : x.Pairs F y) : Results (Pairs K F) (a.declare id name x) (b.declare id name y) := by
  unfold ScopeArena.declare
  exact (h.get id).bind fun _ _ _ => .ok (h.modify id fun _ _ hst => hst.insert name hxy)

theorem lookup (h : a.Pairs K F b) (id : ScopeId) (name : String) :
    Results (Option.Rel fun x y => y.1 = x.1 ∧ F x.2 y.2) (a.lookup id name) (b.lookup id name) := by
  unfold ScopeArena.lookup
  rw [h.size_eq]
  generalize a.size + 1 = bound
  induction bound generalizing id with
  | zero => exact .ok .none
  | succ bound ih =>
    unfold ScopeArena.lookupWithin
    refine (h.get id).bind fun s t hst => ?_
    have hname := hst.names name
    rw [hst.parent]
    generalize s.names[name]? = x at hname
    generalize t.names[name]? = y at hname
    -- Unless the name is a function here, the search goes on outside.
    rcases s.parent with _ | parent
    · rcases hname with ⟨_ | hfg⟩ | _
      · exact .ok .none
      · exact .ok (.some ⟨rfl, hfg⟩)
      · exact .ok .none
    · rcases hname with ⟨_ | hfg⟩ | _
      · exact ih parent
      · exact .ok (.some ⟨rfl, hfg⟩)
      · exact ih parent

/-- Leaving gives the same scope, or the same error, and leaves the same variables. -/
theorem leave (h : a.Pairs K F b) (id : ScopeId) (table : Variables) :
    b.leave id table = a.leave id table := by
  have hget := h.get id
  rcases hs : a.get id with e | s <;> rcases ht : b.get id with e' | t <;> rw [hs, ht] at hget
  · cases hget
    unfold ScopeArena.leave
    rw [hs, ht]
    rfl
  · cases hget
  · cases hget
  · cases hget with
    | ok hst => rw [leave_of_get hs, leave_of_get ht, hst.without_eq, hst.parent]

end ScopeArena.Pairs
end BlockIR
