import BlockIR.Proofs.Recast

/-! Programs with the cases of switches in another order.

Two programs are reorderings of each other (`Node.Reordered`) if they differ only
in the order in which the cases of each switch stand, the default last. Bodies of
cases come to stand at other places, so the blocks have other identities, which a
relation that is one to one tells apart (`Node.Numbered.exists_oneToOne`).

The rule of cases says nothing about their order but where the default is, so a
reordered program is well scoped if the program is
(`Node.Reordered.wellScoped`). -/
namespace BlockIR

/-- The nodes differ only in the order of the cases of switches, with the default last, and in the
identities of blocks, which are related by `K`. -/
inductive Node.Reordered (K : BlockId → BlockId → Prop) : Node → Node → Prop
  | block {b b' : Block} (statements : List (Statement × Statement)) : K b.id b'.id →
      statements.map Prod.fst = b.statements → statements.map Prod.snd = b'.statements →
      (∀ q ∈ statements, Reordered K (.statement q.1) (.statement q.2)) → Reordered K (.block b) (.block b')
  /-- A statement that no block stands in. -/
  | plain {s : Statement} : s.regions = [] → Reordered K (.statement s) (.statement s)
  | conditional (condition : Expr) {body body' : Block} : Reordered K (.block body) (.block body') →
    Reordered K (.statement (.conditional condition body)) (.statement (.conditional condition body'))
  /-- The cases are the same in any order with the default last. -/
  | switch (scrutinee : Expr) (cases : List (Case × Case)) {cases' : List Case} :
    (cases.map Prod.snd).Perm cases' → (∀ c ∈ cases'.dropLast, c.value ≠ none) →
    (∀ q ∈ cases, q.2.value = q.1.value) →
    (∀ q ∈ cases, Reordered K (.block q.1.body) (.block q.2.body)) →
      Reordered K (.statement (.switch scrutinee (cases.map Prod.fst))) (.statement (.switch scrutinee cases'))
  | function {f g : FunctionDefinition} : g.name = f.name → g.params = f.params → g.returns = f.returns →
    Reordered K (.block f.body) (.block g.body) → Reordered K (.statement (.function f)) (.statement (.function g))
  | loop {l m : ForLoop} : m.condition = l.condition → Reordered K (.block l.init) (.block m.init) →
    Reordered K (.block l.body) (.block m.body) → Reordered K (.block l.post) (.block m.post) →
      Reordered K (.statement (.loop l)) (.statement (.loop m))
  | inner {b b' : Block} : Reordered K (.block b) (.block b') →
    Reordered K (.statement (.block b)) (.statement (.block b'))

namespace Node.Reordered
variable {K : BlockId → BlockId → Prop} {n n' : Node} {cases : List (Case × Case)} {cases' : List Case}

theorem related_ids {b b' : Block} (h : Reordered K (.block b) (.block b')) : K b.id b'.id := by
  cases h
  assumption

theorem forall₂_statements {b b' : Block} {R : Statement → Statement → Prop}
    (h : Reordered K (.block b) (.block b'))
    (hR : ∀ s ∈ b.statements, ∀ t, Reordered K (.statement s) (.statement t) → R s t) :
    List.Forall₂ R b.statements b'.statements := by
  cases h with
  | block statements _ hfst hsnd hsame =>
    exact Node.Recast.forall₂_of_pairs hfst hsnd fun q hq => hR q.1 (hfst ▸ List.mem_map_of_mem hq) q.2 (hsame q hq)

theorem perm_values (hperm : (cases.map Prod.snd).Perm cases') (hvalues : ∀ q ∈ cases, q.2.value = q.1.value) :
    (cases'.map Case.value).Perm ((cases.map Prod.fst).map Case.value) := by
  refine (hperm.map Case.value).symm.trans (.of_eq ?_)
  rw [List.map_map, List.map_map]
  exact List.map_congr_left hvalues

/-! ### Identities -/

theorem ids_of_plain {s : Statement} (h : s.regions = []) : s.ids = [] := by
  cases s with
  | switch scrutinee cases =>
    obtain rfl := List.map_eq_nil_iff.mp h
    rfl
  | conditional => cases h
  | function => cases h
  | loop => cases h
  | block => cases h
  | _ => rfl

/-- Reordering is said by pairs of identities. -/
theorem numbered (h : Reordered K n n') : Numbered Reordered n n' := by
  induction h with
  | @block b b' statements hid hfst hsnd _ ih =>
    obtain ⟨pairs, hpairs⟩ := Numbers.all ih
    refine ⟨_, ((Numbers.self b.id b'.id).append hpairs).imp (.of_eq ?_) (.of_eq ?_) fun L hL =>
      .block statements hL.1 hfst hsnd hL.2⟩
    · refine Eq.trans ?_ b.ids_eq.symm
      rw [← hfst, List.flatMap_map]
      rfl
    · refine Eq.trans ?_ b'.ids_eq.symm
      rw [← hsnd, List.flatMap_map]
      rfl
  | plain hplain => exact .empty (ids_of_plain hplain) (ids_of_plain hplain) fun _ => .plain hplain
  | conditional condition _ ih => exact ih.part rfl rfl fun _ => .conditional condition
  | switch scrutinee cases hperm hlast hvalues _ ih =>
    exact .switch hperm ih fun _ => .switch scrutinee cases hperm hlast hvalues
  | function hname hparams hreturns _ ih => exact .function ih fun _ => .function hname hparams hreturns
  | loop hcondition _ _ _ hinit hbody hpost => exact .loop hinit hbody hpost fun _ => .loop hcondition
  | inner _ ih => exact ih.part rfl rfl fun _ => .inner

end Node.Reordered

/-! ### Scoping -/

/-- A statement that is sound wherever another one was, neither of which declares anything. -/
structure Statement.Succeeds (dialect : Dialect) (taken : List String) (s t : Statement) : Prop where
  neutral : s.Neutral ∧ t.Neutral
  sound : ∀ frames frames' : Frames, frames.Recast taken frames' → s.declared ⊆ taken →
    Site.Sound dialect ⟨frames, .statement s⟩ → Site.Sound dialect ⟨frames', .statement t⟩

theorem Statement.replaces_succeeds (dialect : Dialect) (taken : List String) :
    Statement.Replaces dialect taken (Statement.Succeeds dialect taken) := ⟨fun _ _ h => h.neutral, fun _ _ h => h.sound⟩

namespace Node.Reordered
variable {K : BlockId → BlockId → Prop} {n n' : Node}

/-- A reordered switch is one statement in place of another. -/
theorem recast (dialect : Dialect) (taken : List String) (h : Reordered K n n') :
    Node.Recast (Statement.Succeeds dialect taken) n n' := by
  induction h with
  | block statements _ hfst hsnd _ ih => exact .block statements hfst hsnd ih
  | plain hplain => exact .plain hplain
  | conditional condition _ ih => exact .conditional condition ih
  | @switch scrutinee cases cases' hperm hlast hvalues _ ih =>
    refine .replaced ⟨⟨⟨rfl, nofun⟩, ⟨rfl, nofun⟩⟩, fun frames frames' hframes htaken hsound => ?_⟩
    obtain ⟨hrule, hparts⟩ := Site.sound_iff.mp hsound
    refine Site.sound_iff.mpr ⟨⟨hframes.alike.yields hrule.1, hrule.2.perm (perm_values hperm hvalues) hlast⟩,
      List.forall_mem_cons.mpr ⟨?_, List.forall_mem_map.mpr fun c hc => ?_⟩⟩
    · exact Expr.sound_of_alike hframes.alike hframes.vars_subset (hparts _ (.head _))
    · obtain ⟨q, hq, rfl⟩ := List.mem_map.mp (hperm.mem_iff.mpr hc)
      refine (ih q hq).sound (Statement.replaces_succeeds dialect taken) ?_ frames frames' hframes (hparts _ ?_)
      · exact List.Subset.trans (Case.declared_subset (List.mem_map_of_mem hq)) htaken
      · exact List.mem_cons_of_mem _ (List.mem_map_of_mem (List.mem_map_of_mem hq))
  | function hname hparams hreturns _ ih => exact .function hname hparams hreturns ih
  | loop hcondition _ _ _ hinit hbody hpost =>
    cases hinit with
    | block front hfst hsnd hfront => exact .loop front hcondition hfst hsnd hfront hbody hpost
  | inner _ ih => exact .inner ih

/-- A well-scoped program stays so. -/
theorem wellScoped {dialect : Dialect} {program program' : Block} (h : Reordered K (.block program) (.block program'))
    (hscoped : program.WellScoped dialect) : program'.WellScoped dialect :=
  (h.recast dialect program.declared).wellScoped (Statement.replaces_succeeds dialect program.declared) hscoped

end Node.Reordered
end BlockIR
