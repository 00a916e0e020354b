import BlockIR.Proofs.Moved

/-! The tree of the blocks of a program.

Each block but the program itself stands directly in another one: the body and
the post block of a loop in its init block, the body of a function in the block
with the definition. `Block.edges` lists these pairs. A lexical chain follows the
edges (`Chain.edge`); where all blocks are distinct, the identity of its innermost
region says which chain it is (`Chain.ids_unique`). -/
namespace BlockIR

mutual
/-- The blocks of a block, itself included, each with the block directly around it. -/
def Block.edges (around : Option BlockId) : Block → List (Option BlockId × BlockId)
  | ⟨id, statements⟩ => (around, id) :: Statement.listEdges id statements

/-- The blocks in statements of a block, each with the block directly around it. -/
def Statement.listEdges (around : BlockId) : List Statement → List (Option BlockId × BlockId)
  | [] => []
  | s :: rest => s.edges around ++ Statement.listEdges around rest

/-- The blocks in cases, each with the block directly around it. -/
def Case.listEdges (around : BlockId) : List Case → List (Option BlockId × BlockId)
  | [] => []
  | ⟨_, body⟩ :: rest => body.edges (some around) ++ Case.listEdges around rest

/-- The blocks in a statement of a block, each with the block directly around it. -/
def Statement.edges (around : BlockId) : Statement → List (Option BlockId × BlockId)
  | .conditional _ body => body.edges (some around)
  | .switch _ cases => Case.listEdges around cases
  | .function ⟨_, _, _, body⟩ => body.edges (some around)
  | .loop ⟨init, _, post, body⟩ =>
    init.edges (some around) ++ (body.edges (some init.id) ++ post.edges (some init.id))
  | .block b => b.edges (some around)
  | .expression _ | .assignment _ _ | .declaration _ _ | .breakLoop | .continueLoop | .leave => []
end

theorem Block.edges_eq (around : Option BlockId) (b : Block) :
    b.edges around = (around, b.id) :: Statement.listEdges b.id b.statements := by
  obtain ⟨id, statements⟩ := b
  rfl

/-! ### Each block once -/

mutual
/-- The edges of a block lead to all its blocks, in order. -/
theorem Block.map_edges (around : Option BlockId) (b : Block) : (b.edges around).map Prod.snd = b.ids := by
  obtain ⟨id, statements⟩ := b
  exact congrArg (List.cons id) (Statement.map_listEdges id statements)

theorem Statement.map_listEdges (around : BlockId) (statements : List Statement) :
    (Statement.listEdges around statements).map Prod.snd = Statement.listIds statements := by
  cases statements with
  | nil => rfl
  | cons s rest =>
    rw [Statement.listEdges, Statement.listIds, List.map_append, Statement.map_edges around s,
      Statement.map_listEdges around rest]

theorem Case.map_listEdges (around : BlockId) (cases : List Case) :
    (Case.listEdges around cases).map Prod.snd = Case.listIds cases := by
  cases cases with
  | nil => rfl
  | cons first rest =>
    obtain ⟨value, body⟩ := first
    rw [Case.listEdges, Case.listIds, List.map_append, Block.map_edges (some around) body,
      Case.map_listEdges around rest]

theorem Statement.map_edges (around : BlockId) (s : Statement) : (s.edges around).map Prod.snd = s.ids := by
  match s with
  | .conditional _ body => exact Block.map_edges _ body
  | .switch _ cases => exact Case.map_listEdges around cases
  | .function ⟨_, _, _, body⟩ => exact Block.map_edges _ body
  | .loop ⟨init, _, post, body⟩ =>
    rw [Statement.edges, Statement.ids, List.map_append, List.map_append, Block.map_edges _ init,
      Block.map_edges _ body, Block.map_edges _ post]
  | .block b => exact Block.map_edges _ b
  | .expression _ | .assignment _ _ | .declaration _ _ | .breakLoop | .continueLoop | .leave => rfl
end

/-- A distinct block stands directly in one block. -/
theorem Block.around_unique {program : Block} (hdistinct : program.ids.Nodup) {a b : Option BlockId}
    {id : BlockId} (ha : (a, id) ∈ program.edges none) (hb : (b, id) ∈ program.edges none) : a = b := by
  rw [← program.map_edges none] at hdistinct
  exact congrArg Prod.fst (List.inj_on_of_nodup_map hdistinct ha hb rfl)

/-! ### Chains -/

/-- The blocks of a region, each with the block directly around it. -/
def Region.edges (around : Option BlockId) : Region → List (Option BlockId × BlockId)
  | .block b => b.edges around
  | .loop l => l.init.edges around ++ (l.body.edges (some l.init.id) ++ l.post.edges (some l.init.id))

theorem Region.edge_mem (around : Option BlockId) (region : Region) :
    (around, region.id) ∈ region.edges around := by
  have hblock (b : Block) : (around, b.id) ∈ b.edges around := by
    rw [b.edges_eq]
    exact List.mem_cons_self ..
  cases region with
  | block b => exact hblock b
  | loop l => exact List.mem_append_left _ (hblock l.init)

theorem Case.edges_subset {around : BlockId} {c : Case} {cases : List Case} (h : c ∈ cases) :
    c.body.edges (some around) ⊆ Case.listEdges around cases := by
  induction cases with
  | nil => cases h
  | cons first rest ih =>
    obtain ⟨value, body⟩ := first
    unfold Case.listEdges
    rcases List.mem_cons.mp h with rfl | h
    · exact List.subset_append_left _ _
    · exact List.Subset.trans (ih h) (List.subset_append_right _ _)

theorem Statement.region_edges {around : BlockId} {s : Statement} {region : Region} (h : region ∈ s.regions) :
    region.edges (some around) ⊆ s.edges around := by
  cases s with
  | switch scrutinee cases =>
    obtain ⟨c, hc, rfl⟩ := List.mem_map.mp h
    exact Case.edges_subset hc
  | function definition =>
    obtain ⟨name, params, returns, body⟩ := definition
    obtain rfl := List.mem_singleton.mp h
    exact List.Subset.refl _
  | loop l =>
    obtain ⟨init, condition, post, body⟩ := l
    obtain rfl := List.mem_singleton.mp h
    exact List.Subset.refl _
  | conditional _ _ | block _ =>
    obtain rfl := List.mem_singleton.mp h
    exact List.Subset.refl _
  | _ => cases h

theorem Statement.list_region_edges {around : BlockId} {statements : List Statement} {region : Region}
    (h : region ∈ statements.flatMap Statement.regions) :
    region.edges (some around) ⊆ Statement.listEdges around statements := by
  induction statements with
  | nil => cases h
  | cons s rest ih =>
    unfold Statement.listEdges
    rw [List.flatMap_cons] at h
    rcases List.mem_append.mp h with h | h
    · exact List.Subset.trans (Statement.region_edges h) (List.subset_append_left _ _)
    · exact List.Subset.trans (ih h) (List.subset_append_right _ _)

/-- What stands directly in a region brings its edges with it. -/
theorem Region.inner_edges {around : Option BlockId} {region inside : Region} (h : inside ∈ region.inner) :
    inside.edges (some region.id) ⊆ region.edges around := by
  have hblock (b : Block) : Statement.listEdges b.id b.statements ⊆ b.edges around := by
    rw [b.edges_eq]
    exact List.subset_cons_self _ _
  cases region with
  | block b => exact List.Subset.trans (Statement.list_region_edges h) (hblock b)
  | loop l =>
    rcases List.mem_append.mp h with h | h
    · have hfront := List.Subset.trans (Statement.list_region_edges h) (hblock l.init)
      exact List.Subset.trans hfront (List.subset_append_left _ _)
    · refine List.Subset.trans ?_ (List.subset_append_right _ _)
      rcases Region.mem_parts h with rfl | rfl
      · exact List.subset_append_left _ _
      · exact List.subset_append_right _ _

namespace Chain
variable {program : Block} {chain : Chain} {region : Region}

/-- The block of the innermost region, if there is one. -/
def innermost (chain : Chain) : Option BlockId := chain.head?.map Region.id

theorem inner_edges (h : In program chain) (hregion : region ∈ inner program chain) :
    region.edges chain.innermost ⊆ program.edges none := by
  induction chain generalizing region with
  | nil =>
    obtain rfl := List.mem_singleton.mp hregion
    exact List.Subset.refl _
  | cons first outer ih => exact List.Subset.trans (Region.inner_edges hregion) (ih h.2 h.1)

/-- A chain follows the edges of the program. -/
theorem edge (h : In program (region :: chain)) : (chain.innermost, region.id) ∈ program.edges none :=
  inner_edges h.2 h.1 (region.edge_mem chain.innermost)

/-- Where blocks are distinct, a chain is known by its innermost block. -/
theorem ids_unique (hdistinct : program.ids.Nodup) {other : Chain} (h : In program chain)
    (hother : In program other) (hhead : chain.innermost = other.innermost) : ids chain = ids other := by
  induction chain generalizing other with
  | nil =>
    cases other with
    | nil => rfl
    | cons _ _ => cases hhead
  | cons region outer ih =>
    cases other with
    | nil => cases hhead
    | cons region' outer' =>
      have hid : region.id = region'.id := Option.some.inj hhead
      have houter : innermost outer = innermost outer' := by
        refine Block.around_unique hdistinct (edge h) ?_
        rw [hid]
        exact edge hother
      exact List.cons_eq_cons.mpr ⟨hid, ih h.2 hother.2 houter⟩

end Chain
end BlockIR
