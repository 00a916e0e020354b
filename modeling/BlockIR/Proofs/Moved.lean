import BlockIR.Proofs.Pairs
import BlockIR.Proofs.Scoping
import Mathlib.Data.List.Nodup

/-! Programs whose function definitions have been moved.

Two programs are rearrangements of each other (`Node.Moved`) if they differ only
in where the function definitions of each block stand among its statements; the
other statements keep their order, and inside the definitions and the other
blocks the same may have been done. A moved block is written at another place and
so has another identity. As each block of a written program has an identity of its
own, the identities on the two sides can be told apart by a relation that is one
to one (`Node.Numbered.exists_oneToOne`). -/
namespace BlockIR

/-- The statements of a list that define no functions, in order. -/
def Statement.others (statements : List Statement) : List Statement :=
  statements.filter fun
    | .function _ => false
    | _ => true

/-- The statements of a block that define no functions, in order. -/
def Block.others (b : Block) : List Statement := Statement.others b.statements

/-- The nodes differ only in where the function definitions of each block stand among its statements,
and in the identities of blocks, which are related by `K`. -/
inductive Node.Moved (K : BlockId → BlockId → Prop) : Node → Node → Prop
  | expression (e : Expr) : Moved K (.expression e) (.expression e)
  /-- The functions are the same in any order, and the other statements are the same in order. -/
  | block {b b' : Block} (functions : List (FunctionDefinition × FunctionDefinition))
    (others : List (Statement × Statement)) : K b.id b'.id →
      (functions.map Prod.fst).Perm b.functions → (functions.map Prod.snd).Perm b'.functions →
      others.map Prod.fst = b.others → others.map Prod.snd = b'.others →
      (∀ q ∈ functions, Moved K (.statement (.function q.1)) (.statement (.function q.2))) →
      (∀ q ∈ others, Moved K (.statement q.1) (.statement q.2)) → Moved K (.block b) (.block b')
  | evaluation (e : Expr) : Moved K (.statement (.expression e)) (.statement (.expression e))
  | assignment (targets : List String) (e : Expr) :
    Moved K (.statement (.assignment targets e)) (.statement (.assignment targets e))
  | declaration (names : List String) (value : Option Expr) :
    Moved K (.statement (.declaration names value)) (.statement (.declaration names value))
  | conditional (condition : Expr) {body body' : Block} : Moved K (.block body) (.block body') →
    Moved K (.statement (.conditional condition body)) (.statement (.conditional condition body'))
  | switch (scrutinee : Expr) (cases : List (Case × Case)) : (∀ q ∈ cases, q.2.value = q.1.value) →
    (∀ q ∈ cases, Moved K (.block q.1.body) (.block q.2.body)) →
      Moved K (.statement (.switch scrutinee (cases.map Prod.fst)))
        (.statement (.switch scrutinee (cases.map Prod.snd)))
  | function {f g : FunctionDefinition} : g.name = f.name → g.params = f.params → g.returns = f.returns →
    Moved K (.block f.body) (.block g.body) → Moved K (.statement (.function f)) (.statement (.function g))
  | loop {l m : ForLoop} : m.condition = l.condition → Moved K (.block l.init) (.block m.init) →
    Moved K (.block l.body) (.block m.body) → Moved K (.block l.post) (.block m.post) →
      Moved K (.statement (.loop l)) (.statement (.loop m))
  | breakLoop : Moved K (.statement .breakLoop) (.statement .breakLoop)
  | continueLoop : Moved K (.statement .continueLoop) (.statement .continueLoop)
  | leave : Moved K (.statement .leave) (.statement .leave)
  | inner {b b' : Block} : Moved K (.block b) (.block b') → Moved K (.statement (.block b)) (.statement (.block b'))

namespace Statement

theorem others_function (f : FunctionDefinition) (rest : List Statement) :
    others (.function f :: rest) = others rest := rfl

theorem functions_function (f : FunctionDefinition) (rest : List Statement) :
    functions (.function f :: rest) = f :: functions rest := rfl

/-- A statement is a function definition or one of the others. -/
theorem cons_cases (s : Statement) (rest : List Statement) :
    (∃ f, s = .function f) ∨ others (s :: rest) = s :: others rest ∧ functions (s :: rest) = functions rest := by
  cases s with
  | function f => exact .inl ⟨f, rfl⟩
  | _ => exact .inr ⟨rfl, rfl⟩

theorem others_append (first rest : List Statement) : others (first ++ rest) = others first ++ others rest :=
  List.filter_append ..

/-- Without function definitions all statements are others. -/
theorem others_eq_self {statements : List Statement} (h : functions statements = []) :
    others statements = statements := by
  induction statements with
  | nil => rfl
  | cons s rest ih =>
    rcases cons_cases s rest with ⟨f, rfl⟩ | ⟨hothers, hfunctions⟩
    · cases h
    · rw [hothers, ih (hfunctions ▸ h)]

/-- Each statement is a function definition or one of the others. -/
theorem length_eq (statements : List Statement) :
    statements.length = (functions statements).length + (others statements).length := by
  induction statements with
  | nil => rfl
  | cons s rest ih =>
    rcases cons_cases s rest with ⟨f, rfl⟩ | ⟨hothers, hfunctions⟩
    · rw [functions_function, others_function, List.length_cons, List.length_cons, ih]
      omega
    · rw [hothers, hfunctions, List.length_cons, List.length_cons, ih]
      omega

end Statement

namespace Node.Moved
variable {K L : BlockId → BlockId → Prop} {n n' : Node}

/-- Moving goes in both directions. -/
theorem symm (hKL : ∀ a b, K a b → L b a) (h : Moved K n n') : Moved L n' n := by
  have hfst {α : Type} (l : List (α × α)) : (l.map Prod.swap).map Prod.fst = l.map Prod.snd := by
    rw [List.map_map]
    rfl
  have hsnd {α : Type} (l : List (α × α)) : (l.map Prod.swap).map Prod.snd = l.map Prod.fst := by
    rw [List.map_map]
    rfl
  induction h with
  | expression e => exact .expression e
  | block functions others hid hfunctions hfunctions' hothers hothers' _ _ ihf iho =>
    refine .block (functions.map Prod.swap) (others.map Prod.swap) (hKL _ _ hid) ?_ ?_ ?_ ?_ ?_ ?_
    · rwa [hfst]
    · rwa [hsnd]
    · rwa [hfst]
    · rwa [hsnd]
    · exact List.forall_mem_map.mpr ihf
    · exact List.forall_mem_map.mpr iho
  | evaluation e => exact .evaluation e
  | assignment targets e => exact .assignment targets e
  | declaration names value => exact .declaration names value
  | conditional condition _ ih => exact .conditional condition ih
  | switch scrutinee cases hvalues _ ih =>
    rw [← hfst cases, ← hsnd cases]
    refine .switch scrutinee (cases.map Prod.swap) ?_ (List.forall_mem_map.mpr ih)
    exact List.forall_mem_map.mpr fun q hq => (hvalues q hq).symm
  | function hname hparams hreturns _ ih => exact .function hname.symm hparams.symm hreturns.symm ih
  | loop hcondition _ _ _ hinit hbody hpost => exact .loop hcondition.symm hinit hbody hpost
  | breakLoop => exact .breakLoop
  | continueLoop => exact .continueLoop
  | leave => exact .leave
  | inner _ ih => exact .inner ih

end Node.Moved

/-! ### Identities -/

mutual
/-- The identities of all blocks of a block, itself included. -/
def Block.ids : Block → List BlockId
  | ⟨id, statements⟩ => id :: Statement.listIds statements

/-- The identities of all blocks in statements. -/
def Statement.listIds : List Statement → List BlockId
  | [] => []
  | s :: rest => s.ids ++ Statement.listIds rest

/-- The identities of all blocks in cases. -/
def Case.listIds : List Case → List BlockId
  | [] => []
  | ⟨_, body⟩ :: rest => body.ids ++ Case.listIds rest

/-- The identities of all blocks in a statement. -/
def Statement.ids : Statement → List BlockId
  | .conditional _ body => body.ids
  | .switch _ cases => Case.listIds cases
  | .function ⟨_, _, _, body⟩ => body.ids
  | .loop ⟨init, _, post, body⟩ => init.ids ++ (body.ids ++ post.ids)
  | .block b => b.ids
  | .expression _ | .assignment _ _ | .declaration _ _ | .breakLoop | .continueLoop | .leave => []
end

/-- The identities of all blocks in a node. -/
def Node.ids : Node → List BlockId
  | .block b => b.ids
  | .statement s => s.ids
  | .expression _ => []

theorem Case.listIds_eq (cases : List Case) : Case.listIds cases = cases.flatMap fun c => c.body.ids := by
  induction cases with
  | nil => rfl
  | cons first rest ih =>
    obtain ⟨value, body⟩ := first
    rw [Case.listIds, ih, List.flatMap_cons]

theorem Statement.listIds_eq (statements : List Statement) :
    Statement.listIds statements = statements.flatMap Statement.ids := by
  induction statements with
  | nil => rfl
  | cons s rest ih => rw [Statement.listIds, ih, List.flatMap_cons]

theorem Block.ids_eq (b : Block) : b.ids = b.id :: b.statements.flatMap Statement.ids := by
  obtain ⟨id, statements⟩ := b
  exact congrArg (id :: ·) (Statement.listIds_eq statements)

theorem Statement.ids_switch (scrutinee : Expr) (cases : List Case) :
    (Statement.switch scrutinee cases).ids = cases.flatMap fun c => c.body.ids := Case.listIds_eq cases

theorem Statement.listIds_perm (statements : List Statement) :
    (Statement.listIds statements).Perm
      ((Statement.functions statements).flatMap (fun f => (Statement.function f).ids) ++
        (Statement.others statements).flatMap Statement.ids) := by
  induction statements with
  | nil => exact .nil
  | cons s rest ih =>
    rw [Statement.listIds]
    rcases Statement.cons_cases s rest with ⟨f, rfl⟩ | ⟨hothers, hfunctions⟩
    · rw [Statement.functions_function, Statement.others_function, List.flatMap_cons, List.append_assoc]
      exact ih.append_left _
    · rw [hothers, hfunctions, List.flatMap_cons]
      refine (ih.append_left s.ids).trans ?_
      rw [← List.append_assoc, ← List.append_assoc]
      exact List.perm_append_comm.append_right _

/-! ### Written programs -/

theorem Place.not_item_below (place : Place) (name : String) (position : Nat) :
    ¬place.item name position <+: place := by
  intro h
  have hlength := h.length_le
  rw [Place.item_eq, List.length_append] at hlength
  exact absurd hlength (by simp)

/-- What is inside the first items of an array has other identities than what is inside the next ones. -/
theorem Place.items_nodup {place : Place} {name : String} {position : Nat} {ids jds : List BlockId}
    (hfirst : ids.Nodup ∧ ∀ id ∈ ids, place.item name position <+: id)
    (hrest : jds.Nodup ∧ ∀ id ∈ jds, ∃ i, position + 1 ≤ i ∧ place.item name i <+: id) :
    (ids ++ jds).Nodup ∧ ∀ id ∈ ids ++ jds, ∃ i, position ≤ i ∧ place.item name i <+: id := by
  refine ⟨List.nodup_append.mpr ⟨hfirst.1, hrest.1, fun a ha b hb heq => ?_⟩, List.forall_mem_append.mpr ⟨?_, ?_⟩⟩
  · obtain ⟨i, hi, hitem⟩ := hrest.2 b hb
    have hsame := Place.position_eq_of_below (hfirst.2 a ha) (heq ▸ hitem)
    omega
  · exact fun id hid => ⟨position, Nat.le_refl _, hfirst.2 id hid⟩
  · intro id hid
    obtain ⟨i, hi, hitem⟩ := hrest.2 id hid
    exact ⟨i, by omega, hitem⟩

mutual
/-- The blocks of a written block are inside its place and have different identities. -/
theorem Block.ids_written {place : Place} (b : Block) (h : b.WrittenAt place) :
    b.ids.Nodup ∧ ∀ id ∈ b.ids, place <+: id := by
  obtain ⟨id, statements⟩ := b
  obtain ⟨rfl, hstatements⟩ := h
  obtain ⟨hnodup, hbelow⟩ := Statement.listIds_written statements hstatements
  have hitem {inner : BlockId} (hinner : inner ∈ Statement.listIds statements) :
      ∃ i, id.item "statements" i <+: inner := by
    obtain ⟨i, -, hi⟩ := hbelow inner hinner
    exact ⟨i, hi⟩
  refine ⟨List.nodup_cons.mpr ⟨fun hself => ?_, hnodup⟩,
    List.forall_mem_cons.mpr ⟨List.prefix_rfl, fun inner hinner => ?_⟩⟩
  · obtain ⟨i, hi⟩ := hitem hself
    exact Place.not_item_below _ _ _ hi
  · obtain ⟨i, hi⟩ := hitem hinner
    exact (id.below_field _).trans ((id.below_item _ _).trans hi)

/-- The blocks of written statements are inside the items of an array and have different identities. -/
theorem Statement.listIds_written {place : Place} {position : Nat} (statements : List Statement)
    (h : Statement.ListWrittenAt place position statements) :
    (Statement.listIds statements).Nodup ∧
      ∀ id ∈ Statement.listIds statements, ∃ i, position ≤ i ∧ place.item "statements" i <+: id := by
  cases statements with
  | nil => exact ⟨.nil, nofun⟩
  | cons s rest =>
    exact Place.items_nodup (Statement.ids_written s h.1) (Statement.listIds_written rest h.2)

/-- The blocks of written cases are inside the items of an array and have different identities. -/
theorem Case.listIds_written {place : Place} {position : Nat} (cases : List Case)
    (h : Case.ListWrittenAt place position cases) :
    (Case.listIds cases).Nodup ∧
      ∀ id ∈ Case.listIds cases, ∃ i, position ≤ i ∧ place.item "cases" i <+: id := by
  cases cases with
  | nil => exact ⟨.nil, nofun⟩
  | cons first rest =>
    obtain ⟨value, body⟩ := first
    obtain ⟨hnodup, hbelow⟩ := Block.ids_written body h.1
    refine Place.items_nodup ⟨hnodup, fun id hid => ?_⟩ (Case.listIds_written rest h.2)
    exact (Place.below_field _ _).trans (hbelow id hid)

/-- The blocks of a written statement are inside its place and have different identities. -/
theorem Statement.ids_written {place : Place} (s : Statement) (h : s.WrittenAt place) :
    s.ids.Nodup ∧ ∀ id ∈ s.ids, place <+: id := by
  -- A block at a member of the statement is inside the statement.
  have member {name : String} {ids : List BlockId} (hids : ids.Nodup ∧ ∀ id ∈ ids, place.field name <+: id) :
      ids.Nodup ∧ ∀ id ∈ ids, place <+: id :=
    ⟨hids.1, fun id hid => (place.below_field name).trans (hids.2 id hid)⟩
  cases s with
  | conditional condition body => exact member (Block.ids_written body h.2)
  | switch scrutinee cases =>
    obtain ⟨hnodup, hbelow⟩ := Case.listIds_written cases h.2.2
    refine ⟨hnodup, fun id hid => ?_⟩
    obtain ⟨i, -, hitem⟩ := hbelow id hid
    exact (place.below_field _).trans ((place.below_item _ _).trans hitem)
  | function f =>
    obtain ⟨name, params, returns, body⟩ := f
    exact member (Block.ids_written body h.2.2.2)
  | loop l =>
    obtain ⟨init, condition, post, body⟩ := l
    obtain ⟨hinit, -, hpost, hbody⟩ := h
    have hinit := Block.ids_written init hinit
    have hpost := Block.ids_written post hpost
    have hbody := Block.ids_written body hbody
    refine ⟨List.nodup_append.mpr ⟨hinit.1, List.nodup_append.mpr ⟨hbody.1, hpost.1, ?_⟩, ?_⟩, ?_⟩
    · rintro a ha b hb rfl
      exact absurd (Place.field_eq_of_below (hbody.2 a ha) (hpost.2 a hb)) (by decide)
    · rintro a ha b hb rfl
      rcases List.mem_append.mp hb with hb | hb
      · exact absurd (Place.field_eq_of_below (hinit.2 a ha) (hbody.2 a hb)) (by decide)
      · exact absurd (Place.field_eq_of_below (hinit.2 a ha) (hpost.2 a hb)) (by decide)
    · exact List.forall_mem_append.mpr
        ⟨(member hinit).2, List.forall_mem_append.mpr ⟨(member hbody).2, (member hpost).2⟩⟩
  | block b => exact Block.ids_written b h
  | _ => exact ⟨.nil, nofun⟩
end

/-! ### Telling identities apart -/

/-- Pairs of identities that are all of one node and all of another one, each once; relations that
relate these pairs make `M` hold. -/
structure Numbers (pairs : List (BlockId × BlockId)) (ids ids' : List BlockId)
    (M : (BlockId → BlockId → Prop) → Prop) : Prop where
  left : (pairs.map Prod.fst).Perm ids
  right : (pairs.map Prod.snd).Perm ids'
  holds : ∀ K : BlockId → BlockId → Prop, (∀ q ∈ pairs, K q.1 q.2) → M K

namespace Numbers
variable {M N : (BlockId → BlockId → Prop) → Prop} {ids ids' jds jds' : List BlockId}

theorem empty (h : ∀ K, M K) : Numbers [] [] [] M := ⟨.nil, .nil, fun K _ => h K⟩

theorem append {pairs more : List (BlockId × BlockId)} (h : Numbers pairs ids ids' M)
    (h' : Numbers more jds jds' N) :
    Numbers (pairs ++ more) (ids ++ jds) (ids' ++ jds') fun K => M K ∧ N K where
  left := List.map_append ▸ h.left.append h'.left
  right := List.map_append ▸ h.right.append h'.right
  holds K hK :=
    have hboth := List.forall_mem_append.mp hK
    ⟨h.holds K hboth.1, h'.holds K hboth.2⟩

theorem imp {pairs : List (BlockId × BlockId)} (h : Numbers pairs ids ids' M) (hids : ids.Perm jds)
    (hids' : ids'.Perm jds') (hMN : ∀ K, M K → N K) : Numbers pairs jds jds' N :=
  ⟨h.left.trans hids, h.right.trans hids', fun K hK => hMN K (h.holds K hK)⟩

/-- Numbering all of a list. -/
theorem all {α : Type} {l : List α} {ids ids' : α → List BlockId} {M : α → (BlockId → BlockId → Prop) → Prop}
    (h : ∀ a ∈ l, ∃ pairs, Numbers pairs (ids a) (ids' a) (M a)) :
    ∃ pairs, Numbers pairs (l.flatMap ids) (l.flatMap ids') fun K => ∀ a ∈ l, M a K := by
  induction l with
  | nil => exact ⟨[], .empty fun _ => nofun⟩
  | cons a rest ih =>
    obtain ⟨hfirst, hrest⟩ := List.forall_mem_cons.mp h
    obtain ⟨pairs, hpairs⟩ := hfirst
    obtain ⟨more, hmore⟩ := ih hrest
    exact ⟨pairs ++ more, (hpairs.append hmore).imp .rfl .rfl fun K hK => List.forall_mem_cons.mpr ⟨hK.1, hK.2⟩⟩

/-- Where identities are different the pairs are one to one. -/
theorem oneToOne {pairs : List (BlockId × BlockId)} (h : Numbers pairs ids ids' M) (hids : ids.Nodup)
    (hids' : ids'.Nodup) : OneToOne fun a b => (a, b) ∈ pairs := by
  have hleft := List.inj_on_of_nodup_map (h.left.nodup_iff.mpr hids)
  have hright := List.inj_on_of_nodup_map (h.right.nodup_iff.mpr hids')
  intro a a' b b' hab hab'
  constructor
  · exact fun hsame => congrArg Prod.snd (hleft hab hab' hsame)
  · exact fun hsame => congrArg Prod.fst (hright hab hab' hsame)

/-- Blocks that belong together. -/
theorem self (id id' : BlockId) : Numbers [(id, id')] [id] [id'] fun K => K id id' :=
  ⟨.rfl, .rfl, fun _ hK => hK _ (List.mem_singleton_self _)⟩

end Numbers

/-- Which blocks of two nodes belong together can be said by pairs of their identities: relations that relate
these pairs relate the nodes by `M`. -/
def Node.Numbered (M : (BlockId → BlockId → Prop) → Node → Node → Prop) (n n' : Node) : Prop :=
  ∃ pairs, Numbers pairs n.ids n'.ids fun K => M K n n'

namespace Node.Numbered
variable {M : (BlockId → BlockId → Prop) → Node → Node → Prop} {n n' m m' : Node}

/-- Nodes that no block stands in. -/
theorem empty (hids : n.ids = []) (hids' : n'.ids = []) (hM : ∀ K, M K n n') : Numbered M n n' :=
  ⟨[], hids ▸ hids' ▸ .empty hM⟩

/-- Nodes with the same blocks as one part of each. -/
theorem part (h : Numbered M m m') (hids : n.ids = m.ids) (hids' : n'.ids = m'.ids)
    (hM : ∀ K, M K m m' → M K n n') : Numbered M n n' := by
  obtain ⟨pairs, hpairs⟩ := h
  exact ⟨pairs, hpairs.imp (.of_eq hids.symm) (.of_eq hids'.symm) hM⟩

theorem function {f g : FunctionDefinition} (h : Numbered M (.block f.body) (.block g.body))
    (hM : ∀ K, M K (.block f.body) (.block g.body) → M K (.statement (.function f)) (.statement (.function g))) :
    Numbered M (.statement (.function f)) (.statement (.function g)) := by
  obtain ⟨_, _, _, body⟩ := f
  obtain ⟨_, _, _, body'⟩ := g
  exact h.part rfl rfl hM

theorem loop {l l' : ForLoop} (hinit : Numbered M (.block l.init) (.block l'.init))
    (hbody : Numbered M (.block l.body) (.block l'.body)) (hpost : Numbered M (.block l.post) (.block l'.post))
    (hM : ∀ K, M K (.block l.init) (.block l'.init) → M K (.block l.body) (.block l'.body) →
      M K (.block l.post) (.block l'.post) → M K (.statement (.loop l)) (.statement (.loop l'))) :
    Numbered M (.statement (.loop l)) (.statement (.loop l')) := by
  obtain ⟨_, hinit⟩ := hinit
  obtain ⟨_, hbody⟩ := hbody
  obtain ⟨_, hpost⟩ := hpost
  obtain ⟨init, condition, post, body⟩ := l
  obtain ⟨init', condition', post', body'⟩ := l'
  exact ⟨_, (hinit.append (hbody.append hpost)).imp .rfl .rfl fun K hK => hM K hK.1 hK.2.1 hK.2.2⟩

/-- The cases on the one side may stand in another order. -/
theorem switch {scrutinee : Expr} {cases : List (Case × Case)} {cases' : List Case}
    (hperm : (cases.map Prod.snd).Perm cases') (h : ∀ q ∈ cases, Numbered M (.block q.1.body) (.block q.2.body))
    (hM : ∀ K, (∀ q ∈ cases, M K (.block q.1.body) (.block q.2.body)) →
      M K (.statement (.switch scrutinee (cases.map Prod.fst))) (.statement (.switch scrutinee cases'))) :
    Numbered M (.statement (.switch scrutinee (cases.map Prod.fst))) (.statement (.switch scrutinee cases')) := by
  obtain ⟨pairs, hpairs⟩ := Numbers.all h
  refine ⟨pairs, hpairs.imp (.of_eq ?_) ?_ hM⟩
  · refine Eq.trans ?_ (Statement.ids_switch scrutinee _).symm
    rw [List.flatMap_map]
    rfl
  · refine .trans (.of_eq ?_) ((hperm.flatMap_right _).trans (.of_eq (Statement.ids_switch scrutinee _).symm))
    rw [List.flatMap_map]
    rfl

/-- The identities of written programs can be told apart on both sides. -/
theorem exists_oneToOne {b b' : Block} {place place' : Place} (h : Numbered M (.block b) (.block b'))
    (hwritten : b.WrittenAt place) (hwritten' : b'.WrittenAt place') :
    ∃ L, OneToOne L ∧ M L (.block b) (.block b') := by
  obtain ⟨pairs, hpairs⟩ := h
  have hone := hpairs.oneToOne (Block.ids_written b hwritten).1 (Block.ids_written b' hwritten').1
  exact ⟨fun a a' => (a, a') ∈ pairs, hone, hpairs.holds _ fun q hq => hq⟩

end Node.Numbered

/-- Moving is said by pairs of identities. -/
theorem Node.Moved.numbered {K : BlockId → BlockId → Prop} {n n' : Node} (h : Moved K n n') :
    Numbered Moved n n' := by
  induction h with
  | expression e => exact .empty rfl rfl fun _ => .expression e
  | @block b b' functions others hid hfunctions hfunctions' hothers hothers' _ _ ihf iho =>
    obtain ⟨pairs, hpairs⟩ := Numbers.all ihf
    obtain ⟨more, hmore⟩ := Numbers.all iho
    have hids (c : Block) {fs : List FunctionDefinition} {ss : List Statement} (hfs : fs.Perm c.functions)
        (hss : ss = c.others) :
        ([c.id] ++ (fs.flatMap (fun f => (Statement.function f).ids) ++ ss.flatMap Statement.ids)).Perm c.ids := by
      obtain ⟨id, statements⟩ := c
      subst hss
      refine .cons id (((hfs.flatMap_right _).append_right _).trans ?_)
      exact (Statement.listIds_perm statements).symm
    refine ⟨_, ((Numbers.self b.id b'.id).append (hpairs.append hmore)).imp ?_ ?_ fun L hL => ?_⟩
    · have h := hids b hfunctions hothers
      rw [List.flatMap_map, List.flatMap_map] at h
      exact h
    · have h := hids b' hfunctions' hothers'
      rw [List.flatMap_map, List.flatMap_map] at h
      exact h
    · exact .block functions others hL.1 hfunctions hfunctions' hothers hothers' hL.2.1 hL.2.2
  | evaluation e => exact .empty rfl rfl fun _ => .evaluation e
  | assignment targets e => exact .empty rfl rfl fun _ => .assignment targets e
  | declaration names value => exact .empty rfl rfl fun _ => .declaration names value
  | conditional condition _ ih => exact ih.part rfl rfl fun _ => .conditional condition
  | switch scrutinee cases hvalues _ ih => exact .switch .rfl ih fun _ => .switch scrutinee cases hvalues
  | function hname hparams hreturns _ ih => exact .function ih fun _ => .function hname hparams hreturns
  | loop hcondition _ _ _ hinit hbody hpost => exact .loop hinit hbody hpost fun _ => .loop hcondition
  | breakLoop => exact .empty rfl rfl fun _ => .breakLoop
  | continueLoop => exact .empty rfl rfl fun _ => .continueLoop
  | leave => exact .empty rfl rfl fun _ => .leave
  | inner _ ih => exact ih.part rfl rfl fun _ => .inner

end BlockIR
