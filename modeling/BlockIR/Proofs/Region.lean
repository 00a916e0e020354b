import BlockIR.Proofs.Reading

/-! Regions: the parts of a program that have a scope of their own.

A region is a block, or a loop with the statements in front of it. The regions
around a piece of the program, innermost first, are its lexical chain: it says
which functions the piece can see, whatever runs. In a program that was read off
a document, siblings have different identities (`inner_eq_of_id`), so a chain is
known by the identities of its regions (`Chain.eq_of_ids`). -/
namespace BlockIR

/-- A part of a program with a scope of its own. -/
inductive Region where
  | block (b : Block)
  | loop (l : ForLoop)

/-- The names that a statement declares. -/
def Statement.names : Statement → List String
  | .declaration names _ => names
  | _ => []

/-- The regions that stand directly in a statement. -/
def Statement.regions : Statement → List Region
  | .conditional _ body => [.block body]
  | .switch _ cases => cases.map fun c => .block c.body
  | .function definition => [.block definition.body]
  | .loop l => [.loop l]
  | .block b => [.block b]
  | _ => []

/-- The first of some functions that has that name. -/
def FunctionDefinition.named? (name : String) (functions : List FunctionDefinition) :
    Option FunctionDefinition := functions.find? fun f => f.name = name

namespace FunctionDefinition
variable {name : String} {functions : List FunctionDefinition}

theorem named?_cons (first : FunctionDefinition) :
    named? name (first :: functions) = if first.name = name then some first else named? name functions := by
  unfold named?
  rw [List.find?_cons]
  by_cases h : first.name = name <;> simp [h]

theorem named?_eq_none : named? name functions = none ↔ ∀ f ∈ functions, f.name ≠ name := by
  simp [named?]

theorem mem_of_named? {f : FunctionDefinition} (h : named? name functions = some f) : f ∈ functions :=
  List.mem_of_find?_eq_some h

theorem name_of_named? {f : FunctionDefinition} (h : named? name functions = some f) : f.name = name := by
  simpa using List.find?_some h

/-- With different names, a function is the one of its name. -/
theorem named?_of_mem (hnodup : (functions.map FunctionDefinition.name).Nodup) {f : FunctionDefinition}
    (hf : f ∈ functions) : named? f.name functions = some f := by
  induction functions with
  | nil => cases hf
  | cons first rest ih =>
    obtain ⟨hnew, hnodup⟩ := List.nodup_cons.mp hnodup
    rw [named?_cons]
    rcases List.mem_cons.mp hf with rfl | hf
    · rw [if_pos rfl]
    · have hne : first.name ≠ f.name := by
        intro hsame
        exact hnew (List.mem_map.mpr ⟨f, hf, hsame.symm⟩)
      rw [if_neg hne]
      exact ih hnodup hf

end FunctionDefinition

open FunctionDefinition (named? mem_of_named?)

namespace Region

/-- The identity under which a region is entered. -/
def id : Region → BlockId
  | block b => b.id
  | loop l => l.init.id

/-- The statements that run in the scope of a region. -/
def statements : Region → List Statement
  | block b => b.statements
  | loop l => l.init.statements

/-- The functions that a region declares. -/
def functions : Region → List FunctionDefinition
  | block b => b.functions
  | loop _ => []

/-- The names of the variables that a region declares. -/
def names (region : Region) : List String := region.statements.flatMap Statement.names

/-- The regions that stand directly in a region. -/
def inner : Region → List Region
  | block b => b.statements.flatMap Statement.regions
  | loop l => l.init.statements.flatMap Statement.regions ++ [.block l.body, .block l.post]

end Region

theorem Region.mem_parts {region : Region} {body post : Block}
    (h : region ∈ [.block body, .block post]) : region = .block body ∨ region = .block post := by
  simpa using h

/-! ### Chains -/

/-- Regions one around the other, innermost first. -/
abbrev Chain : Type := List Region

namespace Chain

/-- The regions that can be entered from inside a chain of a program. -/
def inner (program : Block) : Chain → List Region
  | [] => [.block program]
  | region :: _ => region.inner

/-- Each region stands directly in the next one, and the last one is the program. -/
def In (program : Block) : Chain → Prop
  | [] => True
  | region :: outer => region ∈ inner program outer ∧ In program outer

/-- The identities of the regions of a chain. -/
def ids (chain : Chain) : List BlockId := chain.map Region.id

/-- The functions that the innermost region declares. -/
def functions : Chain → List FunctionDefinition
  | [] => []
  | region :: _ => region.functions

/-- The variables that the innermost region declares. -/
def names : Chain → List String
  | [] => []
  | region :: _ => region.names

/-- The function of that name in the innermost region that declares one, and the chain from that
region on. -/
def function? (name : String) : Chain → Option (FunctionDefinition × Chain)
  | [] => none
  | region :: outer =>
    match named? name region.functions with
    | some definition => some (definition, region :: outer)
    | none => function? name outer

theorem function?_of_none {name : String} {region : Region} {outer : Chain}
    (h : named? name region.functions = none) : function? name (region :: outer) = function? name outer := by
  simp only [function?, h]

theorem function?_of_some {name : String} {region : Region} {outer : Chain}
    {definition : FunctionDefinition} (h : named? name region.functions = some definition) :
    function? name (region :: outer) = some (definition, region :: outer) := by
  simp only [function?, h]

/-- The function that a name stands for is declared by the innermost region of its chain. -/
theorem function?_spec {program : Block} {name : String} {chain found : Chain}
    {definition : FunctionDefinition} (hin : In program chain)
    (h : function? name chain = some (definition, found)) :
    In program found ∧ definition ∈ functions found := by
  induction chain with
  | nil => cases h
  | cons region outer ih =>
    unfold function? at h
    split at h
    · rename_i hfind
      cases h
      exact ⟨hin, mem_of_named? hfind⟩
    · exact ih hin.2 h

end Chain

/-- A function of a region is a statement of it. -/
theorem Region.function_mem {region : Region} {definition : FunctionDefinition}
    (h : definition ∈ region.functions) : .function definition ∈ region.statements := by
  cases region with
  | loop l => cases h
  | block b =>
    obtain ⟨s, hs, hdefinition⟩ := List.mem_filterMap.mp h
    cases s <;> cases hdefinition
    exact hs

/-- What stands in a statement of a region stands in the region. -/
theorem Region.mem_inner {region inside : Region} {s : Statement} (hs : s ∈ region.statements)
    (h : inside ∈ s.regions) : inside ∈ region.inner := by
  cases region with
  | block b => exact List.mem_flatMap.mpr ⟨s, hs, h⟩
  | loop l => exact List.mem_append_left _ (List.mem_flatMap.mpr ⟨s, hs, h⟩)

/-! ### Places of regions -/

namespace Place

/-- Two ways of the same length to one place are the same. -/
theorem eq_of_below {place inner a b : Place} (ha : place ++ a <+: inner) (hb : place ++ b <+: inner)
    (hlength : a.length = b.length) : a = b := by
  have h : place ++ a = place ++ b := by
    rw [List.prefix_iff_eq_take.mp ha, List.prefix_iff_eq_take.mp hb]
    simp [hlength]
  exact List.append_cancel_left h

theorem item_eq (place : Place) (name : String) (position : Nat) :
    place.item name position = place ++ [.field name, .index position] := by
  simp [item, field, index]

/-- What is inside two items of one array is inside the same item. -/
theorem position_eq_of_below {place inner : Place} {name : String} {i j : Nat}
    (hi : place.item name i <+: inner) (hj : place.item name j <+: inner) : i = j := by
  rw [item_eq] at hi hj
  have h := eq_of_below hi hj rfl
  simpa using h

/-- What is inside two members of one object is inside the same member. -/
theorem field_eq_of_below {place inner : Place} {a b : String} (ha : place.field a <+: inner)
    (hb : place.field b <+: inner) : a = b := by
  have h := eq_of_below ha hb rfl
  simpa using h

theorem below_field (place : Place) (name : String) : place <+: place.field name :=
  List.prefix_append place _

theorem below_item (place : Place) (name : String) (position : Nat) :
    place.field name <+: place.item name position := List.prefix_append _ _

end Place

/-- A region as it can stand in a document. -/
def Region.Written : Region → Prop
  | .block b => b.WrittenAt b.id
  | .loop l => ∃ place, Statement.WrittenAt place (.loop l)

theorem Block.WrittenAt.id_eq {place : Place} {b : Block} (h : b.WrittenAt place) : b.id = place := by
  obtain ⟨id, statements⟩ := b
  exact h.1

theorem Block.WrittenAt.statements {place : Place} {b : Block} (h : b.WrittenAt place) :
    Statement.ListWrittenAt place 0 b.statements := by
  obtain ⟨id, statements⟩ := b
  exact h.2

/-- A block is written where it says it is. -/
theorem Block.WrittenAt.region {place : Place} {b : Block} (h : b.WrittenAt place) :
    (Region.block b).Written := by
  show b.WrittenAt b.id
  rw [h.id_eq]
  exact h

/-- The bodies of cases are written at places of their own. -/
theorem Case.bodies_written {place : Place} {position : Nat} {cases : List Case}
    (h : Case.ListWrittenAt place position cases) {c : Case} (hc : c ∈ cases) :
    ∃ i, position ≤ i ∧ c.body.WrittenAt ((place.item "cases" i).field "body") := by
  induction cases generalizing position with
  | nil => cases hc
  | cons first rest ih =>
    obtain ⟨value, body⟩ := first
    rcases List.mem_cons.mp hc with rfl | hc
    · exact ⟨position, Nat.le_refl _, h.1⟩
    · obtain ⟨i, hi, hbody⟩ := ih h.2 hc
      exact ⟨i, by omega, hbody⟩

/-- The regions of a statement are written, and inside its place. -/
theorem Statement.region_written {place : Place} {s : Statement} (h : s.WrittenAt place)
    {region : Region} (hregion : region ∈ s.regions) : region.Written ∧ place <+: region.id := by
  cases s with
  | conditional condition body =>
    obtain rfl := List.mem_singleton.mp hregion
    refine ⟨h.2.region, ?_⟩
    show place <+: body.id
    rw [h.2.id_eq]
    exact place.below_field _
  | switch scrutinee cases =>
    obtain ⟨c, hc, rfl⟩ := List.mem_map.mp hregion
    obtain ⟨i, -, hbody⟩ := Case.bodies_written h.2.2 hc
    refine ⟨hbody.region, ?_⟩
    show place <+: c.body.id
    rw [hbody.id_eq]
    exact (place.below_field _).trans ((place.below_item _ _).trans (Place.below_field _ _))
  | function definition =>
    obtain ⟨name, params, returns, body⟩ := definition
    obtain rfl := List.mem_singleton.mp hregion
    refine ⟨h.2.2.2.region, ?_⟩
    show place <+: body.id
    rw [h.2.2.2.id_eq]
    exact place.below_field _
  | loop l =>
    obtain rfl := List.mem_singleton.mp hregion
    refine ⟨⟨place, h⟩, ?_⟩
    obtain ⟨init, condition, post, body⟩ := l
    show place <+: init.id
    rw [h.1.id_eq]
    exact place.below_field _
  | block b =>
    obtain rfl := List.mem_singleton.mp hregion
    refine ⟨Block.WrittenAt.region h, ?_⟩
    have hid : b.id = place := Block.WrittenAt.id_eq h
    exact hid ▸ List.prefix_rfl
  | _ => cases hregion

/-- The statements of a list are written at the items of an array. -/
theorem Statement.mem_written {place : Place} {position : Nat} {statements : List Statement}
    (h : Statement.ListWrittenAt place position statements) {s : Statement} (hs : s ∈ statements) :
    ∃ i, position ≤ i ∧ s.WrittenAt (place.item "statements" i) := by
  induction statements generalizing position with
  | nil => cases hs
  | cons first rest ih =>
    rcases List.mem_cons.mp hs with rfl | hs
    · exact ⟨position, Nat.le_refl _, h.1⟩
    · obtain ⟨i, hi, hwritten⟩ := ih h.2 hs
      exact ⟨i, by omega, hwritten⟩

/-- The regions of a list of statements are written, each inside an item. -/
theorem Statement.list_region_written {place : Place} {position : Nat} {statements : List Statement}
    (h : Statement.ListWrittenAt place position statements) {region : Region}
    (hregion : region ∈ statements.flatMap Statement.regions) :
    region.Written ∧ ∃ i, position ≤ i ∧ place.item "statements" i <+: region.id := by
  obtain ⟨s, hs, hregion⟩ := List.mem_flatMap.mp hregion
  obtain ⟨i, hi, hwritten⟩ := Statement.mem_written h hs
  obtain ⟨hdone, hbelow⟩ := Statement.region_written hwritten hregion
  exact ⟨hdone, i, hi, hbelow⟩

/-- The parts of a written loop. -/
theorem ForLoop.written_parts {place : Place} {l : ForLoop} (h : Statement.WrittenAt place (.loop l)) :
    l.init.WrittenAt (place.field "pre") ∧ l.post.WrittenAt (place.field "post") ∧
      l.body.WrittenAt (place.field "body") := by
  obtain ⟨init, condition, post, body⟩ := l
  exact ⟨h.1, h.2.2.1, h.2.2.2⟩

theorem Region.inner_written {region inside : Region} (h : region.Written) (hinside : inside ∈ region.inner) :
    inside.Written := by
  cases region with
  | block b => exact (Statement.list_region_written (Block.WrittenAt.statements h) hinside).1
  | loop l =>
    obtain ⟨place, h⟩ := h
    obtain ⟨hinit, hpost, hbody⟩ := ForLoop.written_parts h
    rcases List.mem_append.mp hinside with hinside | hinside
    · exact (Statement.list_region_written hinit.statements hinside).1
    · rcases Region.mem_parts hinside with rfl | rfl
      · exact hbody.region
      · exact hpost.region

/-! ### Identities -/

theorem Case.eq_of_id {place : Place} {position : Nat} {cases : List Case}
    (h : Case.ListWrittenAt place position cases) {a b : Case} (ha : a ∈ cases) (hb : b ∈ cases)
    (hid : a.body.id = b.body.id) : a.body = b.body := by
  induction cases generalizing position with
  | nil => cases ha
  | cons first rest ih =>
    obtain ⟨value, body⟩ := first
    have later {c : Case} (hc : c ∈ rest) : body.id ≠ c.body.id := by
      obtain ⟨i, hi, hwritten⟩ := Case.bodies_written h.2 hc
      intro hsame
      rw [h.1.id_eq, hwritten.id_eq] at hsame
      have hplaces := List.append_cancel_right hsame
      have hposition : position = i :=
        Place.position_eq_of_below (List.prefix_rfl (l := place.item "cases" position))
          (hplaces ▸ List.prefix_rfl)
      omega
    rcases List.mem_cons.mp ha with rfl | ha <;> rcases List.mem_cons.mp hb with rfl | hb
    · rfl
    · exact absurd hid (later hb)
    · exact absurd hid.symm (later ha)
    · exact ih h.2 ha hb

/-- The regions of a statement have different identities. -/
theorem Statement.region_eq_of_id {place : Place} {s : Statement} (h : s.WrittenAt place)
    {a b : Region} (ha : a ∈ s.regions) (hb : b ∈ s.regions) (hid : a.id = b.id) : a = b := by
  cases s with
  | switch scrutinee cases =>
    obtain ⟨c, hc, rfl⟩ := List.mem_map.mp ha
    obtain ⟨d, hd, rfl⟩ := List.mem_map.mp hb
    exact congrArg Region.block (Case.eq_of_id h.2.2 hc hd hid)
  | conditional _ _ => rw [List.mem_singleton.mp ha, List.mem_singleton.mp hb]
  | function _ => rw [List.mem_singleton.mp ha, List.mem_singleton.mp hb]
  | loop _ => rw [List.mem_singleton.mp ha, List.mem_singleton.mp hb]
  | block _ => rw [List.mem_singleton.mp ha, List.mem_singleton.mp hb]
  | _ => cases ha

theorem Statement.list_region_eq_of_id {place : Place} {position : Nat} {statements : List Statement}
    (h : Statement.ListWrittenAt place position statements) {a b : Region}
    (ha : a ∈ statements.flatMap Statement.regions) (hb : b ∈ statements.flatMap Statement.regions)
    (hid : a.id = b.id) : a = b := by
  induction statements generalizing position with
  | nil => cases ha
  | cons first rest ih =>
    have later {x y : Region} (hx : x ∈ first.regions) (hy : y ∈ rest.flatMap Statement.regions) :
        x.id ≠ y.id := by
      have hfirst := (Statement.region_written h.1 hx).2
      obtain ⟨-, i, hi, hrest⟩ := Statement.list_region_written h.2 hy
      intro hsame
      rw [hsame] at hfirst
      have hposition := Place.position_eq_of_below hfirst hrest
      omega
    rw [List.flatMap_cons] at ha hb
    rcases List.mem_append.mp ha with ha | ha <;> rcases List.mem_append.mp hb with hb | hb
    · exact Statement.region_eq_of_id h.1 ha hb hid
    · exact absurd hid (later ha hb)
    · exact absurd hid.symm (later hb ha)
    · exact ih h.2 ha hb

/-- Regions that stand directly in one region have different identities. -/
theorem Region.inner_eq_of_id {region a b : Region} (h : region.Written) (ha : a ∈ region.inner)
    (hb : b ∈ region.inner) (hid : a.id = b.id) : a = b := by
  cases region with
  | block b => exact Statement.list_region_eq_of_id (Block.WrittenAt.statements h) ha hb hid
  | loop l =>
    obtain ⟨place, h⟩ := h
    obtain ⟨hinit, hpost, hbody⟩ := ForLoop.written_parts h
    -- The member of the loop that each region is inside of tells the three kinds apart.
    have inFront {x : Region} (hx : x ∈ l.init.statements.flatMap Statement.regions) :
        place.field "pre" <+: x.id := by
      obtain ⟨-, i, -, hbelow⟩ := Statement.list_region_written hinit.statements hx
      exact (Place.below_field _ _).trans ((Place.below_item _ _ _).trans hbelow)
    have apart {x : Region} {name : String} {block : Block}
        (hx : x ∈ l.init.statements.flatMap Statement.regions)
        (hblock : block.WrittenAt (place.field name)) (hname : name ≠ "pre") : x.id ≠ block.id := by
      intro hsame
      have hbelow := inFront hx
      rw [hsame, hblock.id_eq] at hbelow
      exact hname (Place.field_eq_of_below List.prefix_rfl hbelow)
    have bodyPost : l.body.id ≠ l.post.id := by
      rw [hbody.id_eq, hpost.id_eq]
      intro hsame
      simp [Place.field] at hsame
    rcases List.mem_append.mp ha with ha | ha <;> rcases List.mem_append.mp hb with hb | hb
    · exact Statement.list_region_eq_of_id hinit.statements ha hb hid
    · rcases Region.mem_parts hb with rfl | rfl
      · exact absurd hid (apart ha hbody (by decide))
      · exact absurd hid (apart ha hpost (by decide))
    · rcases Region.mem_parts ha with rfl | rfl
      · exact absurd hid.symm (apart hb hbody (by decide))
      · exact absurd hid.symm (apart hb hpost (by decide))
    · rcases Region.mem_parts ha with rfl | rfl <;> rcases Region.mem_parts hb with rfl | rfl
      · rfl
      · exact absurd hid bodyPost
      · exact absurd hid.symm bodyPost
      · rfl

namespace Chain
variable {program : Block} (hprogram : program.WrittenAt [])
include hprogram

theorem inner_written {chain : Chain} (h : In program chain) {region : Region}
    (hregion : region ∈ inner program chain) : region.Written := by
  induction chain generalizing region with
  | nil =>
    obtain rfl := List.mem_singleton.mp hregion
    exact hprogram.region
  | cons first outer ih => exact Region.inner_written (ih h.2 h.1) hregion

/-- What can be entered from inside a chain is known by its identity. -/
theorem inner_eq_of_id {chain : Chain} (h : In program chain) {a b : Region}
    (ha : a ∈ inner program chain) (hb : b ∈ inner program chain) (hid : a.id = b.id) : a = b := by
  cases chain with
  | nil => rw [List.mem_singleton.mp ha, List.mem_singleton.mp hb]
  | cons region outer => exact Region.inner_eq_of_id (inner_written hprogram h.2 h.1) ha hb hid

/-- A chain is known by the identities of its regions. -/
theorem eq_of_ids {chain other : Chain} (h : In program chain) (hother : In program other)
    (hids : ids chain = ids other) : chain = other := by
  induction chain generalizing other with
  | nil =>
    cases other with
    | nil => rfl
    | cons region outer => cases hids
  | cons region outer ih =>
    cases other with
    | nil => cases hids
    | cons region' outer' =>
      obtain ⟨hid, houter⟩ := List.cons.inj hids
      obtain rfl := ih h.2 hother.2 houter
      rw [inner_eq_of_id hprogram h.2 h.1 hother.1 hid]

end Chain
end BlockIR
