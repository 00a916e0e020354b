import BlockIR.Validation

/-! What a program that was read off a document is like.

`Block.WrittenAt place` says that a block can stand at that place of a document:
its identity and that of every block inside is the place where it stands, names
are not empty, and neither are the lists that must have an item. Reading without
complaint gives such a program (`readProgram_written`). -/
namespace BlockIR

/-! ### Readings without complaint -/

namespace Shape
variable {α β : Type}

theorem seq_eq_read {f : Shape (α → β)} {x : Shape α} {b : β} :
    f <*> x = .read b [] ↔ ∃ g a, f = .read g [] ∧ x = .read a [] ∧ g a = b := by
  show both f x = _ ↔ _
  rcases f with ⟨g, before⟩ | before <;> rcases x with ⟨a, after⟩ | after <;> simp [both]
  grind

theorem map_eq_read {f : α → β} {x : Shape α} {b : β} :
    f <$> x = .read b [] ↔ ∃ a, x = .read a [] ∧ f a = b := by
  show both (.read f []) x = _ ↔ _
  rcases x with ⟨a, after⟩ | after <;> simp [both]
  grind

theorem pure_eq_read {a b : α} : (pure a : Shape α) = .read b [] ↔ a = b := by
  show Shape.read a [] = _ ↔ _
  simp

theorem asVariant_eq_read {place : Place} {x : Shape α} {a : α} {complaints : List Complaint} :
    x.asVariant place = .read a complaints ↔ x = .read a complaints := by
  rcases x with ⟨_, _⟩ | _ <;> simp [asVariant, refuse]

theorem nonEmpty_eq_read {place : Place} {x : Shape (List α)} {list : List α}
    (h : x.nonEmpty place = .read list []) : x = .read list [] ∧ list ≠ [] := by
  rcases x with ⟨value, complaints⟩ | _
  · rcases value with _ | ⟨first, rest⟩
    · simp [nonEmpty, complain] at h
    · simp only [nonEmpty, complain, List.isEmpty_cons, Bool.false_eq_true, if_false] at h
      cases h
      exact ⟨rfl, nofun⟩
  · cases h

theorem name_eq_read {place : Place} {doc : Option Json} {text : String}
    (h : name place doc = .read text []) : text ≠ "" := by
  unfold name at h
  split at h
  · unfold noting at h
    rintro rfl
    cases h
  · cases h

theorem nameItems_eq_read {place : Place} {position : Nat} {items : List Json} {texts : List String}
    (h : nameItems place position items = .read texts []) : ∀ text ∈ texts, text ≠ "" := by
  induction items generalizing position texts with
  | nil =>
    rw [← pure_eq_read.mp h]
    exact nofun
  | cons item rest ih =>
    obtain ⟨_, others, hfirst, hrest, rfl⟩ := seq_eq_read.mp h
    obtain ⟨first, hname, rfl⟩ := map_eq_read.mp hfirst
    exact List.forall_mem_cons.mpr ⟨name_eq_read hname, ih hrest⟩

theorem names_eq_read {place : Place} {doc : Option Json} {texts : List String}
    (h : names place doc = .read texts []) : ∀ text ∈ texts, text ≠ "" := by
  unfold names at h
  split at h
  · exact nameItems_eq_read h
  · cases h

end Shape

/-! ### Programs as documents can state them -/

mutual
/-- An expression without empty names. -/
def Expr.Written : Expr → Prop
  | .literal _ => True
  | .identifier name => name ≠ ""
  | .call name args => name ≠ "" ∧ Expr.ListWritten args

/-- Expressions without empty names. -/
def Expr.ListWritten : List Expr → Prop
  | [] => True
  | e :: rest => e.Written ∧ Expr.ListWritten rest
end

mutual
/-- A block as it can stand at a place of a document. -/
def Block.WrittenAt (place : Place) : Block → Prop
  | ⟨id, statements⟩ => id = place ∧ Statement.ListWrittenAt place 0 statements

/-- Statements as they can stand in a block at a place, from a position on. -/
def Statement.ListWrittenAt (place : Place) (position : Nat) : List Statement → Prop
  | [] => True
  | s :: rest =>
    Statement.WrittenAt (place.item "statements" position) s ∧
      Statement.ListWrittenAt place (position + 1) rest

/-- Cases as they can stand in a switch at a place, from a position on. -/
def Case.ListWrittenAt (place : Place) (position : Nat) : List Case → Prop
  | [] => True
  | ⟨_, body⟩ :: rest =>
    Block.WrittenAt ((place.item "cases" position).field "body") body ∧
      Case.ListWrittenAt place (position + 1) rest

/-- A statement as it can stand at a place of a document. -/
def Statement.WrittenAt (place : Place) : Statement → Prop
  | .expression e => e.Written
  | .assignment targets e => targets ≠ [] ∧ (∀ name ∈ targets, name ≠ "") ∧ e.Written
  | .declaration names value => names ≠ [] ∧ (∀ name ∈ names, name ≠ "") ∧ ∀ e ∈ value, e.Written
  | .conditional condition body => condition.Written ∧ Block.WrittenAt (place.field "body") body
  | .switch scrutinee cases => scrutinee.Written ∧ cases ≠ [] ∧ Case.ListWrittenAt place 0 cases
  | .function ⟨name, params, returns, body⟩ =>
    name ≠ "" ∧ (∀ x ∈ params, x ≠ "") ∧ (∀ x ∈ returns, x ≠ "") ∧
      Block.WrittenAt (place.field "body") body
  | .loop ⟨init, condition, post, body⟩ =>
    Block.WrittenAt (place.field "pre") init ∧ condition.Written ∧
      Block.WrittenAt (place.field "post") post ∧ Block.WrittenAt (place.field "body") body
  | .breakLoop | .continueLoop | .leave => True
  | .block body => Block.WrittenAt place body
end

/-! ### Reading gives such programs -/

open Shape

section Forms
variable {place : Place} {doc : Option Json} {complaints : List Complaint}

/-- What a reader that refuses everything but objects has read is an object. -/
theorem Shape.object_of_read {α : Type} {a : α} {read : List (String × Json) → Shape α}
    {fault : Option Json → ShapeFault}
    (h : (match doc with
      | some (.object members) => read members
      | doc => refuse place (fault doc)) = .read a complaints) : ∃ members, doc = some (.object members) := by
  split at h
  · exact ⟨_, rfl⟩
  · cases h

/-- What a reader that refuses everything but arrays has read is an array. -/
theorem Shape.array_of_read {α : Type} {a : α} {read : List Json → Shape α} {fault : Option Json → ShapeFault}
    (h : (match doc with
      | some (.array items) => read items
      | doc => refuse place (fault doc)) = .read a complaints) : ∃ items, doc = some (.array items) := by
  split at h
  · exact ⟨_, rfl⟩
  · cases h

theorem Expr.read?_object {e : Expr} (h : Expr.read? place doc = .read e complaints) :
    ∃ members, doc = some (.object members) := object_of_read ((Expr.read?.eq_def ..).symm.trans h)

theorem Expr.readArray_array {es : List Expr} (h : Expr.readArray place doc = .read es complaints) :
    ∃ items, doc = some (.array items) := array_of_read ((Expr.readArray.eq_def ..).symm.trans h)

theorem Block.read?_object {b : Block} (h : Block.read? place doc = .read b complaints) :
    ∃ members, doc = some (.object members) := object_of_read ((Block.read?.eq_def ..).symm.trans h)

theorem Statement.read?_object {s : Statement} (h : Statement.read? place doc = .read s complaints) :
    ∃ members, doc = some (.object members) := object_of_read ((Statement.read?.eq_def ..).symm.trans h)

theorem Statement.readArray_array {statements : List Statement}
    (h : Statement.readArray place doc = .read statements complaints) : ∃ items, doc = some (.array items) :=
  array_of_read ((Statement.readArray.eq_def ..).symm.trans h)

theorem Case.read?_object {c : Case} (h : Case.read? place doc = .read c complaints) :
    ∃ members, doc = some (.object members) := object_of_read ((Case.read?.eq_def ..).symm.trans h)

theorem Case.readArray_array {cases : List Case} (h : Case.readArray place doc = .read cases complaints) :
    ∃ items, doc = some (.array items) := array_of_read ((Case.readArray.eq_def ..).symm.trans h)

end Forms

mutual
theorem Expr.read?_written {place : Place} {doc : Option Json} {e : Expr}
    (h : Expr.read? place doc = .read e []) : e.Written := by
  obtain ⟨members, hdoc⟩ := Expr.read?_object h
  rw [hdoc, Expr.read?, asVariant_eq_read] at h
  split at h
  · obtain ⟨literal, -, rfl⟩ := map_eq_read.mp h
    trivial
  · obtain ⟨name, hname, rfl⟩ := map_eq_read.mp h
    exact name_eq_read hname
  · obtain ⟨_, args, hcall, hargs, rfl⟩ := seq_eq_read.mp h
    obtain ⟨name, hname, rfl⟩ := map_eq_read.mp hcall
    exact ⟨name_eq_read hname, Expr.readArray_written hargs⟩
  · cases h
termination_by sizeOf doc
decreasing_by exact hdoc ▸ Json.sizeOf_member _ _

theorem Expr.readArray_written {place : Place} {doc : Option Json} {es : List Expr}
    (h : Expr.readArray place doc = .read es []) : Expr.ListWritten es := by
  obtain ⟨items, hdoc⟩ := Expr.readArray_array h
  rw [hdoc, Expr.readArray] at h
  exact Expr.readItems_written h
termination_by sizeOf doc
decreasing_by exact hdoc ▸ Json.sizeOf_items _

theorem Expr.readItems_written {place : Place} {position : Nat} {items : List Json} {es : List Expr}
    (h : Expr.readItems place position items = .read es []) : Expr.ListWritten es := by
  rcases hitems : items with _ | ⟨item, rest⟩ <;> rw [hitems, Expr.readItems] at h
  · rw [← pure_eq_read.mp h]
    trivial
  · obtain ⟨_, others, hcons, hrest, rfl⟩ := seq_eq_read.mp h
    obtain ⟨first, hfirst, rfl⟩ := map_eq_read.mp hcons
    exact ⟨Expr.read?_written hfirst, Expr.readItems_written hrest⟩
termination_by sizeOf items
decreasing_by
  · exact hitems ▸ Json.sizeOf_first _ _
  · exact hitems ▸ Json.sizeOf_rest _ _
end

theorem Expr.readOptional_written {place : Place} {doc : Option Json} {value : Option Expr}
    (h : Expr.readOptional place doc = .read value []) : ∀ e ∈ value, e.Written := by
  unfold Expr.readOptional at h
  split at h
  · rw [← pure_eq_read.mp h]
    exact nofun
  · obtain ⟨e, he, rfl⟩ := map_eq_read.mp h
    intro e' he'
    obtain rfl := Option.some.inj he'
    exact Expr.read?_written he

mutual
theorem Block.read?_written {place : Place} {doc : Option Json} {b : Block}
    (h : Block.read? place doc = .read b []) : b.WrittenAt place := by
  obtain ⟨members, hdoc⟩ := Block.read?_object h
  rw [hdoc, Block.read?] at h
  obtain ⟨_, statements, hkind, hstatements, rfl⟩ := seq_eq_read.mp h
  obtain ⟨_, -, rfl⟩ := map_eq_read.mp hkind
  exact ⟨rfl, Statement.readArray_written hstatements⟩
termination_by sizeOf doc
decreasing_by exact hdoc ▸ Json.sizeOf_member _ _

theorem Statement.read?_written {place : Place} {doc : Option Json} {s : Statement}
    (h : Statement.read? place doc = .read s []) : s.WrittenAt place := by
  obtain ⟨members, hdoc⟩ := Statement.read?_object h
  rw [hdoc, Statement.read?, asVariant_eq_read] at h
  split at h
  · obtain ⟨e, he, rfl⟩ := map_eq_read.mp h
    exact Expr.read?_written he
  · obtain ⟨_, e, h₁, he, rfl⟩ := seq_eq_read.mp h
    obtain ⟨targets, htargets, rfl⟩ := map_eq_read.mp h₁
    obtain ⟨hnames, hsome⟩ := nonEmpty_eq_read htargets
    exact ⟨hsome, names_eq_read hnames, Expr.read?_written he⟩
  · obtain ⟨_, value, h₁, hvalue, rfl⟩ := seq_eq_read.mp h
    obtain ⟨names, hlist, rfl⟩ := map_eq_read.mp h₁
    obtain ⟨hnames, hsome⟩ := nonEmpty_eq_read hlist
    exact ⟨hsome, names_eq_read hnames, Expr.readOptional_written hvalue⟩
  · obtain ⟨_, body, h₁, hbody, rfl⟩ := seq_eq_read.mp h
    obtain ⟨condition, hcondition, rfl⟩ := map_eq_read.mp h₁
    exact ⟨Expr.read?_written hcondition, Block.read?_written hbody⟩
  · obtain ⟨_, cases, h₁, hlist, rfl⟩ := seq_eq_read.mp h
    obtain ⟨scrutinee, hscrutinee, rfl⟩ := map_eq_read.mp h₁
    obtain ⟨hcases, hsome⟩ := nonEmpty_eq_read hlist
    exact ⟨Expr.read?_written hscrutinee, hsome, Case.readArray_written hcases⟩
  · obtain ⟨_, body, h₁, hbody, rfl⟩ := seq_eq_read.mp h
    obtain ⟨_, returns, h₂, hreturns, rfl⟩ := seq_eq_read.mp h₁
    obtain ⟨_, params, h₃, hparams, rfl⟩ := seq_eq_read.mp h₂
    obtain ⟨name, hname, rfl⟩ := map_eq_read.mp h₃
    exact ⟨name_eq_read hname, names_eq_read hparams, names_eq_read hreturns, Block.read?_written hbody⟩
  · obtain ⟨_, body, h₁, hbody, rfl⟩ := seq_eq_read.mp h
    obtain ⟨_, post, h₂, hpost, rfl⟩ := seq_eq_read.mp h₁
    obtain ⟨_, condition, h₃, hcondition, rfl⟩ := seq_eq_read.mp h₂
    obtain ⟨init, hinit, rfl⟩ := map_eq_read.mp h₃
    exact ⟨Block.read?_written hinit, Expr.read?_written hcondition, Block.read?_written hpost,
      Block.read?_written hbody⟩
  · rw [← pure_eq_read.mp h]
    trivial
  · rw [← pure_eq_read.mp h]
    trivial
  · rw [← pure_eq_read.mp h]
    trivial
  · obtain ⟨statements, hstatements, rfl⟩ := map_eq_read.mp h
    exact ⟨rfl, Statement.readArray_written hstatements⟩
  · cases h
termination_by sizeOf doc
decreasing_by all_goals exact hdoc ▸ Json.sizeOf_member _ _

theorem Statement.readArray_written {place : Place} {doc : Option Json} {statements : List Statement}
    (h : Statement.readArray (place.field "statements") doc = .read statements []) :
    Statement.ListWrittenAt place 0 statements := by
  obtain ⟨items, hdoc⟩ := Statement.readArray_array h
  rw [hdoc, Statement.readArray] at h
  exact Statement.readItems_written h
termination_by sizeOf doc
decreasing_by exact hdoc ▸ Json.sizeOf_items _

theorem Statement.readItems_written {place : Place} {position : Nat} {items : List Json}
    {statements : List Statement}
    (h : Statement.readItems (place.field "statements") position items = .read statements []) :
    Statement.ListWrittenAt place position statements := by
  rcases hitems : items with _ | ⟨item, rest⟩ <;> rw [hitems, Statement.readItems] at h
  · rw [← pure_eq_read.mp h]
    trivial
  · obtain ⟨_, others, hcons, hrest, rfl⟩ := seq_eq_read.mp h
    obtain ⟨first, hfirst, rfl⟩ := map_eq_read.mp hcons
    exact ⟨Statement.read?_written hfirst, Statement.readItems_written hrest⟩
termination_by sizeOf items
decreasing_by
  · exact hitems ▸ Json.sizeOf_first _ _
  · exact hitems ▸ Json.sizeOf_rest _ _

theorem Case.read?_written {place : Place} {doc : Option Json} {c : Case}
    (h : Case.read? place doc = .read c []) : c.body.WrittenAt (place.field "body") := by
  obtain ⟨members, hdoc⟩ := Case.read?_object h
  rw [hdoc, Case.read?] at h
  obtain ⟨_, body, hvalue, hbody, rfl⟩ := seq_eq_read.mp h
  obtain ⟨value, -, rfl⟩ := map_eq_read.mp hvalue
  exact Block.read?_written hbody
termination_by sizeOf doc
decreasing_by exact hdoc ▸ Json.sizeOf_member _ _

theorem Case.readArray_written {place : Place} {doc : Option Json} {cases : List Case}
    (h : Case.readArray (place.field "cases") doc = .read cases []) : Case.ListWrittenAt place 0 cases := by
  obtain ⟨items, hdoc⟩ := Case.readArray_array h
  rw [hdoc, Case.readArray] at h
  exact Case.readItems_written h
termination_by sizeOf doc
decreasing_by exact hdoc ▸ Json.sizeOf_items _

theorem Case.readItems_written {place : Place} {position : Nat} {items : List Json} {cases : List Case}
    (h : Case.readItems (place.field "cases") position items = .read cases []) :
    Case.ListWrittenAt place position cases := by
  rcases hitems : items with _ | ⟨item, rest⟩ <;> rw [hitems, Case.readItems] at h
  · rw [← pure_eq_read.mp h]
    trivial
  · obtain ⟨_, others, hcons, hrest, rfl⟩ := seq_eq_read.mp h
    obtain ⟨⟨value, body⟩, hfirst, rfl⟩ := map_eq_read.mp hcons
    exact ⟨Case.read?_written hfirst, Case.readItems_written hrest⟩
termination_by sizeOf items
decreasing_by
  · exact hitems ▸ Json.sizeOf_first _ _
  · exact hitems ▸ Json.sizeOf_rest _ _
end

/-- A program that is read without complaint is written at the root of its document. -/
theorem readProgram_written {doc : Option Json} {program : Block}
    (h : Validation.readProgram doc = .ok program) : program.WrittenAt [] := by
  unfold Validation.readProgram at h
  split at h
  · rename_i hread
    cases h
    exact Block.read?_written hread
  · cases h

end BlockIR
