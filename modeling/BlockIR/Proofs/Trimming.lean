import BlockIR.Proofs.Grammar
import BlockIR.Proofs.Reading
import BlockIR.Syntax.Document
import Mathlib.Data.List.Forall2

/-! Reading a program keeps of its document what the grammar knows.

Both directions go along the structure they start from. A document that is read
without complaint is of the grammar, and what is kept of it is what the program is
written as: one case for each reader (`Block.read?_trims`). A document of the
grammar is read, at whatever place: one case for each form (`Statement.read?_of_form`),
with `Field.Answers` for what is known of the fields of a node. At the root the two
say that the program read off a document is written as just what is kept of it
(`trims_iff_readProgram`). -/
namespace BlockIR

open Grammar (Trims Widens)

namespace Shape
variable {place : Place} {doc : Option Json} {α : Type}

theorem text_eq_read_iff {value : String} : text place doc = .read value [] ↔ doc = some (.string value) := by
  unfold text
  split
  · rw [pure_eq_read]
    simp
  · rename_i h
    exact iff_of_false (by rintro ⟨⟩) fun hdoc => absurd hdoc (h value)

theorem name_eq_read_iff {value : String} :
    name place doc = .read value [] ↔ doc = some (.string value) ∧ value ≠ "" := by
  unfold name
  split
  · rename_i text
    by_cases hempty : text = ""
    · simp [noting, hempty]
    · simp [noting, hempty]
      rintro rfl; exact hempty
  · rename_i h
    exact iff_of_false (by rintro ⟨⟩) fun hdoc => absurd hdoc.1 (h value)

theorem nameItems_eq_read_iff {position : Nat} {items : List Json} {texts : List String} :
    nameItems place position items = .read texts [] ↔ items = texts.map .string ∧ ∀ text ∈ texts, text ≠ "" := by
  induction items generalizing position texts with
  | nil =>
    rw [nameItems, pure_eq_read]
    cases texts <;> simp
  | cons item rest ih =>
    simp only [nameItems, seq_eq_read, map_eq_read, name_eq_read_iff, ih]
    constructor
    · rintro ⟨_, others, ⟨first, ⟨hitem, hfirst⟩, rfl⟩, ⟨rfl, hothers⟩, rfl⟩
      cases hitem
      exact ⟨rfl, List.forall_mem_cons.mpr ⟨hfirst, hothers⟩⟩
    · rintro ⟨hitems, htexts⟩
      cases texts with
      | nil => cases hitems
      | cons first others =>
        obtain ⟨hfirst, hothers⟩ := List.forall_mem_cons.mp htexts
        cases hitems
        exact ⟨_, others, ⟨first, ⟨rfl, hfirst⟩, rfl⟩, ⟨rfl, hothers⟩, rfl⟩

theorem names_eq_read_iff {texts : List String} :
    names place doc = .read texts [] ↔ doc = some (.array (texts.map .string)) ∧ ∀ text ∈ texts, text ≠ "" := by
  unfold names
  split
  · rw [nameItems_eq_read_iff]
    simp
  · rename_i h
    exact iff_of_false (by rintro ⟨⟩) fun hdoc => absurd hdoc.1 (h _)

theorem nonEmpty_eq_read_iff {x : Shape (List α)} {list : List α} :
    x.nonEmpty place = .read list [] ↔ x = .read list [] ∧ list ≠ [] := by
  refine ⟨nonEmpty_eq_read, ?_⟩
  rintro ⟨rfl, hsome⟩
  cases list with
  | nil => exact absurd rfl hsome
  | cons => rfl

theorem marked_eq_read_iff {kind : String} : marked place kind doc = .read () [] ↔ doc = some (.string kind) := by
  unfold marked
  split
  · split <;> rename_i h <;> simp [pure_eq_read, refuse, h]
  · rename_i h
    exact iff_of_false (by rintro ⟨⟩) fun hdoc => absurd hdoc (h kind)

end Shape

open Shape Grammar

/-- In a table of the values of a type by their names, a name stands for its value. -/
theorem lookup_named {α : Type} {values : List α} {name : α → String} (hname : Function.Injective name) {text : String}
    {value : α} (hvalue : value ∈ values) :
    (values.map fun value => (name value, value)).lookup text = some value ↔ text = name value := by
  constructor
  · intro h
    obtain ⟨before, after, hsplit, -⟩ := List.lookup_eq_some_iff.mp h
    have hmem : (text, value) ∈ values.map fun value => (name value, value) :=
      hsplit ▸ List.mem_append_right before (List.mem_cons_self ..)
    obtain ⟨_, -, hpair⟩ := List.mem_map.mp hmem
    cases hpair
    rfl
  · rintro rfl
    induction values with
    | nil => cases hvalue
    | cons first rest ih =>
      rw [List.map_cons, List.lookup_cons]
      split <;> rename_i hsame
      · rw [hname (beq_iff_eq.mp hsame)]
      · refine ih (List.mem_of_ne_of_mem ?_ hvalue)
        rintro rfl
        simp at hsame

/-- One of a few texts is read as the value that it names. -/
theorem oneOf_eq_read_iff {α : Type} {values : List α} {name : α → String} (hname : Function.Injective name)
    {place : Place} {doc : Option Json} {value : α} (hvalue : value ∈ values) :
    oneOf place (values.map fun value => (name value, value)) doc = .read value [] ↔
      doc = some (.string (name value)) := by
  unfold oneOf
  split
  · rename_i text
    rw [Option.some_inj, Json.string.injEq, ← lookup_named hname hvalue]
    split <;> rename_i h <;> simp [pure_eq_read, refuse, h]
  · rename_i h
    exact iff_of_false (by rintro ⟨⟩) fun hdoc => absurd hdoc (h _)

theorem LiteralKind.oneOf_eq_read_iff {place : Place} {doc : Option Json} {kind : LiteralKind} :
    oneOf place LiteralKind.options doc = .read kind [] ↔ doc = some (.string kind.name) :=
  BlockIR.oneOf_eq_read_iff (fun a b h => by cases a <;> cases b <;> simp_all [LiteralKind.name])
    (by cases kind <;> decide)

theorem Json.kind?_eq_some_iff {members : List (String × Json)} {kind : String} :
    Json.kind? (some (.object members)) = some kind ↔ Json.member members "kind" = some (.string kind) := by
  unfold Json.kind?
  dsimp only
  split
  · rename_i h
    rw [h]
    simp
  · rename_i h
    exact iff_of_false (by rintro ⟨⟩) fun hdoc => absurd hdoc (h kind)

/-! ### What is read is of the grammar -/

/-- A node of the form that has a kind. -/
theorem Grammar.Trims.ofKind {part : Nonterminal} {form : Form} {members : List (String × Json)} {kind : String}
    {doc : Json} (kept : List (String × Json))
    (hform : part.forms.find? (fun form => form.kind == some kind) = some form)
    (hdoc : form.build (Json.member kept) = doc) (hkind : Json.kind? (some (.object members)) = some kind)
    (hfields : ∀ q ∈ form.fields, Trims q.2 (Json.member members q.1) (Json.member kept q.1)) :
    Trims (.node part) (some (.object members)) (some doc) := by
  refine hdoc ▸ .node (List.mem_of_find?_eq_some hform) (fun other hother => ?_) hfields
  have hsame := @List.find?_some _ (fun form : Form => form.kind == some kind) _ _ hform
  cases hother.symm.trans (beq_iff_eq.mp hsame)
  exact Json.kind?_eq_some_iff.mp hkind

/-- The nodes of an array are of the grammar if its items are. -/
theorem Grammar.Trims.ofItems {part : Nonterminal} {inhabited : Bool} {items kept : List Json}
    (h : List.Forall₂ (fun item kept => Trims (.node part) (some item) (some kept)) items kept)
    (hsome : inhabited = true → kept ≠ []) :
    Trims (.nodes part inhabited) (some (.array items)) (some (.array kept)) := by
  obtain ⟨hlength, hitems⟩ := List.forall₂_iff_get.mp h
  refine .nodes hlength.symm (fun i hi hi' => hitems i hi hi') fun hinhabited hnil => hsome hinhabited ?_
  rw [← List.length_eq_zero_iff, ← hlength, hnil, List.length_nil]

theorem Grammar.Trims.ofNames {doc : Option Json} {inhabited : Bool} {names : List String}
    (h : doc = some (.array (names.map .string)) ∧ ∀ name ∈ names, name ≠ "")
    (hsome : inhabited = true → names ≠ []) : Trims (.names inhabited) doc (some (Document.ofNames names)) := by
  rw [h.1]
  exact .names h.2 hsome

theorem Grammar.Trims.ofName {doc : Option Json} {name : String} (h : doc = some (.string name) ∧ name ≠ "") :
    Trims .name doc (some (.string name)) := by
  rw [h.1]
  exact .name h.2

theorem Literal.read?_trims {place : Place} {doc : Option Json} {l : Literal} {part : Nonterminal}
    (hpart : part.forms.find? (fun form => form.kind == some "literal") = some literalForm)
    (h : Literal.read? place doc = .read l []) : Trims (.node part) doc (some l.toJson) := by
  unfold Literal.read? at h
  split at h
  · obtain ⟨_, value, h₁, hvalue, rfl⟩ := seq_eq_read.mp h
    obtain ⟨_, kind, h₂, hkind, rfl⟩ := seq_eq_read.mp h₁
    obtain ⟨_, hmarked, rfl⟩ := map_eq_read.mp h₂
    refine .ofKind [("literalKind", .string kind.name), ("value", .string value)] hpart rfl
      (Json.kind?_eq_some_iff.mpr (marked_eq_read_iff.mp hmarked)) ?_
    refine List.forall_mem_cons.mpr ⟨?_, List.forall_mem_singleton.mpr ?_⟩
    · refine LiteralKind.oneOf_eq_read_iff.mp hkind ▸ .oneOf ?_
      cases kind <;> decide
    · exact text_eq_read_iff.mp hvalue ▸ .text value
  · cases h

mutual
theorem Expr.read?_trims {place : Place} {doc : Option Json} {e : Expr}
    (h : Expr.read? place doc = .read e []) : Trims (.node .expression) doc (some e.toJson) := by
  obtain ⟨members, hdoc⟩ := Expr.read?_object h
  rw [hdoc, Expr.read?, asVariant_eq_read] at h
  rw [hdoc]
  split at h <;> rename_i hkind
  · obtain ⟨literal, hliteral, rfl⟩ := map_eq_read.mp h
    exact Literal.read?_trims rfl hliteral
  · obtain ⟨name, hname, rfl⟩ := map_eq_read.mp h
    refine .ofKind [("name", .string name)] rfl rfl hkind (List.forall_mem_singleton.mpr ?_)
    exact .ofName (name_eq_read_iff.mp hname)
  · obtain ⟨_, args, hcall, hargs, rfl⟩ := seq_eq_read.mp h
    obtain ⟨name, hname, rfl⟩ := map_eq_read.mp hcall
    refine .ofKind [("name", .string name), ("args", .array (Expr.listToJson args))] rfl rfl hkind ?_
    refine List.forall_mem_cons.mpr ⟨?_, List.forall_mem_singleton.mpr (Expr.readArray_trims hargs)⟩
    exact .ofName (name_eq_read_iff.mp hname)
  · cases h
termination_by sizeOf doc
decreasing_by exact hdoc ▸ Json.sizeOf_member _ _

theorem Expr.readArray_trims {place : Place} {doc : Option Json} {es : List Expr}
    (h : Expr.readArray place doc = .read es []) :
    Trims (.nodes .expression false) doc (some (.array (Expr.listToJson es))) := by
  obtain ⟨items, hdoc⟩ := Expr.readArray_array h
  rw [hdoc, Expr.readArray] at h
  rw [hdoc]
  exact .ofItems (Expr.readItems_trims h) nofun
termination_by sizeOf doc
decreasing_by exact hdoc ▸ Json.sizeOf_items _

theorem Expr.readItems_trims {place : Place} {position : Nat} {items : List Json} {es : List Expr}
    (h : Expr.readItems place position items = .read es []) :
    List.Forall₂ (fun item kept => Trims (.node .expression) (some item) (some kept)) items (Expr.listToJson es) := by
  rcases hitems : items with _ | ⟨item, rest⟩ <;> rw [hitems, Expr.readItems] at h
  · rw [← pure_eq_read.mp h]
    exact .nil
  · obtain ⟨_, others, hcons, hrest, rfl⟩ := seq_eq_read.mp h
    obtain ⟨first, hfirst, rfl⟩ := map_eq_read.mp hcons
    exact .cons (Expr.read?_trims hfirst) (Expr.readItems_trims hrest)
termination_by sizeOf items
decreasing_by
  · exact hitems ▸ Json.sizeOf_first _ _
  · exact hitems ▸ Json.sizeOf_rest _ _
end

/-- A field that may be absent is read with a value just when it is there. -/
theorem Grammar.Trims.ofOptional {α : Type} {part : Nonterminal} {place : Place} {doc : Option Json} {value : Option α}
    {read? : Place → Option Json → Shape α} {toJson : α → Json}
    (hread : ∀ {a}, read? place doc = .read a [] → Trims (.node part) doc (some (toJson a)))
    (h : (if doc.isNone then pure none else some <$> read? place doc) = .read value []) :
    Trims (.optional part) doc (value.map toJson) := by
  rcases doc with _ | doc
  · rw [← pure_eq_read.mp h]
    exact .absent part
  · obtain ⟨a, ha, rfl⟩ := map_eq_read.mp h
    exact .present (hread ha)

theorem Grammar.Trims.ofCase {members : List (String × Json)} {value : Option Json} {body : Json}
    (hvalue : Trims (.optional .literal) (Json.member members "value") value)
    (hbody : Trims (.node .block) (Json.member members "body") (some body)) :
    Trims (.node .case) (some (.object members)) (some (Document.case value body)) := by
  have hnode (kept : List (String × Json)) (hvalue' : Json.member kept "value" = value)
      (hbody' : Json.member kept "body" = some body) :
      Trims (.node .case) (some (.object members))
        (some (Form.build ⟨none, [("value", .optional .literal), ("body", .node .block)]⟩ (Json.member kept))) := by
    refine .node (List.mem_singleton_self _) nofun ?_
    exact List.forall_mem_cons.mpr ⟨hvalue' ▸ hvalue, List.forall_mem_singleton.mpr (hbody' ▸ hbody)⟩
  cases value with
  | none => exact hnode [("body", body)] rfl rfl
  | some value => exact hnode [("value", value), ("body", body)] rfl rfl

mutual
theorem Block.read?_trims {place : Place} {doc : Option Json} {b : Block}
    (h : Block.read? place doc = .read b []) : Trims (.node .block) doc (some b.toJson) := by
  obtain ⟨members, hdoc⟩ := Block.read?_object h
  rw [hdoc, Block.read?] at h
  rw [hdoc]
  obtain ⟨_, statements, hmarked, hstatements, rfl⟩ := seq_eq_read.mp h
  obtain ⟨_, hkind, rfl⟩ := map_eq_read.mp hmarked
  refine .ofKind [("statements", .array (Statement.listToJson statements))] rfl rfl
    (Json.kind?_eq_some_iff.mpr (marked_eq_read_iff.mp hkind)) ?_
  exact List.forall_mem_singleton.mpr (Statement.readArray_trims hstatements)
termination_by sizeOf doc
decreasing_by exact hdoc ▸ Json.sizeOf_member _ _

theorem Statement.read?_trims {place : Place} {doc : Option Json} {s : Statement}
    (h : Statement.read? place doc = .read s []) : Trims (.node .statement) doc (some s.toJson) := by
  obtain ⟨members, hdoc⟩ := Statement.read?_object h
  rw [hdoc, Statement.read?, asVariant_eq_read] at h
  rw [hdoc]
  split at h <;> rename_i hkind
  · obtain ⟨e, he, rfl⟩ := map_eq_read.mp h
    refine .ofKind [("expression", e.toJson)] rfl rfl hkind (List.forall_mem_singleton.mpr ?_)
    exact Expr.read?_trims he
  · obtain ⟨_, e, h₁, he, rfl⟩ := seq_eq_read.mp h
    obtain ⟨targets, htargets, rfl⟩ := map_eq_read.mp h₁
    obtain ⟨hnames, hsome⟩ := nonEmpty_eq_read htargets
    refine .ofKind [("targets", Document.ofNames targets), ("value", e.toJson)] rfl rfl hkind ?_
    refine List.forall_mem_cons.mpr ⟨?_, List.forall_mem_singleton.mpr (Expr.read?_trims he)⟩
    exact .ofNames (names_eq_read_iff.mp hnames) fun _ => hsome
  · obtain ⟨_, value, h₁, hvalue, rfl⟩ := seq_eq_read.mp h
    obtain ⟨names, hlist, rfl⟩ := map_eq_read.mp h₁
    obtain ⟨hnames, hsome⟩ := nonEmpty_eq_read hlist
    have hnames : Trims (.names true) _ _ := .ofNames (names_eq_read_iff.mp hnames) fun _ => hsome
    have hvalue := Trims.ofOptional Expr.read?_trims hvalue
    cases value with
    | none =>
      refine .ofKind [("names", Document.ofNames names)] rfl rfl hkind ?_
      exact List.forall_mem_cons.mpr ⟨hnames, List.forall_mem_singleton.mpr hvalue⟩
    | some e =>
      refine .ofKind [("names", Document.ofNames names), ("value", e.toJson)] rfl rfl hkind ?_
      exact List.forall_mem_cons.mpr ⟨hnames, List.forall_mem_singleton.mpr hvalue⟩
  · obtain ⟨_, body, h₁, hbody, rfl⟩ := seq_eq_read.mp h
    obtain ⟨condition, hcondition, rfl⟩ := map_eq_read.mp h₁
    refine .ofKind [("condition", condition.toJson), ("body", body.toJson)] rfl rfl hkind ?_
    exact List.forall_mem_cons.mpr ⟨Expr.read?_trims hcondition,
      List.forall_mem_singleton.mpr (Block.read?_trims hbody)⟩
  · obtain ⟨_, cases, h₁, hlist, rfl⟩ := seq_eq_read.mp h
    obtain ⟨scrutinee, hscrutinee, rfl⟩ := map_eq_read.mp h₁
    obtain ⟨hcases, hsome⟩ := nonEmpty_eq_read hlist
    refine .ofKind [("expression", scrutinee.toJson), ("cases", .array (Statement.casesToJson cases))] rfl rfl hkind ?_
    exact List.forall_mem_cons.mpr ⟨Expr.read?_trims hscrutinee,
      List.forall_mem_singleton.mpr (Case.readArray_trims hcases hsome)⟩
  · obtain ⟨_, body, h₁, hbody, rfl⟩ := seq_eq_read.mp h
    obtain ⟨_, returns, h₂, hreturns, rfl⟩ := seq_eq_read.mp h₁
    obtain ⟨_, params, h₃, hparams, rfl⟩ := seq_eq_read.mp h₂
    obtain ⟨name, hname, rfl⟩ := map_eq_read.mp h₃
    refine .ofKind [("name", .string name), ("params", Document.ofNames params),
      ("returns", Document.ofNames returns), ("body", body.toJson)] rfl rfl hkind ?_
    refine List.forall_mem_cons.mpr ⟨.ofName (name_eq_read_iff.mp hname), List.forall_mem_cons.mpr ⟨?_,
      List.forall_mem_cons.mpr ⟨?_, List.forall_mem_singleton.mpr (Block.read?_trims hbody)⟩⟩⟩
    · exact .ofNames (names_eq_read_iff.mp hparams) nofun
    · exact .ofNames (names_eq_read_iff.mp hreturns) nofun
  · obtain ⟨_, body, h₁, hbody, rfl⟩ := seq_eq_read.mp h
    obtain ⟨_, post, h₂, hpost, rfl⟩ := seq_eq_read.mp h₁
    obtain ⟨_, condition, h₃, hcondition, rfl⟩ := seq_eq_read.mp h₂
    obtain ⟨init, hinit, rfl⟩ := map_eq_read.mp h₃
    refine .ofKind [("pre", init.toJson), ("condition", condition.toJson), ("post", post.toJson),
      ("body", body.toJson)] rfl rfl hkind ?_
    exact List.forall_mem_cons.mpr ⟨Block.read?_trims hinit, List.forall_mem_cons.mpr
      ⟨Expr.read?_trims hcondition, List.forall_mem_cons.mpr
        ⟨Block.read?_trims hpost, List.forall_mem_singleton.mpr (Block.read?_trims hbody)⟩⟩⟩
  · rw [← pure_eq_read.mp h]
    exact .ofKind [] rfl rfl hkind nofun
  · rw [← pure_eq_read.mp h]
    exact .ofKind [] rfl rfl hkind nofun
  · rw [← pure_eq_read.mp h]
    exact .ofKind [] rfl rfl hkind nofun
  · obtain ⟨statements, hstatements, rfl⟩ := map_eq_read.mp h
    refine .ofKind [("statements", .array (Statement.listToJson statements))] rfl rfl hkind ?_
    exact List.forall_mem_singleton.mpr (Statement.readArray_trims hstatements)
  · cases h
termination_by sizeOf doc
decreasing_by all_goals exact hdoc ▸ Json.sizeOf_member _ _

theorem Statement.readArray_trims {place : Place} {doc : Option Json} {statements : List Statement}
    (h : Statement.readArray place doc = .read statements []) :
    Trims (.nodes .statement false) doc (some (.array (Statement.listToJson statements))) := by
  obtain ⟨items, hdoc⟩ := Statement.readArray_array h
  rw [hdoc, Statement.readArray] at h
  rw [hdoc]
  exact .ofItems (Statement.readItems_trims h) nofun
termination_by sizeOf doc
decreasing_by exact hdoc ▸ Json.sizeOf_items _

theorem Statement.readItems_trims {place : Place} {position : Nat} {items : List Json}
    {statements : List Statement} (h : Statement.readItems place position items = .read statements []) :
    List.Forall₂ (fun item kept => Trims (.node .statement) (some item) (some kept)) items
      (Statement.listToJson statements) := by
  rcases hitems : items with _ | ⟨item, rest⟩ <;> rw [hitems, Statement.readItems] at h
  · rw [← pure_eq_read.mp h]
    exact .nil
  · obtain ⟨_, others, hcons, hrest, rfl⟩ := seq_eq_read.mp h
    obtain ⟨first, hfirst, rfl⟩ := map_eq_read.mp hcons
    exact .cons (Statement.read?_trims hfirst) (Statement.readItems_trims hrest)
termination_by sizeOf items
decreasing_by
  · exact hitems ▸ Json.sizeOf_first _ _
  · exact hitems ▸ Json.sizeOf_rest _ _

theorem Case.read?_trims {place : Place} {doc : Option Json} {c : Case} (h : Case.read? place doc = .read c []) :
    Trims (.node .case) doc (some (Document.case (c.value.map Literal.toJson) c.body.toJson)) := by
  obtain ⟨members, hdoc⟩ := Case.read?_object h
  rw [hdoc, Case.read?] at h
  rw [hdoc]
  obtain ⟨_, body, h₁, hbody, rfl⟩ := seq_eq_read.mp h
  obtain ⟨value, hvalue, rfl⟩ := map_eq_read.mp h₁
  exact .ofCase (.ofOptional (Literal.read?_trims rfl) hvalue) (Block.read?_trims hbody)
termination_by sizeOf doc
decreasing_by exact hdoc ▸ Json.sizeOf_member _ _

theorem Case.readArray_trims {place : Place} {doc : Option Json} {cases : List Case}
    (h : Case.readArray place doc = .read cases []) (hsome : cases ≠ []) :
    Trims (.nodes .case true) doc (some (.array (Statement.casesToJson cases))) := by
  obtain ⟨items, hdoc⟩ := Case.readArray_array h
  rw [hdoc, Case.readArray] at h
  rw [hdoc]
  refine .ofItems (Case.readItems_trims h) fun _ hnil => ?_
  rcases cases with _ | ⟨⟨value, body⟩, rest⟩
  · exact hsome rfl
  · cases hnil
termination_by sizeOf doc
decreasing_by exact hdoc ▸ Json.sizeOf_items _

theorem Case.readItems_trims {place : Place} {position : Nat} {items : List Json} {cases : List Case}
    (h : Case.readItems place position items = .read cases []) :
    List.Forall₂ (fun item kept => Trims (.node .case) (some item) (some kept)) items
      (Statement.casesToJson cases) := by
  rcases hitems : items with _ | ⟨item, rest⟩ <;> rw [hitems, Case.readItems] at h
  · rw [← pure_eq_read.mp h]
    exact .nil
  · obtain ⟨_, others, hcons, hrest, rfl⟩ := seq_eq_read.mp h
    obtain ⟨⟨value, body⟩, hfirst, rfl⟩ := map_eq_read.mp hcons
    exact .cons (Case.read?_trims hfirst) (Case.readItems_trims hrest)
termination_by sizeOf items
decreasing_by
  · exact hitems ▸ Json.sizeOf_first _ _
  · exact hitems ▸ Json.sizeOf_rest _ _
end

/-! ### What is of the grammar is read -/

/-- Reading a document as a part of a program, at any place, gives one that is written as `kept`. -/
def Grammar.Nonterminal.Answers (doc : Option Json) (kept : Json) : Nonterminal → Prop
  | literal => ∀ place, ∃ l, Literal.read? place doc = .read l [] ∧ l.toJson = kept
  | expression => ∀ place, ∃ e, Expr.read? place doc = .read e [] ∧ e.toJson = kept
  | block => ∀ place, ∃ b, Block.read? place doc = .read b [] ∧ b.toJson = kept
  | case => ∀ place, ∃ c, Case.read? place doc = .read c [] ∧
      Document.case (c.value.map Literal.toJson) c.body.toJson = kept
  | statement => ∀ place, ∃ s, Statement.read? place doc = .read s [] ∧ s.toJson = kept

/-- Reading what a field holds, at any place, gives something that is written as `kept`. -/
def Grammar.Field.Answers (doc kept : Option Json) : Field → Prop
  | text => ∃ value, doc = some (.string value) ∧ kept = some (.string value)
  | name => ∃ value, (doc = some (.string value) ∧ value ≠ "") ∧ kept = some (.string value)
  | oneOf texts => ∃ value ∈ texts, doc = some (.string value) ∧ kept = some (.string value)
  | names inhabited => ∃ names, (doc = some (.array (names.map .string)) ∧ ∀ name ∈ names, name ≠ "") ∧
      (inhabited = true → names ≠ []) ∧ kept = some (Document.ofNames names)
  | node part => ∃ json, part.Answers doc json ∧ kept = some json
  | optional part => doc = none ∧ kept = none ∨ doc.isSome = true ∧ ∃ json, part.Answers doc json ∧ kept = some json
  | nodes part inhabited => ∃ items jsons, doc = some (.array items) ∧ kept = some (.array jsons) ∧
      (inhabited = true → items ≠ []) ∧ List.Forall₂ (fun item json => part.Answers (some item) json) items jsons

section Fields
variable {doc kept : Option Json}

/-- What a list of nodes is read as, by the way its items are read. -/
theorem Grammar.Field.Answers.readItems {α : Type} {part : Nonterminal} {toJson : α → Json}
    {read? : Place → Option Json → Shape α} {readItems : Place → Nat → List Json → Shape (List α)}
    {items jsons : List Json} (toJsons : List α → List Json)
    (hread : ∀ {doc json}, part.Answers doc json → ∀ place, ∃ a, read? place doc = .read a [] ∧ toJson a = json)
    (hnil : ∀ place position, readItems place position [] = pure [])
    (hcons : ∀ place position item rest, readItems place position (item :: rest) =
      List.cons <$> read? (place.index position) (some item) <*> readItems place (position + 1) rest)
    (hjson : toJsons [] = [] ∧ ∀ a rest, toJsons (a :: rest) = toJson a :: toJsons rest)
    (h : List.Forall₂ (fun item json => part.Answers (some item) json) items jsons) (place : Place) (position : Nat) :
    ∃ as, readItems place position items = .read as [] ∧ toJsons as = jsons := by
  induction h generalizing position with
  | nil => exact ⟨[], by rw [hnil, pure_eq_read], hjson.1⟩
  | cons hitem _ ih =>
    obtain ⟨a, ha, rfl⟩ := hread hitem (place.index position)
    obtain ⟨as, has, rfl⟩ := ih (position + 1)
    refine ⟨a :: as, ?_, hjson.2 a as⟩
    rw [hcons]
    exact seq_eq_read.mpr ⟨_, as, map_eq_read.mpr ⟨a, ha, rfl⟩, has, rfl⟩

theorem Grammar.Field.Answers.expression (h : (Field.node .expression).Answers doc kept) (place : Place) :
    ∃ e, Expr.read? place doc = .read e [] ∧ kept = some e.toJson := by
  obtain ⟨_, hnode, rfl⟩ := h
  obtain ⟨e, he, rfl⟩ := hnode place
  exact ⟨e, he, rfl⟩

theorem Grammar.Field.Answers.block (h : (Field.node .block).Answers doc kept) (place : Place) :
    ∃ b, Block.read? place doc = .read b [] ∧ kept = some b.toJson := by
  obtain ⟨_, hnode, rfl⟩ := h
  obtain ⟨b, hb, rfl⟩ := hnode place
  exact ⟨b, hb, rfl⟩

theorem Grammar.Field.Answers.expressions {inhabited : Bool}
    (h : (Field.nodes .expression inhabited).Answers doc kept) (place : Place) :
    ∃ es, Expr.readArray place doc = .read es [] ∧ kept = some (.array (Expr.listToJson es)) := by
  obtain ⟨items, jsons, rfl, rfl, -, hitems⟩ := h
  obtain ⟨es, hes, rfl⟩ := Field.Answers.readItems Expr.listToJson id Expr.readItems.eq_1 Expr.readItems.eq_2
    ⟨rfl, fun _ _ => rfl⟩ hitems place 0
  exact ⟨es, by rw [Expr.readArray, hes], rfl⟩

theorem Grammar.Field.Answers.statements {inhabited : Bool}
    (h : (Field.nodes .statement inhabited).Answers doc kept) (place : Place) :
    ∃ statements, Statement.readArray place doc = .read statements [] ∧
      kept = some (.array (Statement.listToJson statements)) := by
  obtain ⟨items, jsons, rfl, rfl, -, hitems⟩ := h
  obtain ⟨statements, hstatements, rfl⟩ := Field.Answers.readItems Statement.listToJson id
    Statement.readItems.eq_1 Statement.readItems.eq_2 ⟨rfl, fun _ _ => rfl⟩ hitems place 0
  exact ⟨statements, by rw [Statement.readArray, hstatements], rfl⟩

theorem Grammar.Field.Answers.cases (h : (Field.nodes .case true).Answers doc kept) (place : Place) :
    ∃ cases, (Case.readArray place doc).nonEmpty place = .read cases [] ∧
      kept = some (.array (Statement.casesToJson cases)) := by
  obtain ⟨items, jsons, rfl, rfl, hsome, hitems⟩ := h
  obtain ⟨cases, hcases, rfl⟩ := Field.Answers.readItems Statement.casesToJson id
    Case.readItems.eq_1 Case.readItems.eq_2 ⟨rfl, fun ⟨_, _⟩ _ => rfl⟩ hitems place 0
  refine ⟨cases, nonEmpty_eq_read_iff.mpr ⟨by rw [Case.readArray, hcases], ?_⟩, rfl⟩
  rintro rfl
  exact hsome rfl (List.length_eq_zero_iff.mp hitems.length_eq)

/-- What a field that may be absent is read as, by the way its node is read. -/
theorem Grammar.Field.Answers.ofOptional {α : Type} {part : Nonterminal} {read? : Place → Option Json → Shape α}
    (toJson : α → Json)
    (hread : ∀ {doc json}, part.Answers doc json → ∀ place, ∃ a, read? place doc = .read a [] ∧ toJson a = json)
    (h : (Field.optional part).Answers doc kept) (place : Place) :
    ∃ value : Option α, (if doc.isNone then pure none else some <$> read? place doc) = .read value [] ∧
      kept = value.map toJson := by
  obtain ⟨rfl, rfl⟩ | ⟨hdoc, json, hnode, rfl⟩ := h
  · exact ⟨none, rfl, rfl⟩
  · obtain ⟨a, ha, rfl⟩ := hread hnode place
    refine ⟨some a, ?_, rfl⟩
    rw [if_neg (by simp [← Option.not_isSome, hdoc])]
    exact map_eq_read.mpr ⟨a, ha, rfl⟩

theorem Grammar.Field.Answers.names (h : (Field.names true).Answers doc kept) (place : Place) :
    ∃ names, (Shape.names place doc).nonEmpty place = .read names [] ∧ kept = some (Document.ofNames names) := by
  obtain ⟨names, hdoc, hsome, rfl⟩ := h
  exact ⟨names, nonEmpty_eq_read_iff.mpr ⟨names_eq_read_iff.mpr hdoc, hsome rfl⟩, rfl⟩

end Fields

section Forms
variable {form : Form} {members : List (String × Json)} {values : String → Option Json}

/-- An object of the form of literals whose fields can be read is a literal. -/
theorem Literal.read?_of_form (hmarks : literalForm.Marks members)
    (h : ∀ q ∈ literalForm.fields, q.2.Answers (Json.member members q.1) (values q.1)) (place : Place) :
    ∃ l, Literal.read? place (some (.object members)) = .read l [] ∧ l.toJson = literalForm.build values := by
  obtain ⟨⟨name, hname, hkind, hkept⟩, hvalue⟩ := List.forall_mem_cons.mp h
  obtain ⟨value, hvalue, hkept'⟩ := List.forall_mem_singleton.mp hvalue
  obtain ⟨kind, rfl⟩ : ∃ kind : LiteralKind, name = kind.name := by
    simp only [List.mem_cons, List.not_mem_nil, or_false] at hname
    rcases hname with rfl | rfl | rfl
    · exact ⟨.number, rfl⟩
    · exact ⟨.boolean, rfl⟩
    · exact ⟨.string, rfl⟩
  refine ⟨⟨kind, value⟩,
    seq_eq_read.mpr ⟨_, value, seq_eq_read.mpr ⟨_, kind, map_eq_read.mpr ⟨(), ?_, rfl⟩, ?_, rfl⟩, ?_, rfl⟩, ?_⟩
  · exact marked_eq_read_iff.mpr (hmarks "literal" rfl)
  · exact LiteralKind.oneOf_eq_read_iff.mpr hkind
  · exact text_eq_read_iff.mpr hvalue
  · simp [Form.build, literalForm, hkept, hkept', Literal.toJson, Document.literal, Document.node]

theorem Expr.read?_of_form (hform : form ∈ Nonterminal.expression.forms) (hmarks : form.Marks members)
    (h : ∀ q ∈ form.fields, q.2.Answers (Json.member members q.1) (values q.1)) (place : Place) :
    ∃ e, Expr.read? place (some (.object members)) = .read e [] ∧ e.toJson = form.build values := by
  simp only [Expr.read?, asVariant_eq_read]
  simp only [Nonterminal.forms, List.mem_cons, List.not_mem_nil, or_false] at hform
  rcases hform with rfl | rfl | rfl <;> rw [Json.kind?_eq_some_iff.mpr (hmarks _ rfl)]
  · obtain ⟨l, hl, hkept⟩ := Literal.read?_of_form hmarks h place
    exact ⟨.literal l, map_eq_read.mpr ⟨l, hl, rfl⟩, hkept⟩
  · obtain ⟨name, hname, hkept⟩ := List.forall_mem_singleton.mp h
    refine ⟨.identifier name, map_eq_read.mpr ⟨name, name_eq_read_iff.mpr hname, rfl⟩, ?_⟩
    simp [Form.build, hkept, Expr.toJson, Document.identifier, Document.node]
  · obtain ⟨⟨name, hname, hkept⟩, hargs⟩ := List.forall_mem_cons.mp h
    obtain ⟨args, hargs, hkept'⟩ := (List.forall_mem_singleton.mp hargs).expressions (place.field "args")
    refine ⟨.call name args,
      seq_eq_read.mpr ⟨_, args, map_eq_read.mpr ⟨name, name_eq_read_iff.mpr hname, rfl⟩, hargs, rfl⟩, ?_⟩
    simp [Form.build, hkept, hkept', Expr.toJson, Document.call, Document.node]

theorem Block.read?_of_form (hmarks : blockForm.Marks members)
    (h : ∀ q ∈ blockForm.fields, q.2.Answers (Json.member members q.1) (values q.1)) (place : Place) :
    ∃ b, Block.read? place (some (.object members)) = .read b [] ∧ b.toJson = blockForm.build values := by
  obtain ⟨statements, hstatements, hkept⟩ := (List.forall_mem_singleton.mp h).statements (place.field "statements")
  refine ⟨⟨place, statements⟩, ?_, ?_⟩
  · rw [Block.read?]
    refine seq_eq_read.mpr ⟨_, statements, map_eq_read.mpr ⟨(), ?_, rfl⟩, hstatements, rfl⟩
    exact marked_eq_read_iff.mpr (hmarks "block" rfl)
  · simp [Form.build, blockForm, hkept, Block.toJson, Document.block, Document.node]

theorem Case.read?_of_form (hform : form ∈ Nonterminal.case.forms)
    (h : ∀ q ∈ form.fields, q.2.Answers (Json.member members q.1) (values q.1)) (place : Place) :
    ∃ c, Case.read? place (some (.object members)) = .read c [] ∧
      Document.case (c.value.map Literal.toJson) c.body.toJson = form.build values := by
  obtain rfl := List.mem_singleton.mp hform
  obtain ⟨hvalue, hbody⟩ := List.forall_mem_cons.mp h
  obtain ⟨value, hvalue, hkept⟩ := hvalue.ofOptional Literal.toJson id (place.field "value")
  obtain ⟨body, hbody, hkept'⟩ := (List.forall_mem_singleton.mp hbody).block (place.field "body")
  refine ⟨⟨value, body⟩, ?_, ?_⟩
  · rw [Case.read?]
    exact seq_eq_read.mpr ⟨_, body, map_eq_read.mpr ⟨value, hvalue, rfl⟩, hbody, rfl⟩
  · cases value <;> simp [Form.build, hkept, hkept', Document.case, Document.optional]

theorem Statement.read?_of_form (hform : form ∈ Nonterminal.statement.forms) (hmarks : form.Marks members)
    (h : ∀ q ∈ form.fields, q.2.Answers (Json.member members q.1) (values q.1)) (place : Place) :
    ∃ s, Statement.read? place (some (.object members)) = .read s [] ∧ s.toJson = form.build values := by
  simp only [Statement.read?, asVariant_eq_read]
  simp only [Nonterminal.forms, List.mem_cons, List.not_mem_nil, or_false] at hform
  rcases hform with rfl | rfl | rfl | rfl | rfl | rfl | rfl | rfl | rfl | rfl | rfl <;>
    rw [Json.kind?_eq_some_iff.mpr (hmarks _ rfl)] <;>
      simp only [List.forall_mem_cons, List.not_mem_nil, false_imp_iff, implies_true, and_true, blockForm] at h
  · obtain ⟨e, he, hkept⟩ := h.expression (place.field "expression")
    refine ⟨.expression e, map_eq_read.mpr ⟨e, he, rfl⟩, ?_⟩
    simp [Form.build, hkept, Statement.toJson, Document.expression, Document.node]
  · obtain ⟨htargets, he⟩ := h
    obtain ⟨targets, htargets, hkept⟩ := htargets.names (place.field "targets")
    obtain ⟨e, he, hkept'⟩ := he.expression (place.field "value")
    refine ⟨.assignment targets e, seq_eq_read.mpr ⟨_, e, map_eq_read.mpr ⟨targets, htargets, rfl⟩, he, rfl⟩, ?_⟩
    simp [Form.build, hkept, hkept', Statement.toJson, Document.assignment, Document.node]
  · obtain ⟨hnames, hvalue⟩ := h
    obtain ⟨names, hnames, hkept⟩ := hnames.names (place.field "names")
    obtain ⟨value, hvalue, hkept'⟩ := hvalue.ofOptional Expr.toJson id (place.field "value")
    refine ⟨.declaration names value,
      seq_eq_read.mpr ⟨_, value, map_eq_read.mpr ⟨names, hnames, rfl⟩, hvalue, rfl⟩, ?_⟩
    cases value <;>
      simp [Form.build, hkept, hkept', Statement.toJson, Document.declaration, Document.optional, Document.node]
  · obtain ⟨hcondition, hbody⟩ := h
    obtain ⟨condition, hcondition, hkept⟩ := hcondition.expression (place.field "condition")
    obtain ⟨body, hbody, hkept'⟩ := hbody.block (place.field "body")
    refine ⟨.conditional condition body,
      seq_eq_read.mpr ⟨_, body, map_eq_read.mpr ⟨condition, hcondition, rfl⟩, hbody, rfl⟩, ?_⟩
    simp [Form.build, hkept, hkept', Statement.toJson, Document.conditional, Document.node]
  · obtain ⟨hscrutinee, hcases⟩ := h
    obtain ⟨scrutinee, hscrutinee, hkept⟩ := hscrutinee.expression (place.field "expression")
    obtain ⟨cases, hcases, hkept'⟩ := hcases.cases (place.field "cases")
    refine ⟨.switch scrutinee cases,
      seq_eq_read.mpr ⟨_, cases, map_eq_read.mpr ⟨scrutinee, hscrutinee, rfl⟩, hcases, rfl⟩, ?_⟩
    simp [Form.build, hkept, hkept', Statement.toJson, Document.switch, Document.node]
  · obtain ⟨⟨name, hname, hname'⟩, ⟨params, hparams, -, hparams'⟩, ⟨returns, hreturns, -, hreturns'⟩, hbody⟩ := h
    obtain ⟨body, hbody, hbody'⟩ := hbody.block (place.field "body")
    refine ⟨.function ⟨name, params, returns, body⟩, seq_eq_read.mpr ⟨_, body, seq_eq_read.mpr ⟨_, returns,
      seq_eq_read.mpr ⟨_, params, map_eq_read.mpr ⟨name, ?_, rfl⟩, ?_, rfl⟩, ?_, rfl⟩, hbody, rfl⟩, ?_⟩
    · exact name_eq_read_iff.mpr hname
    · exact names_eq_read_iff.mpr hparams
    · exact names_eq_read_iff.mpr hreturns
    · simp [Form.build, hname', hparams', hreturns', hbody', Statement.toJson, Document.function, Document.node]
  · obtain ⟨hinit, hcondition, hpost, hbody⟩ := h
    obtain ⟨init, hinit, hinit'⟩ := hinit.block (place.field "pre")
    obtain ⟨condition, hcondition, hcondition'⟩ := hcondition.expression (place.field "condition")
    obtain ⟨post, hpost, hpost'⟩ := hpost.block (place.field "post")
    obtain ⟨body, hbody, hbody'⟩ := hbody.block (place.field "body")
    refine ⟨.loop ⟨init, condition, post, body⟩, seq_eq_read.mpr ⟨_, body, seq_eq_read.mpr ⟨_, post,
      seq_eq_read.mpr ⟨_, condition, map_eq_read.mpr ⟨init, hinit, rfl⟩, hcondition, rfl⟩, hpost, rfl⟩,
        hbody, rfl⟩, ?_⟩
    simp [Form.build, hinit', hcondition', hpost', hbody', Statement.toJson, Document.loop, Document.node]
  · exact ⟨.breakLoop, pure_eq_read.mpr rfl, rfl⟩
  · exact ⟨.continueLoop, pure_eq_read.mpr rfl, rfl⟩
  · exact ⟨.leave, pure_eq_read.mpr rfl, rfl⟩
  · obtain ⟨statements, hstatements, hkept⟩ := h.statements (place.field "statements")
    refine ⟨.block ⟨place, statements⟩, map_eq_read.mpr ⟨statements, hstatements, rfl⟩, ?_⟩
    simp [Form.build, blockForm, hkept, Statement.toJson, Block.toJson, Document.block, Document.node]

end Forms

/-- What is of the grammar is read as what is kept of it. -/
theorem Grammar.Trims.answers {field : Field} {doc kept : Option Json} (h : Trims field doc kept) :
    field.Answers doc kept := by
  induction h with
  | text value => exact ⟨value, rfl, rfl⟩
  | name hvalue => exact ⟨_, ⟨rfl, hvalue⟩, rfl⟩
  | oneOf hvalue => exact ⟨_, hvalue, rfl, rfl⟩
  | names hnames hsome => exact ⟨_, ⟨rfl, hnames⟩, hsome, rfl⟩
  | @node part form members values hform hmarks _ ih =>
    refine ⟨form.build values, ?_, rfl⟩
    cases part with
    | literal =>
      cases List.mem_singleton.mp hform
      exact Literal.read?_of_form hmarks ih
    | expression => exact Expr.read?_of_form hform hmarks ih
    | block =>
      cases List.mem_singleton.mp hform
      exact Block.read?_of_form hmarks ih
    | case => exact Case.read?_of_form hform ih
    | statement => exact Statement.read?_of_form hform hmarks ih
  | absent part => exact .inl ⟨rfl, rfl⟩
  | present _ ih => exact .inr ⟨rfl, ih⟩
  | nodes hlength _ hsome ih =>
    refine ⟨_, _, rfl, rfl, hsome, List.forall₂_iff_get.mpr ⟨hlength.symm, fun i hi hi' => ?_⟩⟩
    obtain ⟨json, hjson, hkept⟩ := ih i hi hi'
    cases hkept
    exact hjson

/-! ### Reading programs -/

namespace Validation

theorem readProgram_eq_ok {doc : Option Json} {program : Block} :
    readProgram doc = .ok program ↔ Block.read? [] doc = .read program [] := by
  unfold readProgram
  split
  · rename_i h
    simp [h]
  · rename_i h
    exact iff_of_false (by rintro ⟨⟩) fun hread => absurd hread (h program)

/-- Just what is kept of a document of the grammar is what its program is written as. -/
theorem trims_iff_readProgram {doc kept : Json} :
    Trims (.node .block) (some doc) (some kept) ↔
      ∃ program, readProgram (some doc) = .ok program ∧ program.toJson = kept := by
  constructor
  · intro h
    obtain ⟨json, hjson, hkept⟩ := h.answers
    cases hkept
    obtain ⟨program, hread, rfl⟩ := hjson []
    exact ⟨program, readProgram_eq_ok.mpr hread, rfl⟩
  · rintro ⟨program, hread, rfl⟩
    exact Block.read?_trims (readProgram_eq_ok.mp hread)

end Validation
end BlockIR
