import BlockIR.Json
import Mathlib.Data.List.Pairwise

/-! The grammar of program documents.

A program document is made of nodes. What can stand in a place of it is a
nonterminal, and each nonterminal has a few forms: a form is a `kind`, if nodes of
the form have one, and a list of fields with what each of them holds
(`Nonterminal.forms`). This is all that is particular to programs.

`Trims field doc kept` says at once that `doc` is what the field may hold and that
`kept` is `doc` with nothing but the fields of the grammar, at every depth: a node
is of the grammar if it is of some form of its nonterminal, a field that may be
absent is absent or of the grammar, and a member that no field names is passed
over. `Widens field doc wider` says that `wider` differs from `doc` only in such
members. The forms of a nonterminal have different kinds, so a node is of one form
at most, and whatever members are added, what is kept stays the same
(`Widens.trims_iff`). -/
namespace BlockIR
namespace Grammar

/-- The parts of programs that are documents of their own. -/
inductive Nonterminal where
  | literal
  | expression
  | block
  | case
  | statement

/-- What a field of a node holds. -/
inductive Field where
  /-- Any text. -/
  | text
  /-- A text that is not empty. -/
  | name
  /-- One of a few texts. -/
  | oneOf (texts : List String)
  /-- Names, at least one of them if `inhabited`. -/
  | names (inhabited : Bool)
  | node (part : Nonterminal)
  /-- A node that may be absent. -/
  | optional (part : Nonterminal)
  /-- Nodes, at least one of them if `inhabited`. -/
  | nodes (part : Nonterminal) (inhabited : Bool)

/-- A form of nodes: their `kind`, if they have one, and their other fields. -/
structure Form where
  kind : Option String
  fields : List (String × Field)

/-- The one form of literals. -/
def literalForm : Form :=
  ⟨some "literal", [("literalKind", .oneOf ["number", "boolean", "string"]), ("value", .text)]⟩

/-- The one form of blocks. -/
def blockForm : Form := ⟨some "block", [("statements", .nodes .statement false)]⟩

/-- The forms of each part of a program. A literal is an expression as well, and a block is a
statement; a case alone has no `kind`. -/
def Nonterminal.forms : Nonterminal → List Form
  | literal => [literalForm]
  | expression =>
    [ literalForm,
      ⟨some "identifier", [("name", .name)]⟩,
      ⟨some "call", [("name", .name), ("args", .nodes expression false)]⟩ ]
  | block => [blockForm]
  | case => [⟨none, [("value", .optional literal), ("body", .node block)]⟩]
  | statement =>
    [ ⟨some "expression", [("expression", .node expression)]⟩,
      ⟨some "assignment", [("targets", .names true), ("value", .node expression)]⟩,
      ⟨some "variableDeclaration", [("names", .names true), ("value", .optional expression)]⟩,
      ⟨some "if", [("condition", .node expression), ("body", .node block)]⟩,
      ⟨some "switch", [("expression", .node expression), ("cases", .nodes case true)]⟩,
      ⟨some "functionDefinition",
        [("name", .name), ("params", .names false), ("returns", .names false), ("body", .node block)]⟩,
      ⟨some "for",
        [("pre", .node block), ("condition", .node expression), ("post", .node block), ("body", .node block)]⟩,
      ⟨some "break", []⟩,
      ⟨some "continue", []⟩,
      ⟨some "leave", []⟩,
      blockForm ]

/-! ### Documents of the grammar -/

namespace Form

/-- Whether the members of an object say that it is of a form. -/
def Marks (form : Form) (members : List (String × Json)) : Prop :=
  ∀ kind, form.kind = some kind → Json.member members "kind" = some (.string kind)

/-- The object of a form with such values of its fields and no other members. -/
def build (form : Form) (values : String → Option Json) : Json :=
  .object (form.kind.toList.map (fun kind => ("kind", .string kind)) ++
    form.fields.flatMap fun field => (values field.1).toList.map fun value => (field.1, value))

end Form

/-- A document is what the field may hold, and without the members that the grammar does not know it
is `kept`. -/
inductive Trims : Field → Option Json → Option Json → Prop
  | text (value : String) : Trims .text (some (.string value)) (some (.string value))
  | name {value : String} : value ≠ "" → Trims .name (some (.string value)) (some (.string value))
  | oneOf {texts : List String} {value : String} : value ∈ texts →
    Trims (.oneOf texts) (some (.string value)) (some (.string value))
  | names {inhabited : Bool} {names : List String} : (∀ name ∈ names, name ≠ "") →
    (inhabited = true → names ≠ []) →
      Trims (.names inhabited) (some (.array (names.map .string))) (some (.array (names.map .string)))
  | node {part : Nonterminal} {form : Form} {members : List (String × Json)} {values : String → Option Json} :
    form ∈ part.forms → form.Marks members →
      (∀ q ∈ form.fields, Trims q.2 (Json.member members q.1) (values q.1)) →
        Trims (.node part) (some (.object members)) (some (form.build values))
  | absent (part : Nonterminal) : Trims (.optional part) none none
  | present {part : Nonterminal} {doc kept : Json} : Trims (.node part) (some doc) (some kept) →
    Trims (.optional part) (some doc) (some kept)
  | nodes {part : Nonterminal} {inhabited : Bool} {items kept : List Json} : kept.length = items.length →
    (∀ (i : Nat) (h : i < items.length) (h' : i < kept.length), Trims (.node part) (some items[i]) (some kept[i])) →
      (inhabited = true → items ≠ []) → Trims (.nodes part inhabited) (some (.array items)) (some (.array kept))

/-- The second document differs from the first only in members that the grammar does not know, at
any nodes. An object of no form of its part has a `kind` that is not known, and then no other member
is. -/
inductive Widens : Field → Option Json → Option Json → Prop
  | same (field : Field) (doc : Option Json) : Widens field doc doc
  | node {part : Nonterminal} {form : Form} {members wider : List (String × Json)} : form ∈ part.forms →
    form.Marks members → form.Marks wider →
      (∀ q ∈ form.fields, Widens q.2 (Json.member members q.1) (Json.member wider q.1)) →
        Widens (.node part) (some (.object members)) (some (.object wider))
  | stray {part : Nonterminal} {members wider : List (String × Json)} :
    (∀ form ∈ part.forms, ¬form.Marks members) → Json.member wider "kind" = Json.member members "kind" →
      Widens (.node part) (some (.object members)) (some (.object wider))
  | optional {part : Nonterminal} {doc wider : Json} : Widens (.node part) (some doc) (some wider) →
    Widens (.optional part) (some doc) (some wider)
  | nodes {part : Nonterminal} (inhabited : Bool) {items wider : List Json} : wider.length = items.length →
    (∀ (i : Nat) (h : i < items.length) (h' : i < wider.length), Widens (.node part) (some items[i]) (some wider[i])) →
      Widens (.nodes part inhabited) (some (.array items)) (some (.array wider))

/-! ### At most one form -/

/-- Forms of one part are told apart by their kinds. -/
theorem forms_distinct (part : Nonterminal) :
    part.forms.Pairwise fun form other => ∃ a b, form.kind = some a ∧ other.kind = some b ∧ a ≠ b := by
  cases part <;> simp [Nonterminal.forms, literalForm, blockForm]

/-- An object is of one form of a part at most. -/
theorem form_unique {part : Nonterminal} {form other : Form} {members : List (String × Json)}
    (hform : form ∈ part.forms) (hother : other ∈ part.forms) (hmarks : form.Marks members)
    (hmarks' : other.Marks members) : form = other := by
  refine Classical.byContradiction fun hne => ?_
  have : Std.Symm fun form other : Form => ∃ a b, form.kind = some a ∧ other.kind = some b ∧ a ≠ b :=
    ⟨fun _ _ ⟨a, b, ha, hb, hab⟩ => ⟨b, a, hb, ha, hab.symm⟩⟩
  obtain ⟨a, b, ha, hb, hab⟩ := (forms_distinct part).forall hform hother hne
  cases (hmarks a ha).symm.trans (hmarks' b hb)
  exact hab rfl

/-! ### Unknown members -/

/-- A node may have one more member that its form does not know. -/
theorem Widens.extra {part : Nonterminal} {form : Form} {members : List (String × Json)} (hform : form ∈ part.forms)
    (hmarks : form.Marks members) {name : String} (hkind : name ≠ "kind") (hname : ∀ q ∈ form.fields, name ≠ q.1)
    (value : Json) : Widens (.node part) (some (.object members)) (some (.object ((name, value) :: members))) := by
  have hmember {key : String} (hne : name ≠ key) :
      Json.member ((name, value) :: members) key = Json.member members key := by
    rw [Json.member, List.lookup_cons, beq_eq_false_iff_ne.mpr hne.symm, Json.member]
  refine .node hform hmarks (fun kind hk => (hmember hkind).trans (hmarks kind hk)) fun q hq => ?_
  exact hmember (hname q hq) ▸ .same q.2 _

theorem Widens.symm {field : Field} {doc wider : Option Json} (h : Widens field doc wider) :
    Widens field wider doc := by
  induction h with
  | same field doc => exact .same field doc
  | node hform hmarks hmarks' _ ih => exact .node hform hmarks' hmarks ih
  | stray hnone hkind =>
    refine .stray (fun form hform hmarks => hnone form hform fun kind hk => ?_) hkind.symm
    exact hkind ▸ hmarks kind hk
  | optional _ ih => exact .optional ih
  | nodes inhabited hlength _ ih => exact .nodes inhabited hlength.symm fun i h h' => ih i h' h

/-- What is kept of a document is kept of it with more members. -/
theorem Trims.widens {field : Field} {doc wider kept : Option Json} (h : Trims field doc kept)
    (hwider : Widens field doc wider) : Trims field wider kept := by
  induction h generalizing wider with
  | text value => cases hwider; exact .text value
  | name hvalue => cases hwider; exact .name hvalue
  | oneOf hvalue => cases hwider; exact .oneOf hvalue
  | names hnames hsome => cases hwider; exact .names hnames hsome
  | node hform hmarks hfields ih =>
    cases hwider with
    | same => exact .node hform hmarks hfields
    | node hform' hmarks' hmarks'' hfields' =>
      obtain rfl := form_unique hform hform' hmarks hmarks'
      exact .node hform hmarks'' fun q hq => ih q hq (hfields' q hq)
    | stray hnone _ => exact absurd hmarks (hnone _ hform)
  | absent part => cases hwider; exact .absent part
  | present h ih =>
    cases hwider with
    | same => exact .present h
    | optional hwider => exact .present (ih hwider)
  | nodes hlength hitems hsome ih =>
    cases hwider with
    | same => exact .nodes hlength hitems hsome
    | nodes _ hlength' hitems' =>
      refine .nodes (hlength.trans hlength'.symm) (fun i h h' => ?_) fun hinhabited hnil => hsome hinhabited ?_
      · exact ih i (hlength' ▸ h) h' (hitems' i (hlength' ▸ h) h)
      · rw [← List.length_eq_zero_iff, ← hlength', hnil, List.length_nil]

/-- Members that the grammar does not know change neither what is of the grammar nor what is kept. -/
theorem Widens.trims_iff {field : Field} {doc wider : Option Json} (h : Widens field doc wider)
    (kept : Option Json) : Trims field wider kept ↔ Trims field doc kept :=
  ⟨fun hkept => hkept.widens h.symm, fun hkept => hkept.widens h⟩

end Grammar
end BlockIR
