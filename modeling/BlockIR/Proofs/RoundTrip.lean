import BlockIR.Proofs.Acceptance
import BlockIR.Proofs.Soundness
import BlockIR.Proofs.Trimming

/-! Programs are read back from the documents that state them.

A program as a document can state it is what is read off the document it is
written as (`Block.read?_toJson`); the identities of its blocks come back because
they are the places where the blocks stand. So the program is determined by what
is kept of its document, and with that members that the grammar does not know
make no difference (`readProgram_widens`). -/
namespace BlockIR

open Shape Grammar

theorem Literal.read?_toJson (place : Place) (l : Literal) : Literal.read? place (some l.toJson) = .read l [] := by
  rcases l with ⟨_ | _ | _, text⟩ <;> rfl

mutual
theorem Expr.read?_toJson (place : Place) {e : Expr} (h : e.Written) :
    Expr.read? place (some e.toJson) = .read e [] := by
  match e with
  | .literal l =>
    rw [Expr.toJson, Literal.toJson, Document.literal, Document.node, Expr.read?, asVariant_eq_read]
    exact map_eq_read.mpr ⟨l, Literal.read?_toJson place l, rfl⟩
  | .identifier name =>
    rw [Expr.toJson, Document.identifier, Document.node, Expr.read?, asVariant_eq_read]
    exact map_eq_read.mpr ⟨name, name_eq_read_iff.mpr ⟨rfl, h⟩, rfl⟩
  | .call name args =>
    rw [Expr.toJson, Document.call, Document.node, Expr.read?, asVariant_eq_read]
    refine seq_eq_read.mpr ⟨_, args, map_eq_read.mpr ⟨name, name_eq_read_iff.mpr ⟨rfl, h.1⟩, rfl⟩, ?_, rfl⟩
    exact (Expr.readArray.eq_def ..).trans (Expr.readItems_toJson (place.field "args") 0 h.2)

theorem Expr.readItems_toJson (place : Place) (position : Nat) {es : List Expr} (h : Expr.ListWritten es) :
    Expr.readItems place position (Expr.listToJson es) = .read es [] := by
  match es with
  | [] => rw [Expr.listToJson, Expr.readItems, pure_eq_read]
  | e :: rest =>
    rw [Expr.listToJson, Expr.readItems]
    exact seq_eq_read.mpr ⟨_, rest, map_eq_read.mpr ⟨e, Expr.read?_toJson _ h.1, rfl⟩,
      Expr.readItems_toJson place (position + 1) h.2, rfl⟩
end

mutual
theorem Block.read?_toJson {place : Place} {b : Block} (h : b.WrittenAt place) :
    Block.read? place (some b.toJson) = .read b [] := by
  obtain ⟨id, statements⟩ := b
  obtain ⟨rfl, h⟩ := h
  rw [Block.toJson, Document.block, Document.node, Block.read?]
  refine seq_eq_read.mpr ⟨_, statements, map_eq_read.mpr ⟨(), marked_eq_read_iff.mpr rfl, rfl⟩, ?_, rfl⟩
  exact (Statement.readArray.eq_def ..).trans (Statement.readItems_toJson h)

theorem Statement.read?_toJson {place : Place} {s : Statement} (h : Statement.WrittenAt place s) :
    Statement.read? place (some s.toJson) = .read s [] := by
  match s with
  | .expression e =>
    rw [Statement.toJson, Document.expression, Document.node, Statement.read?, asVariant_eq_read]
    exact map_eq_read.mpr ⟨e, Expr.read?_toJson _ h, rfl⟩
  | .assignment targets e =>
    rw [Statement.toJson, Document.assignment, Document.node, Statement.read?, asVariant_eq_read]
    obtain ⟨hsome, hnames, he⟩ := h
    exact seq_eq_read.mpr ⟨_, e, map_eq_read.mpr ⟨targets,
      nonEmpty_eq_read_iff.mpr ⟨names_eq_read_iff.mpr ⟨rfl, hnames⟩, hsome⟩, rfl⟩, Expr.read?_toJson _ he, rfl⟩
  | .declaration names value =>
    obtain ⟨hsome, hnames, hvalue⟩ := h
    have hread : (Shape.names (place.field "names") (some (Document.ofNames names))).nonEmpty (place.field "names") =
        .read names [] := nonEmpty_eq_read_iff.mpr ⟨names_eq_read_iff.mpr ⟨rfl, hnames⟩, hsome⟩
    rw [Statement.toJson, Document.declaration, Document.node, Statement.read?, asVariant_eq_read]
    refine seq_eq_read.mpr ⟨_, value, map_eq_read.mpr ⟨names, hread, rfl⟩, ?_, rfl⟩
    match value with
    | none => rfl
    | some e => exact map_eq_read.mpr ⟨e, Expr.read?_toJson _ (hvalue e rfl), rfl⟩
  | .conditional condition body =>
    rw [Statement.toJson, Document.conditional, Document.node, Statement.read?, asVariant_eq_read]
    exact seq_eq_read.mpr ⟨_, body, map_eq_read.mpr ⟨condition, Expr.read?_toJson _ h.1, rfl⟩,
      Block.read?_toJson h.2, rfl⟩
  | .switch scrutinee cases =>
    rw [Statement.toJson, Document.switch, Document.node, Statement.read?, asVariant_eq_read]
    obtain ⟨hscrutinee, hsome, hcases⟩ := h
    refine seq_eq_read.mpr ⟨_, cases, map_eq_read.mpr ⟨scrutinee, Expr.read?_toJson _ hscrutinee, rfl⟩,
      nonEmpty_eq_read_iff.mpr ⟨?_, hsome⟩, rfl⟩
    exact (Case.readArray.eq_def ..).trans (Case.readItems_toJson hcases)
  | .function ⟨name, params, returns, body⟩ =>
    rw [Statement.toJson, Document.function, Document.node, Statement.read?, asVariant_eq_read]
    obtain ⟨hname, hparams, hreturns, hbody⟩ := h
    refine seq_eq_read.mpr ⟨_, body, seq_eq_read.mpr ⟨_, returns, seq_eq_read.mpr ⟨_, params,
      map_eq_read.mpr ⟨name, name_eq_read_iff.mpr ⟨rfl, hname⟩, rfl⟩, ?_, rfl⟩, ?_, rfl⟩,
        Block.read?_toJson hbody, rfl⟩
    · exact names_eq_read_iff.mpr ⟨rfl, hparams⟩
    · exact names_eq_read_iff.mpr ⟨rfl, hreturns⟩
  | .loop ⟨init, condition, post, body⟩ =>
    rw [Statement.toJson, Document.loop, Document.node, Statement.read?, asVariant_eq_read]
    obtain ⟨hinit, hcondition, hpost, hbody⟩ := h
    exact seq_eq_read.mpr ⟨_, body, seq_eq_read.mpr ⟨_, post, seq_eq_read.mpr ⟨_, condition,
      map_eq_read.mpr ⟨init, Block.read?_toJson hinit, rfl⟩, Expr.read?_toJson _ hcondition, rfl⟩,
        Block.read?_toJson hpost, rfl⟩, Block.read?_toJson hbody, rfl⟩
  | .breakLoop =>
    rw [Statement.toJson, Document.breakLoop, Document.node, Statement.read?, asVariant_eq_read]
    rfl
  | .continueLoop =>
    rw [Statement.toJson, Document.continueLoop, Document.node, Statement.read?, asVariant_eq_read]
    rfl
  | .leave =>
    rw [Statement.toJson, Document.leave, Document.node, Statement.read?, asVariant_eq_read]
    rfl
  | .block ⟨id, statements⟩ =>
    obtain ⟨rfl, h⟩ := h
    rw [Statement.toJson, Block.toJson, Document.block, Document.node, Statement.read?, asVariant_eq_read]
    refine map_eq_read.mpr ⟨statements, ?_, rfl⟩
    exact (Statement.readArray.eq_def ..).trans (Statement.readItems_toJson h)

theorem Statement.readItems_toJson {place : Place} {position : Nat} {statements : List Statement}
    (h : Statement.ListWrittenAt place position statements) :
    Statement.readItems (place.field "statements") position (Statement.listToJson statements) =
      .read statements [] := by
  match statements with
  | [] => rw [Statement.listToJson, Statement.readItems, pure_eq_read]
  | s :: rest =>
    rw [Statement.listToJson, Statement.readItems]
    exact seq_eq_read.mpr ⟨_, rest, map_eq_read.mpr ⟨s, Statement.read?_toJson h.1, rfl⟩,
      Statement.readItems_toJson h.2, rfl⟩

theorem Case.readItems_toJson {place : Place} {position : Nat} {cases : List Case}
    (h : Case.ListWrittenAt place position cases) :
    Case.readItems (place.field "cases") position (Statement.casesToJson cases) = .read cases [] := by
  match cases with
  | [] => rw [Statement.casesToJson, Case.readItems, pure_eq_read]
  | ⟨value, body⟩ :: rest =>
    have hbody := Block.read?_toJson h.1
    rw [Statement.casesToJson, Document.case, Case.readItems, Case.read?]
    refine seq_eq_read.mpr ⟨_, rest, map_eq_read.mpr ⟨⟨value, body⟩, seq_eq_read.mpr ?_, rfl⟩,
      Case.readItems_toJson h.2, rfl⟩
    match value with
    | none => exact ⟨_, body, map_eq_read.mpr ⟨none, rfl, rfl⟩, hbody, rfl⟩
    | some l =>
      refine ⟨_, body, map_eq_read.mpr ⟨some l, map_eq_read.mpr ⟨l, ?_, rfl⟩, rfl⟩, hbody, rfl⟩
      exact Literal.read?_toJson _ l
end

namespace Validation

/-- A program as documents can state it is read back from the document that states it. -/
theorem readProgram_toJson {program : Block} (h : program.WrittenAt []) :
    readProgram (some program.toJson) = .ok program :=
  readProgram_eq_ok.mpr (Block.read?_toJson h)

/-- A program is read off a document if documents can state it and what is kept of this one states it. -/
theorem readProgram_iff_trims {doc : Json} {program : Block} :
    readProgram (some doc) = .ok program ↔
      program.WrittenAt [] ∧ Trims (.node .block) (some doc) (some program.toJson) := by
  constructor
  · exact fun hread => ⟨readProgram_written hread, trims_iff_readProgram.mpr ⟨program, hread, rfl⟩⟩
  · rintro ⟨hwritten, hkept⟩
    obtain ⟨other, hother, hjson⟩ := trims_iff_readProgram.mp hkept
    -- both programs are read back from the one document that is kept
    have hback := readProgram_toJson hwritten
    rw [← hjson, readProgram_toJson (readProgram_written hother)] at hback
    cases hback
    exact hother

/-- Documents that differ in members alone that the grammar does not know are read alike. -/
theorem readProgram_widens {doc wider : Json} (h : Widens (.node .block) (some doc) (some wider)) {program : Block} :
    readProgram (some wider) = .ok program ↔ readProgram (some doc) = .ok program := by
  rw [readProgram_iff_trims, readProgram_iff_trims, h.trims_iff]

/-- Reading accepts just the documents of the grammar, and gives a document without the members that
the grammar does not know. Every program as documents can state it is read back from the document
that states it, members that the grammar does not know change neither what is accepted nor the program,
and validating what a validation gave gives it again. -/
theorem reading_exact (target : Target) (doc : Json) :
    ((∃ program, readProgram (some doc) = .ok program) ↔ ∃ kept, Trims (.node .block) (some doc) (some kept)) ∧
    (∀ program, readProgram (some doc) = .ok program →
      ∀ kept, Trims (.node .block) (some doc) (some kept) ↔ kept = program.toJson) ∧
    (∀ program : Block, program.WrittenAt [] → readProgram (some program.toJson) = .ok program) ∧
    (∀ wider, Widens (.node .block) (some doc) (some wider) → ∀ program,
      (readProgram (some wider) = .ok program ↔ readProgram (some doc) = .ok program) ∧
      (validate target (some wider) = .ok program ↔ validate target (some doc) = .ok program)) ∧
    (∀ program, validate target (some doc) = .ok program → validate target (some program.toJson) = .ok program) := by
  refine ⟨?_, fun program hread kept => ?_, fun program => readProgram_toJson, fun wider hwider program => ?_,
    fun program hvalid => ?_⟩
  · simp only [trims_iff_readProgram]
    exact ⟨fun ⟨program, hread⟩ => ⟨program.toJson, program, hread, rfl⟩,
      fun ⟨_, program, hread, _⟩ => ⟨program, hread⟩⟩
  · rw [trims_iff_readProgram]
    constructor
    · rintro ⟨other, hother, rfl⟩
      cases hread.symm.trans hother
      rfl
    · rintro rfl
      exact ⟨program, hread, rfl⟩
  · rw [validate_eq_ok_iff, validate_eq_ok_iff, readProgram_widens hwider]
    exact ⟨Iff.rfl, Iff.rfl⟩
  · obtain ⟨hread, hissues⟩ := validate_eq_ok_iff.mp hvalid
    exact validate_eq_ok_iff.mpr ⟨readProgram_toJson (readProgram_written hread), hissues⟩

theorem reading_exact_sample :
    let wider := Json.object [("src", .null), ("kind", .string "block"),
      ("statements", .array (Statement.listToJson Sample.program.statements))]
    validate .evm (some wider) = .ok Sample.program ∧
      Trims (.node .block) (some wider) (some Sample.program.toJson) ∧
      readProgram (some Sample.program.toJson) = .ok Sample.program ∧
      validate .evm (some Sample.program.toJson) = .ok Sample.program := by
  intro wider
  have hwider : Widens (.node .block) (some Sample.program.toJson) (some wider) :=
    .extra (List.mem_singleton_self blockForm) (fun _ hkind => by cases hkind; rfl) (by decide) (by decide) .null
  obtain ⟨-, -, -, hwidens, -⟩ := reading_exact .evm Sample.program.toJson
  have hvalid := (hwidens wider hwider Sample.program).2.mpr Sample.program_valid
  obtain ⟨-, hkept, hread, -, hback⟩ := reading_exact .evm wider
  have hprogram := (validate_eq_ok_iff.mp hvalid).1
  exact ⟨hvalid, (hkept _ hprogram _).mpr rfl, hread _ (readProgram_written hprogram), hback _ hvalid⟩

end Validation
end BlockIR
