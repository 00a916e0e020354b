import BlockIR.Proofs.Numeral
import BlockIR.Proofs.RoundTrip
import BlockIR.Proofs.Walk
import BlockIR.Syntax.Document
import Std.Data.String.ToNat

/-! Issues point into the program.

The place of an issue is printed as its steps with dots between them. Split at the
dots and followed from the program, by member names in objects and by positions in
arrays, it leads to a part of the program: a node or a case, which are objects, or a
name (`issues_point`). -/
namespace BlockIR

/-! ### Following a path -/

/-- Where a step leads: to the member of that name, or to the item whose position is written so. -/
def Json.step (doc : Json) (text : String) : Option Json :=
  match doc with
  | .object members => Json.member members text
  | .array items => ((List.range items.length).find? fun position => toString position = text).bind (items[·]?)
  | _ => none

/-- Where steps lead. -/
def Json.follow (doc : Json) : List String → Option Json
  | [] => some doc
  | text :: rest => (doc.step text).bind fun part => part.follow rest

/-- A text cut at its dots. -/
def splitDots (text : String) : List String := (text.toList.splitOn '.').map String.ofList

/-- A step that is read back from the text of a place. -/
def Segment.Plain (step : Segment) : Prop := step.text ≠ "" ∧ '.' ∉ step.text.toList

instance (step : Segment) : Decidable step.Plain := inferInstanceAs (Decidable (_ ∧ _))

theorem Segment.plain_index (position : Nat) : (Segment.index position).Plain := by
  have hdigits : (Segment.index position).text.toList = Nat.toDigits 10 position := Nat.toList_repr
  refine ⟨fun hempty => ?_, fun hdot => ?_⟩
  · rw [hempty] at hdigits
    exact Nat.toDigits_ne_nil hdigits.symm
  · rw [hdigits] at hdot
    exact absurd (Numeral.isDigit_of_mem_toDigits (by decide) (by decide) position '.' hdot) (by decide)

/-- A place is read back from its text. -/
theorem Place.splitDots_text {place : Place} (hsome : place ≠ []) (hplain : ∀ step ∈ place, step.Plain) :
    splitDots place.text = place.map Segment.text := by
  let joined := ".".intercalate (place.map Segment.text)
  have hsplit : joined.toList.splitOn '.' = place.map fun step => step.text.toList := by
    have hchars : joined.toList = ['.'].intercalate (place.map fun step => step.text.toList) := by
      rw [String.toList_intercalate, List.map_map]
      rfl
    rw [hchars]
    apply List.splitOn_intercalate
    · simpa using fun step hstep => (hplain step hstep).2
    · simpa using hsome
  have hne : joined ≠ "" := by
    intro hempty
    obtain ⟨first, rest, rfl⟩ := List.exists_cons_of_ne_nil hsome
    rw [hempty] at hsplit
    have hfirst : [] = first.text.toList := (List.cons.inj hsplit).1
    exact (hplain first (List.mem_cons_self ..)).1 (String.toList_inj.mp hfirst.symm)
  have htext : place.text = joined := if_neg hne
  rw [splitDots, htext, hsplit, List.map_map]
  exact List.map_congr_left fun step _ => String.ofList_toList

namespace Json

theorem follow_append (doc : Json) (steps more : List String) :
    doc.follow (steps ++ more) = (doc.follow steps).bind fun part => part.follow more := by
  induction steps generalizing doc with
  | nil => rfl
  | cons text rest ih =>
    rw [List.cons_append, follow, follow, Option.bind_assoc]
    exact congrArg _ (funext ih)

theorem step_array {items : List Json} {position : Nat} {part : Json} (h : items[position]? = some part) :
    (array items).step (toString position) = some part := by
  have hfind : (List.range items.length).find? (fun i => toString i = toString position) = some position := by
    rw [List.find?_range_eq_some]
    refine ⟨by simp, List.mem_range.mpr (List.getElem?_eq_some_iff.mp h).1, fun i hi => ?_⟩
    have hne : toString i ≠ toString position := fun heq => Nat.ne_of_lt hi (Nat.repr_injective heq)
    simpa using hne
  show ((List.range items.length).find? _).bind _ = _
  rw [hfind]
  exact h

/-- The place leads to the part, and its text is read back. -/
structure Leads (root : Json) (place : Place) (part : Json) : Prop where
  follow : root.follow (place.map Segment.text) = some part
  plain : ∀ step ∈ place, step.Plain

namespace Leads
variable {root part : Json} {place : Place} {members : List (String × Json)} {name : String}

theorem start (root : Json) : root.Leads [] root := ⟨rfl, nofun⟩

theorem extend (h : root.Leads place part) {step : Segment} {next : Json} (hplain : step.Plain)
    (hstep : part.step step.text = some next) : root.Leads (place ++ [step]) next where
  follow := by
    rw [List.map_append, follow_append, h.follow]
    show (part.step step.text).bind _ = _
    rw [hstep]
    rfl
  plain s hs := by
    rcases List.mem_append.mp hs with hs | hs
    · exact h.plain s hs
    · exact List.mem_singleton.mp hs ▸ hplain

/-- To a member of an object. -/
theorem field (h : root.Leads place (.object members)) (hname : (Segment.field name).Plain)
    (hmember : member members name = some part) : root.Leads (place.field name) part := h.extend hname hmember

/-- To an item of an array that is a member of an object. -/
theorem item (h : root.Leads place (.object members)) (hname : (Segment.field name).Plain) {items : List Json}
    (hmember : member members name = some (.array items)) {position : Nat} (hitem : items[position]? = some part) :
    root.Leads (place.item name position) part :=
  (h.field hname hmember).extend (Segment.plain_index position) (step_array hitem)

end Leads

/-- A part of a program as a document: a node or a case, or a name. -/
def IsPart (part : Json) : Prop := (∃ members, part = .object members) ∨ ∃ name, part = .string name

end Json

/-! ### Where issues point -/

/-- Inside the document, the place of the issue leads to a part. -/
def Issue.Points (root : Json) (issue : Issue) : Prop :=
  issue.place ≠ [] ∧ ∃ part, root.Leads issue.place part ∧ part.IsPart

/-- What is read off the text of an issue that points. -/
theorem Issue.Points.follow {root : Json} {issue : Issue} (h : issue.Points root) :
    ∃ part, root.follow (splitDots issue.place.text) = some part ∧ part.IsPart := by
  obtain ⟨hsome, part, hleads, hpart⟩ := h
  rw [Place.splitDots_text hsome hleads.plain]
  exact ⟨part, hleads.follow, hpart⟩

/-- All issues point. -/
abbrev AllPoint (root : Json) (issues : List Issue) : Prop := ∀ issue ∈ issues, issue.Points root

section Points
variable {root part : Json} {place : Place} {issues more : List Issue} {flaw : Flaw}

theorem allPoint_nil : AllPoint root [] := nofun

theorem AllPoint.append (h : AllPoint root issues) (h' : AllPoint root more) : AllPoint root (issues ++ more) :=
  List.forall_mem_append.mpr ⟨h, h'⟩

theorem AllPoint.ite {condition : Prop} [Decidable condition] (h : AllPoint root issues) (h' : AllPoint root more) :
    AllPoint root (if condition then issues else more) := by
  split
  · exact h
  · exact h'

/-- Some part of the program stands at the place. -/
structure Standing (root : Json) (place : Place) (part : Json) : Prop where
  below : place ≠ []
  leads : root.Leads place part
  part : part.IsPart

/-- An issue at a place where something stands. -/
theorem Standing.single (h : Standing root place part) : AllPoint root [⟨place, flaw⟩] := by
  intro issue hissue
  rw [List.mem_singleton.mp hissue]
  exact ⟨h.below, part, h.leads, h.part⟩

theorem Standing.objections (h : Standing root place part) (flaw? : Option Flaw) :
    AllPoint root (flaw?.map fun flaw => Issue.mk place flaw).toList := by
  cases flaw? with
  | none => exact allPoint_nil
  | some flaw => exact h.single

theorem place_field_ne_nil (place : Place) (name : String) : place.field name ≠ [] := by simp [Place.field]

theorem place_item_ne_nil (place : Place) (name : String) (position : Nat) : place.item name position ≠ [] := by
  simp [Place.item, Place.index]

end Points

/-- Every expression is a node. -/
theorem Expr.isPart_toJson (e : Expr) : e.toJson.IsPart := by
  cases e <;> exact .inl ⟨_, rfl⟩

theorem Statement.isPart_toJson (s : Statement) : s.toJson.IsPart := by
  match s with
  | .expression _ | .assignment _ _ | .declaration _ _ | .conditional _ _ | .switch _ _ | .function ⟨_, _, _, _⟩
  | .loop ⟨_, _, _, _⟩ | .breakLoop | .continueLoop | .leave | .block ⟨_, _⟩ => exact .inl ⟨_, rfl⟩

/-- The items from a position on. -/
theorem getElem?_of_drop {α : Type} {items rest : List α} {item : α} {position : Nat}
    (h : items.drop position = item :: rest) :
    items[position]? = some item ∧ items.drop (position + 1) = rest := by
  constructor
  · have hfirst := congrArg (·[0]?) h
    simpa using hfirst
  · rw [← List.tail_drop, h, List.tail_cons]

variable {root : Json} {dialect : Dialect} {visible : Visible} {place : Place}

theorem Literal.issues_point {part : Json} (h : Standing root place part) (l : Literal) :
    AllPoint root (l.issues place) := by
  unfold Literal.issues
  split
  · exact allPoint_nil
  · exact h.single

theorem Expr.countIssues_point {part : Json} (h : Standing root place part) (e : Expr) (expected : Nat)
    (flaw : Nat → Flaw) : AllPoint root (e.countIssues dialect visible place expected flaw) := by
  unfold Expr.countIssues
  split
  · exact .ite allPoint_nil h.single
  · exact allPoint_nil

theorem Expr.calleeIssues_point {part : Json} (h : Standing root place part) (name : String) (got : Nat) :
    AllPoint root (Expr.calleeIssues dialect visible place name got) := by
  unfold Expr.calleeIssues
  dsimp only
  split
  · exact .ite allPoint_nil h.single
  · exact h.single

mutual
theorem Expr.issues_point {place : Place} {e : Expr} (h : Standing root place e.toJson) :
    AllPoint root (e.issues dialect visible place) := by
  match e with
  | .literal l =>
    rw [Expr.issues]
    exact l.issues_point h
  | .identifier name =>
    rw [Expr.issues]
    exact .ite allPoint_nil h.single
  | .call name args =>
    rw [Expr.issues]
    exact .append (Expr.argumentIssues_point h.leads rfl name 0 args rfl) (Expr.calleeIssues_point h name args.length)

theorem Expr.argumentIssues_point {place : Place} {members : List (String × Json)} {items : List Json}
    (h : root.Leads place (.object members)) (hargs : Json.member members "args" = some (.array items))
    (callee : String) (position : Nat) (args : List Expr) (hitems : items.drop position = Expr.listToJson args) :
    AllPoint root (Expr.argumentIssues dialect visible place callee position args) := by
  match args with
  | [] =>
    rw [Expr.argumentIssues]
    exact allPoint_nil
  | e :: rest =>
    obtain ⟨hitem, hrest⟩ := getElem?_of_drop hitems
    have he : Standing root (place.item "args" position) e.toJson :=
      ⟨place_item_ne_nil _ _ _, h.item (by decide) hargs hitem, e.isPart_toJson⟩
    rw [Expr.argumentIssues]
    refine .append (.ite (.ite allPoint_nil he.single) ?_)
      (Expr.argumentIssues_point h hargs callee (position + 1) rest hrest)
    exact .append (Expr.issues_point he) (e.countIssues_point he 1 _)
end

/-- An expression that is a member. -/
theorem Standing.expression {members : List (String × Json)} (h : root.Leads place (.object members)) {field : String}
    (hfield : (Segment.field field).Plain) {e : Expr} (hmember : Json.member members field = some e.toJson) :
    Standing root (place.field field) e.toJson :=
  ⟨place_field_ne_nil _ _, h.field hfield hmember, e.isPart_toJson⟩

theorem Expr.singleIssues_point {e : Expr} (h : Standing root place e.toJson) (role : Role) :
    AllPoint root (e.singleIssues dialect visible place role) :=
  (Expr.issues_point h).append (e.countIssues_point h 1 _)

/-! ### Names -/

/-- A name in a list of names. -/
theorem Standing.name {members : List (String × Json)} (h : root.Leads place (.object members)) {field : String}
    (hfield : (Segment.field field).Plain) {items : List Json}
    (hmember : Json.member members field = some (.array items)) {position : Nat} {name : String}
    (hitem : items[position]? = some (.string name)) : Standing root (place.item field position) (.string name) :=
  ⟨place_item_ne_nil _ _ _, h.item hfield hmember hitem, .inr ⟨name, rfl⟩⟩

theorem Visible.declarationIssues_point {members : List (String × Json)} {items : List Json}
    (h : root.Leads place (.object members)) (hnames : Json.member members "names" = some (.array items))
    (position : Nat) (names : List String) (hitems : items.drop position = names.map Json.string) :
    AllPoint root (visible.declarationIssues dialect place position names) := by
  induction names generalizing visible position with
  | nil => exact allPoint_nil
  | cons name rest ih =>
    obtain ⟨hitem, hrest⟩ := getElem?_of_drop hitems
    exact ((Standing.name h (by decide) hnames hitem).objections _).append (ih (position + 1) hrest)

theorem Visible.targetIssues_point {members : List (String × Json)} {items : List Json}
    (h : root.Leads place (.object members)) (htargets : Json.member members "targets" = some (.array items))
    (seen : List String) (position : Nat) (names : List String) (hitems : items.drop position = names.map Json.string) :
    AllPoint root (visible.targetIssues place seen position names) := by
  induction names generalizing seen position with
  | nil => exact allPoint_nil
  | cons name rest ih =>
    obtain ⟨hitem, hrest⟩ := getElem?_of_drop hitems
    have hname := Standing.name h (by decide) htargets hitem
    refine .append (.append (.ite hname.single allPoint_nil) ?_) (ih (name :: seen) (position + 1) hrest)
    exact .ite allPoint_nil (.ite hname.single hname.single)

theorem Visible.localIssues_point {part : Json} (h : Standing root place part) (locals names : List String) :
    AllPoint root (visible.localIssues dialect place locals names) := by
  induction names generalizing locals with
  | nil => exact allPoint_nil
  | cons name rest ih => exact .append (.ite h.single (h.objections _)) (ih _)

/-- A statement in a list of statements. -/
theorem Standing.statement {members : List (String × Json)} (h : root.Leads place (.object members)) {items : List Json}
    (hmember : Json.member members "statements" = some (.array items)) {position : Nat} {s : Statement}
    (hitem : items[position]? = some s.toJson) : Standing root (place.item "statements" position) s.toJson :=
  ⟨place_item_ne_nil _ _ _, h.item (by decide) hmember hitem, s.isPart_toJson⟩

theorem Visible.functionIssues_point {members : List (String × Json)} {items : List Json}
    (h : root.Leads place (.object members)) (hmember : Json.member members "statements" = some (.array items))
    (table : FunctionTable) (position : Nat) (statements : List Statement)
    (hitems : items.drop position = Statement.listToJson statements) :
    AllPoint root (visible.functionIssues dialect place table position statements) := by
  induction statements generalizing table position with
  | nil => exact allPoint_nil
  | cons s rest ih =>
    rw [Statement.listToJson] at hitems
    obtain ⟨hitem, hrest⟩ := getElem?_of_drop hitems
    have hs := Standing.statement h hmember hitem
    cases s with
    | function definition =>
      exact .append (.ite hs.single (hs.objections _)) (ih _ (position + 1) hrest)
    | _ => exact ih table (position + 1) hrest

/-! ### Statements -/

theorem Case.valueIssues_point {part : Json} (h : Standing root place part) (isLast : Bool) (seen : List Word)
    (value : Option Literal) : AllPoint root (Case.valueIssues place isLast seen value) := by
  cases value with
  | none => exact .ite allPoint_nil h.single
  | some l =>
    refine (l.issues_point h).append ?_
    split
    · exact .ite h.single allPoint_nil
    · exact allPoint_nil

mutual
theorem Block.issues_point {place : Place} {b : Block} (h : root.Leads place b.toJson) {visible : Visible} :
    AllPoint root (b.issues dialect visible place) := by
  match b with
  | ⟨_, statements⟩ =>
    rw [Block.issues]
    exact .append (Visible.functionIssues_point h rfl [] 0 statements rfl)
      (Statement.listIssues_point h rfl 0 statements rfl)

theorem Statement.listIssues_point {place : Place} {members : List (String × Json)} {items : List Json}
    (h : root.Leads place (.object members)) (hmember : Json.member members "statements" = some (.array items))
    (position : Nat) (statements : List Statement) (hitems : items.drop position = Statement.listToJson statements)
    {visible : Visible} : AllPoint root (Statement.listIssues dialect visible place position statements) := by
  match statements with
  | [] =>
    rw [Statement.listIssues]
    exact allPoint_nil
  | s :: rest =>
    rw [Statement.listToJson] at hitems
    obtain ⟨hitem, hrest⟩ := getElem?_of_drop hitems
    rw [Statement.listIssues]
    exact .append (Statement.issues_point (Standing.statement h hmember hitem))
      (Statement.listIssues_point h hmember (position + 1) rest hrest)

theorem Statement.initIssues_point {place : Place} {members : List (String × Json)} {items : List Json}
    (h : root.Leads place (.object members)) (hmember : Json.member members "statements" = some (.array items))
    (position : Nat) (statements : List Statement) (hitems : items.drop position = Statement.listToJson statements)
    {visible : Visible} : AllPoint root (Statement.initIssues dialect visible place position statements) := by
  match statements with
  | [] =>
    rw [Statement.initIssues]
    exact allPoint_nil
  | s :: rest =>
    rw [Statement.listToJson] at hitems
    obtain ⟨hitem, hrest⟩ := getElem?_of_drop hitems
    have hs := Standing.statement h hmember hitem
    by_cases hfunction : ∃ f, s = .function f
    · obtain ⟨f, rfl⟩ := hfunction
      rw [Statement.initIssues]
      exact .append hs.single (Statement.initIssues_point h hmember (position + 1) rest hrest)
    · rw [Validation.Walker.initIssues_cons dialect fun f hf => hfunction ⟨f, hf⟩]
      exact .append (Statement.issues_point hs) (Statement.initIssues_point h hmember (position + 1) rest hrest)

theorem Case.listIssues_point {place : Place} {members : List (String × Json)} {items : List Json}
    (h : root.Leads place (.object members)) (hmember : Json.member members "cases" = some (.array items))
    (position : Nat) (seen : List Word) (cases : List Case) (hitems : items.drop position = Statement.casesToJson cases)
    {visible : Visible} : AllPoint root (Case.listIssues dialect visible place position seen cases) := by
  match cases with
  | [] =>
    rw [Case.listIssues]
    exact allPoint_nil
  | ⟨value, body⟩ :: rest =>
    rw [Statement.casesToJson] at hitems
    obtain ⟨hitem, hrest⟩ := getElem?_of_drop hitems
    have hcase := h.item (by decide) hmember hitem
    have hbody : Json.member (Document.optional "value" (value.map Literal.toJson) ++ [("body", body.toJson)]) "body" =
        some body.toJson := by
      cases value <;> rfl
    rw [Case.listIssues]
    refine .append (.append (Case.valueIssues_point ⟨place_item_ne_nil _ _ _, hcase, .inl ⟨_, rfl⟩⟩ _ _ _) ?_)
      (Case.listIssues_point h hmember (position + 1) _ rest hrest)
    exact Block.issues_point (hcase.field (by decide) hbody)

theorem Statement.issues_point {place : Place} {s : Statement} (h : Standing root place s.toJson) {visible : Visible} :
    AllPoint root (s.issues dialect visible place) := by
  match s with
  | .expression e =>
    have he : Standing root (place.field "expression") e.toJson := .expression h.leads (by decide) rfl
    rw [Statement.issues]
    exact .append (Expr.issues_point he) (e.countIssues_point he 0 _)
  | .assignment targets e =>
    have he : Standing root (place.field "value") e.toJson := .expression h.leads (by decide) rfl
    rw [Statement.issues]
    exact .append (.append (Expr.issues_point he) (e.countIssues_point he _ _))
      (Visible.targetIssues_point h.leads rfl [] 0 targets rfl)
  | .declaration names none =>
    rw [Statement.issues.eq_def]
    exact .append allPoint_nil (Visible.declarationIssues_point h.leads rfl 0 names rfl)
  | .declaration names (some e) =>
    have he : Standing root (place.field "value") e.toJson := .expression h.leads (by decide) rfl
    rw [Statement.issues.eq_def]
    exact .append (.append (Expr.issues_point he) (e.countIssues_point he _ _))
      (Visible.declarationIssues_point h.leads rfl 0 names rfl)
  | .conditional condition body =>
    rw [Statement.issues]
    exact .append (Expr.singleIssues_point (Standing.expression h.leads (by decide) rfl) _)
      (Block.issues_point (h.leads.field (by decide) rfl))
  | .switch scrutinee cases =>
    rw [Statement.issues]
    exact .append (Expr.singleIssues_point (Standing.expression h.leads (by decide) rfl) _)
      (Case.listIssues_point h.leads rfl 0 [] cases rfl)
  | .function ⟨name, params, returns, body⟩ =>
    rw [Statement.issues]
    exact .append (Visible.localIssues_point h [] _) (Block.issues_point (h.leads.field (by decide) rfl))
  | .loop ⟨⟨id, front⟩, condition, post, body⟩ =>
    rw [Statement.issues]
    refine .append (.append (.append ?_ ?_) ?_) ?_
    · exact Statement.initIssues_point (h.leads.field (by decide) rfl) rfl 0 front rfl
    · exact Expr.singleIssues_point (Standing.expression h.leads (by decide) rfl) _
    · exact Block.issues_point (h.leads.field (by decide) rfl)
    · exact Block.issues_point (h.leads.field (by decide) rfl)
  | .breakLoop =>
    rw [Statement.issues]
    exact .ite allPoint_nil h.single
  | .continueLoop =>
    rw [Statement.issues]
    exact .ite allPoint_nil h.single
  | .leave =>
    rw [Statement.issues]
    exact .ite allPoint_nil h.single
  | .block body =>
    rw [Statement.issues]
    exact Block.issues_point h.leads
end

namespace Validation

/-- What is found on a document that has the shape of a program are the issues of the program. -/
theorem found_eq_issues {target : Target} {doc : Option Json} {program : Block} {found : List Issue}
    (hread : readProgram doc = .ok program) (hfound : walk target.name doc = .ok (.error found)) :
    found = issues target.dialect program := by
  rw [walk_eq_validate] at hfound
  simp only [validate, hread, bind, Except.bind] at hfound
  split at hfound <;> cases hfound
  rfl

/-- Validation always answers, and its issues point into the program. The walk over a document never breaks
down: its result is that of the check. If the document has the shape of a program, the path of every issue found, cut
at its dots and followed from that program, leads to a node, a case or a name. -/
theorem validation_answers (target : Target) (doc : Option Json) :
    walk target.name doc = .ok (validate target doc) ∧
    ∀ program, readProgram doc = .ok program → ∀ found, walk target.name doc = .ok (.error found) →
      ∀ issue ∈ found, ∃ part, program.toJson.follow (splitDots issue.place.text) = some part ∧ part.IsPart := by
  refine ⟨walk_eq_validate target doc, fun program hread found hfound issue hissue => ?_⟩
  rw [found_eq_issues hread hfound] at hissue
  exact (Block.issues_point (Json.Leads.start program.toJson) issue hissue).follow

/-- An assignment of a variable to another, neither of them declared. -/
theorem validation_answers_sample :
    let program : Block := ⟨[], [.assignment ["x"] (.identifier "y")]⟩
    readProgram (some program.toJson) = .ok program ∧
      walk "evm" (some program.toJson) = .ok (validate .evm (some program.toJson)) ∧
      ∃ part, program.toJson.follow ["statements", "0", "targets", "0"] = some part ∧ part.IsPart := by
  intro program
  have hread : readProgram (some program.toJson) = .ok program := by
    apply readProgram_toJson
    simp [program, Block.WrittenAt, Statement.ListWrittenAt, Statement.WrittenAt, Expr.Written]
  have hwalk := (validation_answers .evm (some program.toJson)).1
  have hfound : walk "evm" (some program.toJson) = .ok (.error (issues Target.evm.dialect program)) := by
    refine hwalk.trans ?_
    unfold validate
    rw [hread]
    rfl
  have hissue : ⟨Place.item (Place.item [] "statements" 0) "targets" 0, .assignedUndeclared "x"⟩ ∈
      issues Target.evm.dialect program := by decide
  exact ⟨hread, hwalk, (validation_answers .evm (some program.toJson)).2 program hread _ hfound _ hissue⟩

end Validation
end BlockIR
