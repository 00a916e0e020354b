import BlockIR.Proofs.Report
import BlockIR.Proofs.Soundness

/-! What blocks and loops leave alone.

However a block or a loop ends, the variables of its activation are those that
were bound before it, and only those that it has an assignment to may have
another value. The options need not select the dialect of the check: a run that
fails for that reason keeps to its frames as well. -/
namespace BlockIR

/-- From `c` to `d` the same names stay bound, and those that are no targets keep their values. -/
structure Config.Frames (targets : List String) (c d : Config) : Prop where
  bound : ∀ name, name ∈ d.activation.bindings ↔ name ∈ c.activation.bindings
  kept : ∀ name, name ∉ targets → d.activation.bindings[name]? = c.activation.bindings[name]?

theorem Config.Follows.frames {program : Block} {targets : List String} {c d : Config}
    (h : c.Follows program targets d) (hstill : c.Still d) : Config.Frames targets c d where
  bound name := ⟨hstill name, h.bound name⟩
  kept name hname := by
    by_cases hbound : name ∈ c.activation.bindings
    · exact h.kept name hbound hname
    · have hnew : name ∉ d.activation.bindings := fun hd => hbound (hstill name hd)
      rw [Std.ExtTreeMap.getElem?_eq_none hbound, Std.ExtTreeMap.getElem?_eq_none hnew]

/-- A task with a scope of its own keeps to its frame. -/
theorem Task.Meets.frames {job : Job} {visible : Visible} {t : Task} {x : Exec (List Word)} {c : Config}
    (h : t.Meets job visible x c) (hclosed : t.Closed) : Config.Frames t.targets c (x c).2 :=
  h.goes.1.frames (h.closed hclosed)

theorem Statement.mem_listNames {statements : List Statement} {name : String} :
    name ∈ statements.flatMap Statement.names ↔
      ∃ names value, .declaration names value ∈ statements ∧ name ∈ names := by
  rw [List.mem_flatMap]
  constructor
  · rintro ⟨s, hs, hname⟩
    cases s with
    | declaration names value => exact ⟨names, value, hs, hname⟩
    | _ => cases hname
  · rintro ⟨names, value, hs, hname⟩
    exact ⟨.declaration names value, hs, hname⟩

theorem Run.finished_of_guarded {α : Type} {options : Options} {x : Exec α} {report : Report α} {value : α}
    (h : guarded options x = .ok report) (hending : report.ending = .finished value) :
    (x {}).1 = .ok value := by
  obtain ⟨d, hd, -⟩ := guarded_eq_finished h hending
  rw [hd]

/-- In every run of a program without issues, each block and each loop keeps the variables that are
bound around it, and the values of all but those it assigns to. At the end of a run that is finished,
the variables are those that the program's own statements declare. -/
theorem blocks_keep_frames {target : Target} {doc opts : Option Json} {program : Block} {options : Options}
    (hvalid : Validation.validate target doc = .ok program)
    (hoptions : Options.resolve opts = .ok options) (depth : Nat) :
    (∀ left t c, Moment (Run.context options) (Run.outermost (Run.context options) program) depth left t c →
      t.Closed → Config.Frames t.targets c ((Run.context options).perform left t c).2) ∧
    Config.Frames program.targets {} (Run.program (Run.context options) depth program {}).2 ∧
    ∀ report table, interpret depth program opts = .ok report → report.ending = .finished table →
      ∀ name, name ∈ table ↔
        ∃ names value, .declaration names value ∈ program.statements ∧ name ∈ names := by
  have hjob : (Run.job target program options False).Valid := Run.job_valid hvalid False.elim
  have hbegins := Run.outermost_begins hjob
  have hends := Run.outermost_ends hjob fun _ _ _ _ => perform_does hjob depth
  refine ⟨fun left t c hmoment hclosed => ?_, hends.1.frames hends.2.1,
    fun report table hreport hending name => ?_⟩
  · obtain ⟨chain, visible, hready⟩ := hmoment.ready hjob hbegins
    exact (perform_meets hjob left hready).frames hclosed
  · rw [Run.interpret_eq hoptions] at hreport
    rw [← Statement.mem_listNames]
    exact Run.outermost_names hjob (Run.finished_of_guarded hreport hending) name

theorem blocks_keep_frames_sample :
    let ctx := Run.context Sample.options
    ∃ c, Moment ctx (Run.outermost ctx Sample.program) 20 20 (.statement (.loop Sample.loop)) c ∧
      Config.Frames ["i"] c (ctx.perform 20 (.statement (.loop Sample.loop)) c).2 := by
  intro ctx
  let opened : Config := (Exec.enterScope Sample.program.id {}).2
  let declared : Config := (Exec.declareFunctions Sample.program.functions opened).2
  let begun : Config := (Exec.onMachine (countStep ctx.setting) declared).2
  have henter : Exec.enterScope Sample.program.id {} = (.ok (), opened) := rfl
  have hdeclare : Exec.declareFunctions Sample.program.functions opened = (.ok (), declared) := rfl
  have hcount : Exec.onMachine (countStep ctx.setting) declared = (.ok (), begun) := rfl
  have hmoment : Moment ctx (Run.outermost ctx Sample.program) 20 20 (.statement (.loop Sample.loop)) begun := by
    refine .first ((asksAll_const _).then henter (Asks.ensuring ?_))
    refine (asksAll_const _).then hdeclare (Asks.bind ?_)
    exact (asksAll_const _).then hcount (asks_task _ _ _).bind.bind
  have hframes := (blocks_keep_frames Sample.program_valid Sample.options_resolved 20).1
  exact ⟨begun, hmoment, hframes 20 _ begun hmoment trivial⟩

end BlockIR
