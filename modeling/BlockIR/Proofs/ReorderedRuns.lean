import BlockIR.Proofs.Choosing
import BlockIR.Proofs.Reordered

/-! Reordering the cases of switches does not change what programs do.

Both runs evaluate the same scrutinee, take cases that belong together and begin
the bodies at the same nesting level, whichever values were compared on the way
(`Pairing.reordering_executes`). Nothing else differs, so the runs have the same
report under all options, the limits on steps and on nesting included
(`switch_cases_in_any_order`). -/
namespace BlockIR

/-! ### The cases that are taken -/

namespace Node.Reordered
variable {cases : List (Case × Case)} {cases' : List Case} (hperm : (cases.map Prod.snd).Perm cases')
  (hvalues : ∀ q ∈ cases, q.2.value = q.1.value)
include hperm hvalues

/-- What holds of all values on one side holds of all on the other. -/
theorem forall_values {P : Option Literal → Prop} :
    (∀ c ∈ cases', P c.value) ↔ ∀ c ∈ cases.map Prod.fst, P c.value := by
  simp only [← hperm.mem_iff, List.forall_mem_map]
  exact forall₂_congr fun q hq => by rw [hvalues q hq]

theorem takes_iff (word : Word) {q : Case × Case} (hq : q ∈ cases) :
    Case.Takes word cases' q.2 ↔ Case.Takes word (cases.map Prod.fst) q.1 := by
  have hword : q.2.word? = q.1.word? := congrArg (fun value => value.bind fun l : Literal => l.value.toOption) (hvalues q hq)
  have hothers : (∀ c ∈ cases', c.word? ≠ some word) ↔ ∀ c ∈ cases.map Prod.fst, c.word? ≠ some word :=
    forall_values hperm hvalues (P := fun value => value.bind (fun l => l.value.toOption) ≠ some word)
  have hmem : q.2 ∈ cases' := hperm.mem_iff.mp (List.mem_map_of_mem hq)
  have hmem' : q.1 ∈ cases.map Prod.fst := List.mem_map_of_mem hq
  constructor
  · rintro ⟨-, htakes⟩
    rw [hword, hvalues q hq, hothers] at htakes
    exact ⟨hmem', htakes⟩
  · rintro ⟨-, htakes⟩
    rw [← hword, ← hvalues q hq, ← hothers] at htakes
    exact ⟨hmem, htakes⟩

variable (hrule : Case.Rule (cases.map Prod.fst)) (hrule' : Case.Rule cases')
include hrule hrule'

/-- For every word, cases that belong together are taken on the two sides. -/
theorem taken_rel (word : Word) : Option.Rel (fun c d => (c, d) ∈ cases) (Case.taken? word (cases.map Prod.fst))
    (Case.taken? word cases') := by
  rcases htaken : Case.taken? word (cases.map Prod.fst) with _ | c
  · have hnone : Case.taken? word cases' = none := by
      refine hrule'.taken?_eq_none.mpr fun d hd => ?_
      obtain ⟨q, hq, rfl⟩ := List.mem_map.mp (hperm.mem_iff.mpr hd.mem)
      exact hrule.taken?_eq_none.mp htaken q.1 ((takes_iff hperm hvalues word hq).mp hd)
    rw [hnone]
    exact .none
  · have htakes := hrule.taken?_eq_some.mp htaken
    obtain ⟨q, hq, rfl⟩ := List.mem_map.mp htakes.mem
    rw [hrule'.taken?_eq_some.mpr ((takes_iff hperm hvalues word hq).mpr htakes)]
    exact .some hq

/-- Values are compared on both sides or on neither. -/
theorem compared_eq (c : Config) : c.compared cases' = c.compared (cases.map Prod.fst) := by
  refine if_congr ?_ rfl rfl
  rw [hrule'.head_isSome, hrule.head_isSome, forall_values hperm hvalues (P := fun value => value = none)]

end Node.Reordered

/-! ### The pairing -/

namespace Pairing

/-- A statement that no block stands in, if `break` and `continue` may stand anywhere. -/
theorem Shape.plain {p : Pairing} (hloose : ¬p.strict) (loop : Bool) {s : Statement} (h : s.regions = []) :
    p.Shape loop s s := by
  cases s with
  | expression e => exact .expression e
  | assignment targets e => exact .assignment targets e
  | declaration names value => exact .declaration names value
  | switch scrutinee cases =>
    obtain rfl := List.map_eq_nil_iff.mp h
    exact .switch scrutinee .nil
  | breakLoop => exact .breakLoop fun hstrict => absurd hstrict hloose
  | continueLoop => exact .continueLoop fun hstrict => absurd hstrict hloose
  | leave => exact .leave
  | conditional => cases h
  | function => cases h
  | loop => cases h
  | block => cases h

/-- Runs of a program that was checked for a dialect and of the program with the cases of its switches in
another order. -/
def reordering (dialect : Dialect) (K : BlockId → BlockId → Prop) : Pairing where
  machine m n := n = m
  level i j := j = i
  word _ := True
  blockId := K
  block _ b b' := (∃ frames : Frames, Site.Sound dialect ⟨frames, .block b⟩) ∧ Node.Reordered K (.block b) (.block b')
  statement _ s s' := (∃ frames : Frames, Site.Sound dialect ⟨frames, .statement s⟩) ∧
    Node.Reordered K (.statement s) (.statement s')
  strict := False

variable {dialect : Dialect} {K : BlockId → BlockId → Prop} {loop : Bool} {b b' : Block} {s s' : Statement}
  {ctx : Context}

theorem reordering_keeps (hK : OneToOne K) (options : Options) :
    (reordering dialect K).Keeps (Run.context options) where
  signal h := by rw [h]
  setSignal signal h := by rw [h]; rfl
  count := by
    rintro _ n rfl
    rw [countStep_apply]
    split
    · exact ⟨.error _, rfl, rfl⟩
    · exact ⟨.ok trivial, rfl, rfl⟩
  builtin hfind call _ := by
    rintro _ n rfl
    exact ⟨.refl fun _ _ => ⟨rfl, trivial⟩, rfl,
      (Target.evaluate_tame options.target hfind options.setting call).signal n⟩
  log h := by rw [h]; rfl
  deepen h := by
    cases h
    exact ⟨rfl, rfl⟩
  zero := trivial
  literal _ := trivial
  oneToOne := hK

/-- Statements of a block belong together as the block does with the reordered one. -/
theorem reordering_statements (h : (reordering dialect K).block loop b b') :
    List.Forall₂ ((reordering dialect K).statement loop) b.statements b'.statements := by
  obtain ⟨⟨frames, hsound⟩, hsame⟩ := h
  refine hsame.forall₂_statements fun s hs t hst => ⟨?_, hst⟩
  obtain ⟨before, hsite⟩ := Statement.mem_sites (fun before => .block b before :: frames) [] hs
  exact ⟨_, (Site.sound_iff.mp hsound).2 _ hsite⟩

theorem reordering_functions (h : (reordering dialect K).block loop b b') :
    List.Forall₂ (reordering dialect K).Functions b.functions b'.functions := by
  refine Statement.functions_forall₂ (fun f t hft => ?_) (fun s g hsg => ?_) (reordering_statements h)
  · obtain ⟨⟨frames, hsound⟩, hsame⟩ := hft
    have hbody := (Site.sound_iff.mp hsound).2 _ (List.mem_singleton_self _)
    cases hsame with
    | plain hplain => cases hplain
    | @function _ g hname hparams hreturns hsame =>
      exact ⟨g, rfl, hname, hparams, hreturns, ⟨_, hbody⟩, hsame⟩
  · cases hsg.2 with
    | plain hplain => cases hplain
    | @function f => exact ⟨f, rfl⟩

theorem reordering_blocks (hK : OneToOne K) (options : Options) :
    (reordering dialect K).KeepsBlocks (Run.context options) where
  toKeeps := reordering_keeps hK options
  entered h := h.2.related_ids
  declared h _ := parts_declareFunctions (reordering_functions h)
  sequence h hruns := (reordering_keeps hK options).statements hruns (reordering_statements h)
  empty h := by
    rw [Bool.eq_iff_iff, List.isEmpty_iff_length_eq_zero, List.isEmpty_iff_length_eq_zero,
      (reordering_statements h).length_eq]

theorem Related.compared {c d : Config} (h : (reordering dialect K).Related c d) (cases : List Case) :
    (reordering dialect K).Related (c.compared cases) (d.compared cases) := by
  unfold Config.compared
  split
  · have hbase : d.activation.base = c.activation.base := h.activation.base
    refine ⟨h.machine, h.scopes, h.activation.scope, h.activation.bindings, h.activation.words, hbase, ?_⟩
    exact congrArg (· + 1) hbase
  · exact h

/-- A switch and the reordered one come to the same. -/
theorem reordering_switch {depth : Nat}
    (hruns : (reordering dialect K).Runs (ctx.perform depth) (ctx.perform depth)) {frames : Frames} {scrutinee : Expr}
    {cases : List (Case × Case)} {cases' : List Case}
    (hsound : Site.Sound dialect ⟨frames, .statement (.switch scrutinee (cases.map Prod.fst))⟩)
    (hperm : (cases.map Prod.snd).Perm cases') (hlast : ∀ c ∈ cases'.dropLast, c.value ≠ none)
    (hvalues : ∀ q ∈ cases, q.2.value = q.1.value)
    (hbodies : ∀ q ∈ cases, Node.Reordered K (.block q.1.body) (.block q.2.body)) :
    (reordering dialect K).Parts (reordering dialect K).Idle ((reordering dialect K).Settled loop) Free
      ((ctx.perform depth).statement (.switch scrutinee (cases.map Prod.fst)))
      ((ctx.perform depth).statement (.switch scrutinee cases')) := by
  obtain ⟨⟨-, hrule⟩, hparts⟩ := Site.sound_iff.mp hsound
  have hrule' : Case.Rule cases' := hrule.perm (Node.Reordered.perm_values hperm hvalues) hlast
  intro c d hcd hidle
  have hscrutinee := hruns.evaluate scrutinee c d hcd hidle
  have hrelated := hscrutinee.related
  have hresults := hscrutinee.results
  rcases hleft : (ctx.perform depth).evaluate scrutinee c with ⟨result, c'⟩
  rcases hright : (ctx.perform depth).evaluate scrutinee d with ⟨result', d'⟩
  rw [hleft, hright] at hrelated hresults
  cases hresults with
  | error stop =>
    rw [Context.statement_switch, Context.statement_switch, Effect.bind_of_error hleft, Effect.bind_of_error hright]
    exact .error stop hrelated
  | @ok word word' hword =>
    have hsame : word' = word := hword.1
    rw [hsame] at hright
    rw [Context.statement_of_scrutinee hrule (fun _ => rfl) hleft,
      Context.statement_of_scrutinee hrule' (fun _ => rfl) hright,
      Node.Reordered.compared_eq hperm hvalues hrule hrule']
    have htaken := Node.Reordered.taken_rel hperm hvalues hrule hrule' word
    generalize Case.taken? word (cases.map Prod.fst) = chosen at htaken
    generalize Case.taken? word cases' = chosen' at htaken
    cases htaken with
    | none => exact .ok (hrelated.compared _) trivial False.elim
    | @some x y hxy =>
      have hbody : (reordering dialect K).block loop x.body y.body :=
        ⟨⟨frames, hparts _ (.tail _ (List.mem_map.mpr ⟨x, List.mem_map_of_mem hxy, rfl⟩))⟩, hbodies _ hxy⟩
      exact hruns.run (.block hbody) _ _ (hrelated.compared _) False.elim

theorem reordering_executes (keeps : (reordering dialect K).Keeps ctx) {depth : Nat}
    (hruns : (reordering dialect K).Runs (ctx.perform depth) (ctx.perform depth)) :
    (reordering dialect K).Executes (ctx.perform depth) (ctx.perform depth) := by
  rintro loop s s' ⟨⟨frames, hsound⟩, hsame⟩
  have hparts := (Site.sound_iff.mp hsound).2
  cases hsame with
  | switch scrutinee cases hperm hlast hvalues hbodies =>
    exact reordering_switch hruns hsound hperm hlast hvalues hbodies
  | plain hplain => exact keeps.statement hruns (Shape.plain id loop hplain)
  | conditional condition hbody =>
    exact keeps.statement hruns (.conditional condition ⟨⟨frames, hparts _ (.tail _ (.head _))⟩, hbody⟩)
  | function => exact keeps.statement hruns (.function _ _)
  | @loop l m hcondition hinit hbody hpost =>
    have hround := hparts _ (List.mem_append_right _ (.tail _ (.head _)))
    have hend := hparts _ (List.mem_append_right _ (.tail _ (.tail _ (.head _))))
    refine keeps.statement hruns (.loop hinit.related_ids ?_ ⟨hcondition, ⟨⟨_, hround⟩, hbody⟩, ⟨_, hend⟩, hpost⟩)
    refine hinit.forall₂_statements fun s hs t hst => ⟨?_, hst⟩
    obtain ⟨before, hsite⟩ := Statement.mem_sites (fun before => .loop before :: frames) [] hs
    exact ⟨_, hparts _ (List.mem_append_left _ hsite)⟩
  | inner hblock => exact keeps.statement hruns (.block ⟨⟨frames, hparts _ (.head _)⟩, hblock⟩)

end Pairing

/-! ### Whole runs -/

/-- The run of a program and that of the reordered one come to the same, with the same machine. -/
theorem Run.outermost_reordered {dialect : Dialect} {K : BlockId → BlockId → Prop} (hK : OneToOne K)
    {program program' : Block} (hscoped : program.WellScoped dialect)
    (hsame : Node.Reordered K (.block program) (.block program')) (options : Options) (depth : Nat) :
    let run (b : Block) := Run.outermost (Run.context options) b ((Run.context options).perform depth) {}
    (run program').1 = (run program).1 ∧ (run program').2.machine = (run program).2.machine := by
  have keeps : (Pairing.reordering dialect K).KeepsBlocks (Run.context options) := Pairing.reordering_blocks hK options
  have hruns := keeps.perform (fun _ => Pairing.reordering_executes keeps.toKeeps) depth
  have hblocks : (Pairing.reordering dialect K).block false program program' := ⟨⟨[], hscoped⟩, hsame⟩
  have houtcome := keeps.outermost hruns hblocks {} {} (Pairing.related_start rfl rfl) False.elim
  refine ⟨?_, houtcome.related.machine⟩
  have hresults := houtcome.results
  generalize (Run.outermost _ program _ _).1 = result at hresults
  generalize (Run.outermost _ program' _ _).1 = result' at hresults
  cases hresults with
  | error stop => rfl
  | ok htable => exact congrArg _ htable.1

/-- A program that was validated and one with the cases of its switches in another order, a default last: the other
one is valid too, and under whatever options the two give the same report, or none for the same reason. Wherever
the program executes a switch, it runs the body of the case whose value is the word of the scrutinee, or else of the
default, once and without the body of any other case. -/
theorem switch_cases_in_any_order {target : Target} {doc doc' : Option Json} {program program' : Block}
    (hvalid : Validation.validate target doc = .ok program) (hread' : Validation.readProgram doc' = .ok program')
    (hreordered : Node.Reordered (fun _ _ => True) (.block program) (.block program')) :
    Validation.validate target doc' = .ok program' ∧
      (∀ (opts : Option Json) (depth : Nat), interpret depth program' opts = interpret depth program opts) ∧
      ∀ (opts : Option Json) (options : Options), Options.resolve opts = .ok options →
        ∀ (depth left : Nat) (scrutinee : Expr) (cases : List Case) (c : Config),
          Moment (Run.context options) (Run.outermost (Run.context options) program) depth (left + 1)
            (.statement (.switch scrutinee cases)) c → (Run.context options).Chooses left scrutinee cases c := by
  obtain ⟨hread, hissues⟩ := validate_eq_ok_iff.mp hvalid
  have hscoped := (issues_eq_nil_iff_wellScoped _ _).mp hissues
  refine ⟨?_, fun opts depth => ?_, fun opts options hoptions depth left scrutinee cases c hmoment => ?_⟩
  · exact validate_eq_ok_iff.mpr ⟨hread', (issues_eq_nil_iff_wellScoped _ _).mpr (hreordered.wellScoped hscoped)⟩
  · obtain ⟨K, hK, hsame⟩ := hreordered.numbered.exists_oneToOne (readProgram_written hread) (readProgram_written hread')
    rcases hoptions : Options.resolve opts with error | options
    · unfold interpret Run.withOptions
      rw [hoptions]
    · rw [Run.interpret_eq hoptions, Run.interpret_eq hoptions]
      obtain ⟨hresult, hmachine⟩ := Run.outermost_reordered hK hscoped hsame options depth
      exact Run.guarded_congr hresult hmachine options
  · have hjob : (Run.job target program options False).Valid := Run.job_valid hvalid nofun
    exact (Run.outermost_begins hjob).chooses hjob hscoped hmoment

/-! ### A sample -/

namespace Sample

/-- A case of a switch that is the first statement of a program. -/
def arm (position : Nat) (value : Option Literal) : Case :=
  ⟨value, ⟨((Place.item [] "statements" 0).item "cases" position).field "body",
    value.toList.map fun l => .declaration ["x"] (some (.literal l))⟩⟩

/-- The cases of two values, and a default. -/
def arms (first second : String) : List Case :=
  [arm 0 (some ⟨.number, first⟩), arm 1 (some ⟨.number, second⟩), arm 2 none]

/-- A program that switches on two. -/
def picking (first second : String) : Block := ⟨[], [.switch (.literal ⟨.number, "2"⟩) (arms first second)]⟩

theorem picking_valid : Validation.validate .evm (some (picking "1" "0x02").toJson) = .ok (picking "1" "0x02") := by
  have hread : Validation.readProgram (some (picking "1" "0x02").toJson) = .ok (picking "1" "0x02") := by
    with_unfolding_all rfl
  exact validate_eq_ok_iff.mpr ⟨hread, rfl⟩

theorem arm_reordered (position position' : Nat) (value : Option Literal) :
    Node.Reordered (fun _ _ => True) (.block (arm position value).body) (.block (arm position' value).body) := by
  refine .block ((arm position value).body.statements.map fun s => (s, s)) trivial ?_ ?_
    (List.forall_mem_map.mpr fun s hs => .plain ?_)
  · cases value <;> rfl
  · cases value <;> rfl
  · obtain ⟨l, -, rfl⟩ := List.mem_map.mp hs
    rfl

theorem picking_reordered (first second : String) :
    Node.Reordered (fun _ _ => True) (.block (picking first second)) (.block (picking second first)) := by
  refine .block [(.switch (.literal ⟨.number, "2"⟩) (arms first second),
    .switch (.literal ⟨.number, "2"⟩) (arms second first))] trivial rfl rfl (List.forall_mem_singleton.mpr ?_)
  refine .switch _ [(arm 0 (some ⟨.number, first⟩), arm 1 (some ⟨.number, first⟩)),
    (arm 1 (some ⟨.number, second⟩), arm 0 (some ⟨.number, second⟩)), (arm 2 none, arm 2 none)] (.swap ..) ?_ ?_ ?_
  · exact List.forall_mem_cons.mpr ⟨nofun, List.forall_mem_singleton.mpr nofun⟩
  · exact List.forall_mem_cons.mpr ⟨rfl, List.forall_mem_cons.mpr ⟨rfl, List.forall_mem_singleton.mpr rfl⟩⟩
  · refine List.forall_mem_cons.mpr ⟨arm_reordered .., List.forall_mem_cons.mpr ⟨arm_reordered .., ?_⟩⟩
    exact List.forall_mem_singleton.mpr (arm_reordered ..)

/-- Counted as the first step, the switch is executed. -/
theorem picking_moment (first second : String) (depth : Nat) : ∃ c, Moment (Run.context options)
    (Run.outermost (Run.context options) (picking first second)) depth depth
      (.statement (.switch (.literal ⟨.number, "2"⟩) (arms first second))) c := by
  have hasks {d : Config} : Asks
      (fun runner => (Run.context options).sequence runner (picking first second).statements)
      ((Run.context options).perform depth) d (.statement (.switch (.literal ⟨.number, "2"⟩) (arms first second)))
      (d.recount (d.machine.steps + 1)) :=
    (asksAll_const _).then (count_unlimited rfl d) (asks_task _ _ _).bind.bind
  exact ⟨_, .first ((asksAll_const _).then rfl (Asks.ensuring ((asksAll_const _).then rfl hasks.bind)))⟩

end Sample

/-- On two, the case of `0x02` is taken wherever it stands. -/
theorem switch_cases_in_any_order_sample :
    Validation.validate .evm (some (Sample.picking "0x02" "1").toJson) = .ok (Sample.picking "0x02" "1") ∧
      (∀ depth, interpret depth (Sample.picking "0x02" "1") none = interpret depth (Sample.picking "1" "0x02") none) ∧
      ∃ c d, (Run.context Sample.options).perform 3
          (.statement (.switch (.literal ⟨.number, "2"⟩) (Sample.arms "1" "0x02"))) c =
        (Run.context Sample.options).perform 2 (.block (Sample.arm 1 (some ⟨.number, "0x02"⟩)).body) d := by
  have hread : Validation.readProgram (some (Sample.picking "0x02" "1").toJson) = .ok (Sample.picking "0x02" "1") := by
    with_unfolding_all rfl
  obtain ⟨hvalid, hruns, hchooses⟩ :=
    switch_cases_in_any_order Sample.picking_valid hread (Sample.picking_reordered "1" "0x02")
  obtain ⟨c, hmoment⟩ := Sample.picking_moment "1" "0x02" 3
  have hscrutinee : ((Run.context Sample.options).perform 2).evaluate (.literal ⟨.number, "2"⟩) c = (.ok 2, _) :=
    Context.evaluate_literal rfl rfl
  have htakes : Case.Takes 2 (Sample.arms "1" "0x02") (Sample.arm 1 (some ⟨.number, "0x02"⟩)) :=
    ⟨.tail _ (.head _), .inl rfl⟩
  have hchosen := (hchooses none _ Sample.options_resolved 3 2 _ _ c hmoment).taken 2 _ _ hscrutinee htakes
  exact ⟨hvalid, hruns none, c, _, hchosen⟩

end BlockIR
