import BlockIR.Proofs.Execution
import BlockIR.Proofs.Size
import Mathlib.Data.List.Pairwise

/-! Which case a switch takes.

A switch evaluates the values of its cases in turn until one is the word of the
scrutinee, and takes a case without a value as soon as it comes to one. The rule
of cases says that the values are words, that these are different, and that only
the last case may be without one. So the case that is taken is known without the
order of the cases (`Case.Rule.taken?_eq_some`).

Evaluating a value changes nothing but the nesting level, and it does not reach
the limit: the scrutinee was evaluated from the same level and went as deep. The
next statement begins from there again, so nothing is left of the values that
were passed over (`Context.select_eq`). -/
namespace BlockIR

/-! ### The case of a word -/

namespace Case

/-- The first of some cases that has the word, or no value. -/
def taken? (word : Word) (cases : List Case) : Option Case :=
  cases.find? fun c => c.value = none ∨ c.word? = some word

/-- The case of a word: one that has the word, or the default if none has. -/
structure Takes (word : Word) (cases : List Case) (c : Case) : Prop where
  mem : c ∈ cases
  word : c.word? = some word ∨ c.value = none ∧ ∀ d ∈ cases, d.word? ≠ some word

variable {word : Word} {cases : List Case} {c d : Case}

theorem word?_of_default (h : c.value = none) : c.word? = none := by
  unfold word?
  rw [h]
  rfl

theorem word?_of_value {l : Literal} (h : c.value = some l) (hvalue : l.value = .ok word) : c.word? = some word := by
  unfold word?
  rw [h, Option.bind_some, hvalue]
  rfl

namespace Rule
variable (h : Case.Rule cases)
include h

/-- No two cases have the same word. -/
theorem eq_of_word (hc : c ∈ cases) (hd : d ∈ cases) (hword : c.word? = some word) (hword' : d.word? = some word) :
    c = d := by
  by_contra hne
  have hpairs := List.pairwise_filterMap.mp h.distinct
  have hsymm : Std.Symm fun a b : Case => ∀ v, a.word? = some v → ∀ w, b.word? = some w → v ≠ w :=
    ⟨fun a b hab v hv w hw => (hab w hw v hv).symm⟩
  exact hpairs.forall hc hd hne word hword word hword' rfl

/-- The default is the last case. -/
theorem getLast?_of_default (hc : c ∈ cases) (hdefault : c.value = none) : cases.getLast? = some c := by
  have hne : cases ≠ [] := List.ne_nil_of_mem hc
  rw [← List.dropLast_append_getLast hne, List.mem_append, List.mem_singleton] at hc
  rcases hc with hc | rfl
  · exact absurd hdefault (h.last c hc)
  · exact List.getLast?_eq_some_getLast hne

/-- At most one case is taken for a word. -/
theorem takes_unique (hc : Takes word cases c) (hd : Takes word cases d) : c = d := by
  rcases hc.word with hword | ⟨hdefault, hnone⟩ <;> rcases hd.word with hword' | ⟨hdefault', hnone'⟩
  · exact h.eq_of_word hc.mem hd.mem hword hword'
  · exact absurd hword (hnone' c hc.mem)
  · exact absurd hword' (hnone d hd.mem)
  · have hlast := h.getLast?_of_default hc.mem hdefault
    exact Option.some.inj (hlast.symm.trans (h.getLast?_of_default hd.mem hdefault'))

theorem takes_of_taken? (htaken : taken? word cases = some c) : Takes word cases c := by
  obtain ⟨hfits, before, after, hsplit, hbefore⟩ := List.find?_eq_some_iff_append.mp htaken
  refine ⟨List.mem_of_find?_eq_some htaken, (of_decide_eq_true hfits).elim (fun hdefault => .inr ⟨hdefault, ?_⟩) .inl⟩
  -- A default is last, so all other cases were looked at before.
  have hafter : after = [] := by
    apply Classical.byContradiction
    intro hne
    refine h.last c ?_ hdefault
    rw [hsplit, List.dropLast_append_cons, List.dropLast_cons_of_ne_nil hne]
    exact List.mem_append_right _ (List.mem_cons_self ..)
  intro d hd hword
  rw [hsplit, hafter, List.mem_append, List.mem_singleton] at hd
  rcases hd with hd | rfl
  · have hpassed := hbefore d hd
    simp [hword] at hpassed
  · rw [word?_of_default hdefault] at hword
    cases hword

/-- The order of the cases does not matter. -/
theorem taken?_eq_some : taken? word cases = some c ↔ Takes word cases c := by
  refine ⟨h.takes_of_taken?, fun hc => ?_⟩
  have hfits : c.value = none ∨ c.word? = some word := hc.word.elim .inr fun hdefault => .inl hdefault.1
  have hsome : (taken? word cases).isSome = true := List.find?_isSome.mpr ⟨c, hc.mem, decide_eq_true hfits⟩
  obtain ⟨d, hd⟩ := Option.isSome_iff_exists.mp hsome
  rw [hd, h.takes_unique (h.takes_of_taken? hd) hc]

theorem taken?_eq_none : taken? word cases = none ↔ ∀ c, ¬Takes word cases c := by
  rw [Option.eq_none_iff_forall_ne_some]
  exact forall_congr' fun c => not_congr h.taken?_eq_some

end Rule
end Case

/-! ### Evaluating the values of cases -/

/-- The configuration after a value was evaluated; without cases, or with the default alone, none is. -/
def Config.compared (cases : List Case) (c : Config) : Config :=
  if (cases.head?.bind Case.value).isSome then c.atLevel (c.activation.base + 1) else c

/-- Where the default is last, values are compared if there are any. -/
theorem Case.Rule.head_isSome {cases : List Case} (h : Case.Rule cases) :
    (cases.head?.bind Case.value).isSome = true ↔ ¬∀ c ∈ cases, c.value = none := by
  cases cases with
  | nil => simp
  | cons first rest =>
    rw [List.head?_cons, Option.bind_some, Option.isSome_iff_ne_none, List.forall_mem_cons, not_and]
    constructor
    · exact fun hvalue hnone => absurd hnone hvalue
    · intro hvalues hnone
      have hrest : rest = [] := by
        apply Classical.byContradiction
        intro hne
        refine h.last first ?_ hnone
        rw [List.dropLast_cons_of_ne_nil hne]
        exact List.mem_cons_self ..
      refine hvalues hnone ?_
      rw [hrest]
      exact List.forall_mem_nil _

namespace Context
variable {ctx : Context} {depth : Nat} {c d : Config} {word : Word}

/-- Whatever is evaluated goes a level deeper. -/
theorem room_of_ok {e : Expr} {values : List Word}
    (h : ctx.perform depth (.expression e) c = (.ok values, d)) :
    (∃ less, depth = less + 1) ∧ ctx.tooDeep (c.activation.level + 1) = false := by
  cases depth with
  | zero => cases h
  | succ less =>
    refine ⟨⟨less, rfl⟩, ?_⟩
    cases e with
    | literal l =>
      obtain ⟨_, _, hdeepen, -⟩ := Effect.bind_eq_ok h
      exact (Exec.deepen_eq_ok hdeepen).1
    | identifier name =>
      obtain ⟨_, _, hvalue, hrest⟩ := Effect.bind_eq_ok h
      obtain ⟨_, _, hdeepen, -⟩ := Effect.bind_eq_ok hrest
      rw [Exec.valueOf_apply] at hvalue
      rw [(Prod.mk.inj hvalue).2]
      exact (Exec.deepen_eq_ok hdeepen).1
    | call name args =>
      obtain ⟨_, _, hdeepen, -⟩ := Effect.bind_eq_ok h
      exact (Exec.deepen_eq_ok hdeepen).1

/-- Where an expression was evaluated, there is room for a literal. -/
theorem evaluate_room {e : Expr} (h : (ctx.perform depth).evaluate e c = (.ok word, d)) :
    d.activation.base = c.activation.base ∧ (∃ less, depth = less + 1) ∧
      ctx.tooDeep (c.activation.base + 1) = false := by
  have hall : ctx.perform depth (.expression e) (c.atLevel c.activation.base) = (.ok [word], d) :=
    Exec.single_eq_ok h
  exact ⟨(ctx.perform_deepens depth e _ _ _ hall).2, room_of_ok hall⟩

theorem evaluate_literal {l : Literal} (hroom : ctx.tooDeep (c.activation.base + 1) = false)
    (hvalue : l.value = .ok word) :
    (ctx.perform (depth + 1)).evaluate (.literal l) c = (.ok word, c.atLevel (c.activation.base + 1)) := by
  have hall : (ctx.perform (depth + 1)).evaluateAll (.literal l) c = (.ok [word], c.atLevel (c.activation.base + 1)) :=
    ctx.perform_literal depth (c := c.atLevel c.activation.base) hroom hvalue
  unfold Runner.evaluate Exec.single
  rw [Effect.bind_of_ok hall]
  rfl

/-- The case of the word is found, and nothing is left of the values before it. -/
theorem select_eq {cases : List Case} (hroom : ctx.tooDeep (c.activation.base + 1) = false)
    (hliterals : ∀ c ∈ cases, ∀ l, c.value = some l → ∃ value, l.value = .ok value) (word : Word) :
    (ctx.perform (depth + 1)).select word cases c =
      (.ok ((Case.taken? word cases).map Case.body), c.compared cases) := by
  induction cases generalizing c with
  | nil => rfl
  | cons first rest ih =>
    obtain ⟨_ | l, body⟩ := first
    · rfl
    · obtain ⟨hfirst, hrest⟩ := List.forall_mem_cons.mp hliterals
      obtain ⟨value, hvalue⟩ := hfirst l rfl
      have hcompared : c.compared (⟨some l, body⟩ :: rest) = c.atLevel (c.activation.base + 1) := rfl
      have hagain : (c.atLevel (c.activation.base + 1)).compared rest = c.atLevel (c.activation.base + 1) := by
        unfold Config.compared
        split <;> rfl
      have htaken : Case.taken? word (⟨some l, body⟩ :: rest) =
          if value = word then some ⟨some l, body⟩ else Case.taken? word rest := by
        unfold Case.taken?
        rw [List.find?_cons, Case.word?_of_value rfl hvalue]
        by_cases hword : value = word <;> simp [hword]
      rw [hcompared, htaken]
      refine (Effect.bind_of_ok (evaluate_literal hroom hvalue)).trans ?_
      split
      · rfl
      · have hothers := ih (c := c.atLevel (c.activation.base + 1)) hroom hrest
        rw [hagain] at hothers
        exact hothers

/-! ### Executing a switch -/

variable {scrutinee : Expr} {cases : List Case}

theorem statement_switch (runner : Runner) (scrutinee : Expr) (cases : List Case) :
    runner.statement (.switch scrutinee cases) = (do
      let word ← runner.evaluate scrutinee
      let chosen ← runner.select word cases
      chosen.elim (pure ()) fun body => runner.run (.block body)) := by
  refine congrArg (runner.evaluate scrutinee >>= ·) (funext fun word => ?_)
  refine congrArg (runner.select word cases >>= ·) (funext fun chosen => ?_)
  cases chosen <;> rfl

/-- Once the scrutinee is evaluated, the body of the case of its word is run and nothing else, also by another runner
that evaluates alike. -/
theorem statement_of_scrutinee (hrule : Case.Rule cases) {runner : Runner}
    (hrunner : ∀ x, runner.evaluate x = (ctx.perform depth).evaluate x)
    (h : (ctx.perform depth).evaluate scrutinee c = (.ok word, d)) :
    runner.statement (.switch scrutinee cases) c =
      ((Case.taken? word cases).map Case.body).elim (pure ()) (fun body => runner.run (.block body))
        (d.compared cases) := by
  have hselect (cs : List Case) : runner.select word cs = (ctx.perform depth).select word cs := by
    induction cs with
    | nil => rfl
    | cons first rest ih =>
      obtain ⟨_ | l, body⟩ := first
      · rfl
      · unfold Runner.select
        rw [hrunner, ih]
  obtain ⟨hbase, ⟨less, rfl⟩, hroom⟩ := evaluate_room h
  rw [statement_switch, hrunner, Effect.bind_of_ok h, hselect,
    Effect.bind_of_ok (select_eq (hbase ▸ hroom) hrule.literals word)]

/-- The only block that a switch asks for is the body of the case of the word. -/
theorem asks_switch (hrule : Case.Rule cases) {b : Block} {e : Config}
    (h : Asks (fun runner => ctx.advance runner (.statement (.switch scrutinee cases))) (ctx.perform depth) c
      (.block b) e) :
    ∃ word d chosen, (ctx.perform depth).evaluate scrutinee c = (.ok word, d) ∧ Case.Takes word cases chosen ∧
      b = chosen.body ∧ e = d.compared cases := by
  -- The other tasks that a switch asks for are expressions.
  suffices hplaces : (∃ x, Task.block b = .expression x) ∨ ∃ word d chosen,
      (ctx.perform depth).evaluate scrutinee c = (.ok word, d) ∧ Case.Takes word cases chosen ∧
        Task.block b = .block chosen.body ∧ e = d.compared cases by
    rcases hplaces with ⟨x, hx⟩ | ⟨word, d, chosen, hscrutinee, htakes, hbody, he⟩
    · cases hx
    · exact ⟨word, d, chosen, hscrutinee, htakes, Task.block.inj hbody, he⟩
  refine h.only (P := fun u e => (∃ x, u = .expression x) ∨ ∃ word d chosen,
    (ctx.perform depth).evaluate scrutinee c = (.ok word, d) ∧ Case.Takes word cases chosen ∧
      u = .block chosen.body ∧ e = d.compared cases) fun other hsame => ?_
  have hother (x : Expr) : other.evaluate x = (ctx.perform depth).evaluate x := by
    have hexpression : other (.expression x) = ctx.perform depth (.expression x) :=
      funext fun e => hsame _ e (.inl ⟨x, rfl⟩)
    unfold Runner.evaluate Runner.evaluateAll
    rw [hexpression]
  show yielding (other.statement _) c = yielding ((ctx.perform depth).statement _) c
  rw [yielding_apply, yielding_apply]
  rcases hscrutinee : (ctx.perform depth).evaluate scrutinee c with ⟨stop | word, d⟩
  · rw [statement_switch, statement_switch, hother, Effect.bind_of_error hscrutinee, Effect.bind_of_error hscrutinee]
  · rw [statement_of_scrutinee hrule hother hscrutinee, statement_of_scrutinee hrule (fun _ => rfl) hscrutinee]
    rcases htaken : Case.taken? word cases with _ | chosen
    · rfl
    · have hbody := hsame _ _ (.inr ⟨word, d, chosen, hscrutinee, hrule.taken?_eq_some.mp htaken, rfl, rfl⟩)
      rw [Option.map_some, Option.elim_some, Option.elim_some, Runner.run_apply, Runner.run_apply, hbody]

/-- How a switch is executed from a configuration: its scrutinee is evaluated, and then the body of the case of
the word is run, once and alone, or nothing if no case is taken. -/
structure Chooses (ctx : Context) (depth : Nat) (scrutinee : Expr) (cases : List Case) (c : Config) : Prop where
  /-- A scrutinee without a word ends the switch. -/
  stopped : ∀ stop d, (ctx.perform depth).evaluate scrutinee c = (.error stop, d) →
    ctx.perform (depth + 1) (.statement (.switch scrutinee cases)) c = (.error stop, d)
  taken : ∀ word d chosen, (ctx.perform depth).evaluate scrutinee c = (.ok word, d) → Case.Takes word cases chosen →
    ctx.perform (depth + 1) (.statement (.switch scrutinee cases)) c =
      ctx.perform depth (.block chosen.body) (d.compared cases)
  passed : ∀ word d, (ctx.perform depth).evaluate scrutinee c = (.ok word, d) → (∀ c, ¬Case.Takes word cases c) →
    ctx.perform (depth + 1) (.statement (.switch scrutinee cases)) c = (.ok [], d.compared cases)
  /-- There is one case to take at most. -/
  unique : ∀ word a b, Case.Takes word cases a → Case.Takes word cases b → a = b
  /-- No block is run but the body of that case. -/
  only : ∀ b e, Asks (fun runner => ctx.advance runner (.statement (.switch scrutinee cases))) (ctx.perform depth) c
    (.block b) e → ∃ word d chosen, (ctx.perform depth).evaluate scrutinee c = (.ok word, d) ∧
      Case.Takes word cases chosen ∧ b = chosen.body ∧ e = d.compared cases

theorem chooses_of_rule (hrule : Case.Rule cases) (ctx : Context) (depth : Nat) (scrutinee : Expr) (c : Config) :
    ctx.Chooses depth scrutinee cases c where
  stopped stop d h := by
    have hstatement : (ctx.perform depth).statement (.switch scrutinee cases) c = (.error stop, d) :=
      Effect.bind_of_error h
    show yielding ((ctx.perform depth).statement (.switch scrutinee cases)) c = _
    rw [yielding_apply, hstatement]
    rfl
  taken word d chosen h htakes := by
    have hstatement := statement_of_scrutinee hrule (fun _ => rfl) h
    rw [hrule.taken?_eq_some.mpr htakes] at hstatement
    rw [← ctx.perform_nested]
    show yielding ((ctx.perform depth).statement (.switch scrutinee cases)) c =
      yielding ((ctx.perform depth).run (.block chosen.body)) (d.compared cases)
    rw [yielding_apply, yielding_apply, hstatement]
    rfl
  passed word d h hnone := by
    have hstatement := statement_of_scrutinee hrule (fun _ => rfl) h
    rw [hrule.taken?_eq_none.mpr hnone] at hstatement
    show yielding ((ctx.perform depth).statement (.switch scrutinee cases)) c = _
    rw [yielding_apply, hstatement]
    rfl
  unique _ _ _ := hrule.takes_unique
  only _ _ := asks_switch hrule

end Context

/-! ### Switches of a checked program -/

/-- A region all of whose text keeps its rules. -/
def Region.Sound (dialect : Dialect) : Region → Prop
  | .block b => ∃ frames, Site.Sound dialect ⟨frames, .block b⟩
  | .loop l => ∃ frames, Site.Sound dialect ⟨frames, .statement (.loop l)⟩

section Checked
variable {dialect : Dialect} {frames : Frames} {region : Region} {s : Statement} {program : Block}

theorem Region.Sound.statement (h : region.Sound dialect) (hs : s ∈ region.statements) :
    ∃ frames, Site.Sound dialect ⟨frames, .statement s⟩ := by
  cases region with
  | block b =>
    obtain ⟨frames, hsound⟩ := h
    obtain ⟨before, hsite⟩ := Statement.mem_sites (fun before => .block b before :: frames) [] hs
    exact ⟨_, (Site.sound_iff.mp hsound).2 _ hsite⟩
  | loop l =>
    obtain ⟨frames, hsound⟩ := h
    obtain ⟨before, hsite⟩ := Statement.mem_sites (fun before => .loop before :: frames) [] hs
    exact ⟨_, (Site.sound_iff.mp hsound).2 _ (List.mem_append_left _ hsite)⟩

theorem Region.sound_of_statement (h : Site.Sound dialect ⟨frames, .statement s⟩) (hregion : region ∈ s.regions) :
    region.Sound dialect := by
  have hparts := (Site.sound_iff.mp h).2
  cases s with
  | conditional condition body =>
    obtain rfl := List.mem_singleton.mp hregion
    exact ⟨frames, hparts _ (.tail _ (.head _))⟩
  | switch scrutinee cases =>
    obtain ⟨c, hc, rfl⟩ := List.mem_map.mp hregion
    exact ⟨frames, hparts _ (.tail _ (List.mem_map.mpr ⟨c, hc, rfl⟩))⟩
  | function f =>
    obtain rfl := List.mem_singleton.mp hregion
    exact ⟨_, hparts _ (.head _)⟩
  | loop l =>
    obtain rfl := List.mem_singleton.mp hregion
    exact ⟨frames, h⟩
  | block b =>
    obtain rfl := List.mem_singleton.mp hregion
    exact ⟨frames, hparts _ (.head _)⟩
  | _ => cases hregion

theorem Region.Sound.inner {outer : Region} (h : outer.Sound dialect) (hregion : region ∈ outer.inner) :
    region.Sound dialect := by
  have hstatements (hmem : region ∈ outer.statements.flatMap Statement.regions) : region.Sound dialect := by
    obtain ⟨s, hs, hregion⟩ := List.mem_flatMap.mp hmem
    obtain ⟨frames, hsound⟩ := h.statement hs
    exact Region.sound_of_statement hsound hregion
  cases outer with
  | block b => exact hstatements hregion
  | loop l =>
    rcases List.mem_append.mp hregion with hmem | hmem
    · exact hstatements hmem
    · obtain ⟨frames, hsound⟩ := h
      have hparts := (Site.sound_iff.mp hsound).2
      rcases Region.mem_parts hmem with rfl | rfl
      · exact ⟨_, hparts _ (List.mem_append_right _ (.tail _ (.head _)))⟩
      · exact ⟨_, hparts _ (List.mem_append_right _ (.tail _ (.tail _ (.head _))))⟩

theorem Chain.In.sound (hscoped : program.WellScoped dialect) {chain : Chain} (h : chain.In program)
    (hregion : region ∈ chain.inner program) : region.Sound dialect := by
  induction chain generalizing region with
  | nil =>
    obtain rfl := List.mem_singleton.mp hregion
    exact ⟨[], hscoped⟩
  | cons outer chain ih => exact (ih h.2 h.1).inner hregion

/-- Wherever a checked program executes a switch, the cases keep their rule. -/
theorem Run.Begins.chooses {α : Type} {job : Job} {x : Runner → Exec α} {start : Task → Chain → Prop}
    (hjob : job.Valid) (hbegins : Run.Begins job x start) (hscoped : job.program.WellScoped job.dialect)
    {depth left : Nat} {scrutinee : Expr} {cases : List Case} {c : Config}
    (h : Moment job.ctx x depth (left + 1) (.statement (.switch scrutinee cases)) c) :
    job.ctx.Chooses left scrutinee cases c := by
  obtain ⟨chain, visible, hready⟩ := h.ready hjob hbegins
  obtain ⟨-, region, outer, rfl, hmem⟩ := hready.fits
  obtain ⟨hregion, hin⟩ := hready.poised.stands.inside
  obtain ⟨frames, hsound⟩ := (hin.sound hscoped hregion).statement hmem
  exact job.ctx.chooses_of_rule (Site.sound_iff.mp hsound).1.2 left scrutinee c

end Checked
end BlockIR
