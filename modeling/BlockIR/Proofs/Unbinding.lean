import BlockIR.Proofs.Watch
import BlockIR.Session

/-! What leaving a block unbinds.

The scope of a block remembers every variable that was declared in it since it
was made, and leaving it drops them all from the table. A variable that an
earlier entry declared may have been declared outside in the meantime; then it is
the outer one that is dropped (`leaving_unbinds_outer`). There is no other way to
lose a variable to a block: one that no scope of the block remembers when the
block is entered is kept (`blocks_unbind_remembered`). -/
namespace BlockIR

namespace Session

/-- What is run next in a session. -/
inductive Piece where
  | block (b : Block)
  | statement (s : Statement)

/-- The task that a piece comes down to. -/
def Piece.task : Piece → Task
  | .block b => .block b
  | .statement s => .statement s

/-- Goes on with a piece, however it ends. -/
def proceed (session : Session) (depth : Nat) : Piece → Session
  | .block b => (session.block depth b).2
  | .statement s => (session.statement depth s).2

/-- Goes on with pieces, one after another. -/
def proceedAll (session : Session) (depth : Nat) (pieces : List Piece) : Session :=
  pieces.foldl (fun session piece => session.proceed depth piece) session

/-- The session stands in the root scope, and the functions that can be called are marked. -/
structure Sits (body : BlockId → Prop) (session : Session) : Prop where
  tracked : session.config.Tracked body
  scope : session.config.activation.scope = 0

section Sitting
variable {body : BlockId → Prop} {session : Session}

theorem start_sits (body : BlockId → Prop) (ctx : Context) (base : Json.Number) (bindings : List (String × Word)) :
    (start ctx base bindings).Sits body := by
  unfold start
  rcases base.toInt? with _ | _ | _ <;>
    exact ⟨⟨ScopeArena.sound_start, ScopeArena.functions_start, _, rfl⟩, rfl⟩

theorem Sits.comes (h : session.Sits body) {later : Session} (hcomes : session.config.Comes body later.config) :
    later.Sits body := ⟨h.tracked.comes hcomes, hcomes.scope.trans h.scope⟩

theorem apart_apply {α : Type} (x : Exec α) (c : Config) :
    apart x c = ((x c).1, { (x c).2 with
      activation := { (x c).2.activation with level := c.activation.level } }) := by
  show (x.ensuring (Exec.modifyActivation fun a => { a with level := c.activation.level })) c = _
  unfold Effect.ensuring
  rcases x c with ⟨_ | _, d⟩ <;> rfl

section Block
variable {watch : Watch} {b : Block} (hb : b.Marked watch.body) (depth : Nat)
include hb

/-- A block of a session runs between entering its scope and leaving it. -/
theorem block_apply :
    ∃ (x : Exec Variables) (d : Config), x.Upholds watch watch.Holds ∧
      ((Exec.enterScope b.id >>= fun _ => x.ensuring Exec.leaveScope) session.config).2 = d ∧
      (session.block depth b).2.config =
        { d with activation := { d.activation with level := session.config.activation.level } } := by
  have hbindings : Exec.Upholds watch watch.Holds Run.bindings :=
    Exec.upholds_of_eq (fun _ _ hrests hholds => hholds.rests hrests) fun _ => rfl
  have hinner := inner_upholds (perform_upholds watch session.context depth).1 session.context hb hbindings
  refine ⟨_, _, hinner, rfl, ?_⟩
  have hblock : (session.block depth b).2.config =
      (apart (Run.program session.context depth b) session.config).2 := rfl
  rw [hblock, apart_apply]
  rfl

variable (h : session.config.Tracked watch.body)
include h

/-- A block keeps a variable that no own scope remembers. -/
theorem block_runs :
    session.config.Comes watch.body (session.block depth b).2.config ∧
      (watch.Clean session.config.scopes → watch.Enters session.config b.id →
        watch.name ∈ session.config.activation.bindings →
          watch.name ∈ (session.block depth b).2.config.activation.bindings) := by
  obtain ⟨x, d, hx, hd, hlast⟩ := block_apply hb depth
  obtain ⟨hcomes, hkept⟩ := Exec.region_runs hx h hd
  rw [hlast]
  exact ⟨⟨hcomes.scopes, hcomes.functions, hcomes.scope⟩, fun hclean henters hname =>
    (hkept hclean fun _ => hname).2 henters⟩

/-- A block leaves nothing bound that its scope remembers in the end. -/
theorem block_drops :
    ∃ child entered, session.config.scopes.enter session.config.activation.scope b.id = .ok (child, entered) ∧
      ∀ name ∈ (session.block depth b).2.config.activation.bindings,
        ¬(session.block depth b).2.config.scopes.Remembers child name := by
  obtain ⟨x, d, hx, hd, hlast⟩ := block_apply hb depth
  obtain ⟨inside, hinside, -, -, -, hbound⟩ := Exec.region_leaves hx h hd
  rw [hlast]
  exact ⟨_, _, hinside.enter, fun name hname => ((hbound name).mp hname).2⟩

end Block

theorem proceed_sits (h : session.Sits body) {piece : Piece} (hpiece : piece.task.Marked body) (depth : Nat) :
    (session.proceed depth piece).Sits body := by
  -- Which variable is watched does not matter here.
  let watch : Watch := ⟨body, [], ""⟩
  apply h.comes
  cases piece with
  | block b =>
    have htracked : session.config.Tracked watch.body := h.tracked
    exact (block_runs hpiece.2 depth htracked).1
  | statement s =>
    obtain ⟨hcomes, -⟩ := (perform_upholds watch session.context depth).1 _ hpiece session.config h.tracked
    have hstatement : (session.proceed depth (.statement s)).config =
        (apart (session.context.perform depth (.statement s)) session.config).2 := rfl
    rw [hstatement, apart_apply]
    exact ⟨hcomes.scopes, hcomes.functions, hcomes.scope⟩

theorem proceedAll_sits (h : session.Sits body) {pieces : List Piece}
    (hpieces : ∀ piece ∈ pieces, piece.task.Marked body) (depth : Nat) :
    (session.proceedAll depth pieces).Sits body := by
  induction pieces generalizing session with
  | nil => exact h
  | cons first rest ih =>
    obtain ⟨hfirst, hrest⟩ := List.forall_mem_cons.mp hpieces
    exact ih (proceed_sits h hfirst depth) hrest

end Sitting
end Session

open Session in
/-- In a session whose texts tell the bodies of functions from other blocks, a block that is run keeps every
variable that was bound, however it ends, but for those that a scope remembered from before: its own, or that of
a block inside it that no call runs. And nothing stays bound that its own scope remembers in the end. -/
theorem blocks_unbind_remembered (body : BlockId → Prop) (ctx : Context) (base : Json.Number)
    (bindings : List (String × Word)) (depth : Nat) {pieces : List Piece}
    (hpieces : ∀ piece ∈ pieces, piece.task.Marked body) {b : Block} (hb : Task.Marked body (.block b)) :
    let session := (start ctx base bindings).proceedAll depth pieces
    let later := (session.block depth b).2
    (∀ name ∈ session.config.activation.bindings, name ∈ later.config.activation.bindings ∨
      ∃ id path, session.config.scopes.At id path ∧ path.getLast? = some b.id ∧
        (∀ block ∈ path, ¬body block) ∧ session.config.scopes.Remembers id name) ∧
    ∃ child entered, session.config.scopes.enter 0 b.id = .ok (child, entered) ∧
      ∀ name ∈ later.config.activation.bindings, ¬later.config.scopes.Remembers child name := by
  intro session later
  have hsits : session.Sits body := proceedAll_sits (start_sits body ctx base bindings) hpieces depth
  constructor
  · intro name hname
    let watch : Watch := ⟨body, b.id, name⟩
    by_cases hclean : watch.Clean session.config.scopes
    · have htracked : session.config.Tracked watch.body := hsits.tracked
      have henters : watch.Enters session.config b.id := ⟨hb.1, .inr ⟨hsits.scope, rfl⟩⟩
      exact .inl ((block_runs hb.2 depth htracked).2 hclean henters hname)
    · unfold Watch.Clean at hclean
      push Not at hclean
      obtain ⟨id, ⟨path, hat, hlast, hplain⟩, hremembers⟩ := hclean
      exact .inr ⟨id, path, hat, hlast, hplain, hremembers⟩
  · let watch : Watch := ⟨body, b.id, ""⟩
    have htracked : session.config.Tracked watch.body := hsits.tracked
    have hdrops := block_drops hb.2 depth htracked
    rwa [hsits.scope] at hdrops

namespace Sample

/-- A block that declares a variable, unless it stops before. -/
def stopping : Block :=
  ⟨[], [.conditional (.identifier "c") ⟨Place.field (Place.item [] "statements" 0) "body", [.leave]⟩,
    .declaration ["x"] (some (.literal ⟨.number, "1"⟩))]⟩

/-- The block is run to its end, its variable is declared outside, and the block is told to stop. -/
def stoppingPieces : List Session.Piece :=
  [.block stopping, .statement (.declaration ["x"] (some (.literal ⟨.number, "5"⟩))),
    .statement (.assignment ["c"] (.literal ⟨.number, "1"⟩))]

/-- A session with one variable. -/
def opened : Session := .start { setting := {}, dialect := Target.evm.dialect } (.finite false 0 0) [("c", 0)]

theorem stopping_marked (body : BlockId → Prop) (hbody : ∀ id, ¬body id) : Task.Marked body (.block stopping) :=
  ⟨hbody _, ⟨hbody _, trivial, trivial⟩, trivial, trivial⟩

theorem stoppingPieces_marked (body : BlockId → Prop) (hbody : ∀ id, ¬body id) :
    ∀ piece ∈ stoppingPieces, piece.task.Marked body :=
  List.forall_mem_cons.mpr ⟨stopping_marked body hbody, List.forall_mem_cons.mpr ⟨trivial,
    List.forall_mem_singleton.mpr trivial⟩⟩

theorem stopping_bound : "x" ∈ (opened.proceedAll 20 stoppingPieces).config.activation.bindings :=
  Std.ExtTreeMap.mem_iff_contains.mpr rfl

theorem stopping_unbound :
    "x" ∉ ((opened.proceedAll 20 stoppingPieces).block 20 stopping).2.config.activation.bindings := by
  rw [Std.ExtTreeMap.mem_iff_contains]
  exact nofun

end Sample

/-- The second time the block stops before it declares its variable, and the one that is bound outside is lost. -/
theorem blocks_unbind_remembered_sample :
    let session := Sample.opened.proceedAll 20 Sample.stoppingPieces
    "x" ∈ session.config.activation.bindings ∧
      ∃ id path, session.config.scopes.At id path ∧ path.getLast? = some Sample.stopping.id ∧
        session.config.scopes.Remembers id "x" := by
  intro session
  have hkept := (blocks_unbind_remembered (fun _ => False) { setting := {}, dialect := Target.evm.dialect }
    (.finite false 0 0) [("c", 0)] 20 (Sample.stoppingPieces_marked _ fun _ => id)
    (Sample.stopping_marked _ fun _ => id)).1 "x" Sample.stopping_bound
  obtain ⟨id, path, hat, hlast, -, hremembers⟩ := hkept.resolve_left Sample.stopping_unbound
  exact ⟨Sample.stopping_bound, id, path, hat, hlast, hremembers⟩

/-- A block does not keep every variable that was bound when it was entered. -/
theorem leaving_unbinds_outer :
    ¬∀ (ctx : Context) (base : Json.Number) (bindings : List (String × Word)) (depth : Nat)
      (pieces : List Session.Piece) (b : Block),
      let session := (Session.start ctx base bindings).proceedAll depth pieces
      ∀ name ∈ session.config.activation.bindings,
        name ∈ (session.block depth b).2.config.activation.bindings :=
  fun h => Sample.stopping_unbound (h _ _ _ 20 Sample.stoppingPieces Sample.stopping "x" Sample.stopping_bound)

end BlockIR
