import BlockIR.Proofs.LastWrite

/-! What a call of a builtin can change.

Each builtin of the targets has a footprint (`Target.footprint`): the line that it
leaves, the region that it loads or stores, the slot that it stores. A call that
fails changes nothing at all, and one that returns changes no more than the
footprint covers for its arguments (`Footprint.Covers`). -/
namespace BlockIR

/-! ### Footprints -/

/-- What a builtin can change of a machine. -/
inductive Footprint where
  | nothing
  | line
  /-- The size of memory, by an access to so many bytes. -/
  | load (size : Nat)
  /-- A line, so many bytes of memory, and its size. -/
  | store (size : Nat)
  /-- A line and a slot of storage. -/
  | slot
  deriving DecidableEq, Repr

namespace Footprint

/-- Whether a line of trace belongs to it. -/
def logs : Footprint → Bool
  | line | store _ | slot => true
  | nothing | load _ => false

/-- From `m` to `n` nothing changes but what the footprint of a call covers that has these arguments. The first
of them says where in memory or in storage. -/
structure Covers (footprint : Footprint) (args : List Word) (m n : Machine) : Prop where
  steps : n.steps = m.steps
  signal : n.signal = m.signal
  trace : if footprint.logs then ∃ line, n.trace = m.trace.push line else n.trace = m.trace
  storage : ∀ key : Word, n.storage[key]? ≠ m.storage[key]? → footprint = slot ∧ args.head? = some key
  cells : ∀ place : Nat, n.memory.cells[place]? ≠ m.memory.cells[place]? → ∃ offset size,
    footprint = store size ∧ args.head? = some offset ∧ offset + size ≤ 2 ^ 32 ∧ offset ≤ place ∧ place < offset + size
  size : n.memory.size ≠ m.memory.size → ∃ offset size,
    (footprint = load size ∨ footprint = store size) ∧ args.head? = some offset ∧ offset + size ≤ 2 ^ 32

variable {footprint : Footprint} {args : List Word} {m n : Machine}

theorem covers_refl (h : footprint.logs = false) (args : List Word) (m : Machine) : footprint.Covers args m m where
  steps := rfl
  signal := rfl
  trace := by rw [h]; exact rfl
  storage _ hne := absurd rfl hne
  cells _ hne := absurd rfl hne
  size hne := absurd rfl hne

theorem covers_log (h : footprint.logs = true) (args : List Word) (m : Machine) (line : String) :
    footprint.Covers args m (m.log line) where
  steps := rfl
  signal := rfl
  trace := by rw [h]; exact ⟨line, rfl⟩
  storage _ hne := absurd rfl hne
  cells _ hne := absurd rfl hne
  size hne := absurd rfl hne

theorem covers_touch {offset size : Nat} (hinside : offset + size ≤ 2 ^ 32) (rest : List Word) (m : Machine) :
    (load size).Covers (offset :: rest) m { m with memory := m.memory.touch offset size } where
  steps := rfl
  signal := rfl
  trace := rfl
  storage _ hne := absurd rfl hne
  cells place hne := by
    refine absurd ?_ hne
    show (m.memory.touch offset size).cells[place]? = _
    rw [Memory.cells_touch]
  size _ := ⟨offset, size, .inl rfl, rfl, hinside⟩

theorem covers_write {offset size : Nat} (hinside : offset + size ≤ 2 ^ 32) (rest : List Word) (m : Machine)
    (line : String) {memory : Memory}
    (houtside : ∀ place, ¬(offset ≤ place ∧ place < offset + size) → memory.cells[place]? = m.memory.cells[place]?) :
    (store size).Covers (offset :: rest) m { m.log line with memory := memory } where
  steps := rfl
  signal := rfl
  trace := ⟨line, rfl⟩
  storage _ hne := absurd rfl hne
  cells place hne := by
    have hwithin := Classical.not_not.mp fun hout => hne (houtside place hout)
    exact ⟨offset, size, rfl, rfl, hinside, hwithin⟩
  size _ := ⟨offset, size, .inr rfl, rfl, hinside⟩

theorem covers_slot (key value : Word) (rest : List Word) (m : Machine) (line : String) :
    slot.Covers (key :: rest) m ((m.log line).store key value) where
  steps := rfl
  signal := rfl
  trace := ⟨line, rfl⟩
  storage other hne := by
    refine ⟨rfl, ?_⟩
    by_cases hkey : key = other
    · exact congrArg some hkey
    · refine absurd ?_ hne
      show (m.storage.insert key value)[other]? = _
      rw [Std.ExtTreeMap.getElem?_insert, if_neg (by simpa using hkey)]
  cells _ hne := absurd rfl hne
  size hne := absurd rfl hne

end Footprint

/-- The footprints of the builtins that can change anything. -/
def Target.footprint : Target → String → Footprint
  | evm, "mload" => .load 32
  | evm, "mstore" => .store 32
  | evm, "mstore8" => .store 1
  | evm, "sstore" => .slot
  | evm, "log0" => .line
  | evm, "log1" => .line
  | evm, "log2" => .line
  | wasm, "i64.load" => .load 8
  | wasm, "i32.load" => .load 4
  | wasm, "i64.store" => .store 8
  | wasm, "i32.store" => .store 4
  | wasm, "i64.store8" => .store 1
  | _, _ => .nothing

/-! ### Outside a region -/

namespace Memory

theorem cells_put_of_ne {offset place : Nat} (h : offset ≠ place) (memory : Memory) (b : UInt8) :
    (memory.put offset b).cells[place]? = memory.cells[place]? := by
  show (memory.cells.insert offset b)[place]? = _
  rw [Std.ExtTreeMap.getElem?_insert, if_neg (by simpa using h)]

theorem cells_putDigits_of_notMem {places : List Nat} {place : Nat} (h : place ∉ places) (memory : Memory)
    (value : Int) : (memory.putDigits places value).cells[place]? = memory.cells[place]? := by
  induction places generalizing memory value with
  | nil => rfl
  | cons offset rest ih =>
    obtain ⟨hne, hrest⟩ := List.ne_and_not_mem_of_not_mem_cons h
    rw [putDigits, ih hrest, cells_put_of_ne (Ne.symm hne)]

theorem cells_write_outside (memory : Memory) (order : ByteOrder) {offset size place : Nat} (value : Int)
    (h : ¬(offset ≤ place ∧ place < offset + size)) :
    (memory.write order offset size value).cells[place]? = memory.cells[place]? := by
  have hnot : place ∉ (offsets order offset size).reverse := by
    intro hmem
    have hplace := mem_offsets_iff.mp (List.mem_reverse.mp hmem)
    omega
  unfold write
  rw [cells_putDigits_of_notMem hnot, cells_touch]

theorem cells_writeByte_outside (memory : Memory) {offset place : Nat} (value : Int)
    (h : ¬(offset ≤ place ∧ place < offset + 1)) :
    (memory.writeByte offset value).cells[place]? = memory.cells[place]? := by
  unfold writeByte
  rw [cells_put_of_ne (by omega), cells_touch]

end Memory

/-! ### Actions -/

namespace Action
variable {α β : Type}

/-- An action that gives a value and changes nothing. -/
def Looks (x : Action α) : Prop := ∀ m, ∃ a, x m = (.ok a, m)

theorem looks_pure (a : α) : Looks (pure a : Action α) := fun _ => ⟨a, rfl⟩

theorem looks_gets (f : Machine → α) : Looks (Effect.gets f : Action α) := fun m => ⟨f m, rfl⟩

theorem Looks.bind {x : Action α} {f : α → Action β} (hx : Looks x) (hf : ∀ a, Looks (f a)) : Looks (x >>= f) := by
  intro m
  obtain ⟨a, ha⟩ := hx m
  obtain ⟨b, hb⟩ := hf a m
  exact ⟨b, (Effect.bind_of_ok ha).trans hb⟩

theorem looks_arg {call : Call} {position : Nat} (h : position < call.args.length) : Looks (call.arg position) := by
  unfold Call.arg
  rw [List.getElem?_eq_getElem h]
  exact looks_pure _

/-- An action that gives a value and changes no more than the footprint covers. -/
def Leaves (footprint : Footprint) (args : List Word) (x : Action α) : Prop :=
  ∀ m, ∃ a n, x m = (.ok a, n) ∧ footprint.Covers args m n

theorem leaves_load (order : ByteOrder) {offset size : Nat} (rest : List Word) {inside : Bool}
    (hinside : inside = true ↔ offset + size ≤ 2 ^ 32) :
    Leaves (.load size) (offset :: rest)
      (if inside then readMemory order offset size else pure 0 : Action Word) := by
  intro m
  rcases inside with _ | _
  · exact ⟨_, _, rfl, Footprint.covers_refl rfl _ m⟩
  · exact ⟨_, _, rfl, Footprint.covers_touch (hinside.mp rfl) rest m⟩

theorem leaves_store (title : String) (args : List Word) {offset size : Nat} (rest : List Word) {inside : Bool}
    (hinside : inside = true ↔ offset + size ≤ 2 ^ 32) {write : Memory → Memory}
    (hwrite : ∀ (memory : Memory) place, ¬(offset ≤ place ∧ place < offset + size) →
      (write memory).cells[place]? = memory.cells[place]?) :
    Leaves (.store size) (offset :: rest) (do
      logCall title args
      Effect.when inside (Effect.modify fun m => { m with memory := write m.memory })
      pure 0 : Action Word) := by
  intro m
  rcases inside with _ | _
  · exact ⟨_, _, rfl, Footprint.covers_log rfl _ m _⟩
  · exact ⟨_, _, rfl, Footprint.covers_write (hinside.mp rfl) rest m _ (hwrite m.memory)⟩

end Action

open BlockIR.Action

/-! ### Data objects -/

/-- The first argument is written as a string that names a data object. -/
def Setting.Names (setting : Setting) (call : Call) : Prop :=
  ∃ object ∈ setting.dataObjects, call.raw.head? = some (.expression (.literal ⟨.string, object.name⟩))

namespace Target

theorem Evm.locate_isSome_iff {name : String} {offset : Nat} {objects : List DataObject} :
    (locate name offset objects).isSome ↔ ∃ object ∈ objects, object.name = name := by
  induction objects generalizing offset with
  | nil => simp [locate]
  | cons object rest ih =>
    rw [locate]
    simp only [List.mem_cons, exists_eq_or_imp]
    split
    · exact iff_of_true rfl (.inl ‹_›)
    · rw [ih]
      exact ⟨.inr, fun h => h.resolve_left ‹_›⟩

/-- A data object is found if the call names one, and otherwise the call is at fault. -/
theorem Evm.dataObject_apply (title : String) (setting : Setting) (call : Call) (m : Machine) :
    (setting.Names call ∧ ∃ place, dataObject title setting call m = (.ok place, m)) ∨
      ¬setting.Names call ∧ ∃ fault, dataObject title setting call m = (.error (.domain fault), m) := by
  generalize hx : dataObject title setting call = x
  unfold dataObject at hx
  split at hx
  · rename_i name rest hraw
    have hnames : setting.Names call ↔ (locate name 0 setting.dataObjects).isSome := by
      unfold Setting.Names
      rw [locate_isSome_iff, hraw]
      simp [eq_comm]
    rw [hnames]
    split at hx <;> subst hx <;> rename_i hlocate
    · exact .inl ⟨by rw [hlocate]; rfl, _, rfl⟩
    · exact .inr ⟨by rw [hlocate]; exact nofun, _, rfl⟩
  · rename_i hraw
    subst hx
    right
    refine ⟨?_, _, rfl⟩
    rintro ⟨object, -, hhead⟩
    obtain ⟨rest, heq⟩ := List.head?_eq_some_iff.mp hhead
    exact hraw _ _ heq

end Target

/-! ### Builtins -/

namespace Builtin

/-- A builtin that gives a value and changes nothing, when it is called with as many arguments as its arity says. -/
def Looks (b : Builtin) : Prop :=
  ∀ setting call, b.arity = .exactly call.args.length → Action.Looks (b.body setting call)

/-- A builtin that gives a value and changes no more than the footprint covers, when it is called with as many
arguments as its arity says. -/
def Leaves (footprint : Footprint) (b : Builtin) : Prop :=
  ∀ setting call, b.arity = .exactly call.args.length → Action.Leaves footprint call.args (b.body setting call)

/-- Whether it is about a data object. -/
def Queries (b : Builtin) : Prop := b.name = "datasize" ∨ b.name = "dataoffset"

instance (b : Builtin) : Decidable b.Queries := inferInstanceAs (Decidable (_ ∨ _))

end Builtin

namespace Target

/-- What a call ends in that has as many arguments as the builtin takes. -/
def Conducts (target : Target) (b : Builtin) : Prop :=
  ∀ setting call, b.arity = .exactly call.args.length → ∀ m,
    (∃ value n, b.body setting call m = (.ok value, n) ∧ (target.footprint b.name).Covers call.args m n ∧
      (b.Queries → setting.Names call)) ∨
    ∃ fault, b.body setting call m = (.error (.domain fault), m) ∧ b.Queries ∧ ¬setting.Names call

theorem conducts_of_leaves {target : Target} {b : Builtin} (hqueries : ¬b.Queries)
    (h : b.Leaves (target.footprint b.name)) : target.Conducts b := by
  intro setting call hcount m
  obtain ⟨value, n, hbody, hcovers⟩ := h setting call hcount m
  exact .inl ⟨value, n, hbody, hcovers, fun h => absurd h hqueries⟩

theorem conducts_of_looks {target : Target} {b : Builtin} (hqueries : ¬b.Queries)
    (hfootprint : target.footprint b.name = .nothing) (h : b.Looks) : target.Conducts b := by
  apply conducts_of_leaves hqueries
  intro setting call hcount m
  obtain ⟨value, hbody⟩ := h setting call hcount m
  exact ⟨value, m, hbody, hfootprint ▸ Footprint.covers_refl rfl _ m⟩

namespace Evm

theorem dataQuery_conducts {name : String} {f : Nat × Nat → Word} (hqueries : (dataQuery name f).Queries)
    (hfootprint : evm.footprint name = .nothing) : evm.Conducts (dataQuery name f) := by
  intro setting call _ m
  rcases dataObject_apply name setting call m with ⟨hnames, place, hplace⟩ | ⟨hnames, fault, hfault⟩
  · left
    refine ⟨f place, m, Effect.bind_of_ok hplace, ?_, fun _ => hnames⟩
    exact hfootprint ▸ Footprint.covers_refl rfl _ m
  · exact .inr ⟨fault, Effect.bind_of_error hfault, hqueries, hnames⟩

/-- A builtin without a footprint looks at the machine, or it is about a data object. -/
theorem lookers {b : Builtin} (hmem : b ∈ builtins) (hfootprint : evm.footprint b.name = .nothing) :
    (b.literalArguments = [] → b.Looks) ∧ (b.literalArguments ≠ [] → ∃ f, b = dataQuery b.name f) := by
  suffices h : ∀ b ∈ builtins, evm.footprint b.name = .nothing →
      (b.literalArguments = [] → b.Looks) ∧ (b.literalArguments ≠ [] → ∃ f, b = dataQuery b.name f) from
    h b hmem hfootprint
  have looker {b : Builtin} (hnone : b.literalArguments = []) (h : b.Looks) :
      (b.literalArguments = [] → b.Looks) ∧ (b.literalArguments ≠ [] → ∃ f, b = dataQuery b.name f) :=
    ⟨fun _ => h, absurd hnone⟩
  have marked {b : Builtin} (h : evm.footprint b.name ≠ .nothing) (hfootprint : evm.footprint b.name = .nothing) :
      (b.literalArguments = [] → b.Looks) ∧ (b.literalArguments ≠ [] → ∃ f, b = dataQuery b.name f) :=
    absurd hfootprint h
  apply forall_builtins
  · exact fun _ _ _ => looker rfl fun _ _ hcount =>
      (looks_arg (lt_args (by decide) hcount)).bind fun _ => looks_pure _
  · exact fun _ _ _ => looker rfl fun _ _ hcount =>
      (looks_arg (lt_args (by decide) hcount)).bind fun _ =>
        (looks_arg (lt_args (by decide) hcount)).bind fun _ => looks_pure _
  · exact fun _ _ _ => looker rfl fun _ _ hcount =>
      (looks_arg (lt_args (by decide) hcount)).bind fun _ =>
        (looks_arg (lt_args (by decide) hcount)).bind fun _ =>
          (looks_arg (lt_args (by decide) hcount)).bind fun _ => looks_pure _
  · simp only [memory, List.forall_mem_cons]
    exact ⟨marked (by decide), marked (by decide), marked (by decide), fun _ => looker rfl fun _ _ _ => looks_gets _,
      List.forall_mem_nil _⟩
  · simp only [storage, List.forall_mem_cons]
    exact ⟨fun _ => looker rfl fun _ _ hcount =>
      (looks_arg (lt_args (by decide) hcount)).bind fun _ => looks_gets _, marked (by decide), List.forall_mem_nil _⟩
  · simp only [environment, List.forall_mem_cons]
    exact ⟨fun _ => looker rfl fun _ _ hcount => (looks_arg (lt_args (by decide) hcount)).bind fun _ => looks_pure _,
      fun _ => looker rfl fun _ _ _ => looks_pure _, fun _ => looker rfl fun _ _ _ => looks_pure _,
      fun _ => looker rfl fun _ _ _ => looks_pure _, fun _ => looker rfl fun _ _ _ => looks_pure _,
      fun _ => looker rfl fun _ _ _ => looks_pure _, marked (by decide), marked (by decide), marked (by decide),
      List.forall_mem_nil _⟩
  · exact fun name f _ => ⟨fun hnone => absurd hnone (List.cons_ne_nil _ _), fun _ => ⟨f, rfl⟩⟩

theorem leaves {name : String} (h : evm.footprint name ≠ .nothing) :
    ∃ b, evm.dialect.find? name = some b ∧ b.Leaves (evm.footprint name) := by
  have hlogger (name title : String) (topics : Nat) : (logger name title topics).Leaves .line :=
    fun _ _ _ m => ⟨_, _, rfl, Footprint.covers_log rfl _ m _⟩
  unfold footprint at h ⊢
  split at h <;> first | (rename_i heq; cases heq) | exact absurd rfl h
  · refine ⟨_, rfl, fun setting call hcount => ?_⟩
    obtain ⟨offset, raw, rfl⟩ := Call.eq_single hcount
    exact leaves_load .bigEndian [] reaches_iff
  · refine ⟨_, rfl, fun setting call hcount => ?_⟩
    obtain ⟨offset, value, raw, rfl⟩ := Call.eq_pair hcount
    exact leaves_store "MSTORE" _ [value] reaches_iff fun memory _ =>
      memory.cells_write_outside .bigEndian value
  · refine ⟨_, rfl, fun setting call hcount => ?_⟩
    obtain ⟨offset, value, raw, rfl⟩ := Call.eq_pair hcount
    exact leaves_store "MSTORE8" _ [value] reaches_iff fun memory _ => memory.cells_writeByte_outside value
  · refine ⟨_, rfl, fun setting call hcount m => ?_⟩
    obtain ⟨key, value, raw, rfl⟩ := Call.eq_pair hcount
    exact ⟨_, _, rfl, Footprint.covers_slot key value [value] m _⟩
  · exact ⟨_, rfl, hlogger _ _ _⟩
  · exact ⟨_, rfl, hlogger _ _ _⟩
  · exact ⟨_, rfl, hlogger _ _ _⟩

end Evm

namespace Wasm

theorem lookers {b : Builtin} (hmem : b ∈ builtins) (hfootprint : wasm.footprint b.name = .nothing) : b.Looks := by
  suffices h : ∀ b ∈ builtins, wasm.footprint b.name = .nothing → b.Looks from h b hmem hfootprint
  have marked {b : Builtin} (h : wasm.footprint b.name ≠ .nothing) (hfootprint : wasm.footprint b.name = .nothing) :
      b.Looks := absurd hfootprint h
  apply forall_builtins
  · exact fun _ _ _ _ _ _ hcount => (looks_arg (lt_args (by decide) hcount)).bind fun _ => looks_pure _
  · exact fun _ _ _ _ _ _ hcount => (looks_arg (lt_args (by decide) hcount)).bind fun _ =>
      (looks_arg (lt_args (by decide) hcount)).bind fun _ => looks_pure _
  · exact fun _ _ _ _ => looks_pure _
  · simp only [memory, List.forall_mem_cons]
    exact ⟨marked (by decide), marked (by decide), marked (by decide), marked (by decide), marked (by decide),
      List.forall_mem_nil _⟩

theorem load_leaves (name : String) (size : Nat) : (load name size).Leaves (.load size) := by
  intro setting call hcount
  obtain ⟨address, raw, rfl⟩ := Call.eq_single hcount
  exact leaves_load .littleEndian [] reaches_iff

theorem store_leaves (name : String) (size : Nat) : (store name size).Leaves (.store size) := by
  intro setting call hcount
  obtain ⟨address, operand, raw, rfl⟩ := Call.eq_pair hcount
  exact leaves_store name _ [operand] reaches_iff fun memory _ =>
    memory.cells_write_outside .littleEndian (Word.low (8 * size) operand)

theorem leaves {name : String} (h : wasm.footprint name ≠ .nothing) :
    ∃ b, wasm.dialect.find? name = some b ∧ b.Leaves (wasm.footprint name) := by
  unfold footprint at h ⊢
  split at h <;> first | (rename_i heq; cases heq) | exact absurd rfl h
  · exact ⟨_, rfl, load_leaves _ _⟩
  · exact ⟨_, rfl, load_leaves _ _⟩
  · exact ⟨_, rfl, store_leaves _ _⟩
  · exact ⟨_, rfl, store_leaves _ _⟩
  · exact ⟨_, rfl, store_leaves _ _⟩

end Wasm

/-! ### Calls -/

theorem Wasm.not_queries : ∀ b ∈ builtins, ¬b.Queries := by
  decide

theorem queries_footprint (target : Target) : ∀ b ∈ target.dialect.builtins,
    (b.Queries → target.footprint b.name = .nothing) ∧ (b.Queries ↔ b.literalArguments ≠ []) := by
  cases target <;> decide

theorem conducts (target : Target) {b : Builtin} (hmem : b ∈ target.dialect.builtins) : target.Conducts b := by
  obtain ⟨hnothing, hqueries⟩ := target.queries_footprint b hmem
  by_cases hfootprint : target.footprint b.name = .nothing
  · by_cases hnone : b.literalArguments = []
    · apply conducts_of_looks (fun h => hqueries.mp h hnone) hfootprint
      cases target
      · exact (Evm.lookers hmem hfootprint).1 hnone
      · exact Wasm.lookers hmem hfootprint
    · have hqueried := hqueries.mpr hnone
      cases target
      · obtain ⟨f, hb⟩ := (Evm.lookers hmem hfootprint).2 hnone
        rw [hb] at hqueried ⊢
        exact Evm.dataQuery_conducts hqueried hfootprint
      · exact absurd hqueried (Wasm.not_queries b hmem)
  · apply conducts_of_leaves (fun h => hfootprint (hnothing h))
    obtain ⟨b', hfind, hleaves⟩ : ∃ b', target.dialect.find? b.name = some b' ∧
        b'.Leaves (target.footprint b.name) := by
      cases target
      · exact Evm.leaves hfootprint
      · exact Wasm.leaves hfootprint
    cases (target.find?_of_mem hmem).symm.trans hfind
    exact hleaves

end Target

/-- Builtins have a bounded footprint and fail as a whole, whatever they are called with. A call fails for its
number of arguments exactly if that is not what the arity says, and otherwise exactly if it asks for a data object
without naming one; a failure leaves the whole machine as it was. A call that returns changes what the footprint
of the builtin covers and nothing else. Limits, call data, environment words and data objects are the setting,
which a call is only given to read. -/
theorem builtins_have_bounded_footprints (target : Target) {b : Builtin} (hmem : b ∈ target.dialect.builtins)
    (setting : Setting) (call : Call) (m : Machine) :
    ((∃ expected got what, (target.dialect.evaluate setting b call m).1 = .error (.arityMismatch expected got what)) ↔
      b.arity ≠ .exactly call.args.length) ∧
    ((∃ fault, (target.dialect.evaluate setting b call m).1 = .error (.domain fault)) ↔
      b.arity = .exactly call.args.length ∧ b.Queries ∧ ¬setting.Names call) ∧
    (∀ error, (target.dialect.evaluate setting b call m).1 = .error error →
      ((∃ expected got what, error = .arityMismatch expected got what) ∨ ∃ fault, error = .domain fault) ∧
      (target.dialect.evaluate setting b call m).2 = m) ∧
    ∀ value, (target.dialect.evaluate setting b call m).1 = .ok value →
      (target.footprint b.name).Covers call.args m (target.dialect.evaluate setting b call m).2 := by
  have howns := target.owns_of_find? (target.find?_of_mem hmem)
  by_cases hcount : b.arity = .exactly call.args.length
  · have hevaluate : target.dialect.evaluate setting b call = b.body setting call := by
      unfold Dialect.evaluate
      rw [if_pos howns, if_pos hcount]
    rw [hevaluate]
    rcases target.conducts hmem setting call hcount m with
      ⟨value, n, hbody, hcovers, hnames⟩ | ⟨fault, hbody, hqueries, hnames⟩
    · rw [hbody]
      refine ⟨⟨nofun, fun h => absurd hcount h⟩, ⟨nofun, ?_⟩, nofun, fun _ _ => hcovers⟩
      exact fun ⟨_, hqueries, hnot⟩ => absurd (hnames hqueries) hnot
    · rw [hbody]
      refine ⟨⟨nofun, fun h => absurd hcount h⟩, ⟨fun _ => ⟨hcount, hqueries, hnames⟩, fun _ => ⟨fault, rfl⟩⟩, ?_, nofun⟩
      rintro error ⟨⟩
      exact ⟨.inr ⟨fault, rfl⟩, rfl⟩
  · have hevaluate : target.dialect.evaluate setting b call m =
        (.error (.arityMismatch b.arity.number (.ofNat call.args.length) b.name), m) := by
      unfold Dialect.evaluate
      rw [if_pos howns, if_neg hcount]
      rfl
    rw [hevaluate]
    refine ⟨⟨fun _ => hcount, fun _ => ⟨_, _, _, rfl⟩⟩, ⟨nofun, fun h => absurd h.1 hcount⟩, ?_, nofun⟩
    rintro error ⟨⟩
    exact ⟨.inl ⟨_, _, _, rfl⟩, rfl⟩

/-- A word stored in range, and the size of a data object that is not there. -/
theorem builtins_have_bounded_footprints_sample :
    (∃ b, Target.evm.dialect.find? "mstore" = some b ∧ ∀ m : Machine,
      Footprint.Covers (.store 32) [7, 5] m (Target.evm.dialect.evaluate {} b ⟨[7, 5], []⟩ m).2) ∧
    ∃ b, Target.evm.dialect.find? "datasize" = some b ∧ ∀ m : Machine,
      (Target.evm.dialect.evaluate {} b ⟨[0], [.expression (.literal ⟨.string, "data"⟩)]⟩ m).2 = m := by
  refine ⟨⟨Target.Evm.memory[1], rfl, fun m => ?_⟩, ⟨Target.Evm.data[0], rfl, fun m => ?_⟩⟩
  · have hmem : Target.Evm.memory[1] ∈ Target.evm.dialect.builtins :=
      List.mem_of_find?_eq_some (a := Target.Evm.memory[1]) (p := fun b => b.name = "mstore") rfl
    exact (builtins_have_bounded_footprints .evm hmem {} ⟨[7, 5], []⟩ m).2.2.2 0 rfl
  · have hmem : Target.Evm.data[0] ∈ Target.evm.dialect.builtins :=
      List.mem_of_find?_eq_some (a := Target.Evm.data[0]) (p := fun b => b.name = "datasize") rfl
    exact ((builtins_have_bounded_footprints .evm hmem {} ⟨[0], [.expression (.literal ⟨.string, "data"⟩)]⟩ m).2.2.1
      (.domain (.unknownData "data")) rfl).2

end BlockIR
