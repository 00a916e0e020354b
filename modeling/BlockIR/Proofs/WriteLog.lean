import BlockIR.Proofs.Builtins
import BlockIR.Proofs.Course
import BlockIR.Proofs.Limit
import BlockIR.Proofs.Replay

/-! The trace is a complete log of what is stored.

Each builtin leaves at most one line, and stores just what the line says
(`Target.evaluate_logs`); nothing else in a run stores anything. So the lines that
a part of a run leaves account for all that it stores (`Machine.Logs`), and the
whole trace, replayed from nothing, gives the memory and storage at the end. -/
namespace BlockIR

/-! ### Bytes of a number -/

theorem Bytes.ofInt_natCast (n : Nat) : Bytes.ofInt (n : Int) = UInt8.ofNat n := by
  have hcast : ((n : Int) % 256).toNat = n % 256 := by omega
  unfold Bytes.ofInt
  rw [hcast]
  exact UInt8.ofNat_mod_size

theorem Memory.cells_touch (memory : Memory) (offset : Nat) (size : Int) :
    (memory.touch offset size).cells = memory.cells := by
  unfold touch
  split <;> rfl

/-- The digits of a number are put at places that are counted from its lowest byte. -/
theorem Memory.cells_putDigits (memory : Memory) (place : Nat → Nat) (size value : Nat) :
    (memory.putDigits ((List.range size).map place) value).cells =
      (List.range size).foldl
        (fun cells i => cells.insert (place i) (UInt8.ofNat (value >>> (8 * i)))) memory.cells := by
  induction size generalizing memory place value with
  | zero => rfl
  | succ size ih =>
    have hdiv : (value : Int) / 256 = ((value / 256 : Nat) : Int) := by omega
    have hshift (i : Nat) : (value / 256) >>> (8 * i) = value >>> (8 * (i + 1)) := by
      rw [Nat.mul_succ, Nat.add_comm, Nat.shiftRight_add, Nat.shiftRight_eq_div_pow value 8]
    rw [List.range_succ_eq_map, List.map_cons, List.map_map, putDigits, hdiv, ih, List.foldl_cons,
      List.foldl_map, put, Bytes.ofInt_natCast]
    simp [hshift]

theorem Memory.reverse_offsets (order : ByteOrder) (offset size : Nat) :
    (offsets order offset size).reverse = (List.range size).map (Stores.place order offset size) := by
  cases order with
  | bigEndian =>
    apply List.ext_getElem
    · simp [offsets]
    · intro i hi hi'
      simp [offsets, Stores.place]
  | littleEndian => simp [offsets, Stores.place]

theorem Memory.cells_write (memory : Memory) (order : ByteOrder) (offset size value : Nat) :
    (memory.write order offset size value).cells = Stores.spread memory.cells order offset size value := by
  unfold write
  rw [reverse_offsets, cells_putDigits, cells_touch]
  rfl

theorem Memory.cells_writeByte (memory : Memory) (offset value : Nat) :
    (memory.writeByte offset value).cells = Stores.spread memory.cells .bigEndian offset 1 value := by
  show (memory.touch offset 1).cells.insert offset (Bytes.ofInt value) = _
  rw [cells_touch, Bytes.ofInt_natCast]
  rfl

/-! ### Lines that account for what is stored -/

/-- From `m` to `n` the trace gets these lines, and they say all that is stored on the way. -/
structure Machine.Logs (m n : Machine) (lines : List String) : Prop where
  trace : n.trace.toList = m.trace.toList ++ lines
  stores : n.stores = m.stores.replay lines

namespace Machine.Logs
variable {m n o : Machine} {lines more : List String}

theorem refl (m : Machine) : m.Logs m [] := ⟨by simp, rfl⟩

theorem trans (h : m.Logs n lines) (h' : n.Logs o more) : m.Logs o (lines ++ more) where
  trace := by rw [h'.trace, h.trace, List.append_assoc]
  stores := by rw [h'.stores, h.stores, Stores.replay_append]

/-- What changes neither the trace nor what is stored. -/
theorem of_eq (htrace : n.trace = m.trace) (hstores : n.stores = m.stores) : m.Logs n [] :=
  ⟨by simp [htrace], hstores⟩

end Machine.Logs

/-- The lines that an action leaves say all that it stores, and each of them is the line of a call. -/
def Action.Logs {α : Type} (x : Action α) : Prop :=
  ∀ m : Machine, ∃ lines : List String, m.Logs (x m).2 lines ∧ ∀ line ∈ lines, '(' ∈ line.toList

namespace Action
variable {α β : Type}

theorem logs_of_eq {x : Action α} (htrace : ∀ m, (x m).2.trace = m.trace)
    (hstores : ∀ m, (x m).2.stores = m.stores) : Logs x :=
  fun m => ⟨[], .of_eq (htrace m) (hstores m), nofun⟩

theorem logs_pure (a : α) : Logs (pure a : Action α) := logs_of_eq (fun _ => rfl) fun _ => rfl

theorem logs_fail (e : Error) : Logs (Effect.fail e : Action α) := logs_of_eq (fun _ => rfl) fun _ => rfl

theorem logs_gets (f : Machine → α) : Logs (Effect.gets f : Action α) :=
  logs_of_eq (fun _ => rfl) fun _ => rfl

theorem Logs.bind {x : Action α} {f : α → Action β} (hx : Logs x) (hf : ∀ a, Logs (f a)) :
    Logs (x >>= f) := by
  intro m
  obtain ⟨lines, hlines, hcalls⟩ := hx m
  rw [Effect.bind_apply]
  rcases hm : x m with ⟨_ | a, n⟩ <;> rw [hm] at hlines
  · exact ⟨lines, hlines, hcalls⟩
  · obtain ⟨more, hmore, hcalls'⟩ := hf a n
    refine ⟨lines ++ more, hlines.trans hmore, ?_⟩
    intro line hline
    rcases List.mem_append.mp hline with hline | hline
    · exact hcalls line hline
    · exact hcalls' line hline

theorem logs_arg (call : Call) (position : Nat) : Logs (call.arg position) := by
  unfold Call.arg
  split
  · exact logs_pure _
  · exact logs_fail _

theorem logs_readMemory (order : ByteOrder) (offset : Nat) (size : Int) :
    Logs (readMemory order offset size) := by
  apply logs_of_eq
  · exact fun _ => rfl
  · intro m
    show Stores.mk (m.memory.touch offset size).cells m.storage = _
    rw [Memory.cells_touch]
    rfl

/-- An action that leaves the line of a call and stores what the line says. -/
theorem logs_of_line {x : Action α} (title : String) (args : List Word)
    (htrace : ∀ m, (x m).2.trace = m.trace.push (callLine title args))
    (hstores : ∀ m, (x m).2.stores = m.stores.replayLine (callLine title args)) : Logs x := by
  intro m
  refine ⟨[callLine title args], ⟨?_, hstores m⟩, ?_⟩
  · rw [htrace]
    exact Array.toList_push
  · intro line hline
    rw [List.mem_singleton.mp hline]
    simp [callLine]

/-- A store in memory: its line, and its effect if the region ends within memory. -/
theorem logs_store (title : String) (order : ByteOrder) (offset size value : Nat) (write : Action Unit)
    {inside : Bool} (hinside : inside = true ↔ offset + size ≤ Stores.memoryEnd)
    (hline : ∀ stores : Stores,
      stores.replayLine (callLine title [offset, value]) = stores.write order offset size value)
    (htrace : ∀ m, (write m).2.trace = m.trace)
    (hstores : ∀ m, (write m).2.stores =
      { m.stores with cells := Stores.spread m.stores.cells order offset size value }) :
    Logs (do
      logCall title [offset, value]
      Effect.when inside write
      pure 0 : Action Word) := by
  cases inside with
  | false =>
    apply logs_of_line title [offset, value]
    · exact fun _ => rfl
    · intro m
      have hout : ¬offset + size ≤ Stores.memoryEnd := fun h => nomatch hinside.mpr h
      rw [hline, Stores.write, if_neg hout]
      rfl
  | true =>
    have hstate (m : Machine) : ((do
        logCall title [offset, value]
        Effect.when true write
        pure 0 : Action Word) m).2 = (write (m.log (callLine title [offset, value]))).2 := by
      show ((write >>= fun _ => pure 0 : Action Word) (m.log (callLine title [offset, value]))).2 = _
      rw [Effect.bind_apply]
      rcases write (m.log (callLine title [offset, value])) with ⟨_ | _, _⟩ <;> rfl
    apply logs_of_line title [offset, value]
    · intro m
      rw [hstate, htrace]
      rfl
    · intro m
      rw [hstate, hstores, hline, Stores.write, if_pos (hinside.mp rfl)]
      rfl

end Action

open BlockIR.Action

/-- A builtin whose body logs what it stores, when it is called with as many arguments as its arity says. -/
def Builtin.Logs (builtin : Builtin) : Prop :=
  ∀ setting call, builtin.arity = .exactly call.args.length → Action.Logs (builtin.body setting call)

/-- A call with one argument. -/
theorem Call.eq_single {call : Call} (h : Arity.exactly 1 = .exactly call.args.length) :
    ∃ a raw, call = ⟨[a], raw⟩ := by
  obtain ⟨args, raw⟩ := call
  obtain _ | ⟨a, _ | ⟨b, rest⟩⟩ := args <;> cases h
  exact ⟨a, raw, rfl⟩

/-- A call with two arguments. -/
theorem Call.eq_pair {call : Call} (h : Arity.exactly 2 = .exactly call.args.length) :
    ∃ a b raw, call = ⟨[a, b], raw⟩ := by
  obtain ⟨args, raw⟩ := call
  obtain _ | ⟨a, _ | ⟨b, _ | ⟨c, rest⟩⟩⟩ := args <;> cases h
  exact ⟨a, b, raw, rfl⟩

namespace Target

/-! ### The `evm` dialect -/

namespace Evm

theorem unary_logs (name : String) (f : Word → Int) : (unary name f).Logs :=
  fun _ _ _ => (logs_arg _ _).bind fun _ => logs_pure _

theorem binary_logs (name : String) (f : Word → Word → Int) : (binary name f).Logs :=
  fun _ _ _ => (logs_arg _ _).bind fun _ => (logs_arg _ _).bind fun _ => logs_pure _

theorem modular_logs (name : String) (f : Word → Word → Word → Word) : (modular name f).Logs :=
  fun _ _ _ => (logs_arg _ _).bind fun _ => (logs_arg _ _).bind fun _ =>
    (logs_arg _ _).bind fun _ => logs_pure _

theorem constant_logs (name : String) (f : Setting → Word) : (constant name f).Logs :=
  fun _ _ _ => logs_pure _

theorem dataQuery_logs (name : String) (f : Nat × Nat → Word) : (dataQuery name f).Logs := by
  intro setting call _
  have hplace : Action.Logs (dataObject name setting call) := by
    unfold dataObject
    split
    · split
      · exact logs_pure _
      · exact logs_fail _
    · exact logs_fail _
  exact hplace.bind fun _ => logs_pure _

/-- A log stores nothing, as long as its title is not that of a store. -/
theorem logger_logs (name title : String) (topics : Nat) (htitle : '(' ∉ title.toList)
    (hother : ∀ stores : Stores, ∀ line a b, Replay.call? line = some (title, a, b) →
      stores.replayLine line = stores) : (logger name title topics).Logs := by
  intro setting call _
  apply logs_of_line title call.args
  · exact fun _ => rfl
  · intro m
    show m.stores = _
    rcases Replay.call?_title htitle call.args with hnone | ⟨a, b, hsome⟩
    · simp [Stores.replayLine, hnone]
    · rw [hother _ _ _ _ hsome]

theorem storage_logs : ∀ b ∈ storage, b.Logs := by
  simp only [storage, List.forall_mem_cons]
  refine ⟨fun _ _ _ => (logs_arg _ _).bind fun _ => logs_gets _, fun _ _ hcount => ?_, nofun⟩
  obtain ⟨key, value, raw, rfl⟩ := Call.eq_pair hcount
  apply logs_of_line "SSTORE" [key, value]
  · exact fun _ => rfl
  · intro m
    unfold Stores.replayLine
    rw [Replay.call?_callLine (by decide)]
    rfl

theorem memory_logs : ∀ b ∈ memory, b.Logs := by
  simp only [memory, List.forall_mem_cons]
  refine ⟨fun _ call _ => ?_, fun _ _ hcount => ?_, fun _ _ hcount => ?_, fun _ _ _ => logs_gets _, nofun⟩
  · apply (logs_arg call 0).bind
    intro offset
    split
    · exact logs_readMemory _ _ _
    · exact logs_pure 0
  · obtain ⟨offset, value, raw, rfl⟩ := Call.eq_pair hcount
    apply logs_store "MSTORE" .bigEndian offset 32 value (writeMemory .bigEndian offset Word.bytes value)
    · exact decide_eq_true_iff
    · intro stores
      unfold Stores.replayLine
      rw [Replay.call?_callLine (by decide)]
      rfl
    · exact fun _ => rfl
    · intro m
      show Stores.mk (m.memory.write .bigEndian offset (32 : Nat) value).cells m.storage = _
      rw [Memory.cells_write]
      rfl
  · obtain ⟨offset, value, raw, rfl⟩ := Call.eq_pair hcount
    apply logs_store "MSTORE8" .bigEndian offset 1 value (writeByte offset value)
    · exact decide_eq_true_iff
    · intro stores
      unfold Stores.replayLine
      rw [Replay.call?_callLine (by decide)]
      rfl
    · exact fun _ => rfl
    · intro m
      show Stores.mk (m.memory.writeByte offset value).cells m.storage = _
      rw [Memory.cells_writeByte]
      rfl

theorem environment_logs : ∀ b ∈ environment, b.Logs := by
  simp only [environment, List.forall_mem_cons]
  have hlog0 := logger_logs "log0" "LOG0" 0 (by decide) fun _ _ _ _ h => by
    simp [Stores.replayLine, h]
  have hlog1 := logger_logs "log1" "LOG1" 1 (by decide) fun _ _ _ _ h => by
    simp [Stores.replayLine, h]
  have hlog2 := logger_logs "log2" "LOG2" 2 (by decide) fun _ _ _ _ h => by
    simp [Stores.replayLine, h]
  refine ⟨fun _ call _ => (logs_arg call 0).bind fun _ => logs_pure _, constant_logs _ _,
    constant_logs _ _, constant_logs _ _, constant_logs _ _, fun _ _ _ => logs_pure 0, hlog0, hlog1, hlog2,
    nofun⟩

theorem builtins_logs : ∀ b ∈ builtins, b.Logs :=
  forall_builtins unary_logs binary_logs modular_logs memory_logs storage_logs environment_logs dataQuery_logs

end Evm

/-! ### The `wasm` dialect -/

namespace Wasm

theorem unary_logs (name : String) (width : Nat) (f : Nat → Int) : (unary name width f).Logs :=
  fun _ _ _ => (logs_arg _ _).bind fun _ => logs_pure _

theorem binary_logs (name : String) (width : Nat) (f : Nat → Nat → Int) : (binary name width f).Logs :=
  fun _ _ _ => (logs_arg _ _).bind fun _ => (logs_arg _ _).bind fun _ => logs_pure _

theorem drop_logs : (builtin "drop" 1 false fun _ => pure 0).Logs := fun _ _ _ => logs_pure 0

theorem load_logs (name : String) (size : Nat) : (load name size).Logs := by
  intro _ call _
  apply (logs_arg call 0).bind
  intro address
  split
  · exact logs_readMemory _ _ _
  · exact logs_pure 0

/-- A store logs what is left of its operand when that is cut to the size of the store. -/
theorem store_logs {name : String} {size : Nat} (hname : '(' ∉ name.toList)
    (hline : ∀ (stores : Stores) (line : String) (address value : Word),
      Replay.call? line = some (name, address, value) →
        stores.replayLine line = stores.write .littleEndian address size value) :
    (store name size).Logs := by
  intro _ _ hcount
  obtain ⟨address, operand, raw, rfl⟩ := Call.eq_pair hcount
  apply logs_store name .littleEndian address size (Word.low (8 * size) operand)
    (writeMemory .littleEndian address size (Word.low (8 * size) operand))
  · exact decide_eq_true_iff
  · exact fun stores => hline stores _ _ _ (Replay.call?_callLine hname _ _)
  · exact fun _ => rfl
  · intro m
    show Stores.mk (m.memory.write .littleEndian address size _).cells m.storage = _
    rw [Memory.cells_write]
    rfl

theorem memory_logs : ∀ b ∈ memory, b.Logs := by
  simp only [memory, List.forall_mem_cons]
  refine ⟨load_logs _ _, load_logs _ _, ?_, ?_, ?_, nofun⟩
  · exact store_logs (by decide) fun _ _ _ _ h => by simp [Stores.replayLine, h]
  · exact store_logs (by decide) fun _ _ _ _ h => by simp [Stores.replayLine, h]
  · exact store_logs (by decide) fun _ _ _ _ h => by simp [Stores.replayLine, h]

theorem builtins_logs : ∀ b ∈ builtins, b.Logs :=
  forall_builtins unary_logs binary_logs drop_logs memory_logs

end Wasm

/-- A call of a builtin of a target logs what it stores. -/
theorem evaluate_logs (target : Target) {name : String} {builtin : Builtin}
    (hfind : target.dialect.find? name = some builtin) (setting : Setting) (call : Call) :
    Action.Logs (target.dialect.evaluate setting builtin call) := by
  have hbuiltin : builtin.Logs := holds_of_find? Evm.builtins_logs Wasm.builtins_logs target hfind
  unfold Dialect.evaluate
  rw [if_pos (owns_of_find? target hfind)]
  split
  · exact hbuiltin setting call ‹_›
  · exact logs_fail _

end Target

/-! ### Runs -/

/-- The line of a limit stores nothing. -/
theorem Stores.replayLine_limit (stores : Stores) (limit : Limit) : stores.replayLine limit.line = stores := by
  simp [replayLine, Replay.call?_eq_none limit.paren_not_mem_line]

/-- What leaves the line of a limit and stores nothing. -/
theorem Machine.logs_limit {m n : Machine} (limit : Limit)
    (htrace : n.trace.toList = m.trace.toList ++ [limit.line]) (hstores : n.stores = m.stores) :
    m.Logs n [limit.line] where
  trace := htrace
  stores := by rw [hstores, Stores.replay_singleton, Stores.replayLine_limit]

/-- Whatever is done in a run, the lines that it leaves account for all that it stores. -/
theorem log_course (target : Target) {ctx : Context} (hctx : ctx.dialect = target.dialect) :
    ctx.Course fun m n => ∃ lines, m.Logs n lines where
  refl m := ⟨[], .refl m⟩
  trans := by
    rintro a b c ⟨lines, h⟩ ⟨more, h'⟩
    exact ⟨lines ++ more, h.trans h'⟩
  signal m _ := ⟨[], .of_eq rfl rfl⟩
  count m := by
    rw [countStep_apply]
    split
    · exact ⟨_, Machine.logs_limit .steps (Machine.trace_log _ _) rfl⟩
    · exact ⟨[], .of_eq rfl rfl⟩
  deepest m := ⟨_, Machine.logs_limit .nesting (m.trace_log _) rfl⟩
  builtin hfind call m := by
    rw [hctx] at hfind ⊢
    obtain ⟨lines, hlines, -⟩ := target.evaluate_logs hfind ctx.setting call m
    exact ⟨lines, hlines⟩

/-- A part that starts with nothing stored and an empty trace has its stores told by the trace. -/
theorem Run.guarded_log {α : Type} {options : Options} {x : Exec α} {report : Report α}
    (hx : x.Keeps fun m n => ∃ lines, m.Logs n lines) (h : Run.guarded options x = .ok report) :
    report.machine.stores = Stores.replay {} report.machine.trace.toList := by
  obtain ⟨lines, htrace, hstores⟩ := hx {}
  rw [(Run.guarded_eq_ok h).1, htrace, hstores]
  rfl

/-- The trace is a complete log of what is stored: replayed from nothing, it gives the memory and the
storage that the run ends with, however it ends. -/
theorem trace_is_write_log (depth : Nat) (program : Block) (doc : Option Json) :
    (∀ report, interpret depth program doc = .ok report →
      report.machine.stores = Stores.replay {} report.machine.trace.toList) ∧
    ∀ name args report, callFunction depth program name args doc = .ok report →
      report.machine.stores = Stores.replay {} report.machine.trace.toList := by
  constructor
  · intro report hreport
    obtain ⟨options, -, hguarded⟩ := Run.interpret_eq_ok hreport
    exact Run.guarded_log ((log_course options.target rfl).program depth program) hguarded
  · intro name args report hreport
    obtain ⟨options, -, hguarded⟩ := Run.callFunction_eq_ok hreport
    exact Run.guarded_log ((log_course options.target rfl).call depth program name _) hguarded

/-- A program that stores a word in storage and overwrites a byte of a word in memory. -/
def storing : Block :=
  let literal (text : String) : Expr := .literal ⟨.number, text⟩
  ⟨[], [.expression (.call "sstore" [literal "1", literal "2"]),
    .expression (.call "mstore" [literal "64", literal "3"]),
    .expression (.call "mstore8" [literal "64", literal "511"])]⟩

theorem trace_is_write_log_storing :
    ∃ report, interpret 8 storing none = .ok report ∧
      report.machine.stores = Stores.replay {} report.machine.trace.toList :=
  ⟨_, rfl, (trace_is_write_log 8 storing none).1 _ rfl⟩

end BlockIR
