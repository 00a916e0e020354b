import BlockIR.Proofs.Executed
import BlockIR.Proofs.LastWrite
import Mathlib.Order.Lattice.Nat

/-! The size of memory is the high-water mark of the accesses.

An access raises the size of memory to its end, in whole words, and nothing else
changes the size. So after any calls from a fresh machine it is the least multiple
of a word that no access goes beyond, and so it is after a run of either target, the
accesses being those in range of the calls that the run makes. -/
namespace BlockIR

/-! ### Whole words -/

namespace Memory

theorem roundUp_eq (n : Nat) : roundUp n = 32 * ((n + 31) / 32) := Nat.mul_comm _ _

theorem le_roundUp (n : Nat) : n ≤ roundUp n := by
  unfold roundUp wordBytes
  omega

theorem roundUp_mono {m n : Nat} (h : m ≤ n) : roundUp m ≤ roundUp n :=
  Nat.mul_le_mul_right _ (Nat.div_le_div_right (by omega))

theorem size_touch (memory : Memory) (offset : Nat) {size : Int} (h : size ≠ 0) :
    (memory.touch offset size).size = max memory.size (roundUp (offset + size).toNat) := by
  unfold touch
  rw [if_neg h]

/-- A size that no end goes beyond, and that is that of an end if it is not zero, is that of the largest end. -/
theorem exists_isLUB {ends : Set Nat} {size : Nat} (habove : ∀ e ∈ ends, roundUp e ≤ size)
    (hattained : size = 0 ∨ ∃ e ∈ ends, roundUp e = size) :
    ∃ E, IsLUB ends E ∧ size = 32 * ((E + 31) / 32) := by
  have hbounded : BddAbove ends := ⟨size, fun e he => (le_roundUp e).trans (habove e he)⟩
  have hlub := isLUB_csSup' hbounded
  refine ⟨sSup ends, hlub, ?_⟩
  rw [← roundUp_eq]
  apply le_antisymm
  · rcases hattained with rfl | ⟨e, he, rfl⟩
    · exact Nat.zero_le _
    · exact roundUp_mono (hlub.1 he)
  · rcases ends.eq_empty_or_nonempty with rfl | hsome
    · rw [csSup_empty]
      exact Nat.zero_le _
    · exact habove _ (Nat.sSup_mem hsome hbounded)

end Memory

/-! ### Calls on a fresh machine -/

namespace MemoryCall
open Memory

/-- The region that a call accesses: looking at a single byte is no access. -/
def region? : MemoryCall → Option (Nat × Int)
  | read _ offset size | write _ offset size _ => some (offset, size)
  | readByte _ => none
  | writeByte offset _ => some (offset, 1)

/-- Where the accesses end whose size counts, none before 0. -/
def ends (counts : Int → Prop) (calls : List MemoryCall) : Set Nat :=
  {e | ∃ call ∈ calls, ∃ offset size, call.region? = some (offset, size) ∧ counts size ∧
    e = (offset + size).toNat}

/-- The size of memory after calls on a fresh machine. -/
def sizeAfter (calls : List MemoryCall) : Nat := (performAll calls {}).2.memory.size

theorem size_effect_of_none {call : MemoryCall} (h : call.region? = none) (memory : Memory) :
    (call.effect memory).size = memory.size := by
  cases call <;> first | rfl | cases h

theorem size_effect_of_some {call : MemoryCall} {offset : Nat} {size : Int} (h : call.region? = some (offset, size))
    (memory : Memory) : (call.effect memory).size = (memory.touch offset size).size := by
  cases call <;> cases h
  · rfl
  · exact size_putDigits ..
  · rfl

/-- A call leaves the size of memory, or makes it that of its own end. -/
theorem size_effect (call : MemoryCall) (memory : Memory) :
    memory.size ≤ (call.effect memory).size ∧ ((call.effect memory).size = memory.size ∨
      ∃ e ∈ ends (· ≠ 0) [call], roundUp e = (call.effect memory).size) ∧
      ∀ e ∈ ends (· ≠ 0) [call], roundUp e ≤ (call.effect memory).size := by
  rcases hregion : call.region? with _ | ⟨offset, size⟩
  · rw [size_effect_of_none hregion]
    refine ⟨le_rfl, .inl rfl, ?_⟩
    rintro e ⟨_, hcall, _, _, hsome, -, -⟩
    rw [List.mem_singleton.mp hcall, hregion] at hsome
    cases hsome
  · rw [size_effect_of_some hregion]
    by_cases hsize : size = 0
    · have htouch : memory.touch offset size = memory := if_pos hsize
      rw [htouch]
      refine ⟨le_rfl, .inl rfl, ?_⟩
      rintro e ⟨_, hcall, _, _, hsome, hcounts, -⟩
      rw [List.mem_singleton.mp hcall, hregion] at hsome
      cases hsome
      exact absurd hsize hcounts
    · rw [size_touch memory offset hsize]
      refine ⟨Nat.le_max_left _ _, ?_, ?_⟩
      · rcases Nat.le_total memory.size (roundUp (offset + size).toNat) with hle | hle
        · right
          exact ⟨_, ⟨call, List.mem_singleton_self _, offset, size, hregion, hsize, rfl⟩,
            (Nat.max_eq_right hle).symm⟩
        · exact .inl (Nat.max_eq_left hle)
      · rintro e ⟨_, hcall, _, _, hsome, -, rfl⟩
        rw [List.mem_singleton.mp hcall, hregion] at hsome
        cases hsome
        exact Nat.le_max_right _ _

theorem sizeAfter_eq (calls : List MemoryCall) :
    sizeAfter calls = (calls.foldl (fun memory call => call.effect memory) ({} : Memory)).size := by
  unfold sizeAfter
  rw [performAll_apply]

theorem sizeAfter_append_singleton (calls : List MemoryCall) (call : MemoryCall) :
    ∃ memory : Memory, memory.size = sizeAfter calls ∧ sizeAfter (calls ++ [call]) = (call.effect memory).size := by
  refine ⟨calls.foldl (fun memory call => call.effect memory) {}, (sizeAfter_eq calls).symm, ?_⟩
  rw [sizeAfter_eq, List.foldl_append]
  rfl

theorem ends_append (counts : Int → Prop) (calls more : List MemoryCall) :
    ends counts (calls ++ more) = ends counts calls ∪ ends counts more := by
  ext e
  simp only [ends, List.mem_append, Set.mem_ofPred_eq, Set.mem_union, or_and_right, exists_or]

/-- The size is never less than an access needs, and more only if another access needed it. -/
theorem sizeAfter_spec (calls : List MemoryCall) :
    (∀ e ∈ ends (· ≠ 0) calls, roundUp e ≤ sizeAfter calls) ∧
      (sizeAfter calls = 0 ∨ ∃ e ∈ ends (· ≠ 0) calls, roundUp e = sizeAfter calls) := by
  induction calls using List.reverseRecOn with
  | nil => exact ⟨by rintro e ⟨_, ⟨⟩, _⟩, .inl rfl⟩
  | append_singleton calls call ih =>
    obtain ⟨hbelow, hattained⟩ := ih
    obtain ⟨memory, hbefore, hafter⟩ := sizeAfter_append_singleton calls call
    obtain ⟨hgrows, hsame, hreached⟩ := size_effect call memory
    rw [hafter, ends_append]
    rw [← hbefore] at hbelow hattained
    constructor
    · rintro e (he | he)
      · exact (hbelow e he).trans hgrows
      · exact hreached e he
    · rcases hsame with hsame | ⟨e, he, hsame⟩
      · rw [hsame]
        exact hattained.imp_right fun ⟨e, he, heq⟩ => ⟨e, .inl he, heq⟩
      · exact .inr ⟨e, .inr he, hsame⟩

theorem sizeAfter_mono (calls more : List MemoryCall) : sizeAfter calls ≤ sizeAfter (calls ++ more) := by
  induction more using List.reverseRecOn with
  | nil => rw [List.append_nil]
  | append_singleton more call ih =>
    obtain ⟨memory, hbefore, hafter⟩ := sizeAfter_append_singleton (calls ++ more) call
    rw [← List.append_assoc, hafter]
    exact ih.trans (hbefore ▸ (size_effect call memory).1)

/-- A place that is written lies in a region that counts. -/
theorem lt_end_of_byteAt {call : MemoryCall} {place : Nat} (h : (call.byteAt? place).isSome) :
    ∃ e ∈ ends (· ≠ 0) [call], place < e := by
  cases call with
  | read _ _ _ => cases h
  | readByte _ => cases h
  | write order offset size value =>
    rw [byteAt?] at h
    split at h
    · exact ⟨_, ⟨_, List.mem_singleton_self _, offset, size, rfl, by omega, rfl⟩, by omega⟩
    · cases h
  | writeByte offset value =>
    rw [byteAt?] at h
    split at h
    · exact ⟨_, ⟨_, List.mem_singleton_self _, offset, 1, rfl, by decide, rfl⟩, by omega⟩
    · cases h

end MemoryCall

/-! ### Calls of builtins -/

namespace Action
variable {α β : Type}

/-- An action that leaves the memory alone. -/
def Quiet (x : Action α) : Prop := ∀ m, (x m).2.memory = m.memory

theorem quiet_pure (a : α) : Quiet (pure a : Action α) := fun _ => rfl

theorem quiet_fail (e : Error) : Quiet (Effect.fail e : Action α) := fun _ => rfl

theorem quiet_gets (f : Machine → α) : Quiet (Effect.gets f : Action α) := fun _ => rfl

theorem quiet_logCall (name : String) (args : List Word) : Quiet (logCall name args) := fun _ => rfl

theorem quiet_store (key value : Word) : Quiet (Effect.modify (Machine.store · key value) : Action Unit) :=
  fun _ => rfl

theorem Quiet.bind {x : Action α} {f : α → Action β} (hx : Quiet x) (hf : ∀ a, Quiet (f a)) :
    Quiet (x >>= f) := by
  intro m
  have h := hx m
  rw [Effect.bind_apply]
  rcases hm : x m with ⟨_ | a, n⟩ <;> rw [hm] at h
  · exact h
  · exact (hf a n).trans h

theorem quiet_arg (call : Call) (position : Nat) : Quiet (call.arg position) := by
  unfold Call.arg
  split
  · exact quiet_pure _
  · exact quiet_fail _

end Action

open BlockIR.Action

/-- A builtin that leaves the memory alone. -/
def Builtin.Quiet (builtin : Builtin) : Prop := ∀ setting call, Action.Quiet (builtin.body setting call)

/-- A builtin that accesses a region of that size where its first argument says, if that is in range. -/
def Builtin.Accesses (builtin : Builtin) (size : Nat) : Prop :=
  ∀ setting call (m : Machine), builtin.arity = .exactly call.args.length →
    ∃ offset, call.args.head? = some offset ∧
      if offset + size ≤ 2 ^ 32 then
        (builtin.body setting call m).2.memory.size = max m.memory.size (Memory.roundUp (offset + size))
      else (builtin.body setting call m).2.memory = m.memory

namespace Target

/-- The size of the region that a builtin accesses, if it accesses memory. -/
def accessSize? : Target → String → Option Nat
  | evm, "mload" => some 32
  | evm, "mstore" => some 32
  | evm, "mstore8" => some 1
  | wasm, "i64.load" => some 8
  | wasm, "i32.load" => some 4
  | wasm, "i64.store" => some 8
  | wasm, "i32.store" => some 4
  | wasm, "i64.store8" => some 1
  | _, _ => none

/-- The region that a call of a builtin is about, which starts at its first argument. The call has to have as
many arguments as the builtin takes. -/
def region? (target : Target) (name : String) (values : List Word) : Option (Nat × Nat) := do
  let size ← target.accessSize? name
  let builtin ← target.dialect.find? name
  if builtin.arity = .exactly values.length then values.head?.map (·, size) else none

theorem Evm.quiet {b : Builtin} (hmem : b ∈ builtins) (hname : evm.accessSize? b.name = none) : b.Quiet := by
  suffices h : ∀ b ∈ builtins, evm.accessSize? b.name = none → b.Quiet from h b hmem hname
  apply Evm.forall_builtins
  · exact fun _ _ _ _ _ => (quiet_arg _ _).bind fun _ => quiet_pure _
  · exact fun _ _ _ _ _ => (quiet_arg _ _).bind fun _ => (quiet_arg _ _).bind fun _ => quiet_pure _
  · exact fun _ _ _ _ _ =>
      (quiet_arg _ _).bind fun _ => (quiet_arg _ _).bind fun _ => (quiet_arg _ _).bind fun _ => quiet_pure _
  · simp only [memory, List.forall_mem_cons]
    exact ⟨nofun, nofun, nofun, fun _ _ _ => quiet_gets _, nofun⟩
  · simp only [storage, List.forall_mem_cons]
    refine ⟨fun _ _ _ => ?_, fun _ _ _ => ?_, nofun⟩
    · exact (quiet_arg _ _).bind fun _ => quiet_gets _
    · exact (quiet_logCall _ _).bind fun _ => (quiet_arg _ _).bind fun _ => (quiet_arg _ _).bind fun _ =>
        (quiet_store _ _).bind fun _ => quiet_pure _
  · have hlogger (name title : String) (topics : Nat) : (logger name title topics).Quiet := fun _ _ =>
      (quiet_logCall _ _).bind fun _ => quiet_pure _
    simp only [environment, List.forall_mem_cons]
    exact ⟨fun _ _ _ => (quiet_arg _ _).bind fun _ => quiet_pure _, fun _ _ _ => quiet_pure _,
      fun _ _ _ => quiet_pure _, fun _ _ _ => quiet_pure _, fun _ _ _ => quiet_pure _, fun _ _ _ => quiet_pure _,
      fun _ => hlogger _ _ _, fun _ => hlogger _ _ _, fun _ => hlogger _ _ _, nofun⟩
  · refine fun name f _ setting call => Quiet.bind ?_ fun _ => quiet_pure _
    unfold dataObject
    split
    · split
      · exact quiet_pure _
      · exact quiet_fail _
    · exact quiet_fail _

theorem Wasm.quiet {b : Builtin} (hmem : b ∈ builtins) (hname : wasm.accessSize? b.name = none) : b.Quiet := by
  suffices h : ∀ b ∈ builtins, wasm.accessSize? b.name = none → b.Quiet from h b hmem hname
  apply Wasm.forall_builtins
  · exact fun _ _ _ _ _ _ => (quiet_arg _ _).bind fun _ => quiet_pure _
  · exact fun _ _ _ _ _ _ => (quiet_arg _ _).bind fun _ => (quiet_arg _ _).bind fun _ => quiet_pure _
  · exact fun _ _ _ => quiet_pure _
  · simp only [memory, List.forall_mem_cons]
    exact ⟨nofun, nofun, nofun, nofun, nofun, nofun⟩

theorem size_touch_natCast (memory : Memory) (offset : Nat) {size : Nat} (h : 0 < size) :
    (memory.touch offset size).size = max memory.size (Memory.roundUp (offset + size)) :=
  Memory.size_touch memory offset (by omega)

/-- A load from a region. -/
theorem accesses_load (order : ByteOrder) {offset size : Nat} (hsize : 0 < size) {inside : Bool}
    (hinside : inside = true ↔ offset + size ≤ 2 ^ 32) (m : Machine) :
    if offset + size ≤ 2 ^ 32 then
      ((if inside then readMemory order offset size else pure 0 : Action Word) m).2.memory.size =
        max m.memory.size (Memory.roundUp (offset + size))
    else ((if inside then readMemory order offset size else pure 0 : Action Word) m).2.memory = m.memory := by
  rcases inside with _ | _
  · rw [if_neg fun h => nomatch hinside.mpr h]
    rfl
  · rw [if_pos (hinside.mp rfl)]
    exact size_touch_natCast m.memory offset hsize

/-- A store into a region, after its line. -/
theorem accesses_store (title : String) (args : List Word) {offset size : Nat} (hsize : 0 < size) {inside : Bool}
    (hinside : inside = true ↔ offset + size ≤ 2 ^ 32) {write : Memory → Memory}
    (hwrite : ∀ memory, (write memory).size = (memory.touch offset size).size) (m : Machine) :
    if offset + size ≤ 2 ^ 32 then
      ((do
        logCall title args
        Effect.when inside (Effect.modify fun m => { m with memory := write m.memory })
        pure 0 : Action Word) m).2.memory.size = max m.memory.size (Memory.roundUp (offset + size))
    else
      ((do
        logCall title args
        Effect.when inside (Effect.modify fun m => { m with memory := write m.memory })
        pure 0 : Action Word) m).2.memory = m.memory := by
  rcases inside with _ | _
  · rw [if_neg fun h => nomatch hinside.mpr h]
    rfl
  · rw [if_pos (hinside.mp rfl)]
    exact (hwrite m.memory).trans (size_touch_natCast m.memory offset hsize)

theorem Evm.accesses {name : String} {size : Nat} (h : evm.accessSize? name = some size) :
    ∃ b, evm.dialect.find? name = some b ∧ b.Accesses size := by
  unfold accessSize? at h
  split at h <;> cases h <;> rename_i heq <;> cases heq
  · refine ⟨_, rfl, fun setting call m hcount => ?_⟩
    obtain ⟨offset, raw, rfl⟩ := Call.eq_single hcount
    exact ⟨offset, rfl, accesses_load .bigEndian (by decide) reaches_iff m⟩
  · refine ⟨_, rfl, fun setting call m hcount => ?_⟩
    obtain ⟨offset, value, raw, rfl⟩ := Call.eq_pair hcount
    exact ⟨offset, rfl, accesses_store "MSTORE" _ (by decide) reaches_iff (fun _ => Memory.size_putDigits ..) m⟩
  · refine ⟨_, rfl, fun setting call m hcount => ?_⟩
    obtain ⟨offset, value, raw, rfl⟩ := Call.eq_pair hcount
    exact ⟨offset, rfl, accesses_store "MSTORE8" _ (by decide) reaches_iff (fun _ => Memory.size_put ..) m⟩

theorem Wasm.load_accesses (name : String) {size : Nat} (hsize : 0 < size) : (load name size).Accesses size := by
  intro setting call m hcount
  obtain ⟨address, raw, rfl⟩ := Call.eq_single hcount
  exact ⟨address, rfl, accesses_load .littleEndian hsize reaches_iff m⟩

theorem Wasm.store_accesses (name : String) {size : Nat} (hsize : 0 < size) : (store name size).Accesses size := by
  intro setting call m hcount
  obtain ⟨address, operand, raw, rfl⟩ := Call.eq_pair hcount
  exact ⟨address, rfl, accesses_store name _ hsize reaches_iff (fun _ => Memory.size_putDigits ..) m⟩

theorem Wasm.accesses {name : String} {size : Nat} (h : wasm.accessSize? name = some size) :
    ∃ b, wasm.dialect.find? name = some b ∧ b.Accesses size := by
  unfold accessSize? at h
  split at h <;> cases h <;> rename_i heq <;> cases heq
  · exact ⟨_, rfl, load_accesses _ (by decide)⟩
  · exact ⟨_, rfl, load_accesses _ (by decide)⟩
  · exact ⟨_, rfl, store_accesses _ (by decide)⟩
  · exact ⟨_, rfl, store_accesses _ (by decide)⟩
  · exact ⟨_, rfl, store_accesses _ (by decide)⟩

/-- A builtin either has nothing to do with memory or accesses a region of its size. -/
theorem quiet_or_accesses (target : Target) {name : String} {b : Builtin} (hfind : target.dialect.find? name = some b) :
    (target.accessSize? name = none ∧ b.Quiet) ∨ ∃ size, target.accessSize? name = some size ∧ b.Accesses size := by
  have hname : b.name = name := by simpa using List.find?_some hfind
  have hmem := List.mem_of_find?_eq_some hfind
  rcases hsize : target.accessSize? name with _ | size
  · left
    rw [← hname] at hsize
    refine ⟨rfl, ?_⟩
    cases target
    · exact Evm.quiet hmem hsize
    · exact Wasm.quiet hmem hsize
  · right
    obtain ⟨b', hfind', haccesses⟩ : ∃ b, target.dialect.find? name = some b ∧ b.Accesses size := by
      cases target
      · exact Evm.accesses hsize
      · exact Wasm.accesses hsize
    cases hfind.symm.trans hfind'
    exact ⟨size, rfl, haccesses⟩

/-- What a call of a builtin does to the memory: if its region is in range, the size covers it afterwards;
otherwise the memory is left alone. -/
theorem memory_evaluate (target : Target) {name : String} {b : Builtin} (hfind : target.dialect.find? name = some b)
    (setting : Setting) (call : Call) (m : Machine) :
    (∃ offset size, target.region? name call.args = some (offset, size) ∧ offset + size ≤ 2 ^ 32 ∧
      (target.dialect.evaluate setting b call m).2.memory.size =
        max m.memory.size (Memory.roundUp (offset + size))) ∨
    ((∀ offset size, target.region? name call.args = some (offset, size) → 2 ^ 32 < offset + size) ∧
      (target.dialect.evaluate setting b call m).2.memory = m.memory) := by
  unfold Dialect.evaluate
  rw [if_pos (owns_of_find? target hfind)]
  by_cases hcount : b.arity = .exactly call.args.length
  · rw [if_pos hcount]
    rcases target.quiet_or_accesses hfind with ⟨hnone, hquiet⟩ | ⟨size, hsize, haccesses⟩
    · exact .inr ⟨fun offset size h => absurd h (by simp [region?, hnone]), hquiet setting call m⟩
    · obtain ⟨offset, hfirst, hmemory⟩ := haccesses setting call m hcount
      have hregion : target.region? name call.args = some (offset, size) := by
        simp [region?, hsize, hfind, hcount, hfirst]
      split at hmemory
      · exact .inl ⟨offset, size, hregion, ‹_›, hmemory⟩
      · right
        refine ⟨fun offset' size' h => ?_, hmemory⟩
        cases hregion.symm.trans h
        omega
  · rw [if_neg hcount]
    exact .inr ⟨fun offset size h => absurd h (by simp [region?, hfind, hcount]), rfl⟩

end Target

/-! ### Runs -/

namespace Run
variable {α : Type} {ctx : Context} {target : Target} {x : Runner → Exec α} {depth : Nat}

/-- Where the accesses in range end of the calls that a run makes. -/
def accessEnds (target : Target) (ctx : Context) (x : Runner → Exec α) (depth : Nat) : Set Nat :=
  {e | ∃ name values args m offset size, Makes ctx x depth name values args m ∧
    target.region? name values = some (offset, size) ∧ offset + size ≤ 2 ^ 32 ∧ e = offset + size}

/-- The size of memory never decreases. -/
theorem size_course (hdialect : ctx.dialect = target.dialect) :
    ctx.Course fun m n => m.memory.size ≤ n.memory.size where
  refl _ := le_rfl
  trans := le_trans
  signal _ _ := le_rfl
  count m := by
    rw [countStep_apply]
    split <;> exact le_rfl
  deepest _ := le_rfl
  builtin {name builtin} hfind call m := by
    rw [hdialect] at hfind ⊢
    rcases target.memory_evaluate hfind ctx.setting call m with ⟨_, _, -, -, hsize⟩ | ⟨-, hsame⟩
    · rw [hsize]
      exact Nat.le_max_left _ _
    · rw [hsame]

/-- Apart from builtins nothing makes the size of memory what it was not. -/
theorem size_ne_course (ctx : Context) (size : Nat) :
    ctx.bare.Course fun m n => m.memory.size ≠ size → n.memory.size ≠ size where
  refl _ := id
  trans h h' := h' ∘ h
  signal _ _ := id
  count m := by
    rw [countStep_apply]
    split <;> exact id
  deepest _ := id
  builtin hfind := nomatch hfind

/-- What a call does that a run makes. -/
theorem Makes.memory_after (hdialect : ctx.dialect = target.dialect) {name : String} {values : List Word}
    {args : List Expr} {m : Machine} (h : Makes ctx x depth name values args m) :
    (∃ offset size, target.region? name values = some (offset, size) ∧ offset + size ≤ 2 ^ 32 ∧
      (ctx.after name values args m).memory.size = max m.memory.size (Memory.roundUp (offset + size))) ∨
    ((∀ offset size, target.region? name values = some (offset, size) → 2 ^ 32 < offset + size) ∧
      (ctx.after name values args m).memory = m.memory) := by
  have hfound : (ctx.dialect.find? name).isSome := by
    cases h
    assumption
  obtain ⟨b, hfind⟩ := Option.isSome_iff_exists.mp hfound
  have hafter : ctx.after name values args m =
      (target.dialect.evaluate ctx.setting b ⟨values, args.map .expression⟩ m).2 := by
    unfold Context.after
    rw [hfind, hdialect]
  rw [hafter]
  exact target.memory_evaluate (hdialect ▸ hfind) ctx.setting ⟨values, args.map .expression⟩ m

/-- At the end of a run the size of memory is that of the furthest access in range. -/
theorem size_isLUB (hdialect : ctx.dialect = target.dialect) (hx : ctx.Carries x) (hbare : ctx.bare.Carries x)
    (hasks : AsksAll x) :
    ∃ E, IsLUB (accessEnds target ctx x depth) E ∧
      (x (ctx.perform depth) {}).2.machine.memory.size = 32 * ((E + 31) / 32) := by
  apply Memory.exists_isLUB
  · rintro e ⟨name, values, args, m, offset, size, hmade, hregion, hinside, rfl⟩
    refine le_trans ?_ (hmade.keeps (size_course hdialect) hx)
    rcases hmade.memory_after hdialect with ⟨_, _, hsame, -, hsize⟩ | ⟨hout, -⟩
    · cases hregion.symm.trans hsame
      rw [hsize]
      exact Nat.le_max_right _ _
    · exact absurd (hout offset size hregion) (by omega)
  · -- If no access ended at the final size, no call would make the size what it finally is.
    apply Classical.byContradiction
    intro hnot
    obtain ⟨hpos, hends⟩ := not_or.mp hnot
    refine keeps_of_made (size_ne_course ctx _) hbare hasks ?_ (Ne.symm hpos) rfl
    intro name values args m h hne
    rcases h.memory_after hdialect with ⟨offset, size, hregion, hinside, hsize⟩ | ⟨-, hsame⟩
    · rw [hsize]
      rcases Nat.le_total m.memory.size (Memory.roundUp (offset + size)) with hle | hle
      · rw [Nat.max_eq_right hle]
        exact fun heq => hends ⟨_, ⟨name, values, args, m, offset, size, h, hregion, hinside, rfl⟩, heq⟩
      · rwa [Nat.max_eq_left hle]
    · rwa [hsame]

end Run

/-- The size of memory is exactly the high-water mark. After any calls on a fresh machine it is the least
multiple of 32 that reaches the largest end of an access whose size is not 0, so that it never
decreases and every place ever written lies below it. After a run of either target, however it ends, the accesses that
count are those in range of the builtin calls that the run makes; one beyond `2 ^ 32` leaves the memory alone. -/
theorem memory_size_is_high_water :
    (∀ calls : List MemoryCall,
      (∃ E, IsLUB (MemoryCall.ends (· ≠ 0) calls) E ∧ MemoryCall.sizeAfter calls = 32 * ((E + 31) / 32)) ∧
      (∀ more, MemoryCall.sizeAfter calls ≤ MemoryCall.sizeAfter (calls ++ more)) ∧
      ∀ call ∈ calls, ∀ place, (call.byteAt? place).isSome → place < MemoryCall.sizeAfter calls) ∧
    (∀ (options : Options) (depth : Nat) (program : Block),
      (∃ E, IsLUB (Run.accessEnds options.target (Run.context options)
          (Run.outermost (Run.context options) program) depth) E ∧
        (Run.program (Run.context options) depth program {}).2.machine.memory.size = 32 * ((E + 31) / 32)) ∧
      ∀ (name : String) (args : List Word),
        ∃ E, IsLUB (Run.accessEnds options.target (Run.context options) (Run.entry program name args) depth) E ∧
          (Run.call (Run.context options) depth program name args {}).2.machine.memory.size = 32 * ((E + 31) / 32)) ∧
    ∀ (target : Target) (name : String) (builtin : Builtin), target.dialect.find? name = some builtin →
      ∀ (setting : Setting) (call : Call) (offset size : Nat), target.region? name call.args = some (offset, size) →
        2 ^ 32 ≤ offset + size - 1 → ∀ m : Machine,
          (target.dialect.evaluate setting builtin call m).2.memory = m.memory := by
  refine ⟨fun calls => ⟨?_, MemoryCall.sizeAfter_mono calls, fun call hcall place hplace => ?_⟩,
    fun options depth program => ⟨?_, fun name args => ?_⟩, ?_⟩
  · obtain ⟨hbelow, hattained⟩ := MemoryCall.sizeAfter_spec calls
    exact Memory.exists_isLUB hbelow hattained
  · obtain ⟨e, ⟨_, hsingle, hregion⟩, hless⟩ := MemoryCall.lt_end_of_byteAt hplace
    rw [List.mem_singleton.mp hsingle] at hregion
    have hreached := (MemoryCall.sizeAfter_spec calls).1 e ⟨call, hcall, hregion⟩
    exact hless.trans_le ((Memory.le_roundUp e).trans hreached)
  · exact Run.size_isLUB rfl (Run.outermost_carries _ program)
      (Run.outermost_bare _ program ▸ Run.outermost_carries _ program) (Run.outermost_asksAll _ program)
  · exact Run.size_isLUB rfl (Run.entry_carries _ program name args) (Run.entry_carries _ program name args)
      (Run.entry_asksAll program name args)
  · intro target name builtin hfind setting call offset size hregion hbeyond m
    rcases target.memory_evaluate hfind setting call m with ⟨_, _, hsame, hinside, -⟩ | ⟨-, hsame⟩
    · cases hregion.symm.trans hsame
      omega
    · exact hsame

/-- A word over the end of the first word of memory, and a store over the end of memory. -/
theorem memory_size_is_high_water_sample :
    32 < MemoryCall.sizeAfter [.write .bigEndian 31 2 5] ∧
    ∃ builtin, Target.evm.dialect.find? "mstore" = some builtin ∧
      ∀ m : Machine, (Target.evm.dialect.evaluate {} builtin ⟨[2 ^ 32 - 31, 1], []⟩ m).2.memory = m.memory := by
  refine ⟨(memory_size_is_high_water.1 [.write .bigEndian 31 2 5]).2.2 _ (List.mem_singleton_self _) 32 rfl, ?_⟩
  have hsize : Target.evm.accessSize? "mstore" = some 32 := rfl
  obtain ⟨builtin, hfind, -⟩ := Target.Evm.accesses hsize
  have hbeyond := memory_size_is_high_water.2.2 .evm "mstore" builtin hfind {} ⟨[2 ^ 32 - 31, 1], []⟩
    (2 ^ 32 - 31) 32 rfl (by decide)
  exact ⟨builtin, hfind, hbeyond⟩

/-- It is not the accesses of a positive size alone that count: a region of negative size has no byte, but its end
counts all the same. -/
theorem negative_sizes_count :
    ¬∀ calls : List MemoryCall,
      ∃ E, IsLUB (MemoryCall.ends (0 < ·) calls) E ∧ MemoryCall.sizeAfter calls = 32 * ((E + 31) / 32) := by
  intro h
  obtain ⟨E, hlub, hsize⟩ := h [.read .bigEndian 100 (-50)]
  have hnone : MemoryCall.ends (0 < ·) [.read .bigEndian 100 (-50)] = ∅ := by
    rw [Set.eq_empty_iff_forall_notMem]
    rintro e ⟨_, hcall, offset, size, hregion, hpositive, -⟩
    rw [List.mem_singleton.mp hcall] at hregion
    cases hregion
    exact absurd hpositive (by decide)
  have hzero : E ≤ 0 := hlub.2 (hnone ▸ nofun)
  have hreached : MemoryCall.sizeAfter [.read .bigEndian 100 (-50)] = 64 := rfl
  rw [Nat.le_zero.mp hzero, hreached] at hsize
  exact absurd hsize (by decide)

end BlockIR
