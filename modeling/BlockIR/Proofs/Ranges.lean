import BlockIR.Proofs.Builtins
import BlockIR.Options
import BlockIR.Proofs.Reading
import Mathlib.Algebra.Order.Ring.Nat

/-! Ranges: which words and which places of memory an action can bring about.

A machine is in range (`Machine.InRange`) when the keys and values of its storage
are words, its memory ends at a multiple of a word that is at most `2 ^ 32`, and
every byte that was written lies before that end. Called with words, in a setting
of words, each builtin of both targets gives a word and leaves a machine in range
in range (`Target.evaluate_inRange`). The builtins of the `wasm` dialect that are
named for a width give numbers of that width, whatever they are called with
(`Target.evaluate_width`). -/
namespace BlockIR

/-! ### What is in range -/

/-- Memory ends at a word boundary, at `2 ^ 32` at most, and nothing is written beyond. -/
structure Memory.InRange (memory : Memory) : Prop where
  cells : ∀ (offset : Nat) (b : UInt8), memory.cells[offset]? = some b →
    offset < 2 ^ 32 ∧ offset < memory.size ∧ b.toNat ≤ 255
  whole : 32 ∣ memory.size
  bounded : memory.size ≤ 2 ^ 32

/-- Storage holds words by words, and memory is in range. -/
structure Machine.InRange (machine : Machine) : Prop where
  memory : machine.memory.InRange
  storage : ∀ key value : Word, machine.storage[key]? = some value → key.InRange ∧ value.InRange

/-- What a program can ask of its environment are words. That the lengths are words asks only that
the bytes of the options are fewer than `2 ^ 256`, as those of every document are that was ever held. -/
structure Setting.InRange (setting : Setting) : Prop where
  address : setting.address.InRange
  caller : setting.caller.InRange
  callvalue : setting.callvalue.InRange
  calldata : Word.InRange setting.calldata.length
  data : Word.InRange (setting.dataObjects.map fun object => object.data.length).sum

/-! ### Words -/

namespace Word

theorem modulus_eq : modulus = 2 ^ 256 := by decide

theorem inRange_zero : InRange 0 := modulus_pos

theorem inRange_iff {w : Word} : w.InRange ↔ w < 256 ^ 32 := by
  have hmodulus : modulus = 256 ^ 32 := by decide
  rw [InRange, hmodulus]

theorem addmod_inRange (a b : Word) {m : Word} (hm : m.InRange) : (addmod a b m).InRange := by
  unfold addmod
  split
  · exact inRange_zero
  · exact Nat.lt_trans (Nat.mod_lt _ (Nat.pos_of_ne_zero ‹_›)) hm

theorem mulmod_inRange (a b : Word) {m : Word} (hm : m.InRange) : (mulmod a b m).InRange := by
  unfold mulmod
  split
  · exact inRange_zero
  · exact Nat.lt_trans (Nat.mod_lt _ (Nat.pos_of_ne_zero ‹_›)) hm

theorem low_lt (width : Nat) (v : Int) : low width v < 2 ^ width := by
  have hpos : (0 : Int) < ((1 <<< width : Nat) : Int) := by
    rw [Nat.one_shiftLeft]
    exact_mod_cast Nat.two_pow_pos width
  have hlow := Int.emod_nonneg v (Int.ne_of_gt hpos)
  have hhigh := Int.emod_lt_of_pos v hpos
  unfold low
  rw [Nat.one_shiftLeft] at *
  exact (Int.toNat_lt hlow).2 hhigh

theorem inRange_of_parse {text : String} {w : Word} (h : parse text = .ok w) : w.InRange := by
  unfold parse at h
  split at h
  · cases h
  · split at h <;> cases h
    assumption

theorem inRange_of_lt {width : Nat} (hwidth : width ≤ 256) {w : Word} (h : w < 2 ^ width) : w.InRange :=
  Nat.lt_of_lt_of_le h (modulus_eq ▸ Nat.pow_le_pow_right (by decide) hwidth)

end Word

/-- Digits to base 256 spell a number below the power of their number. -/
theorem foldl_digits_lt {α : Type} {digit : α → Nat} (hdigit : ∀ a, digit a < 256) (digits : List α) :
    digits.foldl (fun w a => w * 256 + digit a) 0 < 256 ^ digits.length := by
  have hfrom (digits : List α) (w bound : Nat) (h : w < bound) :
      digits.foldl (fun w a => w * 256 + digit a) w < bound * 256 ^ digits.length := by
    induction digits generalizing w bound with
    | nil => simpa using h
    | cons a rest ih =>
      have ha := hdigit a
      have hrest := ih (w * 256 + digit a) (bound * 256) (by omega)
      rwa [Nat.mul_assoc, ← Nat.pow_succ'] at hrest
  simpa using hfrom digits 0 1 Nat.one_pos

theorem Literal.ofBytes_lt (bytes : List UInt8) : ofBytes bytes < 256 ^ bytes.length :=
  foldl_digits_lt (fun b => b.toNat_lt) bytes

/-- A literal that has a value stands for a word. -/
theorem Literal.value_inRange {literal : Literal} {w : Word} (h : literal.value = .ok w) : w.InRange := by
  have hread : literal.read = .ok w := by
    unfold Literal.value at h
    rcases hread : literal.read with fault | v <;> rw [hread] at h <;> cases h
    rfl
  unfold Literal.read at hread
  split at hread
  · exact Word.inRange_of_parse hread
  · split at hread
    · cases hread
      decide
    · split at hread <;> cases hread
      exact Word.inRange_zero
  · unfold stringValue at hread
    dsimp only at hread
    split at hread <;> cases hread
    rename_i hshort
    have hlength : ((literal.text.toList.flatMap String.utf8EncodeChar).rightpad Word.bytes 0).length = 32 := by
      simp only [List.length_rightpad, Word.bytes] at hshort ⊢
      omega
    rw [Word.inRange_iff, ← hlength]
    exact ofBytes_lt _

/-! ### Memory -/

namespace Memory
variable {memory : Memory}

theorem inRange_start : ({} : Memory).InRange where
  cells offset b h := by simp at h
  whole := ⟨0, rfl⟩
  bounded := Nat.zero_le _

/-- An access within bounds covers its region and keeps what was covered. -/
theorem InRange.touch (h : memory.InRange) {offset : Nat} {size : Int} (hend : offset + size ≤ 2 ^ 32) :
    (memory.touch offset size).InRange ∧ (0 < size → offset + size ≤ (memory.touch offset size).size) := by
  unfold Memory.touch
  split
  · exact ⟨h, by omega⟩
  · have hwhole : 32 ∣ roundUp (offset + size).toNat := Nat.dvd_mul_left _ _
    have hreached : (offset + size).toNat ≤ roundUp (offset + size).toNat := by
      unfold roundUp wordBytes
      omega
    have hbounded : roundUp (offset + size).toNat ≤ 2 ^ 32 := by
      unfold roundUp wordBytes
      omega
    refine ⟨⟨fun place b hb => ?_, ?_, Nat.max_le.mpr ⟨h.bounded, hbounded⟩⟩, fun _ => ?_⟩
    · obtain ⟨hlow, hcovered, hbyte⟩ := h.cells place b hb
      exact ⟨hlow, Nat.lt_of_lt_of_le hcovered (Nat.le_max_left _ _), hbyte⟩
    · rcases Nat.le_total memory.size (roundUp (offset + size).toNat) with hle | hle
      · exact (Nat.max_eq_right hle).symm ▸ hwhole
      · exact (Nat.max_eq_left hle).symm ▸ h.whole
    · show (offset : Int) + size ≤ (max memory.size (roundUp (offset + size).toNat) : Nat)
      omega

theorem InRange.put (h : memory.InRange) {offset : Nat} (hcovered : offset < memory.size) (b : UInt8) :
    (memory.put offset b).InRange where
  cells place c hc := by
    simp only [Memory.put] at hc
    rw [Std.ExtTreeMap.getElem?_insert] at hc
    split at hc
    · rename_i hplace
      obtain rfl : offset = place := by simpa using hplace
      exact ⟨Nat.lt_of_lt_of_le hcovered h.bounded, hcovered, Nat.le_of_lt_succ c.toNat_lt⟩
    · exact h.cells place c hc
  whole := h.whole
  bounded := h.bounded

theorem InRange.putDigits (h : memory.InRange) {places : List Nat} (hplaces : ∀ offset ∈ places, offset < memory.size)
    (value : Int) : (memory.putDigits places value).InRange := by
  induction places generalizing memory value with
  | nil => exact h
  | cons offset rest ih =>
    obtain ⟨hfirst, hrest⟩ := List.forall_mem_cons.mp hplaces
    exact ih (h.put hfirst _) hrest _

theorem mem_offsets {order : ByteOrder} {offset place : Nat} {size : Int} (h : place ∈ offsets order offset size) :
    place < offset + size := by
  have hascending : place ∈ (List.range size.toNat).map (offset + ·) := by
    cases order
    · exact h
    · exact List.mem_reverse.mp h
  obtain ⟨i, hi, rfl⟩ := List.mem_map.mp hascending
  have hless := List.mem_range.mp hi
  omega

theorem length_offsets (order : ByteOrder) (offset : Nat) (size : Int) :
    (offsets order offset size).length = size.toNat := by
  cases order <;> simp [offsets]

theorem InRange.write (h : memory.InRange) {offset : Nat} {size : Int} (hend : offset + size ≤ 2 ^ 32)
    (order : ByteOrder) (value : Int) : (memory.write order offset size value).InRange := by
  obtain ⟨htouch, hcovered⟩ := h.touch hend
  refine htouch.putDigits (fun place hplace => ?_) value
  have hbelow := mem_offsets (List.mem_reverse.mp hplace)
  by_cases hsize : 0 < size
  · have := hcovered hsize
    omega
  · have hempty := length_offsets order offset size
    rw [Int.toNat_of_nonpos (by omega), List.length_eq_zero_iff] at hempty
    rw [hempty] at hplace
    cases hplace

theorem InRange.writeByte (h : memory.InRange) {offset : Nat} (hend : offset + 1 ≤ 2 ^ 32) (value : Int) :
    (memory.writeByte offset value).InRange := by
  obtain ⟨htouch, hcovered⟩ := h.touch (show (offset : Int) + 1 ≤ 2 ^ 32 by omega)
  exact htouch.put (by have := hcovered (by decide); omega) _

/-- A region spells a number with as many digits to base 256 as it has bytes. -/
theorem peek_lt (memory : Memory) (order : ByteOrder) (offset : Nat) (size : Int) :
    memory.peek order offset size < 256 ^ size.toNat := by
  have h := foldl_digits_lt (fun place => (memory.byte place).toNat_lt) (offsets order offset size)
  rwa [length_offsets] at h

end Memory

/-! ### Actions -/

theorem Machine.inRange_start : ({} : Machine).InRange where
  memory := Memory.inRange_start
  storage key value h := by simp at h

/-- What only changes trace, steps or signal. -/
theorem Machine.InRange.congr {m n : Machine} (h : m.InRange) (hmemory : n.memory = m.memory)
    (hstorage : n.storage = m.storage) : n.InRange where
  memory := hmemory ▸ h.memory
  storage := hstorage ▸ h.storage

/-- On a machine in range the action leaves one, and a value that it has is as `post` says. -/
def Action.Ranges {α : Type} (post : α → Prop) (x : Action α) : Prop :=
  ∀ m : Machine, m.InRange → (x m).2.InRange ∧ ∀ a, (x m).1 = .ok a → post a

namespace Action
variable {α β : Type} {post mid : α → Prop} {last : β → Prop}

theorem ranges_pure {a : α} (h : post a) : Ranges post (pure a : Action α) :=
  fun _ hm => ⟨hm, fun _ hb => Except.ok.inj hb ▸ h⟩

theorem ranges_fail (error : Error) : Ranges post (Effect.fail error : Action α) := fun _ hm => ⟨hm, nofun⟩

theorem ranges_gets {f : Machine → α} (h : ∀ m : Machine, m.InRange → post (f m)) :
    Ranges post (Effect.gets f : Action α) := fun m hm => ⟨hm, fun _ hb => Except.ok.inj hb ▸ h m hm⟩

theorem ranges_modify {f : Machine → Machine} (h : ∀ m : Machine, m.InRange → (f m).InRange) :
    Ranges (fun _ => True) (Effect.modify f : Action Unit) := fun m hm => ⟨h m hm, fun _ _ => trivial⟩

theorem Ranges.bind {x : Action α} {f : α → Action β} (hx : Ranges mid x)
    (hf : ∀ a, mid a → Ranges last (f a)) : Ranges last (x >>= f) := by
  intro m hm
  obtain ⟨hrange, hvalue⟩ := hx m hm
  rw [Effect.bind_apply]
  rcases hresult : x m with ⟨e | a, n⟩ <;> rw [hresult] at hrange hvalue
  · exact ⟨hrange, nofun⟩
  · exact hf a (hvalue a rfl) n hrange

theorem ranges_when {condition : Bool} {x : Action Unit} (h : condition = true → Ranges (fun _ => True) x) :
    Ranges (fun _ => True) (Effect.when condition x) := by
  unfold Effect.when
  split
  · exact h ‹_›
  · exact ranges_pure trivial

theorem ranges_logCall (name : String) (args : List Word) : Ranges (fun _ => True) (logCall name args) :=
  ranges_modify fun _ hm => hm.congr rfl rfl

/-- The arguments of a call with words are words. -/
theorem ranges_arg {call : Call} (hcall : ∀ w ∈ call.args, w.InRange) (position : Nat) :
    Ranges Word.InRange (call.arg position) := by
  unfold Call.arg
  rcases hvalue : call.args[position]? with _ | value
  · exact ranges_fail _
  · exact ranges_pure (hcall value (List.mem_of_getElem? hvalue))

/-- Reading a region within bounds. -/
theorem ranges_readMemory (order : ByteOrder) {offset size : Nat} (hend : offset + size ≤ 2 ^ 32) :
    Ranges (fun w => w < 256 ^ size) (readMemory order offset size) := by
  intro m hm
  refine ⟨⟨(hm.memory.touch (by omega)).1, hm.storage⟩, fun w hw => ?_⟩
  rw [← Except.ok.inj hw]
  exact m.memory.peek_lt order offset size

theorem ranges_writeMemory (order : ByteOrder) {offset size : Nat} (hend : offset + size ≤ 2 ^ 32)
    (value : Int) : Ranges (fun _ => True) (writeMemory order offset size value) :=
  ranges_modify fun _ hm => ⟨hm.memory.write (by omega) order value, hm.storage⟩

theorem ranges_writeByte {offset : Nat} (hend : offset + 1 ≤ 2 ^ 32) (value : Int) :
    Ranges (fun _ => True) (writeByte offset value) :=
  ranges_modify fun _ hm => ⟨hm.memory.writeByte hend value, hm.storage⟩

theorem ranges_store {key value : Word} (hkey : key.InRange) (hvalue : value.InRange) :
    Ranges (fun _ => True) (Effect.modify (Machine.store · key value) : Action Unit) := by
  refine ranges_modify fun m hm => ⟨hm.memory, fun slot word h => ?_⟩
  simp only [Machine.store] at h
  rw [Std.ExtTreeMap.getElem?_insert] at h
  split at h
  · rename_i hslot
    obtain rfl : key = slot := by simpa using hslot
    exact ⟨hkey, Option.some.inj h ▸ hvalue⟩
  · exact hm.storage slot word h

end Action

open BlockIR.Action

/-- Called with words in a setting in range, the builtin gives words and keeps machines in range. -/
def Builtin.Ranges (builtin : Builtin) : Prop :=
  ∀ setting : Setting, setting.InRange → ∀ call : Call, (∀ w ∈ call.args, w.InRange) →
    Action.Ranges Word.InRange (builtin.body setting call)

namespace Target

/-! ### The `evm` dialect -/

namespace Evm

theorem unary_ranges (name : String) (f : Word → Int) : (unary name f).Ranges := fun _ _ _ hcall =>
  (ranges_arg hcall 0).bind fun _ _ => ranges_pure (Word.ofInt_inRange _)

theorem binary_ranges (name : String) (f : Word → Word → Int) : (binary name f).Ranges := fun _ _ _ hcall =>
  (ranges_arg hcall 0).bind fun _ _ => (ranges_arg hcall 1).bind fun _ _ => ranges_pure (Word.ofInt_inRange _)

theorem modular_ranges (name : String) {f : Word → Word → Word → Word}
    (h : ∀ (a b : Word) {m : Word}, m.InRange → (f a b m).InRange) : (modular name f).Ranges :=
  fun _ _ _ hcall => (ranges_arg hcall 2).bind fun _ hm => (ranges_arg hcall 0).bind fun _ _ =>
    (ranges_arg hcall 1).bind fun _ _ => ranges_pure (h _ _ hm)

theorem constant_ranges (name : String) {f : Setting → Word}
    (h : ∀ setting : Setting, setting.InRange → (f setting).InRange) : (constant name f).Ranges :=
  fun setting hsetting _ _ => ranges_pure (h setting hsetting)

theorem logger_ranges (name title : String) (topics : Nat) : (logger name title topics).Ranges :=
  fun _ _ _ _ => (ranges_logCall _ _).bind fun _ _ => ranges_pure Word.inRange_zero

theorem arithmetic_ranges : ∀ b ∈ arithmetic, b.Ranges := by
  simp [arithmetic, binary_ranges, modular_ranges _ Word.addmod_inRange, modular_ranges _ Word.mulmod_inRange]

theorem comparison_ranges : ∀ b ∈ comparison, b.Ranges := by
  simp [comparison, binary_ranges, unary_ranges]

theorem bitwise_ranges : ∀ b ∈ bitwise, b.Ranges := by
  simp [bitwise, binary_ranges, unary_ranges]

theorem reaches_iff {offset size : Nat} : reaches offset size = true ↔ offset + size ≤ 2 ^ 32 := by
  have hend : memoryEnd = 2 ^ 32 := by decide
  rw [reaches, decide_eq_true_iff, hend]

theorem memory_ranges : ∀ b ∈ memory, b.Ranges := by
  simp only [memory, List.forall_mem_cons]
  refine ⟨fun _ _ _ hcall => ?_, fun _ _ _ hcall => ?_, fun _ _ _ hcall => ?_, fun _ _ _ _ => ?_, List.forall_mem_nil _⟩
  · refine (ranges_arg hcall 0).bind fun offset _ => ?_
    split
    · intro m hm
      obtain ⟨hrange, hvalue⟩ := ranges_readMemory .bigEndian (reaches_iff.mp ‹_›) m hm
      exact ⟨hrange, fun w hw => Word.inRange_iff.mpr (hvalue w hw)⟩
    · exact ranges_pure Word.inRange_zero
  · refine (ranges_arg hcall 0).bind fun offset _ => (ranges_logCall _ _).bind fun _ _ =>
      (ranges_when fun hreach => ?_).bind fun _ _ => ranges_pure Word.inRange_zero
    exact (ranges_arg hcall 1).bind fun value _ => ranges_writeMemory .bigEndian (reaches_iff.mp hreach) value
  · refine (ranges_arg hcall 0).bind fun offset _ => (ranges_logCall _ _).bind fun _ _ =>
      (ranges_when fun hreach => ?_).bind fun _ _ => ranges_pure Word.inRange_zero
    exact (ranges_arg hcall 1).bind fun value _ => ranges_writeByte (reaches_iff.mp hreach) value
  · exact ranges_gets fun m hm => Nat.lt_of_le_of_lt hm.memory.bounded (by decide)

theorem storage_ranges : ∀ b ∈ storage, b.Ranges := by
  simp only [storage, List.forall_mem_cons]
  refine ⟨fun _ _ _ hcall => ?_, fun _ _ _ hcall => ?_, List.forall_mem_nil _⟩
  · refine (ranges_arg hcall 0).bind fun key _ => ranges_gets fun m hm => ?_
    show (m.storage.getD key 0).InRange
    rw [Std.ExtTreeMap.getD_eq_getD_getElem?]
    rcases hstored : m.storage[key]? with _ | value
    · exact Word.inRange_zero
    · exact (hm.storage key value hstored).2
  · exact (ranges_logCall _ _).bind fun _ _ => (ranges_arg hcall 0).bind fun _ hkey =>
      (ranges_arg hcall 1).bind fun _ hvalue => (ranges_store hkey hvalue).bind fun _ _ =>
        ranges_pure Word.inRange_zero

theorem calldataWord_inRange (calldata : List UInt8) (start : Nat) : (calldataWord calldata start).InRange := by
  have h := Literal.ofBytes_lt ((List.range Word.bytes).map fun i => calldata.getD (start + i) 0)
  rw [List.length_map, List.length_range] at h
  exact Word.inRange_iff.mpr h

theorem environment_ranges : ∀ b ∈ environment, b.Ranges := by
  simp only [environment, List.forall_mem_cons]
  refine ⟨fun _ _ _ hcall => ?_, constant_ranges _ fun _ h => h.calldata, constant_ranges _ fun _ h => h.address,
    constant_ranges _ fun _ h => h.caller, constant_ranges _ fun _ h => h.callvalue,
    fun _ _ _ _ => ranges_pure Word.inRange_zero, logger_ranges _ _ _, logger_ranges _ _ _, logger_ranges _ _ _,
    List.forall_mem_nil _⟩
  exact (ranges_arg hcall 0).bind fun start _ => ranges_pure (calldataWord_inRange _ start)

/-- A data object ends where all of them end, at the latest. -/
theorem locate_le {name : String} {start offset size : Nat} {objects : List DataObject}
    (h : locate name start objects = some (offset, size)) :
    offset + size ≤ start + (objects.map fun object => object.data.length).sum := by
  induction objects generalizing start with
  | nil => cases h
  | cons first rest ih =>
    rw [List.map_cons, List.sum_cons]
    unfold locate at h
    split at h
    · cases h
      omega
    · have := ih h
      omega

theorem dataObject_ranges (title : String) {setting : Setting} (hsetting : setting.InRange) (call : Call) :
    Action.Ranges (fun place => Word.InRange place.1 ∧ Word.InRange place.2) (dataObject title setting call) := by
  unfold dataObject
  split
  · split
    · rename_i place hplace
      obtain ⟨offset, size⟩ := place
      have hend := locate_le hplace
      rw [Nat.zero_add] at hend
      have hless : offset + size < Word.modulus := Nat.lt_of_le_of_lt hend hsetting.data
      exact ranges_pure ⟨Nat.lt_of_le_of_lt (Nat.le_add_right _ _) hless,
        Nat.lt_of_le_of_lt (Nat.le_add_left _ _) hless⟩
    · exact ranges_fail _
  · exact ranges_fail _

theorem data_ranges : ∀ b ∈ data, b.Ranges := by
  simp only [data, List.forall_mem_cons]
  exact ⟨fun _ h call _ => (dataObject_ranges _ h call).bind fun _ hplace => ranges_pure hplace.2,
    fun _ h call _ => (dataObject_ranges _ h call).bind fun _ hplace => ranges_pure hplace.1, List.forall_mem_nil _⟩

theorem builtins_ranges : ∀ b ∈ builtins, b.Ranges := by
  simp only [builtins, List.forall_mem_append]
  exact ⟨⟨⟨⟨⟨⟨arithmetic_ranges, comparison_ranges⟩, bitwise_ranges⟩, memory_ranges⟩, storage_ranges⟩,
    environment_ranges⟩, data_ranges⟩

end Evm

/-! ### The `wasm` dialect -/

namespace Wasm

theorem lane_inRange {width : Nat} (hwidth : width ≤ 256) (v : Int) : (Word.low width v).InRange :=
  Word.inRange_of_lt hwidth (Word.low_lt width v)

theorem unary_ranges (name : String) {width : Nat} (hwidth : width ≤ 256) (f : Nat → Int) :
    (unary name width f).Ranges := fun _ _ _ hcall =>
  (ranges_arg hcall 0).bind fun _ _ => ranges_pure (lane_inRange hwidth _)

theorem binary_ranges (name : String) {width : Nat} (hwidth : width ≤ 256) (f : Nat → Nat → Int) :
    (binary name width f).Ranges := fun _ _ _ hcall =>
  (ranges_arg hcall 0).bind fun _ _ => (ranges_arg hcall 1).bind fun _ _ => ranges_pure (lane_inRange hwidth _)

theorem integer_ranges : ∀ b ∈ integer, b.Ranges := by
  have hdrop : (builtin "drop" 1 false fun _ => pure 0).Ranges := fun _ _ _ _ => ranges_pure Word.inRange_zero
  simp [integer, unary_ranges, binary_ranges, hdrop]

theorem reaches_iff {address size : Nat} : reaches address size = true ↔ address + size ≤ 2 ^ 32 := by
  have hend : memoryEnd = 2 ^ 32 := by decide
  rw [reaches, decide_eq_true_iff, hend]

theorem load_ranges (name : String) {size : Nat} (hsize : size ≤ 32) : (load name size).Ranges := by
  intro _ _ _ hcall
  refine (ranges_arg hcall 0).bind fun address _ => ?_
  split
  · intro m hm
    obtain ⟨hrange, hvalue⟩ := ranges_readMemory .littleEndian (reaches_iff.mp ‹_›) m hm
    refine ⟨hrange, fun w hw => Word.inRange_iff.mpr ?_⟩
    exact Nat.lt_of_lt_of_le (hvalue w hw) (Nat.pow_le_pow_right (by decide) hsize)
  · exact ranges_pure Word.inRange_zero

theorem store_ranges (name : String) (size : Nat) : (store name size).Ranges := fun _ _ _ hcall =>
  (ranges_arg hcall 0).bind fun _ _ => (ranges_arg hcall 1).bind fun _ _ => (ranges_logCall _ _).bind fun _ _ =>
    (ranges_when fun hreach => ranges_writeMemory .littleEndian (reaches_iff.mp hreach) _).bind fun _ _ =>
      ranges_pure Word.inRange_zero

theorem builtins_ranges : ∀ b ∈ builtins, b.Ranges := by
  simp only [builtins, List.forall_mem_append]
  refine ⟨integer_ranges, ?_⟩
  simp [memory, load_ranges, store_ranges]

/-! Widths -/

/-- The width that the name of a builtin states. -/
def width? (name : String) : Option Nat :=
  match name.toList with
  | 'i' :: '6' :: '4' :: '.' :: _ => some 64
  | 'i' :: '3' :: '2' :: '.' :: _ => some 32
  | _ => none

/-- Whatever the action is started on, a value that it has is below the bound. -/
def Gives (bound : Nat) (x : Action Word) : Prop := ∀ m w, (x m).1 = .ok w → w < bound

theorem gives_pure {bound : Nat} {w : Word} (h : w < bound) : Gives bound (pure w) :=
  fun _ _ hw => Except.ok.inj hw ▸ h

theorem gives_bind {α : Type} {bound : Nat} (x : Action α) {f : α → Action Word}
    (h : ∀ a, Gives bound (f a)) : Gives bound (x >>= f) := by
  intro m w hw
  rw [Effect.bind_apply] at hw
  rcases hx : x m with ⟨e | a, n⟩ <;> rw [hx] at hw
  · cases hw
  · exact h a n w hw

/-- The builtin gives numbers of the width that its name states. -/
def Fits (builtin : Builtin) : Prop :=
  ∀ width, width? builtin.name = some width → ∀ setting call, Gives (2 ^ width) (builtin.body setting call)

theorem unary_fits {name : String} {stated width : Nat} (hname : width? name = some stated)
    (hle : width ≤ stated) (f : Nat → Int) : Fits (unary name width f) := by
  intro width' hwidth setting call
  obtain rfl : stated = width' := Option.some.inj (hname.symm.trans hwidth)
  refine gives_bind _ fun a => gives_pure (Nat.lt_of_lt_of_le (Word.low_lt _ _) ?_)
  exact Nat.pow_le_pow_right (by decide) hle

theorem binary_fits {name : String} {width : Nat} (hname : width? name = some width) (f : Nat → Nat → Int) :
    Fits (binary name width f) := by
  intro width' hwidth setting call
  obtain rfl : width = width' := Option.some.inj (hname.symm.trans hwidth)
  exact gives_bind _ fun a => gives_bind _ fun b => gives_pure (Word.low_lt _ _)

theorem load_fits {name : String} {size : Nat} (hname : width? name = some (8 * size)) : Fits (load name size) := by
  intro width hwidth setting call
  obtain rfl : 8 * size = width := Option.some.inj (hname.symm.trans hwidth)
  refine gives_bind _ fun address => ?_
  split
  · intro m w hw
    rw [← Except.ok.inj hw, Nat.pow_mul]
    exact m.memory.peek_lt .littleEndian address size
  · exact gives_pure (Nat.two_pow_pos _)

theorem store_fits (name : String) (size : Nat) : Fits (store name size) := fun _ _ _ _ =>
  gives_bind _ fun _ => gives_bind _ fun _ => gives_bind _ fun _ => gives_bind _ fun _ =>
    gives_pure (Nat.two_pow_pos _)

theorem builtins_fit : ∀ b ∈ builtins, Fits b := by
  have hdrop : Fits (builtin "drop" 1 false fun _ => pure 0) := fun _ _ _ _ => gives_pure (Nat.two_pow_pos _)
  simp only [builtins, integer, memory, List.forall_mem_append, List.forall_mem_cons]
  refine ⟨⟨?_, ?_, ?_, ?_, ?_, ?_, ?_, ?_, ?_, ?_, ?_, ?_, ?_, ?_, ?_, ?_, ?_, ?_, ?_, ?_, ?_, hdrop,
      List.forall_mem_nil _⟩,
    load_fits rfl, load_fits rfl, store_fits _ _, store_fits _ _, store_fits _ _, List.forall_mem_nil _⟩
  all_goals first | exact binary_fits rfl _ | exact unary_fits rfl (by decide) _

end Wasm

/-! ### Both dialects -/

/-- A builtin that a target finds, called with words, gives a word and keeps the machine in range. -/
theorem evaluate_inRange (target : Target) {name : String} {builtin : Builtin}
    (hfind : target.dialect.find? name = some builtin) {setting : Setting} (hsetting : setting.InRange)
    {call : Call} (hcall : ∀ w ∈ call.args, w.InRange) :
    Action.Ranges Word.InRange (target.dialect.evaluate setting builtin call) := by
  unfold Dialect.evaluate
  split
  · split
    · exact holds_of_find? Evm.builtins_ranges Wasm.builtins_ranges target hfind setting hsetting call hcall
    · exact ranges_fail _
  · exact ranges_fail _

/-- A `wasm` builtin that is named for a width gives numbers of that width. -/
theorem evaluate_width {name : String} {builtin : Builtin} (hfind : wasm.dialect.find? name = some builtin)
    {width : Nat} (hwidth : Wasm.width? name = some width) (setting : Setting) (call : Call) :
    Wasm.Gives (2 ^ width) (wasm.dialect.evaluate setting builtin call) := by
  have hname : builtin.name = name := by simpa using List.find?_some hfind
  unfold Dialect.evaluate
  split
  · split
    · exact Wasm.builtins_fit builtin (List.mem_of_find?_eq_some hfind) width (hname ▸ hwidth) setting call
    · exact fun _ _ hw => nomatch hw
  · exact fun _ _ hw => nomatch hw

end Target

/-! ### Settings -/

/-- A number of a document that is read as a count is far below `2 ^ 256`. -/
theorem Shape.count_inRange {place : Place} {doc : Option Json} {n : Nat} (h : count place doc = .read n []) :
    Word.InRange n := by
  unfold count at h
  split at h
  · split at h
    · cases h
    · rename_i value hvalue
      injection h with hn hcomplaints
      simp only [List.append_eq_nil_iff, ite_eq_right_iff, reduceCtorEq, imp_false,
        Int.not_lt] at hcomplaints
      have hbound : n ≤ ShapeFault.safeBound := by
        rw [← hn]
        exact Int.toNat_le.mpr hcomplaints.1.1
      exact Nat.lt_of_le_of_lt hbound (by decide)
  · cases h

theorem WordOption.value_inRange {place : Place} {doc : Option Json} {given : WordOption}
    (hread : read? place doc = .read given []) {w : Word} (h : given.value = .ok w) : w.InRange := by
  cases given with
  | number n =>
    cases h
    unfold read? at hread
    split at hread <;> cases hread
    · exact Shape.count_inRange ‹_›
    · exact Shape.count_inRange ‹_›
  | numeral text =>
    simp only [WordOption.value] at h
    rcases hparse : Word.parse text with fault | v <;> rw [hparse] at h <;> cases h
    exact Word.inRange_of_parse hparse

namespace Options

/-- A word that an option gives, or zero. -/
theorem word_inRange {members : List (String × Json)} {name : String} {given : Option WordOption}
    (hread : field members name WordOption.read? = .read given []) {w : Word} (h : word given = .ok w) :
    w.InRange := by
  unfold field at hread
  split at hread
  · cases hread
    cases h
    exact Word.inRange_zero
  · obtain ⟨value, hvalue, rfl⟩ := Shape.map_eq_read.mp hread
    exact WordOption.value_inRange hvalue h

/-- The words that options set up are in range. -/
theorem resolve_inRange {doc : Option Json} {options : Options} (hresolve : resolve doc = .ok options) :
    options.setting.address.InRange ∧ options.setting.caller.InRange ∧ options.setting.callvalue.InRange := by
  unfold resolve at hresolve
  split at hresolve
  · rename_i fields hread
    unfold read? at hread
    split at hread
    · obtain ⟨_, _, h₁, -, rfl⟩ := Shape.seq_eq_read.mp hread
      obtain ⟨_, _, h₂, -, rfl⟩ := Shape.seq_eq_read.mp h₁
      obtain ⟨_, callvalue, h₃, hcallvalue, rfl⟩ := Shape.seq_eq_read.mp h₂
      obtain ⟨_, caller, h₄, hcaller, rfl⟩ := Shape.seq_eq_read.mp h₃
      obtain ⟨_, address, h₅, haddress, rfl⟩ := Shape.seq_eq_read.mp h₄
      obtain ⟨_, _, h₆, -, rfl⟩ := Shape.seq_eq_read.mp h₅
      obtain ⟨_, _, h₇, -, rfl⟩ := Shape.seq_eq_read.mp h₆
      obtain ⟨_, _, h₈, -, rfl⟩ := Shape.seq_eq_read.mp h₇
      obtain ⟨_, -, rfl⟩ := Shape.map_eq_read.mp h₈
      unfold ofFields at hresolve
      rcases hfirst : word address with e | first <;> simp only [hfirst, bind, Except.bind] at hresolve
      · cases hresolve
      rcases hsecond : word caller with e | second <;> simp only [hsecond] at hresolve
      · cases hresolve
      rcases hthird : word callvalue with e | third <;> simp only [hthird] at hresolve
      · cases hresolve
      cases hresolve
      exact ⟨word_inRange haddress hfirst, word_inRange hcaller hsecond, word_inRange hcallvalue hthird⟩
    · cases hread
  · split at hresolve <;> cases hresolve

end Options
end BlockIR
