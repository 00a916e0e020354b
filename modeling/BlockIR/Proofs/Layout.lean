import BlockIR.Proofs.Computing
import BlockIR.Proofs.HighWater

/-! Words and bytes have one layout.

Thirty-two bytes make a word in one way, the first being the most significant
(`Word.ofBytes`), and each byte is a digit of it (`Word.digit_ofBytes`). Memory,
single bytes, strings and call data are all read and written by this layout. A
word stored as a whole and its bytes stored one after the other, in any order,
leave the same memory, because what a place holds depends on the place only. -/
namespace BlockIR
namespace Word
open Bytes

/-- The word that the first 32 bytes of a sequence make, the first of all being the most significant. -/
def ofBytes (bytes : Nat → UInt8) : Word := ∑ i ∈ Finset.range 32, (bytes i).toNat * 256 ^ (31 - i)

/-! ### Bytes of a word -/

theorem foldl_range_eq_ofBytes (bytes : Nat → UInt8) :
    (List.range 32).foldl (fun w i => w * 256 + (bytes i).toNat) 0 = ofBytes bytes :=
  Memory.foldl_digits_eq_sum (fun i => (bytes i).toNat) 32

theorem ofBytes_lt (bytes : Nat → UInt8) : ofBytes bytes < 256 ^ 32 := by
  rw [← foldl_range_eq_ofBytes]
  exact foldl_digits_lt (fun i => (bytes i).toNat_lt) (List.range 32)

theorem ofBytes_congr {bytes bytes' : Nat → UInt8} (h : ∀ i < 32, bytes i = bytes' i) :
    ofBytes bytes = ofBytes bytes' :=
  Finset.sum_congr rfl fun i hi => by rw [h i (Finset.mem_range.mp hi)]

/-- Spelling digits one after the other keeps each of them where it is from the end. -/
theorem digit_foldl_range {f : Nat → Nat} (hf : ∀ i, f i < 256) {size i : Nat} (hi : i < size) :
    digit ((List.range size).foldl (fun w i => w * 256 + f i) 0) (size - 1 - i) = f i := by
  induction size with
  | zero => nomatch hi
  | succ size ih =>
    rw [List.range_succ, List.foldl_append, List.foldl_cons, List.foldl_nil]
    generalize (List.range size).foldl (fun w i => w * 256 + f i) 0 = w at ih ⊢
    have hlast := hf size
    rcases Nat.lt_succ_iff_lt_or_eq.mp hi with hbefore | rfl
    · have hup : size + 1 - 1 - i = size - 1 - i + 1 := by omega
      rw [hup, digit, Nat.pow_succ', ← Nat.div_div_eq_div_mul]
      have hdrop : (w * 256 + f size) / 256 = w := by omega
      rw [hdrop]
      exact ih hbefore
    · have hend : i + 1 - 1 - i = 0 := by omega
      rw [hend, digit, pow_zero, Nat.div_one]
      omega

theorem digit_ofBytes (bytes : Nat → UInt8) {i : Nat} (hi : i < 32) :
    digit (ofBytes bytes) (31 - i) = (bytes i).toNat := by
  rw [← foldl_range_eq_ofBytes]
  exact digit_foldl_range (fun i => (bytes i).toNat_lt) hi

/-- Shifting whole bytes out leaves the digits from there on. -/
theorem shiftRight_eq_div (w count : Nat) : w >>> (8 * count) = w / 256 ^ count := by
  rw [Nat.shiftRight_eq_div_pow, Nat.pow_mul]

theorem ofNat_shiftRight_ofBytes (bytes : Nat → UInt8) {i : Nat} (hi : i < 32) :
    UInt8.ofNat (ofBytes bytes >>> (8 * (31 - i))) = bytes i := by
  apply UInt8.toNat_inj.mp
  rw [UInt8.toNat_ofNat', shiftRight_eq_div, ← digit, digit_ofBytes bytes hi]

/-- The byte at a position is a digit of the word. -/
theorem byteAt_of_lt {i : Nat} (hi : i < 32) (w : Word) : byteAt i w = digit w (31 - i) := by
  rw [byteAt, if_neg (Nat.not_le.mpr hi), shiftRight_eq_div, digit]

end Word

/-! ### Bytes in memory -/

namespace Memory
open Bytes Word

theorem peek_eq_ofBytes (memory : Memory) (offset : Nat) :
    memory.peek .bigEndian offset 32 = ofBytes fun i => memory.byte (offset + i) :=
  memory.peek_eq_sum .bigEndian offset 32

/-- A word that is written puts its bytes in their places. -/
theorem byte_write_ofBytes (memory : Memory) (offset : Nat) (bytes : Nat → UInt8) {i : Nat} (hi : i < 32) :
    (memory.write .bigEndian offset 32 (ofBytes bytes)).byte (offset + i) = bytes i := by
  have hheld : held 32 (ofBytes bytes : Nat) = ofBytes bytes := by
    rw [held, ← Nat.cast_ofNat, ← Nat.cast_pow, ← Int.natCast_emod, Int.toNat_natCast]
    exact Nat.mod_eq_of_lt (ofBytes_lt bytes)
  apply UInt8.toNat_inj.mp
  have hplace : 31 - i < 32 := by omega
  have hdigit := toNat_ofInt_ediv (ofBytes bytes : Nat) hplace
  rw [hheld, digit_ofBytes bytes hi] at hdigit
  rw [byte_write, if_pos (by omega), Nat.add_sub_cancel_left]
  exact hdigit

/-- Writes bytes of a sequence one after the other, each at its place from an offset on. -/
def writeBytes (memory : Memory) (offset : Nat) (bytes : Nat → UInt8) (order : List Nat) : Memory :=
  order.foldl (fun memory i => memory.writeByte (offset + i) (bytes i).toNat) memory

theorem eq_of_cells_of_size {memory memory' : Memory} (hcells : memory.cells = memory'.cells)
    (hsize : memory.size = memory'.size) : memory = memory' := by
  cases memory
  cases memory'
  cases hcells
  cases hsize
  rfl

theorem cells_writeByte_toNat (memory : Memory) (offset : Nat) (b : UInt8) :
    (memory.writeByte offset b.toNat).cells = memory.cells.insert offset b := by
  show (memory.touch offset 1).cells.insert offset (ofInt b.toNat) = _
  rw [cells_touch, Bytes.ofInt_natCast, UInt8.ofNat_toNat]

theorem size_writeByte (memory : Memory) (offset : Nat) (value : Int) :
    (memory.writeByte offset value).size = max memory.size (roundUp (offset + 1)) :=
  Target.size_touch_natCast memory offset Nat.one_pos

/-- What a place holds depends on the place only, so the order of two writes does not matter. -/
theorem writeByte_comm (memory : Memory) (offset : Nat) (bytes : Nat → UInt8) (i j : Nat) :
    (memory.writeByte (offset + i) (bytes i).toNat).writeByte (offset + j) (bytes j).toNat =
      (memory.writeByte (offset + j) (bytes j).toNat).writeByte (offset + i) (bytes i).toNat := by
  apply eq_of_cells_of_size
  · simp only [cells_writeByte_toNat]
    apply Std.ExtTreeMap.ext_getElem?
    intro place
    simp only [Std.ExtTreeMap.getElem?_insert, Nat.compare_eq_eq]
    by_cases hi : offset + i = place
    · by_cases hj : offset + j = place
      · have hsame : i = j := by omega
        simp [hsame]
      · simp [hi, hj]
    · simp [hi]
  · simp only [size_writeByte]
    omega

theorem writeBytes_perm (memory : Memory) (offset : Nat) (bytes : Nat → UInt8) {order order' : List Nat}
    (h : order.Perm order') : memory.writeBytes offset bytes order = memory.writeBytes offset bytes order' :=
  have : RightCommutative fun (memory : Memory) i => memory.writeByte (offset + i) (bytes i).toNat :=
    ⟨fun memory i j => writeByte_comm memory offset bytes i j⟩
  h.foldl_eq memory

theorem cells_writeBytes (memory : Memory) (offset : Nat) (bytes : Nat → UInt8) (order : List Nat) :
    (memory.writeBytes offset bytes order).cells =
      order.foldl (fun cells i => cells.insert (offset + i) (bytes i)) memory.cells := by
  induction order generalizing memory with
  | nil => rfl
  | cons i rest ih =>
    have hrest := ih (memory.writeByte (offset + i) (bytes i).toNat)
    rwa [cells_writeByte_toNat] at hrest

/-- Bytes that all end within the size of memory leave it as it is. -/
theorem size_writeBytes (memory : Memory) (offset : Nat) (bytes : Nat → UInt8) {order : List Nat}
    (h : ∀ i ∈ order, roundUp (offset + i + 1) ≤ memory.size) :
    (memory.writeBytes offset bytes order).size = memory.size := by
  induction order generalizing memory with
  | nil => rfl
  | cons i rest ih =>
    obtain ⟨hfirst, hrest⟩ := List.forall_mem_cons.mp h
    have hsize : (memory.writeByte (offset + i) (bytes i).toNat).size = memory.size := by
      rw [size_writeByte, Nat.max_eq_left hfirst]
    rw [← hsize] at hrest ⊢
    exact ih _ hrest

/-- A word is written as its bytes are, from the last to the first. -/
theorem write_ofBytes (memory : Memory) (offset : Nat) (bytes : Nat → UInt8) :
    memory.write .bigEndian offset 32 (ofBytes bytes) =
      memory.writeBytes offset bytes ((List.range 32).map (31 - ·)) := by
  apply eq_of_cells_of_size
  · rw [cells_writeBytes, List.foldl_map]
    refine (memory.cells_write .bigEndian offset 32 (ofBytes bytes)).trans ?_
    apply List.foldl_ext
    intro cells i hi
    have hless := List.mem_range.mp hi
    have hback : 31 - (31 - i) = i := by omega
    have hbyte := ofNat_shiftRight_ofBytes bytes (i := 31 - i) (by omega)
    rw [hback] at hbyte
    rw [hbyte]
    rfl
  · have horder : (List.range 32).map (31 - ·) = 31 :: (List.range 31).map (30 - ·) := by decide
    have hbefore : ∀ i ∈ (List.range 31).map (30 - ·), i < 32 := by decide
    have hword : (memory.write .bigEndian offset 32 (ofBytes bytes)).size = max memory.size (roundUp (offset + 32)) := by
      rw [write, size_putDigits]
      exact Target.size_touch_natCast memory offset (by decide)
    have hlast : (memory.writeByte (offset + 31) (bytes 31).toNat).size = max memory.size (roundUp (offset + 32)) :=
      memory.size_writeByte (offset + 31) (bytes 31).toNat
    rw [horder, writeBytes, List.foldl_cons, ← writeBytes, size_writeBytes, hword, hlast]
    intro i hi
    have hless := hbefore i hi
    rw [hlast]
    exact (roundUp_mono (by omega)).trans (Nat.le_max_right ..)

/-- In whatever order its bytes are written, the word is written. -/
theorem writeBytes_eq_write (memory : Memory) (offset : Nat) (bytes : Nat → UInt8) {order : List Nat}
    (h : order.Perm (List.range 32)) :
    memory.writeBytes offset bytes order = memory.write .bigEndian offset 32 (ofBytes bytes) := by
  have hback : ((List.range 32).map (31 - ·)).Perm (List.range 32) := by decide
  rw [write_ofBytes]
  exact memory.writeBytes_perm offset bytes (h.trans hback.symm)

end Memory

/-! ### Bytes of texts and of call data -/

theorem Literal.ofBytes_map_range (bytes : Nat → UInt8) :
    Literal.ofBytes ((List.range 32).map bytes) = Word.ofBytes bytes := by
  rw [Literal.ofBytes, List.foldl_map, Word.foldl_range_eq_ofBytes]

/-- A text whose UTF-8 bytes fit into a word stands for the word that they begin. -/
theorem Literal.value_string {text : String} {bytes : Nat → UInt8}
    (h : text.toUTF8.data.toList.rightpad 32 0 = (List.range 32).map bytes) :
    (Literal.mk .string text).value = .ok (Word.ofBytes bytes) := by
  have hencoded : text.toUTF8.data.toList = text.toList.flatMap String.utf8EncodeChar := by
    rw [String.toUTF8_eq_toByteArray, ← String.utf8Encode_toList, List.utf8Encode, List.toList_data_toByteArray]
  have hlength := congrArg List.length h
  rw [List.length_rightpad, List.length_map, List.length_range, hencoded] at hlength
  have hshort : ¬Word.bytes < (text.toList.flatMap String.utf8EncodeChar).length := by
    unfold Word.bytes
    omega
  rw [hencoded] at h
  show Except.mapError _ (stringValue text) = _
  rw [stringValue, if_neg hshort]
  show Except.ok (Literal.ofBytes (List.rightpad 32 0 _)) = _
  rw [h, Literal.ofBytes_map_range]

/-! ### Calls -/

namespace Target
namespace Evm
open Word

theorem byte_computes (position w : Word) : evm.Computes "byte" [position, w] (ofInt (byteAt position w)) :=
  computes_binary (f := fun a b => byteAt a b) rfl position w

theorem mload_apply (setting : Setting) {place : Nat} (h : place + 32 ≤ 2 ^ 32) (raw : List Argument) (m : Machine) :
    evm.call setting "mload" [place] raw m =
      (.ok (m.memory.peek .bigEndian place 32), { m with memory := m.memory.touch place 32 }) := by
  have hinside : reaches place Word.bytes = true := reaches_iff.mpr h
  rw [call_of_find? rfl setting rfl]
  show (if reaches place Word.bytes then readMemory .bigEndian place Word.bytes else pure 0 : Action Word) m = _
  rw [if_pos hinside]
  rfl

/-- Memory is loaded as the word of its bytes. -/
theorem mload_ofBytes (setting : Setting) {place : Nat} (h : place + 32 ≤ 2 ^ 32) {bytes : Nat → UInt8} {m : Machine}
    (hbytes : ∀ i < 32, m.memory.byte (place + i) = bytes i) (raw : List Argument) :
    (evm.call setting "mload" [place] raw m).1 = .ok (ofBytes bytes) := by
  rw [mload_apply setting h, Memory.peek_eq_ofBytes, ofBytes_congr hbytes]

theorem mstore_apply (setting : Setting) {place : Nat} (h : place + 32 ≤ 2 ^ 32) (w : Word) (raw : List Argument)
    (m : Machine) :
    evm.call setting "mstore" [place, w] raw m =
      (.ok 0, { m.log (callLine "MSTORE" [place, w]) with memory := m.memory.write .bigEndian place 32 w }) := by
  have hinside : reaches place Word.bytes = true := reaches_iff.mpr h
  rw [call_of_find? rfl setting rfl]
  show (do
    logCall "MSTORE" [place, w]
    Effect.when (reaches place Word.bytes) (writeMemory .bigEndian place Word.bytes w)
    pure 0 : Action Word) m = _
  rw [hinside]
  rfl

theorem mstore8_apply (setting : Setting) {place : Nat} (h : place + 1 ≤ 2 ^ 32) (w : Word) (raw : List Argument)
    (m : Machine) :
    evm.call setting "mstore8" [place, w] raw m =
      (.ok 0, { m.log (callLine "MSTORE8" [place, w]) with memory := m.memory.writeByte place w }) := by
  rw [call_of_find? rfl setting rfl]
  show (do
    logCall "MSTORE8" [place, w]
    Effect.when (reaches place 1) (writeByte place w)
    pure 0 : Action Word) m = _
  rw [reaches_iff.mpr h]
  rfl

/-- Stores bytes of a sequence one after the other, each at its place from an offset on. -/
def storeBytes (setting : Setting) (place : Nat) (bytes : Nat → UInt8) (raw : Nat → List Argument)
    (order : List Nat) : Action Unit :=
  order.forM fun i => do
    let _ ← evm.call setting "mstore8" [place + i, (bytes i).toNat] (raw i)

theorem storeBytes_apply (setting : Setting) {place : Nat} (bytes : Nat → UInt8) (raw : Nat → List Argument)
    {order : List Nat} (h : ∀ i ∈ order, place + i + 1 ≤ 2 ^ 32) (m : Machine) :
    ∃ n, storeBytes setting place bytes raw order m = (.ok (), n) ∧
      n.memory = m.memory.writeBytes place bytes order := by
  induction order generalizing m with
  | nil => exact ⟨m, rfl, rfl⟩
  | cons i rest ih =>
    obtain ⟨hfirst, hrest⟩ := List.forall_mem_cons.mp h
    have hcall := mstore8_apply setting hfirst (bytes i).toNat (raw i) m
    obtain ⟨n, hrun, hmemory⟩ := ih hrest
      { m.log (callLine "MSTORE8" [place + i, (bytes i).toNat]) with
        memory := m.memory.writeByte (place + i) (bytes i).toNat }
    refine ⟨n, ?_, hmemory⟩
    show ((evm.call setting "mstore8" [place + i, (bytes i).toNat] (raw i) >>= fun _ => pure ()) >>= fun _ =>
      storeBytes setting place bytes raw rest) m = _
    rw [Effect.bind_apply, Effect.bind_apply, hcall]
    exact hrun

theorem calldataload_computes (setting : Setting) (start : Nat) (raw : List Argument) :
    evm.call setting "calldataload" [start] raw = pure (ofBytes fun i => setting.calldata.getD (start + i) 0) := by
  rw [call_of_find? rfl setting rfl, ← Literal.ofBytes_map_range]
  rfl

end Evm
end Target

/-- Memory, single bytes, texts and call data all lay 32 bytes out in a word in one way. A word that is stored puts
its bytes where they are loaded from, and so do its bytes stored one after the other in any order; a text stands
for its bytes with zero bytes after them; call data from any offset on, zero bytes standing after its end, is the word
that memory with the same bytes holds. -/
theorem bytes_are_laid_out_alike (bytes : Nat → UInt8) :
    (∀ (setting : Setting) (raw : List Argument) (m : Machine) (place : Nat), place + 32 ≤ 2 ^ 32 →
      ∃ n, Target.evm.call setting "mstore" [place, Word.ofBytes bytes] raw m = (.ok 0, n) ∧
        (∀ i < 32, n.memory.byte (place + i) = bytes i) ∧
        (∀ raw, (Target.evm.call setting "mload" [place] raw n).1 = .ok (Word.ofBytes bytes)) ∧
        ∀ order : List Nat, order.Perm (List.range 32) → ∀ raw : Nat → List Argument,
          ∃ n', Target.Evm.storeBytes setting place bytes raw order m = (.ok (), n') ∧ n'.memory = n.memory) ∧
    (∀ i < 32, Target.evm.Computes "byte" [i, Word.ofBytes bytes] (bytes i).toNat) ∧
    (∀ j, 32 ≤ j → Target.evm.Computes "byte" [j, Word.ofBytes bytes] 0) ∧
    (∀ text : String, text.toUTF8.data.toList.rightpad 32 0 = (List.range 32).map bytes →
      (Literal.mk .string text).value = .ok (Word.ofBytes bytes)) ∧
    ∀ (setting : Setting) (start : Nat) (raw : List Argument),
      Target.evm.call setting "calldataload" [start] raw =
        pure (Word.ofBytes fun i => setting.calldata.getD (start + i) 0) ∧
      ∀ (m : Machine) (place : Nat), place + 32 ≤ 2 ^ 32 →
        (∀ i < 32, m.memory.byte (place + i) = setting.calldata.getD (start + i) 0) →
        (Target.evm.call setting "mload" [place] raw m).1 =
          .ok (Word.ofBytes fun i => setting.calldata.getD (start + i) 0) := by
  refine ⟨fun setting raw m place hplace => ?_, fun i hi => ?_, fun j hj => ?_, fun text => Literal.value_string,
    fun setting start raw => ⟨Target.Evm.calldataload_computes setting start raw, fun m place hplace hbytes =>
      Target.Evm.mload_ofBytes setting hplace hbytes raw⟩⟩
  · have hbytes (i : Nat) (hi : i < 32) := m.memory.byte_write_ofBytes place bytes hi
    refine ⟨_, Target.Evm.mstore_apply setting hplace _ raw m, hbytes,
      Target.Evm.mload_ofBytes setting hplace hbytes, fun order horder raw => ?_⟩
    have hinside : ∀ i ∈ order, place + i + 1 ≤ 2 ^ 32 := by
      intro i hi
      have hless := List.mem_range.mp (horder.subset hi)
      omega
    obtain ⟨n', hrun, hmemory⟩ := Target.Evm.storeBytes_apply setting bytes raw hinside m
    exact ⟨n', hrun, hmemory.trans (m.memory.writeBytes_eq_write place bytes horder)⟩
  · have hbyte := Target.Evm.byte_computes i (Word.ofBytes bytes)
    have hinRange : Word.InRange (bytes i).toNat := (bytes i).toNat_lt.trans (by decide)
    rwa [Word.byteAt_of_lt hi, Word.digit_ofBytes bytes hi, Word.ofInt_of_inRange hinRange] at hbyte
  · have hbyte := Target.Evm.byte_computes j (Word.ofBytes bytes)
    rwa [Word.byteAt, if_pos hj] at hbyte

/-- The letter `A`, the last word of memory stored both ways, and call data that ends before its word does. -/
theorem bytes_are_laid_out_alike_sample :
    (Literal.mk .string "A").value = .ok (Word.ofBytes fun i => if i = 0 then 65 else 0) ∧
    (∃ n, Target.evm.call {} "mstore" [2 ^ 32 - 32, Word.ofBytes UInt8.ofNat] [] {} = (.ok 0, n) ∧
      n.memory.byte (2 ^ 32 - 1) = 31 ∧
      ∃ n', Target.Evm.storeBytes {} (2 ^ 32 - 32) UInt8.ofNat (fun _ => []) (List.range 32).reverse {} = (.ok (), n') ∧
        n'.memory = n.memory) ∧
    Target.evm.Computes "byte" [7, Word.ofBytes UInt8.ofNat] 7 ∧
    Target.evm.Computes "byte" [32, Word.ofBytes UInt8.ofNat] 0 ∧
    (Target.evm.call { calldata := [1, 2] } "mload" [0] [] {}).1 =
      .ok (Word.ofBytes fun i => [(1 : UInt8), 2].getD (2 + i) 0) := by
  have hletter := bytes_are_laid_out_alike fun i => if i = 0 then 65 else 0
  have hcount := bytes_are_laid_out_alike UInt8.ofNat
  refine ⟨hletter.2.2.2.1 "A" (by decide), ?_, hcount.2.1 7 (by decide), hcount.2.2.1 32 (by decide), ?_⟩
  · obtain ⟨n, hrun, hbytes, -, horders⟩ := hcount.1 {} [] {} (2 ^ 32 - 32) (by decide)
    exact ⟨n, hrun, hbytes 31 (by decide), horders _ (List.reverse_perm _) fun _ => []⟩
  · refine (hcount.2.2.2.2 { calldata := [1, 2] } 2 []).2 {} 0 (by decide) fun i _ => ?_
    have hend : [(1 : UInt8), 2][2 + i]? = none := List.getElem?_eq_none (Nat.le_add_right 2 i)
    simp [hend]

end BlockIR
