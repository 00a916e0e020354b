import BlockIR.Proofs.Ranges
import BlockIR.Proofs.WriteLog
import Mathlib.Algebra.BigOperators.Intervals
import Mathlib.Algebra.BigOperators.Ring.Finset
import Mathlib.Tactic.Positivity
import Mathlib.Tactic.Ring

/-! Memory reads see the last writes.

A write puts the digits of an integer to base 256 into a region, one a byte, and a
read sums the bytes of a region up, each times its place value. The two byte orders
differ in nothing but the exponents of the place values (`ByteOrder.exponent`). So a
region read back gives what its bytes can hold of the integer, and the other order
gives that number reversed; after any accesses each byte is that of the last write
that covers it. -/
namespace BlockIR

/-- The exponent of the place value of a byte, counted from the start of its region. -/
def ByteOrder.exponent (order : ByteOrder) (size i : Nat) : Nat :=
  match order with
  | .bigEndian => size - 1 - i
  | .littleEndian => i

/-- The other order. -/
def ByteOrder.other : ByteOrder → ByteOrder
  | .bigEndian => .littleEndian
  | .littleEndian => .bigEndian

namespace Bytes

/-- What so many bytes can hold of an integer: its remainder, which is natural for negative integers too. -/
def held (size : Nat) (value : Int) : Nat := (value % 256 ^ size).toNat

/-- The digit of a number to base 256 that has that exponent. -/
def digit (n exponent : Nat) : Nat := n / 256 ^ exponent % 256

/-- The number whose digits to base 256 are so many lowest digits of `n`, the lowest first. -/
def reversed (size n : Nat) : Nat := ∑ i ∈ Finset.range size, digit n i * 256 ^ (size - 1 - i)

theorem toNat_ofInt (v : Int) : ((ofInt v).toNat : Int) = v % 256 := by
  have hnonneg := Int.emod_nonneg v (b := 256) (by decide)
  have hless := Int.emod_lt_of_pos v (b := 256) (by decide)
  have hbyte : (ofInt v).toNat = (v % 256).toNat := UInt8.toNat_ofNat_of_lt' (by simp; omega)
  omega

/-- The bytes of an integer are the digits of what is held of it. -/
theorem toNat_ofInt_ediv (value : Int) {size exponent : Nat} (h : exponent < size) :
    (ofInt (value / 256 ^ exponent)).toNat = digit (held size value) exponent := by
  obtain ⟨k, rfl⟩ := Nat.exists_eq_add_of_lt h
  have hpos : (0 : Int) < 256 ^ exponent := by positivity
  have hheld : ((held (exponent + k + 1) value : Nat) : Int) = value % 256 ^ (exponent + k + 1) :=
    Int.toNat_of_nonneg (Int.emod_nonneg _ (by positivity))
  have hsplit : value = value % 256 ^ (exponent + k + 1) +
      256 ^ exponent * (256 * (256 ^ k * (value / 256 ^ (exponent + k + 1)))) := by
    conv_lhs => rw [← Int.emod_add_mul_ediv value (256 ^ (exponent + k + 1))]
    ring
  have hdigit : value / 256 ^ exponent % 256 = value % 256 ^ (exponent + k + 1) / 256 ^ exponent % 256 := by
    conv_lhs => rw [hsplit, Int.add_mul_ediv_left _ _ hpos.ne', Int.add_mul_emod_self_left]
  apply Int.ofNat.inj
  show (((ofInt (value / 256 ^ exponent)).toNat : Nat) : Int) = ((digit _ exponent : Nat) : Int)
  rw [toNat_ofInt, hdigit, ← hheld, digit]
  push_cast
  rfl

/-- The lowest digits, each times its place value, make up a number again. -/
theorem sum_digits (n size : Nat) :
    ∑ i ∈ Finset.range size, digit n i * 256 ^ i = n % 256 ^ size := by
  induction size with
  | zero => simp [Nat.mod_one]
  | succ size ih => rw [Finset.sum_range_succ, ih, digit, Nat.mod_pow_succ, Nat.mul_comm]

theorem held_mod (size : Nat) (value : Int) : held size value % 256 ^ size = held size value := by
  apply Nat.mod_eq_of_lt
  have hless := Int.emod_lt_of_pos value (b := 256 ^ size) (by positivity)
  have hnonneg := Int.emod_nonneg value (b := 256 ^ size) (by positivity)
  exact_mod_cast (Int.toNat_lt hnonneg).mpr (by exact_mod_cast hless)

end Bytes

namespace Memory
open Bytes

/-! ### One write -/

theorem byte_putDigits_of_notMem {places : List Nat} {place : Nat} (h : place ∉ places) (memory : Memory)
    (value : Int) : (memory.putDigits places value).byte place = memory.byte place := by
  induction places generalizing memory value with
  | nil => rfl
  | cons offset rest ih =>
    obtain ⟨hne, hrest⟩ := List.ne_and_not_mem_of_not_mem_cons h
    rw [putDigits, ih hrest, byte_put, if_neg (Ne.symm hne)]

theorem byte_putDigits {places : List Nat} (h : places.Nodup) (memory : Memory) (value : Int) (i : Nat)
    (hi : i < places.length) : (memory.putDigits places value).byte places[i] = ofInt (value / 256 ^ i) := by
  induction places generalizing memory value i with
  | nil => nomatch hi
  | cons offset rest ih =>
    obtain ⟨hfirst, hrest⟩ := List.nodup_cons.mp h
    cases i with
    | zero =>
      rw [putDigits, List.getElem_cons_zero, byte_putDigits_of_notMem hfirst, byte_put, if_pos rfl]
      simp
    | succ i =>
      rw [putDigits, List.getElem_cons_succ, ih hrest, Int.ediv_ediv_of_nonneg (by decide), pow_succ']

theorem mem_offsets_iff {order : ByteOrder} {offset place : Nat} {size : Int} :
    place ∈ offsets order offset size ↔ offset ≤ place ∧ (place : Int) < offset + size := by
  have hascending : place ∈ offsets order offset size ↔ place ∈ (List.range size.toNat).map (offset + ·) := by
    cases order with
    | bigEndian => rfl
    | littleEndian => exact List.mem_reverse
  rw [hascending, List.mem_map]
  constructor
  · rintro ⟨i, hi, rfl⟩
    have hless := List.mem_range.mp hi
    omega
  · intro hplace
    exact ⟨place - offset, List.mem_range.mpr (by omega), by omega⟩

/-- The places of a region from the lowest digit on. -/
theorem reverse_offsets_toNat (order : ByteOrder) (offset : Nat) (size : Int) :
    (offsets order offset size).reverse = (List.range size.toNat).map (Stores.place order offset size.toNat) := by
  rw [← reverse_offsets]
  rfl

theorem nodup_reverse_offsets (order : ByteOrder) (offset : Nat) (size : Int) :
    (offsets order offset size).reverse.Nodup := by
  have hascending : ((List.range size.toNat).map (offset + ·)).Nodup :=
    List.nodup_range.map fun _ _ => Nat.add_left_cancel
  cases order with
  | bigEndian => exact List.nodup_reverse.mpr hascending
  | littleEndian => simpa [offsets] using hascending

/-- A write leaves its digits in its region, and every other byte as it was. -/
theorem byte_write (memory : Memory) (order : ByteOrder) (offset : Nat) (size value : Int) (place : Nat) :
    (memory.write order offset size value).byte place =
      if offset ≤ place ∧ (place : Int) < offset + size then
        ofInt (value / 256 ^ order.exponent size.toNat (place - offset))
      else memory.byte place := by
  unfold write
  split
  · rename_i hcovered
    obtain ⟨i, rfl⟩ := Nat.exists_eq_add_of_le hcovered.1
    have hi : i < size.toNat := by omega
    have hexponent : order.exponent size.toNat i < (offsets order offset size).reverse.length := by
      rw [List.length_reverse, length_offsets]
      cases order <;> (simp only [ByteOrder.exponent]; omega)
    have hplace : (offsets order offset size).reverse[order.exponent size.toNat i] = offset + i := by
      simp only [reverse_offsets_toNat, List.getElem_map, List.getElem_range]
      cases order <;> simp only [ByteOrder.exponent, Stores.place]
      omega
    have hdigit := byte_putDigits (nodup_reverse_offsets order offset size) (memory.touch offset size) value
      _ hexponent
    rw [Nat.add_sub_cancel_left, ← hdigit, hplace]
  · rename_i hfree
    have hnot : place ∉ (offsets order offset size).reverse :=
      fun hmem => hfree (mem_offsets_iff.mp (List.mem_reverse.mp hmem))
    rw [byte_putDigits_of_notMem hnot, byte_touch]

theorem byte_writeByte (memory : Memory) (offset : Nat) (value : Int) (place : Nat) :
    (memory.writeByte offset value).byte place = if offset = place then ofInt value else memory.byte place := by
  rw [writeByte, byte_put, byte_touch]

/-! ### One read -/

/-- Reading digit by digit sums the digits up, each times its place value. -/
theorem foldl_digits_eq_sum (f : Nat → Nat) (size : Nat) :
    (List.range size).foldl (fun value i => value * 256 + f i) 0 =
      ∑ i ∈ Finset.range size, f i * 256 ^ (size - 1 - i) := by
  induction size with
  | zero => rfl
  | succ size ih =>
    rw [List.range_succ, List.foldl_append, ih, List.foldl_cons, List.foldl_nil, Finset.sum_range_succ,
      Finset.sum_mul]
    have hshift (i : Nat) (hi : i ∈ Finset.range size) :
        f i * 256 ^ (size - 1 - i) * 256 = f i * 256 ^ (size + 1 - 1 - i) := by
      have hless := Finset.mem_range.mp hi
      rw [Nat.mul_assoc, ← pow_succ]
      congr 2
      omega
    rw [Finset.sum_congr rfl hshift]
    simp

/-- A region holds the sum of its bytes, each times its place value. -/
theorem peek_eq_sum (memory : Memory) (order : ByteOrder) (offset size : Nat) :
    memory.peek order offset size =
      ∑ i ∈ Finset.range size, (memory.byte (offset + i)).toNat * 256 ^ order.exponent size i := by
  unfold peek spelled
  cases order with
  | bigEndian =>
    rw [offsets, Int.toNat_natCast, List.foldl_map]
    exact foldl_digits_eq_sum (fun i => (memory.byte (offset + i)).toNat) size
  | littleEndian =>
    have hdown : offsets .littleEndian offset size = (List.range size).map fun i => offset + (size - 1 - i) := by
      apply List.ext_getElem
      · simp [offsets]
      · intro i hi hi'
        simp [offsets]
    rw [hdown, List.foldl_map, foldl_digits_eq_sum fun i => (memory.byte (offset + (size - 1 - i))).toNat]
    exact Finset.sum_range_reflect (fun i => (memory.byte (offset + i)).toNat * 256 ^ i) size

/-- A region that was just written, read back in either order. -/
theorem peek_write (memory : Memory) (order : ByteOrder) (offset size : Nat) (value : Int) :
    (memory.write order offset size value).peek order offset size = held size value ∧
      (memory.write order offset size value).peek order.other offset size = reversed size (held size value) := by
  have hbyte (i : Nat) (hi : i ∈ Finset.range size) :
      ((memory.write order offset size value).byte (offset + i)).toNat =
        digit (held size value) (order.exponent size i) := by
    have hless := Finset.mem_range.mp hi
    rw [byte_write, if_pos (by omega), Int.toNat_natCast, Nat.add_sub_cancel_left, toNat_ofInt_ediv]
    cases order <;> (simp only [ByteOrder.exponent]; omega)
  have hsum (exponent : Nat → Nat) : ∑ i ∈ Finset.range size,
      ((memory.write order offset size value).byte (offset + i)).toNat * 256 ^ exponent i =
        ∑ i ∈ Finset.range size, digit (held size value) (order.exponent size i) * 256 ^ exponent i :=
    Finset.sum_congr rfl fun i hi => by rw [hbyte i hi]
  have hdigits := (sum_digits (held size value) size).trans (held_mod size value)
  rw [peek_eq_sum, peek_eq_sum, hsum, hsum]
  cases order with
  | bigEndian =>
    refine ⟨(Finset.sum_range_reflect (fun i => digit (held size value) i * 256 ^ i) size).trans hdigits, ?_⟩
    rw [reversed, ← Finset.sum_range_reflect]
    refine Finset.sum_congr rfl fun i hi => ?_
    have hless := Finset.mem_range.mp hi
    have hback : size - 1 - (size - 1 - i) = i := by omega
    simp only [ByteOrder.other, ByteOrder.exponent, hback]
  | littleEndian => exact ⟨hdigits, rfl⟩

end Memory

/-! ### Any number of accesses -/

/-- A use of memory: a number of bytes or a single byte, read or written. -/
inductive MemoryCall where
  | read (order : ByteOrder) (offset : Nat) (size : Int)
  | write (order : ByteOrder) (offset : Nat) (size value : Int)
  | readByte (offset : Nat)
  | writeByte (offset : Nat) (value : Int)

namespace MemoryCall
open Bytes Memory

/-- Makes the call, and drops what it reads. -/
def perform : MemoryCall → Action Unit
  | read order offset size => do
    let _ ← readMemory order offset size
  | write order offset size value => writeMemory order offset size value
  | readByte offset => do
    let _ ← Effect.gets fun machine : Machine => machine.memory.byte offset
  | writeByte offset value => BlockIR.writeByte offset value

/-- Makes calls in turn. -/
def performAll (calls : List MemoryCall) : Action Unit := calls.forM perform

/-- What a call leaves of the memory. -/
def effect : MemoryCall → Memory → Memory
  | read _ offset size, memory => memory.touch offset size
  | write order offset size value, memory => memory.write order offset size value
  | readByte _, memory => memory
  | writeByte offset value, memory => memory.writeByte offset value

theorem perform_apply (call : MemoryCall) (machine : Machine) :
    call.perform machine = (.ok (), { machine with memory := call.effect machine.memory }) := by
  cases call <;> rfl

/-- Calls never fail, and change the memory only. -/
theorem performAll_apply (calls : List MemoryCall) (machine : Machine) :
    performAll calls machine =
      (.ok (), { machine with memory := calls.foldl (fun memory call => call.effect memory) machine.memory }) := by
  induction calls generalizing machine with
  | nil => rfl
  | cons call rest ih =>
    show (call.perform >>= fun _ => performAll rest) machine = _
    rw [Effect.bind_of_ok (perform_apply call machine), ih, List.foldl_cons]

/-- The byte that a call puts into a place, if it covers the place with a write. -/
def byteAt? : MemoryCall → Nat → Option Nat
  | write order offset size value, place =>
    if offset ≤ place ∧ (place : Int) < offset + size then
      some (digit (held size.toNat value) (order.exponent size.toNat (place - offset)))
    else none
  | writeByte offset value, place => if offset = place then some (held 1 value) else none
  | read .., _ | readByte _, _ => none

/-- The byte that the last call to cover a place puts there. -/
def lastByte? (calls : List MemoryCall) (place : Nat) : Option Nat :=
  calls.reverse.findSome? fun call => call.byteAt? place

theorem byte_effect (call : MemoryCall) (memory : Memory) (place : Nat) :
    ((call.effect memory).byte place).toNat = (call.byteAt? place).getD (memory.byte place).toNat := by
  cases call with
  | read order offset size => rw [effect, byte_touch]; rfl
  | write order offset size value =>
    rw [effect, byte_write, byteAt?]
    split
    · rename_i hcovered
      have hexponent : order.exponent size.toNat (place - offset) < size.toNat := by
        cases order <;> (simp only [ByteOrder.exponent]; omega)
      rw [toNat_ofInt_ediv value hexponent]
      rfl
    · rfl
  | readByte offset => rfl
  | writeByte offset value =>
    rw [effect, byte_writeByte, byteAt?]
    split
    · have hlow := toNat_ofInt_ediv value (show 0 < 1 by decide)
      rw [pow_zero, Int.ediv_one] at hlow
      rw [hlow, Option.getD_some, digit, pow_zero, Nat.div_one]
      exact held_mod 1 value
    · rfl

/-- Every byte is that of the last call to cover it, or as it was at the start. -/
theorem byte_performAll (calls : List MemoryCall) (machine : Machine) (place : Nat) :
    (((performAll calls machine).2).memory.byte place).toNat =
      (lastByte? calls place).getD (machine.memory.byte place).toNat := by
  rw [performAll_apply]
  generalize machine.memory = memory
  show ((calls.foldl _ memory).byte place).toNat = _
  induction calls generalizing memory with
  | nil => rfl
  | cons call rest ih =>
    rw [List.foldl_cons, ih, byte_effect, lastByte?, lastByte?, List.reverse_cons, List.findSome?_append]
    cases List.findSome? (fun call => call.byteAt? place) rest.reverse with
    | some byte => rfl
    | none => simp

end MemoryCall

open Bytes MemoryCall in
/-- Memory reads see exactly the last writes. A write of `size` bytes leaves the digits of what is held of
its value, and touches neither another byte nor anything but the memory; a read gives the number that
the bytes of its region spell. So a region read back gives what is held of the value, or that reversed,
and after any calls each byte read is that of the last write to cover it. -/
theorem readMemory_sees_last_writes (machine : Machine) :
    (∀ (order : ByteOrder) (offset size : Nat) (value : Int),
      (writeMemory order offset size value machine).1 = .ok () ∧
      (∀ i < size, ((writeMemory order offset size value machine).2.memory.byte (offset + i)).toNat =
        digit (held size value) (order.exponent size i)) ∧
      (∀ place, place < offset ∨ offset + size ≤ place →
        (writeMemory order offset size value machine).2.memory.byte place = machine.memory.byte place) ∧
      { (writeMemory order offset size value machine).2 with memory := machine.memory } = machine) ∧
    (∀ (order : ByteOrder) (offset size : Nat),
      (readMemory order offset size machine).1 = .ok (∑ i ∈ Finset.range size,
        (machine.memory.byte (offset + i)).toNat * 256 ^ order.exponent size i) ∧
      (readMemory order offset size machine).2.memory.cells = machine.memory.cells) ∧
    (∀ place, machine.memory.cells[place]? = none → machine.memory.byte place = 0) ∧
    (∀ (order : ByteOrder) (offset size : Nat) (value : Int),
      (readMemory order offset size (writeMemory order offset size value machine).2).1 =
        .ok (held size value) ∧
      (readMemory order.other offset size (writeMemory order offset size value machine).2).1 =
        .ok (reversed size (held size value))) ∧
    ∀ (calls : List MemoryCall),
      (performAll calls machine).1 = .ok () ∧
      ∀ (order : ByteOrder) (offset size : Nat),
        (readMemory order offset size (performAll calls machine).2).1 = .ok (∑ i ∈ Finset.range size,
          (lastByte? calls (offset + i)).getD (machine.memory.byte (offset + i)).toNat *
            256 ^ order.exponent size i) := by
  refine ⟨fun order offset size value => ⟨rfl, fun i hi => ?_, fun place hplace => ?_, rfl⟩,
    fun order offset size => ⟨?_, Memory.cells_touch ..⟩, fun place habsent => ?_,
    fun order offset size value => ?_, fun calls => ⟨?_, fun order offset size => ?_⟩⟩
  · have hbyte := byte_effect (.write order offset size value) machine.memory (offset + i)
    rwa [byteAt?, if_pos (by omega), Int.toNat_natCast, Nat.add_sub_cancel_left] at hbyte
  · exact (Memory.byte_write ..).trans (if_neg (by omega))
  · exact congrArg _ (Memory.peek_eq_sum ..)
  · rw [Memory.byte, Std.ExtTreeMap.getD_eq_getD_getElem?, habsent]
    rfl
  · obtain ⟨hsame, hother⟩ := Memory.peek_write machine.memory order offset size value
    exact ⟨congrArg _ hsame, congrArg _ hother⟩
  · rw [performAll_apply]
  · refine (congrArg _ (Memory.peek_eq_sum ..)).trans ?_
    simp only [byte_performAll]

/-- A negative number over the end of a word, read back in both orders. -/
theorem readMemory_sees_last_writes_sample :
    (readMemory .bigEndian 31 2 (writeMemory .bigEndian 31 2 (-2) {}).2).1 = .ok 0xfffe ∧
    (readMemory .littleEndian 31 2 (writeMemory .bigEndian 31 2 (-2) {}).2).1 = .ok 0xfeff :=
  (readMemory_sees_last_writes {}).2.2.2.1 .bigEndian 31 2 (-2)

end BlockIR
