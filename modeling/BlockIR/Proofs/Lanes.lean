import BlockIR.Proofs.Computing
import BlockIR.Proofs.Ranges
import Mathlib.Data.Nat.Size

/-! Integer builtins of the `wasm` dialect are machine operations.

A machine integer of some width is a bit vector. Each integer builtin is named for
a width and an operation on bit vectors of it (`Wasm.operations`), and makes what
the operation makes of the low bits of its arguments. That it cuts its operands
and its result to the width, as `Word.lane1` and `Word.lane2` do, is all that is
needed for this: integers that are cut are bit vectors (`Word.low_eq_toNat`), and
the formulas agree with the operations on these. -/
namespace BlockIR
namespace Target
namespace Wasm

/-- What a machine does with integers of so many bits, with one of them or with two. -/
inductive Operation (width : Nat) where
  | one (f : BitVec width → BitVec width)
  | two (f : BitVec width → BitVec width → BitVec width)

namespace Operation
variable {width : Nat}

/-- The number of operands. -/
def arity : Operation width → Nat
  | one _ => 1
  | two _ => 2

/-- What it makes of the low bits of words, if there is one for each operand. -/
def apply : Operation width → List Word → Option Word
  | one f, [a] => some (f (.ofNat width a)).toNat
  | two f, [a, b] => some (f (.ofNat width a) (.ofNat width b)).toNat
  | _, _ => none

/-- One if the test succeeds, else zero. -/
def flag (width : Nat) (test : Bool) : BitVec width := if test then 1 else 0

end Operation

/-- A builtin by its name, and the operation that it is named for. -/
structure Named where
  name : String
  width : Nat
  operation : Operation width

open Operation in
/-- The machine operations. Division by zero gives zero, and shifts are by the amount modulo the width. -/
def operations : List Named :=
  [ ⟨"i64.add", 64, two fun a b => a + b⟩,
    ⟨"i64.sub", 64, two fun a b => a - b⟩,
    ⟨"i64.mul", 64, two fun a b => a * b⟩,
    ⟨"i64.div_u", 64, two fun a b => if b = 0 then 0 else a.udiv b⟩,
    ⟨"i64.rem_u", 64, two fun a b => if b = 0 then 0 else a.umod b⟩,
    ⟨"i64.and", 64, two fun a b => a &&& b⟩,
    ⟨"i64.or", 64, two fun a b => a ||| b⟩,
    ⟨"i64.xor", 64, two fun a b => a ^^^ b⟩,
    ⟨"i64.shl", 64, two fun a b => a <<< (b.toNat % 64)⟩,
    ⟨"i64.shr_u", 64, two fun a b => a >>> (b.toNat % 64)⟩,
    ⟨"i64.eq", 64, two fun a b => flag 64 (a == b)⟩,
    ⟨"i64.ne", 64, two fun a b => flag 64 (a != b)⟩,
    ⟨"i64.lt_u", 64, two fun a b => flag 64 (a.ult b)⟩,
    ⟨"i64.gt_u", 64, two fun a b => flag 64 (b.ult a)⟩,
    ⟨"i64.eqz", 64, one fun a => flag 64 (a == 0)⟩,
    ⟨"i64.clz", 64, one fun a => .ofNat 64 (64 - a.toNat.size)⟩,
    ⟨"i32.add", 32, two fun a b => a + b⟩,
    ⟨"i32.sub", 32, two fun a b => a - b⟩,
    ⟨"i32.eqz", 32, one fun a => flag 32 (a == 0)⟩,
    ⟨"i32.wrap_i64", 32, one fun a => a⟩,
    ⟨"i64.extend_i32_u", 64, one fun a => (a.setWidth 32).setWidth 64⟩ ]

end Wasm
end Target

/-! ### Lanes as bit vectors -/

namespace Word

theorem low_eq_toNat (width : Nat) (v : Int) : low width v = (BitVec.ofInt width v).toNat := by
  rw [low, BitVec.toNat_ofInt, Nat.one_shiftLeft]

theorem low_natCast (width n : Nat) : low width n = (BitVec.ofNat width n).toNat := by
  rw [low_eq_toNat, BitVec.ofInt_natCast]

theorem lane1_eq {width : Nat} {f : Nat → Int} {g : BitVec width → BitVec width}
    (h : ∀ x : BitVec width, BitVec.ofInt width (f x.toNat) = g x) (a : Word) :
    lane1 width f a = (g (.ofNat width a)).toNat := by
  rw [lane1, low_natCast, low_eq_toNat, h]

theorem lane2_eq {width : Nat} {f : Nat → Nat → Int} {g : BitVec width → BitVec width → BitVec width}
    (h : ∀ x y : BitVec width, BitVec.ofInt width (f x.toNat y.toNat) = g x y) (a b : Word) :
    lane2 width f a b = (g (.ofNat width a) (.ofNat width b)).toNat := by
  rw [lane2, low_natCast, low_natCast, low_eq_toNat, h]

/-- Counting zero bits from the top counts those above the bits of the number. -/
theorem leadingZeros_eq {width a : Nat} (h : a < 2 ^ width) : leadingZeros width a = width - a.size := by
  induction width with
  | zero => rw [leadingZeros, Nat.zero_sub]
  | succ width ih =>
    rw [leadingZeros]
    split
    · rename_i htop
      have hlong : width < a.size := Nat.lt_size.mpr (Nat.ge_two_pow_of_testBit htop)
      omega
    · rename_i htop
      have hless : a < 2 ^ width := by
        by_contra hreach
        exact htop (Nat.testBit_of_two_pow_le_and_two_pow_add_one_gt (Nat.not_lt.mp hreach) h)
      have hshort : a.size ≤ width := Nat.size_le.mpr hless
      rw [ih hless]
      omega

theorem ofInt_toNat {width : Nat} (x : BitVec width) : BitVec.ofInt width x.toNat = x := by
  rw [BitVec.ofInt_natCast, BitVec.ofNat_toNat, BitVec.setWidth_eq]

theorem ofInt_toNat_add {width : Nat} (x y : BitVec width) :
    BitVec.ofInt width ((x.toNat : Int) + y.toNat) = x + y := by
  rw [BitVec.ofInt_add, ofInt_toNat, ofInt_toNat]

theorem ofInt_toNat_sub {width : Nat} (x y : BitVec width) :
    BitVec.ofInt width ((x.toNat : Int) - y.toNat) = x - y := by
  rw [Int.sub_eq_add_neg, BitVec.ofInt_add, BitVec.ofInt_neg, ofInt_toNat, ofInt_toNat, BitVec.sub_eq_add_neg]

theorem ofInt_toNat_mul {width : Nat} (x y : BitVec width) :
    BitVec.ofInt width ((x.toNat : Int) * y.toNat) = x * y := by
  rw [BitVec.ofInt_mul, ofInt_toNat, ofInt_toNat]

theorem ofInt_toNat_div {width : Nat} (x y : BitVec width) :
    BitVec.ofInt width (if y.toNat = 0 then 0 else (x.toNat / y.toNat : Nat)) = if y = 0 then 0 else x.udiv y := by
  have hzero : y.toNat = 0 ↔ y = 0 := by simp [← BitVec.toNat_inj]
  simp only [hzero]
  split
  · simp
  · exact ofInt_toNat (x.udiv y)

theorem ofInt_toNat_mod {width : Nat} (x y : BitVec width) :
    BitVec.ofInt width (if y.toNat = 0 then 0 else (x.toNat % y.toNat : Nat)) = if y = 0 then 0 else x.umod y := by
  have hzero : y.toNat = 0 ↔ y = 0 := by simp [← BitVec.toNat_inj]
  simp only [hzero]
  split
  · simp
  · exact ofInt_toNat (x.umod y)

theorem ofInt_toNat_shl {width : Nat} (x : BitVec width) (amount : Nat) :
    BitVec.ofInt width (x.toNat <<< amount : Nat) = x <<< amount := by
  rw [BitVec.ofInt_natCast]
  exact BitVec.eq_of_toNat_eq (by simp)

theorem lane1_self (width : Nat) (a : Word) : lane1 width (fun x => x) a = a % 2 ^ width := by
  rw [lane1_eq (g := fun x => x) ofInt_toNat, BitVec.toNat_ofNat]

/-- Cut to 32 bits and widened again. -/
theorem toNat_extend (a : Nat) : (((BitVec.ofNat 64 a).setWidth 32).setWidth 64).toNat = a % 2 ^ 32 := by
  simp only [BitVec.toNat_setWidth, BitVec.toNat_ofNat]
  omega

theorem ofInt_ofBool {width : Nat} {p : Prop} [Decidable p] {test : Bool} (h : p ↔ test = true) :
    BitVec.ofInt width (ofBool p) = Target.Wasm.Operation.flag width test := by
  cases test <;> simp [ofBool, Target.Wasm.Operation.flag, h]

end Word

namespace Target
namespace Wasm

/-! ### Operations -/

namespace Operation
variable {width : Nat}

theorem apply_eq_some {operation : Operation width} {args : List Word} (h : args.length = operation.arity) :
    ∃ w, operation.apply args = some w ∧ w < 2 ^ width := by
  cases operation with
  | one f =>
    match args, h with
    | [a], _ => exact ⟨_, rfl, BitVec.isLt _⟩
  | two f =>
    match args, h with
    | [a, b], _ => exact ⟨_, rfl, BitVec.isLt _⟩

/-- It sees the low bits only. -/
theorem apply_mod (operation : Operation width) (args : List Word) :
    operation.apply (args.map (· % 2 ^ width)) = operation.apply args := by
  have hlow (a : Nat) : BitVec.ofNat width (a % 2 ^ width) = BitVec.ofNat width a :=
    BitVec.eq_of_toNat_eq (by simp)
  cases operation with
  | one f =>
    match args with
    | [a] => simp only [List.map_cons, List.map_nil, apply, hlow]
    | [] | _ :: _ :: _ => rfl
  | two f =>
    match args with
    | [a, b] => simp only [List.map_cons, List.map_nil, apply, hlow]
    | [] | [_] | _ :: _ :: _ :: _ => rfl

end Operation

/-- The builtin of that name makes of its arguments what the operation makes of their low bits. -/
def Named.Computed (named : Named) : Prop :=
  ∀ args w, named.operation.apply args = some w → wasm.Computes named.name args w

theorem computed_one {name : String} {width : Nat} {f : Nat → Int} {g : BitVec width → BitVec width}
    (hfind : wasm.dialect.find? name = some (unary name width f))
    (h : ∀ x : BitVec width, BitVec.ofInt width (f x.toNat) = g x) : Named.Computed ⟨name, width, .one g⟩ := by
  intro args w hw
  match args, hw with
  | [a], hw =>
    obtain rfl := Option.some.inj hw
    exact Word.lane1_eq h a ▸ computes_unary hfind a

theorem computed_two {name : String} {width : Nat} {f : Nat → Nat → Int}
    {g : BitVec width → BitVec width → BitVec width}
    (hfind : wasm.dialect.find? name = some (binary name width f))
    (h : ∀ x y : BitVec width, BitVec.ofInt width (f x.toNat y.toNat) = g x y) :
    Named.Computed ⟨name, width, .two g⟩ := by
  intro args w hw
  match args, hw with
  | [a, b], hw =>
    obtain rfl := Option.some.inj hw
    exact Word.lane2_eq h a b ▸ computes_binary hfind a b

theorem clz_computed : Named.Computed ⟨"i64.clz", 64, .one fun x => .ofNat 64 (64 - x.toNat.size)⟩ :=
  computed_one rfl fun x => by rw [Word.leadingZeros_eq x.isLt, BitVec.ofInt_natCast]

open Word in
theorem operations_computed : ∀ named ∈ operations, named.Computed := by
  simp only [operations, List.forall_mem_cons]
  refine ⟨?_, ?_, ?_, ?_, ?_, ?_, ?_, ?_, ?_, ?_, ?_, ?_, ?_, ?_, ?_, ?_, ?_, ?_, ?_, ?_, ?_, List.forall_mem_nil _⟩
  · exact computed_two rfl ofInt_toNat_add
  · exact computed_two rfl ofInt_toNat_sub
  · exact computed_two rfl ofInt_toNat_mul
  · exact computed_two rfl ofInt_toNat_div
  · exact computed_two rfl ofInt_toNat_mod
  · exact computed_two rfl fun x y => by rw [← BitVec.toNat_and, ofInt_toNat]
  · exact computed_two rfl fun x y => by rw [← BitVec.toNat_or, ofInt_toNat]
  · exact computed_two rfl fun x y => by rw [← BitVec.toNat_xor, ofInt_toNat]
  · exact computed_two rfl fun x y => ofInt_toNat_shl x (y.toNat % 64)
  · exact computed_two rfl fun x y => by rw [← BitVec.toNat_ushiftRight, ofInt_toNat]
  · exact computed_two rfl fun x y => ofInt_ofBool (by simp [BitVec.toNat_inj])
  · exact computed_two rfl fun x y => ofInt_ofBool (by simp [BitVec.toNat_inj])
  · exact computed_two rfl fun x y => ofInt_ofBool (by simp [BitVec.ult])
  · exact computed_two rfl fun x y => ofInt_ofBool (by simp [BitVec.ult])
  · exact computed_one rfl fun x => ofInt_ofBool (by simp [← BitVec.toNat_inj])
  · exact clz_computed
  · exact computed_two rfl ofInt_toNat_add
  · exact computed_two rfl ofInt_toNat_sub
  · exact computed_one rfl fun x => ofInt_ofBool (by simp [← BitVec.toNat_inj])
  · exact computed_one rfl ofInt_toNat
  · intro args w hw
    match args, hw with
    | [a], hw =>
      obtain rfl := Option.some.inj hw
      rw [toNat_extend, ← lane1_self]
      exact computes_unary rfl a

end Wasm
end Target

open Target Target.Wasm in
/-- The integer builtins of the `wasm` dialect factor through truncation to the width in their names. They
are the machine operations of that width: each makes of any words what the operation makes of their low
bits, so words with the same low bits give the same, and the result has no bits above the width. -/
theorem wasm_integers_are_machine_operations :
    integer.map Builtin.name = operations.map Named.name ++ ["drop"] ∧
    (∀ named ∈ operations, (named.width = 64 ∨ named.width = 32) ∧ width? named.name = some named.width ∧
      ∀ args, args.length = named.operation.arity →
        ∃ w, wasm.Computes named.name args w ∧ named.operation.apply args = some w ∧ w < 2 ^ named.width ∧
          ∀ args', args'.map (· % 2 ^ named.width) = args.map (· % 2 ^ named.width) →
            wasm.Computes named.name args' w) ∧
    (∀ a, wasm.Computes "i64.clz" [a] (64 - (a % 2 ^ 64).size)) ∧
    (∀ a, wasm.Computes "i32.wrap_i64" [a] (a % 2 ^ 32)) ∧
    ∀ a, wasm.Computes "i64.extend_i32_u" [a] (a % 2 ^ 32) := by
  have hwidth : ∀ named ∈ operations, (named.width = 64 ∨ named.width = 32) ∧
      width? named.name = some named.width := by
    decide
  refine ⟨rfl, fun named hnamed => ⟨(hwidth named hnamed).1, (hwidth named hnamed).2, fun args hargs => ?_⟩,
    fun a => ?_, fun a => ?_, fun a => ?_⟩
  · obtain ⟨w, hw, hless⟩ := Operation.apply_eq_some hargs
    have hcomputed := operations_computed named hnamed
    refine ⟨w, hcomputed args w hw, hw, hless, fun args' hlow => hcomputed args' w ?_⟩
    rw [← Operation.apply_mod, hlow, Operation.apply_mod, hw]
  · have hcount := clz_computed [a] _ rfl
    have hless : 64 - (BitVec.ofNat 64 a).toNat.size < 2 ^ 64 := by omega
    rwa [BitVec.toNat_ofNat, Nat.mod_eq_of_lt hless, BitVec.toNat_ofNat] at hcount
  · exact Word.lane1_self 32 a ▸ computes_unary rfl a
  · exact Word.lane1_self 32 a ▸ computes_unary rfl a

open Target Target.Wasm in
/-- One less than nothing, and a quotient by a word whose low bits are zero. -/
theorem wasm_integers_are_machine_operations_sample :
    wasm.Computes "i64.sub" [2 ^ 64, 1] (2 ^ 64 - 1) ∧ wasm.Computes "i64.div_u" [7, 2 ^ 64] 0 := by
  obtain ⟨-, hall, -⟩ := wasm_integers_are_machine_operations
  obtain ⟨v, hv, hsub, -⟩ := (hall operations[1] (List.getElem_mem _)).2.2 [2 ^ 64, 1] rfl
  obtain ⟨w, hw, hdiv, -⟩ := (hall operations[3] (List.getElem_mem _)).2.2 [7, 2 ^ 64] rfl
  have hless : operations[1].operation.apply [2 ^ 64, 1] = some (2 ^ 64 - 1) := by decide
  have hzero : operations[3].operation.apply [7, 2 ^ 64] = some 0 := by decide
  obtain rfl := Option.some.inj (hsub.symm.trans hless)
  obtain rfl := Option.some.inj (hdiv.symm.trans hzero)
  exact ⟨hv, hw⟩

end BlockIR
