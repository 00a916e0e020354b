import BlockIR.Proofs.Computing
import BlockIR.Proofs.Ranges
import Mathlib.Data.Nat.ModEq
import Mathlib.Data.Nat.Size

/-! Repeated squaring gives powers.

Each round takes the lowest bit off the exponent (`Word.Squaring.next`). What is
done times the power that is left stays the same modulo `2 ^ 256`, so when no bit
is left, what is done is the power. There are as many rounds as the exponent has
bits, at most 256 for a word. -/
namespace BlockIR
namespace Word

/-- Where repeated squaring stands: the factors that are done, and a power yet to be multiplied in. -/
structure Squaring where
  result : Nat
  base : Nat
  exponent : Nat

namespace Squaring

/-- Where it starts. -/
def start (base exponent : Nat) : Squaring := ⟨1, base, exponent⟩

/-- One round. -/
def next (s : Squaring) : Squaring where
  result := if s.exponent % 2 = 1 then s.result * s.base % modulus else s.result
  base := s.base * s.base % modulus
  exponent := s.exponent / 2

/-- The product that is computed, which rounds keep modulo `2 ^ 256`. -/
def product (s : Squaring) : Nat := s.result * s.base ^ s.exponent

theorem product_next (s : Squaring) : s.next.product ≡ s.product [MOD modulus] := by
  have hsquare : (s.base * s.base % modulus) ^ (s.exponent / 2) ≡ (s.base * s.base) ^ (s.exponent / 2) [MOD modulus] :=
    (Nat.mod_modEq _ _).pow _
  have hhalves : (s.base * s.base) ^ (s.exponent / 2) = s.base ^ (2 * (s.exponent / 2)) := by
    rw [← pow_two, pow_mul]
  rw [hhalves] at hsquare
  unfold product next
  dsimp only
  split
  · have hodd : s.exponent = 2 * (s.exponent / 2) + 1 := by omega
    calc s.result * s.base % modulus * (s.base * s.base % modulus) ^ (s.exponent / 2)
        ≡ s.result * s.base * s.base ^ (2 * (s.exponent / 2)) [MOD modulus] := (Nat.mod_modEq _ _).mul hsquare
      _ = s.result * s.base ^ (2 * (s.exponent / 2) + 1) := by rw [pow_succ', mul_assoc]
      _ = s.result * s.base ^ s.exponent := by rw [← hodd]
  · have heven : s.exponent = 2 * (s.exponent / 2) := by omega
    rw [← heven] at hsquare
    exact hsquare.mul_left _

theorem result_next {s : Squaring} (h : s.result < modulus) : s.next.result < modulus := by
  unfold next
  dsimp only
  split
  · exact Nat.mod_lt _ modulus_pos
  · exact h

theorem powFrom_next (s : Squaring) :
    powFrom s.result s.base s.exponent = powFrom s.next.result s.next.base s.next.exponent := by
  rw [powFrom]
  split
  · simp [next, powFrom, *]
  · rfl

/-! ### All rounds -/

theorem exponent_iterate (s : Squaring) (rounds : Nat) : (next^[rounds] s).exponent = s.exponent / 2 ^ rounds := by
  induction rounds with
  | zero => simp
  | succ rounds ih => rw [Function.iterate_succ_apply', next, ih, Nat.div_div_eq_div_mul, pow_succ]

theorem product_iterate (s : Squaring) (rounds : Nat) : (next^[rounds] s).product ≡ s.product [MOD modulus] := by
  induction rounds with
  | zero => rfl
  | succ rounds ih =>
    rw [Function.iterate_succ_apply']
    exact (product_next _).trans ih

theorem result_iterate {s : Squaring} (h : s.result < modulus) (rounds : Nat) :
    (next^[rounds] s).result < modulus := by
  induction rounds with
  | zero => exact h
  | succ rounds ih =>
    rw [Function.iterate_succ_apply']
    exact result_next ih

/-- When no bit of the exponent is left, the factors that are done are the product. -/
theorem result_eq_product {s : Squaring} (h : s.result < modulus) {rounds : Nat}
    (hdone : (next^[rounds] s).exponent = 0) : (next^[rounds] s).result = s.product % modulus := by
  have hproduct := product_iterate s rounds
  rw [product, hdone, pow_zero, mul_one] at hproduct
  rw [← Nat.mod_eq_of_lt (result_iterate h rounds)]
  exact hproduct

theorem powFrom_eq_result (s : Squaring) {rounds : Nat} (hdone : (next^[rounds] s).exponent = 0) :
    powFrom s.result s.base s.exponent = (next^[rounds] s).result := by
  induction rounds generalizing s with
  | zero =>
    have hzero : s.exponent = 0 := hdone
    rw [powFrom, if_pos hzero]
    rfl
  | succ rounds ih =>
    rw [powFrom_next, Function.iterate_succ_apply]
    exact ih s.next hdone

theorem exponent_size (s : Squaring) : (next^[s.exponent.size] s).exponent = 0 := by
  rw [exponent_iterate]
  exact Nat.div_eq_of_lt (Nat.lt_size_self _)

theorem result_size (b e : Nat) : (next^[e.size] (start b e)).result = b ^ e % modulus := by
  have hone : 1 < modulus := by decide
  have hproduct := result_eq_product (s := start b e) hone (exponent_size (start b e))
  rwa [product, start, one_mul] at hproduct

end Squaring

theorem exp_eq_pow (b e : Word) : exp b e = b ^ e % modulus :=
  (Squaring.powFrom_eq_result (.start b e) (Squaring.exponent_size _)).trans (Squaring.result_size b e)

end Word

open Target Word in
/-- The builtin `exp` gives powers modulo `2 ^ 256`, the power of nothing being one. Its loop ends after
as many rounds as the exponent has bits. Its values multiply, and are raised to powers, as powers are. -/
theorem exp_is_power (b e : Word) :
    ((∀ rounds < e.size, (Squaring.next^[rounds] (.start b e)).exponent ≠ 0) ∧
      (Squaring.next^[e.size] (.start b e)).exponent = 0 ∧
      evm.Computes "exp" [b, e] (Squaring.next^[e.size] (.start b e)).result ∧ (e.InRange → e.size ≤ 256)) ∧
    evm.Computes "exp" [b, e] (b ^ e % 2 ^ 256) ∧ evm.Computes "exp" [0, 0] 1 ∧
    (∃ p q, evm.Computes "exp" [b, e] p ∧ evm.Computes "mul" [p, b] q ∧ evm.Computes "exp" [b, e + 1] q) ∧
    ∀ f, ∃ p q, evm.Computes "exp" [b, e] p ∧ evm.Computes "exp" [p, f] q ∧ evm.Computes "exp" [b, e * f] q := by
  have hpower (b e : Word) : evm.Computes "exp" [b, e] (b ^ e % modulus) := by
    have hexp : evm.Computes "exp" [b, e] (ofInt (exp b e)) := Evm.computes_binary (f := fun a b => exp a b) rfl b e
    rwa [ofInt_natCast, exp_eq_pow, Nat.mod_mod] at hexp
  refine ⟨⟨fun rounds hrounds => ?_, Squaring.exponent_size (.start b e), ?_, fun he => ?_⟩, ?_, hpower 0 0, ?_,
    fun f => ?_⟩
  · rw [Squaring.exponent_iterate]
    exact (Nat.div_pos (Nat.lt_size.mp hrounds) (Nat.two_pow_pos rounds)).ne'
  · rw [Squaring.result_size]
    exact hpower b e
  · exact Nat.size_le.mpr (modulus_eq ▸ he)
  · exact modulus_eq ▸ hpower b e
  · refine ⟨_, _, hpower b e, Evm.computes_binary (f := fun a b => (a : Int) * b) rfl _ b, ?_⟩
    rw [← Int.natCast_mul, ofInt_natCast, Nat.mod_mul_mod, ← pow_succ]
    exact hpower b (e + 1)
  · refine ⟨_, _, hpower b e, hpower _ f, ?_⟩
    rw [← Nat.pow_mod, ← pow_mul]
    exact hpower b (e * f)

end BlockIR
