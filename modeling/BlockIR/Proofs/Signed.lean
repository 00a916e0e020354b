import BlockIR.Proofs.Computing
import BlockIR.Proofs.Ranges
import Mathlib.Data.Int.ModEq
import Mathlib.Data.Rat.Floor

/-! Signed arithmetic is that of two's complement.

A word stands for 256 bits. Its signed reading is the two's complement reading of
those (`Word.signed_eq_toInt`), and bringing an integer back into range keeps the
low 256 bits of it (`Word.ofInt_eq_toNat`). So the signed builtins are operations
on bit vectors, whose readings are known; only where the quotient is `2 ^ 255`,
which no word reads as, does one of them not give the signed result. -/
namespace BlockIR
namespace Word

theorem signBound_eq : signBound = 2 ^ 255 := by decide

/-! ### Words as bit vectors -/

theorem toNat_ofNat {w : Word} (h : w.InRange) : (BitVec.ofNat 256 w).toNat = w := by
  rw [BitVec.toNat_ofNat, Nat.mod_eq_of_lt (modulus_eq ▸ h)]

theorem ofInt_eq_toNat (v : Int) : ofInt v = (BitVec.ofInt 256 v).toNat := by
  rw [BitVec.toNat_ofInt, ofInt, modulus_eq]

theorem signed_eq_toInt {w : Word} (h : w.InRange) : signed w = (BitVec.ofNat 256 w).toInt := by
  have hless : w < 2 ^ 256 := modulus_eq ▸ h
  rw [BitVec.toInt_eq_toNat_cond, toNat_ofNat h, signed, signBound_eq, modulus_eq]
  split <;> split <;> omega

theorem signed_ofInt (v : Int) : signed (ofInt v) = (BitVec.ofInt 256 v).toInt := by
  rw [signed_eq_toInt (ofInt_inRange v), ofInt_eq_toNat, BitVec.ofNat_toNat, BitVec.setWidth_eq]

theorem signed_lower {w : Word} (h : w.InRange) : -2 ^ 255 ≤ signed w :=
  signed_eq_toInt h ▸ BitVec.le_toInt _

theorem signed_upper {w : Word} (h : w.InRange) : signed w < 2 ^ 255 :=
  signed_eq_toInt h ▸ BitVec.toInt_lt

/-- The signed reading differs from the word by a multiple of `2 ^ 256`. -/
theorem signed_modEq (w : Word) : signed w ≡ w [ZMOD 2 ^ 256] := by
  unfold signed
  rw [modulus_eq]
  split
  · exact Int.sub_modulus_modEq_iff.mpr rfl
  · rfl

theorem ofInt_modEq (v : Int) : ofInt v ≡ v [ZMOD 2 ^ 256] := by
  have hkept : ((ofInt v : Nat) : Int) = v % 2 ^ 256 := by
    rw [ofInt, modulus_eq]
    exact Int.toNat_of_nonneg (Int.emod_nonneg v (by decide))
  rw [hkept]
  exact Int.mod_modEq v _

/-! ### Quotient and remainder -/

theorem signed_smod {a b : Word} (ha : a.InRange) (hb : b.InRange) (hne : b ≠ 0) :
    signed (ofInt (smod a b)) = (signed a).tmod (signed b) := by
  rw [smod, if_neg hne, signed_ofInt, signed_eq_toInt ha, signed_eq_toInt hb, ← BitVec.toInt_srem,
    BitVec.ofInt_toInt]

theorem signed_sdiv {a b : Word} (ha : a.InRange) (hb : b.InRange) (hne : b ≠ 0)
    (hfits : ¬(a = 2 ^ 255 ∧ b = 2 ^ 256 - 1)) : signed (ofInt (sdiv a b)) = (signed a).tdiv (signed b) := by
  have hother : BitVec.ofNat 256 a ≠ BitVec.intMin 256 ∨ BitVec.ofNat 256 b ≠ -1#256 := by
    by_contra hboth
    push Not at hboth
    have hleast := congrArg BitVec.toNat hboth.1
    have hones := congrArg BitVec.toNat hboth.2
    rw [toNat_ofNat ha] at hleast
    rw [toNat_ofNat hb] at hones
    exact hfits ⟨hleast, hones⟩
  rw [sdiv, if_neg hne, signed_ofInt, signed_eq_toInt ha, signed_eq_toInt hb,
    ← BitVec.toInt_sdiv_of_ne_or_ne _ _ hother, BitVec.ofInt_toInt]

/-- Quotient and remainder make up the dividend again, also where the quotient does not fit. -/
theorem sdiv_mul_add_smod (a : Word) {b : Word} (hne : b ≠ 0) :
    ofInt (sdiv a b) * b + ofInt (smod a b) ≡ a [MOD 2 ^ 256] := by
  apply Int.natCast_modEq_iff.mp
  push_cast
  calc (ofInt (sdiv a b) * b + ofInt (smod a b) : Int)
      ≡ sdiv a b * signed b + smod a b [ZMOD 2 ^ 256] :=
        ((ofInt_modEq _).mul (signed_modEq b).symm).add (ofInt_modEq _)
    _ = signed a := by
        rw [sdiv, smod, if_neg hne, if_neg hne]
        exact Int.tdiv_mul_add_tmod _ _
    _ ≡ a [ZMOD 2 ^ 256] := signed_modEq a

/-! ### Shifts -/

theorem ofInt_shl (s v : Word) : ofInt (shl s v) = (BitVec.ofNat 256 v <<< s).toNat := by
  rw [ofInt_eq_toNat, BitVec.ofInt_natCast, shl, bits]
  split
  · rw [BitVec.shiftLeft_eq_zero ‹_›]
  · simp [BitVec.toNat_shiftLeft, Nat.shiftLeft_eq]

/-- Shifted by the width of a word or more, only the sign is left, which is what an endless shift leaves. -/
theorem sar_eq_shiftRight {v : Word} (hv : v.InRange) (s : Word) : sar s v = signed v >>> s := by
  have hlow := signed_lower hv
  have hhigh := signed_upper hv
  unfold sar bits
  split
  · have hpow : (2 : Int) ^ 256 ≤ 2 ^ s := by
      exact_mod_cast Nat.pow_le_pow_right (by decide) ‹256 ≤ s›
    rw [Int.shiftRight_eq_div_pow]
    push_cast
    split
    · rw [Int.ediv_eq_neg_one_of_neg_of_le ‹_› (by omega)]
    · rw [Int.ediv_eq_zero_of_lt (by omega) (by omega)]
  · rfl

theorem ofInt_sar {v : Word} (hv : v.InRange) (s : Word) :
    ofInt (sar s v) = ((BitVec.ofNat 256 v).sshiftRight s).toNat := by
  rw [sar_eq_shiftRight hv, signed_eq_toInt hv, ← BitVec.toInt_sshiftRight, ofInt_eq_toNat, BitVec.ofInt_toInt]

theorem signed_sar {v : Word} (hv : v.InRange) (s : Word) :
    signed (ofInt (sar s v)) = ⌊(signed v : ℚ) / 2 ^ s⌋ := by
  rw [sar_eq_shiftRight hv, signed_eq_toInt hv, ← BitVec.toInt_sshiftRight, signed_ofInt, BitVec.ofInt_toInt,
    BitVec.toInt_sshiftRight, Int.shiftRight_eq_div_pow, ← Rat.floor_intCast_div_natCast]
  push_cast
  rfl

/-! ### Sign extension -/

theorem testBit_mask (i : Nat) : mask.testBit i = decide (i < 256) := by
  rw [mask_eq, modulus_eq, Nat.testBit_two_pow_sub_one]

/-- To extend low bits by their sign is to set all bits above them if the highest of them is set. -/
theorem toNat_signExtend {width : Nat} (hwidth : width ≤ 256) (v : Nat) :
    ((BitVec.ofNat width v).signExtend 256).toNat =
      if (v % 2 ^ width).testBit (width - 1) then v % 2 ^ width ||| (mask ^^^ (2 ^ width - 1)) else v % 2 ^ width := by
  have hsign : (v % 2 ^ width).testBit (width - 1) = (BitVec.ofNat width v).msb := by
    rw [BitVec.msb_eq_getLsbD_last, BitVec.getLsbD, BitVec.toNat_ofNat]
  apply Nat.eq_of_testBit_eq
  intro i
  rw [← BitVec.getLsbD, BitVec.getLsbD_signExtend, BitVec.getLsbD_ofNat, hsign]
  by_cases hlow : i < width
  · have hinside : i < 256 := by omega
    cases (BitVec.ofNat width v).msb <;> simp [testBit_mask, hlow, hinside]
  · cases (BitVec.ofNat width v).msb <;> simp [testBit_mask, hlow]

theorem signextend_eq {k : Nat} (hk : k < 31) (v : Word) :
    signextend k v = ((BitVec.ofNat (8 * (k + 1)) v).signExtend 256).toNat := by
  rw [toNat_signExtend (by omega), signextend, if_neg (Nat.not_le.mpr hk)]
  simp only [Nat.one_shiftLeft]

/-- Low bits moved up to the sign and back down are extended by their own sign. -/
theorem sshiftRight_shiftLeft {width : Nat} (hpos : 0 < width) (hwidth : width ≤ 256) (v : Nat) :
    (BitVec.ofNat 256 v <<< (256 - width)).sshiftRight (256 - width) = (BitVec.ofNat width v).signExtend 256 := by
  apply BitVec.eq_of_getLsbD_eq
  intro i hi
  rw [BitVec.getLsbD_sshiftRight, BitVec.getLsbD_signExtend, BitVec.msb_eq_getLsbD_last, BitVec.msb_eq_getLsbD_last]
  simp only [BitVec.getLsbD_shiftLeft, BitVec.getLsbD_ofNat]
  by_cases hlow : i < width
  · have hinside : 256 - width + i < 256 := by omega
    simp [hi, hlow, hinside]
  · have houtside : ¬ 256 - width + i < 256 := by omega
    have htop : ¬ 255 < 256 - width := by omega
    have hback : 255 - (256 - width) = width - 1 := by omega
    have hsign : width - 1 < 256 := by omega
    simp [hi, hlow, houtside, htop, hback, hsign, hpos]

theorem setWidth_signExtend {width : Nat} (hwidth : width ≤ 256) (x : BitVec width) :
    (x.signExtend 256).setWidth width = x := by
  apply BitVec.eq_of_getLsbD_eq
  intro i hi
  have hinside : i < 256 := by omega
  rw [BitVec.getLsbD_setWidth, BitVec.getLsbD_signExtend]
  simp only [hi, hinside, decide_true, Bool.true_and, if_true]

variable {k : Nat} (hk : k < 31) (v : Word)
include hk

theorem signextend_inRange : (signextend k v).InRange := by
  rw [signextend_eq hk, InRange, modulus_eq]
  exact BitVec.isLt _

theorem signed_signextend : signed (signextend k v) = (BitVec.ofNat (8 * (k + 1)) v).toInt := by
  rw [signed_eq_toInt (signextend_inRange hk v), signextend_eq hk, BitVec.ofNat_toNat, BitVec.setWidth_eq,
    BitVec.toInt_signExtend_of_le (by omega)]

theorem sar_shl : ofInt (sar (248 - 8 * k) (ofInt (shl (248 - 8 * k) v))) = signextend k v := by
  have hshift : 248 - 8 * k = 256 - 8 * (k + 1) := by omega
  rw [ofInt_sar (ofInt_inRange _), ofInt_shl, BitVec.ofNat_toNat, BitVec.setWidth_eq, hshift,
    sshiftRight_shiftLeft (by omega) (by omega), signextend_eq hk]

theorem signextend_signextend : signextend k (signextend k v) = signextend k v := by
  rw [signextend_eq hk v, signextend_eq hk, BitVec.ofNat_toNat, setWidth_signExtend (by omega)]

end Word

open Target Word in
/-- The signed builtins work on words as on integers in two's complement. Quotient and remainder are
truncated towards zero; the one quotient that is too large wraps, and with it too they make up the
dividend. A shift to the right rounds down, by any amount. Sign extension reads so many low bytes as
signed, which two shifts do as well and which is done once and for all. -/
theorem signed_builtins_are_twos_complement {a b v : Word} (ha : a.InRange) (hb : b.InRange) (hv : v.InRange)
    (s k : Word) :
    (b ≠ 0 → ∃ q r, evm.Computes "sdiv" [a, b] q ∧ evm.Computes "smod" [a, b] r ∧
      signed r = (signed a).tmod (signed b) ∧
      (if a = 2 ^ 255 ∧ b = 2 ^ 256 - 1 then q = 2 ^ 255 else signed q = (signed a).tdiv (signed b)) ∧
      q * b + r ≡ a [MOD 2 ^ 256]) ∧
    (∃ w, evm.Computes "sar" [s, v] w ∧ signed w = ⌊(signed v : ℚ) / 2 ^ s⌋) ∧
    (k < 31 → ∃ x y, evm.Computes "signextend" [k, v] x ∧
      evm.Computes "shl" [248 - 8 * k, v] y ∧ evm.Computes "sar" [248 - 8 * k, y] x ∧
      signed x = (BitVec.ofNat (8 * (k + 1)) v).toInt ∧
      evm.Computes "signextend" [k, x] x) ∧
    (31 ≤ k → evm.Computes "signextend" [k, v] v) := by
  have hextend (w : Word) : evm.Computes "signextend" [k, w] (ofInt (signextend k w)) :=
    Evm.computes_binary (f := fun a b => signextend a b) rfl k w
  refine ⟨fun hne => ?_, ?_, fun hk => ?_, fun hk => ?_⟩
  · refine ⟨_, _, Evm.computes_binary rfl a b, Evm.computes_binary rfl a b, signed_smod ha hb hne, ?_,
      sdiv_mul_add_smod a hne⟩
    split
    · rename_i hedge
      rw [hedge.1, hedge.2]
      decide
    · exact signed_sdiv ha hb hne ‹_›
  · exact ⟨_, Evm.computes_binary rfl s v, signed_sar hv s⟩
  · have hkept (w : Word) : ofInt (signextend k w) = signextend k w :=
      ofInt_of_inRange (signextend_inRange hk w)
    refine ⟨signextend k v, ofInt (shl (248 - 8 * k) v), hkept v ▸ hextend v,
      Evm.computes_binary (f := fun a b => shl a b) rfl _ v, ?_, signed_signextend hk v, ?_⟩
    · exact sar_shl hk v ▸ Evm.computes_binary rfl _ _
    · have hagain := hextend (signextend k v)
      rwa [hkept, signextend_signextend hk v] at hagain
  · have hsame := hextend v
    rwa [signextend, if_pos hk, ofInt_of_inRange hv] at hsame

open Target Word in
/-- Minus seven, halved both ways and read off one byte. -/
theorem signed_builtins_are_twos_complement_sample :
    (∃ q r, evm.Computes "sdiv" [2 ^ 256 - 7, 2] q ∧ evm.Computes "smod" [2 ^ 256 - 7, 2] r ∧
      signed q = -3 ∧ signed r = -1) ∧
    (∃ w, evm.Computes "sar" [1, 2 ^ 256 - 7] w ∧ signed w = -4) ∧
    ∃ x, evm.Computes "signextend" [0, 2 ^ 256 - 7] x ∧ signed x = -7 := by
  obtain ⟨hdivide, hshift, hextend, -⟩ := signed_builtins_are_twos_complement (a := 2 ^ 256 - 7) (b := 2)
    (v := 2 ^ 256 - 7) (by decide) (by decide) (by decide) 1 0
  obtain ⟨q, r, hq, hr, hremainder, hquotient, -⟩ := hdivide (by decide)
  obtain ⟨w, hw, hfloor⟩ := hshift
  obtain ⟨x, _, hx, -, -, hlow, -⟩ := hextend (by decide)
  have hseven : signed (2 ^ 256 - 7 : Nat) = -7 := by decide
  have htwo : signed (2 : Nat) = 2 := by decide
  rw [if_neg (by decide), hseven, htwo] at hquotient
  rw [hseven, htwo] at hremainder
  rw [hseven] at hfloor
  refine ⟨⟨q, r, hq, hr, hquotient, hremainder⟩, ⟨w, hw, ?_⟩, x, hx, hlow⟩
  rw [hfloor, Int.floor_eq_iff]
  norm_num

end BlockIR
