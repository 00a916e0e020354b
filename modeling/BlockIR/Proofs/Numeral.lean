import BlockIR.Literal

/-! Numerals are read back as the numbers they were written for.

A number is written with the digits of its quotient and its remainder, so both
directions go by division: each character that is written is a digit of the
base (`mem_toDigits`) and stands for its value, so the digits of a number, read
as a run of them, give the number (`run?_toDigits`). Zeros in front and the case
of the digits do not count (`valueFrom_leftpad`, `valueFrom_toUpper`). -/
namespace BlockIR
namespace Numeral

/-- A digit is one of the sixteen, of either case. -/
theorem digitValue?_range {c : Char} {d : Nat} (h : digitValue? c = some d) : c.toNat < 128 ∧ d < 16 := by
  unfold digitValue? at h
  simp only [Char.le_def, UInt32.le_iff_toNat_le] at h
  have hnat : c.val.toNat = c.toNat := rfl
  rw [hnat] at h
  split at h <;> rename_i hdigit
  · change 48 ≤ c.toNat ∧ c.toNat ≤ 57 at hdigit
    change some (c.toNat - 48) = some d at h
    cases h
    omega
  split at h <;> rename_i hlower
  · change 97 ≤ c.toNat ∧ c.toNat ≤ 102 at hlower
    change some (c.toNat - 97 + 10) = some d at h
    cases h
    omega
  split at h <;> rename_i hupper
  · change 65 ≤ c.toNat ∧ c.toNat ≤ 70 at hupper
    change some (c.toNat - 65 + 10) = some d at h
    cases h
    omega
  · cases h

theorem isDigit_sixteen_iff {c : Char} : isDigit 16 c = true ↔ ∃ d, digitValue? c = some d := by
  unfold isDigit
  split
  · rename_i d hd
    exact ⟨fun _ => ⟨d, hd⟩, fun _ => by simpa using (digitValue?_range hd).2⟩
  · rename_i hnone
    refine iff_of_false (by rintro ⟨⟩) ?_
    rintro ⟨d, hd⟩
    cases hnone.symm.trans hd

theorem digitValue?_digitChar {d : Nat} (h : d < 16) : digitValue? d.digitChar = some d := by
  have hall : ∀ d : Fin 16, digitValue? d.val.digitChar = some d.val := by decide
  exact hall ⟨d, h⟩

theorem isDigit_digitChar {base d : Nat} (hbase : base ≤ 16) (h : d < base) :
    isDigit base d.digitChar = true := by
  unfold isDigit
  rw [digitValue?_digitChar (Nat.lt_of_lt_of_le h hbase)]
  simpa using h

theorem valueFrom_append (base acc : Nat) (digits more : List Char) :
    valueFrom base acc (digits ++ more) = valueFrom base (valueFrom base acc digits) more := by
  induction digits generalizing acc with
  | nil => rfl
  | cons c rest ih => exact ih _

/-- What stands in front of a number and is no digit but zero does not count. -/
theorem valueFrom_leftpad {base width : Nat} {pad : Char} (hpad : (digitValue? pad).getD 0 = 0) (text : List Char) :
    valueFrom base 0 (text.leftpad width pad) = valueFrom base 0 text := by
  have hzero : ∀ k, valueFrom base 0 (List.replicate k pad) = 0 := by
    intro k
    induction k with
    | zero => rfl
    | succ k ih => rw [List.replicate_succ, valueFrom, hpad, Nat.zero_mul, Nat.zero_add, ih]
  rw [List.leftpad, valueFrom_append, hzero]

/-- Either case of the digits has the same value. -/
theorem valueFrom_toUpper {text : List Char} (htext : ∀ c ∈ text, ∃ d < 16, c = Nat.digitChar d) (acc : Nat) :
    valueFrom 16 acc (text.map Char.toUpper) = valueFrom 16 acc text := by
  induction text generalizing acc with
  | nil => rfl
  | cons c rest ih =>
    obtain ⟨⟨d, hd, rfl⟩, hrest⟩ := List.forall_mem_cons.mp htext
    have hupper : ∀ d : Fin 16, digitValue? d.val.digitChar.toUpper = digitValue? d.val.digitChar := by decide
    rw [List.map_cons, valueFrom, valueFrom, hupper ⟨d, hd⟩, ih hrest]

variable {base : Nat} (hlow : 1 < base)
include hlow

theorem mem_toDigits (n : Nat) : ∀ c ∈ Nat.toDigits base n, ∃ d < base, c = d.digitChar := by
  induction n using Nat.strongRecOn with
  | ind n ih =>
    intro c hc
    by_cases hsmall : n < base
    · rw [Nat.toDigits_of_lt_base hsmall, List.mem_singleton] at hc
      exact ⟨n, hsmall, hc⟩
    · rw [Nat.toDigits_of_base_le hlow (Nat.not_lt.mp hsmall), List.mem_append, List.mem_singleton] at hc
      obtain hc | hc := hc
      · exact ih (n / base) (Nat.div_lt_self (by omega) hlow) c hc
      · exact ⟨n % base, Nat.mod_lt n (by omega), hc⟩

variable (hhigh : base ≤ 16)
include hhigh

theorem isDigit_of_mem_toDigits (n : Nat) : ∀ c ∈ Nat.toDigits base n, isDigit base c = true := by
  intro c hc
  obtain ⟨d, hd, rfl⟩ := mem_toDigits hlow n c hc
  exact isDigit_digitChar hhigh hd

theorem valueFrom_toDigits (n : Nat) : valueFrom base 0 (Nat.toDigits base n) = n := by
  induction n using Nat.strongRecOn with
  | ind n ih =>
    by_cases hsmall : n < base
    · rw [Nat.toDigits_of_lt_base hsmall]
      simp [valueFrom, digitValue?_digitChar (Nat.lt_of_lt_of_le hsmall hhigh)]
    · have hmod : n % base < base := Nat.mod_lt n (by omega)
      rw [Nat.toDigits_of_base_le hlow (Nat.not_lt.mp hsmall), valueFrom_append,
        ih (n / base) (Nat.div_lt_self (by omega) hlow)]
      simp [valueFrom, digitValue?_digitChar (Nat.lt_of_lt_of_le hmod hhigh), Nat.div_add_mod']

/-- The digits of a number, read as a run of them, give the number. -/
theorem run?_toDigits (n : Nat) : run? base (Nat.toDigits base n) = some n := by
  have hall : (Nat.toDigits base n).all (isDigit base) = true :=
    List.all_eq_true.mpr (isDigit_of_mem_toDigits hlow hhigh n)
  unfold run?
  rw [if_pos ⟨Nat.toDigits_ne_nil, hall⟩, valueFrom_toDigits hlow hhigh]

end Numeral

/-! ### Words that are written -/

namespace Word

/-- The characters of a word in hexadecimal. -/
theorem toList_hex (w : Word) : (hex (w : Int)).toList = '0' :: 'x' :: Nat.toDigits 16 w := by
  have hnonneg : ¬(w : Int) < 0 := by omega
  simp [hex, Numeral.render, hnonneg]

theorem toList_hex64 (w : Word) : (hex64 (w : Int)).toList = (Nat.toDigits 16 w).leftpad 64 '0' := by
  have hnonneg : ¬(w : Int) < 0 := by omega
  simp [hex64, Numeral.render, hnonneg, bytes]

theorem length_hex64 {w : Word} (h : w.InRange) : (hex64 (w : Int)).toList.length = 64 := by
  rw [toList_hex64, List.length_leftpad]
  exact Nat.max_eq_left ((Nat.length_toDigits_le_iff (by decide) (by decide)).mpr h)

theorem hex64_injective {v w : Word} (h : hex64 (v : Int) = hex64 (w : Int)) : v = w := by
  have hvalue (w : Word) : Numeral.valueFrom 16 0 (hex64 (w : Int)).toList = w := by
    rw [toList_hex64, Numeral.valueFrom_leftpad (by decide), Numeral.valueFrom_toDigits (by decide) (by decide)]
  rw [← hvalue v, h, hvalue]

theorem parse_toString {w : Word} (h : w.InRange) : parse (toString w) = .ok w := by
  have hdigits : (toString w).toList = Nat.toDigits 10 w := String.toList_ofList
  have hread : Numeral.value? (Nat.toDigits 10 w) = some w := by
    have hrun : Numeral.run? 10 (Nat.toDigits 10 w) = some w := Numeral.run?_toDigits (by decide) (by decide) w
    have hall : ∀ c ∈ Nat.toDigits 10 w, Numeral.isDigit 10 c = true :=
      Numeral.isDigit_of_mem_toDigits (by decide) (by decide) w
    unfold Numeral.value?
    split
    · -- Decimal digits do not begin with `0x`.
      rename_i heq
      have hx := hall 'x' (by rw [heq]; simp)
      exact absurd hx (by decide)
    · exact hrun
  unfold parse
  rw [hdigits, hread]
  exact if_pos h

end Word

theorem Literal.value_ofWord {w : Word} (h : w.InRange) : (Literal.ofWord w).value = .ok w :=
  congrArg (Except.mapError _) (Word.parse_toString h)

end BlockIR
