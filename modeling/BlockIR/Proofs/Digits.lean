import BlockIR.Options
import BlockIR.Proofs.Numeral
import Mathlib.Data.Nat.Digits.Defs

/-! Numerals are read as the numbers that they denote.

What a numeral denotes is said without reading it: its characters are digits, each
in either case (`Numeral.Writes`), and the number is the sum of these digits times
their place values (`Numeral.Spells`, `Numeral.Denotes`). Reading finds this number
and no other (`value?_eq_some_iff`), and it is a word if it is small enough. So
every way of writing a word down is undone by reading it back
(`numerals_are_read_exactly`). -/
namespace BlockIR
namespace Numeral

/-- A character writes a digit of a base, in lower or in upper case. -/
def Writes (base : Nat) (c : Char) (d : Nat) : Prop := d < base ∧ (c = d.digitChar ∨ c = d.digitChar.toUpper)

/-- Characters are the digits of a number in a base, the most significant one first. Zeros in front are allowed. -/
def Spells (base : Nat) (text : List Char) (n : Nat) : Prop :=
  text ≠ [] ∧ ∃ digits, List.Forall₂ (Writes base) text digits ∧ Nat.ofDigits base digits.reverse = n

/-- A text is a numeral of a number: decimal digits, or `0x` and hexadecimal ones. -/
inductive Denotes (text : String) (n : Nat) : Prop
  | decimal : Spells 10 text.toList n → Denotes text n
  | hexadecimal {digits : List Char} : text = "0x" ++ String.ofList digits → Spells 16 digits n → Denotes text n

/-! ### Digits -/

section Digits
variable {base : Nat} (hbase : base ≤ 16)
include hbase

theorem writes_iff {c : Char} {d : Nat} : Writes base c d ↔ digitValue? c = some d ∧ d < base := by
  constructor
  · rintro ⟨hd, hc⟩
    have hall : ∀ d : Fin 16, digitValue? d.val.digitChar = some d.val ∧
        digitValue? d.val.digitChar.toUpper = some d.val := by decide
    obtain ⟨hlower, hupper⟩ := hall ⟨d, Nat.lt_of_lt_of_le hd hbase⟩
    refine ⟨?_, hd⟩
    rcases hc with rfl | rfl
    · exact hlower
    · exact hupper
  · rintro ⟨hc, hd⟩
    have hall : ∀ n : Fin 128, ∀ d ∈ digitValue? (Char.ofNat n.val),
        Char.ofNat n.val = d.digitChar ∨ Char.ofNat n.val = d.digitChar.toUpper := by decide
    have hchar := hall ⟨c.toNat, (digitValue?_range hc).1⟩ d
    rw [Char.ofNat_toNat] at hchar
    exact ⟨hd, hchar hc⟩

theorem isDigit_iff {c : Char} : isDigit base c = true ↔ ∃ d, Writes base c d := by
  simp only [writes_iff hbase, isDigit]
  cases digitValue? c <;> simp

/-- Digits are the characters that write them. -/
theorem forall₂_writes {text : List Char} : (∀ c ∈ text, isDigit base c = true) ↔
    ∃ digits, List.Forall₂ (Writes base) text digits := by
  induction text with
  | nil => exact iff_of_true (by simp) ⟨[], .nil⟩
  | cons c rest ih =>
    rw [List.forall_mem_cons, ih, isDigit_iff hbase]
    constructor
    · rintro ⟨⟨d, hd⟩, digits, hdigits⟩
      exact ⟨d :: digits, .cons hd hdigits⟩
    · rintro ⟨_, _ | ⟨hd, hdigits⟩⟩
      exact ⟨⟨_, hd⟩, _, hdigits⟩

/-- A run of digits after a number goes on with it as one more digit in front. -/
theorem valueFrom_eq_ofDigits {text : List Char} {digits : List Nat} (h : List.Forall₂ (Writes base) text digits)
    (acc : Nat) : valueFrom base acc text = Nat.ofDigits base (digits.reverse ++ [acc]) := by
  induction h generalizing acc with
  | nil => simp [valueFrom]
  | @cons c d rest digits hd _ ih =>
    rw [valueFrom, ((writes_iff hbase).mp hd).1, Option.getD_some, ih, List.reverse_cons, List.append_assoc,
      Nat.ofDigits_append, Nat.ofDigits_append, List.singleton_append]
    simp [Nat.ofDigits_cons, Nat.add_comm, Nat.mul_comm]

theorem run?_eq_some_iff {text : List Char} {n : Nat} : run? base text = some n ↔ Spells base text n := by
  have hvalue {digits : List Nat} (h : List.Forall₂ (Writes base) text digits) :
      valueFrom base 0 text = Nat.ofDigits base digits.reverse := by
    rw [valueFrom_eq_ofDigits hbase h, Nat.ofDigits_append]
    simp
  unfold run? Spells
  rw [Option.ite_none_right_eq_some, List.all_eq_true, forall₂_writes hbase, Option.some_inj]
  constructor
  · rintro ⟨⟨hne, digits, hdigits⟩, rfl⟩
    exact ⟨hne, digits, hdigits, (hvalue hdigits).symm⟩
  · rintro ⟨hne, digits, hdigits, rfl⟩
    exact ⟨⟨hne, digits, hdigits⟩, hvalue hdigits⟩

end Digits

/-! ### Numerals -/

theorem not_spells_mark {digits : List Char} {n : Nat} : ¬Spells 10 ('0' :: 'x' :: digits) n := by
  rintro ⟨-, _, _ | ⟨-, _ | ⟨hx, -⟩⟩, -⟩
  have hnone : digitValue? 'x' = none := by decide
  cases hnone.symm.trans ((writes_iff (by decide)).mp hx).1

theorem value?_eq_some_iff {text : String} {n : Nat} : value? text.toList = some n ↔ Denotes text n := by
  unfold value?
  split
  · rename_i digits hmark
    rw [run?_eq_some_iff (Nat.le_refl 16)]
    have htext : text = "0x" ++ String.ofList digits := String.toList_inj.mp (by simp [hmark])
    constructor
    · exact fun h => .hexadecimal htext h
    · rintro (hdecimal | ⟨hother, h⟩)
      · exact absurd (hmark ▸ hdecimal) not_spells_mark
      · rw [hother] at hmark
        simp at hmark
        exact hmark ▸ h
  · rename_i hplain
    rw [run?_eq_some_iff (by decide)]
    constructor
    · exact fun h => .decimal h
    · rintro (h | @⟨digits, hother, -⟩)
      · exact h
      · refine (hplain digits ?_).elim
        rw [hother]
        simp

/-- Zeros in front of the digits of a number do not change it. -/
theorem run?_leftpad {base : Nat} (hlow : 1 < base) (hhigh : base ≤ 16) (width n : Nat) :
    run? base ((Nat.toDigits base n).leftpad width '0') = some n := by
  have hzero : isDigit base (Nat.digitChar 0) = true := isDigit_digitChar hhigh (Nat.lt_trans Nat.one_pos hlow)
  have hall : ((Nat.toDigits base n).leftpad width '0').all (isDigit base) = true := by
    rw [List.leftpad, List.all_append, Bool.and_eq_true, List.all_eq_true, List.all_eq_true]
    refine ⟨fun c hc => ?_, isDigit_of_mem_toDigits hlow hhigh n⟩
    rw [(List.mem_replicate.mp hc).2]
    exact hzero
  have hne : (Nat.toDigits base n).leftpad width '0' ≠ [] := by
    simp [List.leftpad]
  unfold run?
  rw [if_pos ⟨hne, hall⟩, valueFrom_leftpad (by decide), valueFrom_toDigits hlow hhigh]

end Numeral

/-! ### Words -/

namespace Word
open Numeral

theorem parse_of_denotes {text : String} {n : Nat} (h : Denotes text n) :
    parse text = if n < 2 ^ 256 then .ok n else .error .tooLarge := by
  unfold parse
  rw [value?_eq_some_iff.mpr h]
  rfl

theorem parse_of_not_denotes {text : String} (h : ∀ n, ¬Denotes text n) : parse text = .error .notNumeral := by
  unfold parse
  rcases hvalue : value? text.toList with _ | n
  · rfl
  · exact absurd (value?_eq_some_iff.mp hvalue) (h n)

/-- A text is read as a word exactly if it is a numeral of it. -/
theorem parse_eq_ok_iff {text : String} {w : Word} : parse text = .ok w ↔ Denotes text w ∧ w < 2 ^ 256 := by
  constructor
  · intro h
    by_cases hnumeral : ∃ n, Denotes text n
    · obtain ⟨n, hn⟩ := hnumeral
      rw [parse_of_denotes hn] at h
      split at h <;> cases h
      exact ⟨hn, ‹_›⟩
    · rw [parse_of_not_denotes (not_exists.mp hnumeral)] at h
      cases h
  · rintro ⟨hn, hw⟩
    rw [parse_of_denotes hn, if_pos hw]

theorem parse_of_value? {text : String} {w : Word} (h : w.InRange) (hvalue : value? text.toList = some w) :
    parse text = .ok w := parse_eq_ok_iff.mpr ⟨value?_eq_some_iff.mp hvalue, h⟩

theorem parse_hex {w : Word} (h : w.InRange) : parse (hex w) = .ok w := by
  refine parse_of_value? h ?_
  rw [toList_hex]
  exact run?_toDigits (by decide) (by decide) w

theorem parse_hex64 {w : Word} (h : w.InRange) : parse ("0x" ++ hex64 w) = .ok w := by
  refine parse_of_value? h ?_
  rw [String.toList_append, toList_hex64]
  exact run?_leftpad (by decide) (by decide) 64 w

theorem mem_hex64 (w : Word) : ∀ c ∈ (hex64 (w : Int)).toList, ∃ d < 16, c = Nat.digitChar d := by
  intro c hc
  rw [toList_hex64, List.leftpad, List.mem_append, List.mem_replicate] at hc
  rcases hc with ⟨-, rfl⟩ | hc
  · exact ⟨0, by decide, rfl⟩
  · exact mem_toDigits (by decide) w c hc

end Word

open Numeral Word in
/-- A text is read as a word exactly if it is a numeral of a number below `2 ^ 256`, and any other text is an
invalid literal. Reading undoes each of the ways to write a word down, so no two words are written alike. -/
theorem numerals_are_read_exactly :
    (∀ text : String,
      (∀ w, parse text = .ok w ↔ Denotes text w ∧ w < 2 ^ 256) ∧
      (∀ n, Denotes text n → 2 ^ 256 ≤ n → parse text = .error .tooLarge) ∧
      ((∀ n, ¬Denotes text n) → parse text = .error .notNumeral) ∧
      ∀ fault, parse text = .error fault → ∃ error : Error, error.code = "InvalidLiteral" ∧
        Literal.value ⟨.number, text⟩ = .error error ∧ WordOption.value (.numeral text) = .error error) ∧
    (∀ w : Word, w.InRange →
      parse (toString w) = .ok w ∧ parse (hex w) = .ok w ∧ parse ("0x" ++ hex64 w) = .ok w ∧
      ((hex64 w).length = 64 ∧ ∀ c ∈ (hex64 w).toList, ∃ d < 16, c = Nat.digitChar d) ∧
      (Literal.ofWord w).value = .ok w) ∧
    ∀ v w : Word, v.InRange → w.InRange → (hex v = hex w → v = w) ∧ (hex64 v = hex64 w → v = w) := by
  refine ⟨fun text => ⟨fun w => parse_eq_ok_iff, fun n hn hlarge => ?_, parse_of_not_denotes, fun fault hfault => ?_⟩,
    fun w hw => ⟨parse_toString hw, parse_hex hw, parse_hex64 hw, ⟨?_, mem_hex64 w⟩, Literal.value_ofWord hw⟩,
    fun v w hv hw => ⟨fun heq => ?_, fun heq => ?_⟩⟩
  · rw [parse_of_denotes hn, if_neg (Nat.not_lt.mpr hlarge)]
  · have hthrown := congrArg (Except.mapError (Error.invalidLiteral text)) hfault
    exact ⟨.invalidLiteral text fault, rfl, hthrown, hthrown⟩
  · rw [← String.length_toList]
    exact length_hex64 hw
  · have hread := parse_hex hv
    rw [heq, parse_hex hw] at hread
    cases hread
    rfl
  · have hread := parse_hex64 hv
    rw [heq, parse_hex64 hw] at hread
    cases hread
    rfl

/-- The numeral of `2 ^ 256`, in hexadecimal. -/
def Numeral.beyondWords : String := String.ofList ('0' :: 'x' :: '1' :: List.replicate 64 '0')

open Numeral Word in
theorem numerals_are_read_exactly_sample :
    (Denotes "0x02A" 42 ∧ parse "0x02A" = .ok 42) ∧
    (Denotes beyondWords (2 ^ 256) ∧ parse beyondWords = .error .tooLarge) ∧
    ((∀ n, ¬Denotes "-1" n) ∧ ∃ error : Error, error.code = "InvalidLiteral" ∧
      Literal.value ⟨.number, "-1"⟩ = .error error) ∧
    (InRange mask ∧ parse (hex mask) = .ok mask ∧ parse ("0x" ++ hex64 mask) = .ok mask) ∧
    (InRange 42 ∧ InRange 43 ∧ hex64 (42 : Word) ≠ hex64 (43 : Word)) := by
  obtain ⟨htexts, hwords, happart⟩ := numerals_are_read_exactly
  have hnumeral : Denotes "0x02A" 42 := value?_eq_some_iff.mp (by cbv)
  have hbeyond : Denotes beyondWords (2 ^ 256) := by
    have hchars : beyondWords.toList = '0' :: 'x' :: '1' :: List.replicate 64 '0' := String.toList_ofList
    exact value?_eq_some_iff.mp ((congrArg value? hchars).trans (by decide +kernel))
  have hnone : ∀ n, ¬Denotes "-1" n := by
    intro n hn
    have hvalue : value? "-1".toList = none := by cbv
    cases hvalue.symm.trans (value?_eq_some_iff.mpr hn)
  obtain ⟨error, hcode, hthrown, -⟩ := (htexts "-1").2.2.2 _ ((htexts "-1").2.2.1 hnone)
  have hmask : InRange mask := by decide
  refine ⟨⟨hnumeral, ((htexts _).1 42).mpr ⟨hnumeral, by decide⟩⟩,
    ⟨hbeyond, (htexts _).2.1 _ hbeyond (Nat.le_refl _)⟩, ⟨hnone, error, hcode, hthrown⟩,
    ⟨hmask, (hwords mask hmask).2.1, (hwords mask hmask).2.2.1⟩, by decide, by decide, fun heq => ?_⟩
  have hsame := (happart 42 43 (by decide) (by decide)).2 heq
  cases hsame

end BlockIR
