import BlockIR.Proofs.Digits
import BlockIR.Proofs.Environment

/-! Bytes are decoded as they are spelled.

A spelling of bytes is told from the bytes (`Bytes.Spelling`): two digits for each,
every digit in either case, with or without `0x` in front. The texts that options
accept for bytes are these spellings and no others, and each is decoded to the bytes
that it spells (`spelling_iff`). What the decoder makes of other texts is never seen
through options (`hex_options_decode_exactly`). -/
namespace BlockIR
namespace Bytes

/-- The two digits of a byte, the higher one first and each in either case. -/
def Pair (byte : UInt8) (pair : Char × Char) : Prop :=
  Numeral.Writes 16 pair.1 (byte.toNat / 16) ∧ Numeral.Writes 16 pair.2 (byte.toNat % 16)

/-- Pairs one after another. -/
def joined (pairs : List (Char × Char)) : List Char := pairs.flatMap fun pair => [pair.1, pair.2]

/-- A text spells bytes: a pair for each, with or without a mark in front. -/
def Spelling (text : String) (bytes : List UInt8) : Prop :=
  ∃ mark pairs, (mark = "" ∨ mark = "0x") ∧ List.Forall₂ Pair bytes pairs ∧ text = mark ++ String.ofList (joined pairs)

theorem spelled_iff {digits : List Char} {bytes : List UInt8} :
    Spelled digits bytes ↔ ∃ pairs, List.Forall₂ Pair bytes pairs ∧ digits = joined pairs := by
  constructor
  · intro h
    induction h with
    | nil => exact ⟨[], .nil, rfl⟩
    | @cons first second high low digits byte bytes hhigh hlow hbyte _ ih =>
      obtain ⟨pairs, hpairs, rfl⟩ := ih
      have hhigh' := (Numeral.digitValue?_range hhigh).2
      have hlow' := (Numeral.digitValue?_range hlow).2
      have hdiv : byte.toNat / 16 = high := by omega
      have hmod : byte.toNat % 16 = low := by omega
      refine ⟨(first, second) :: pairs, .cons ⟨?_, ?_⟩ hpairs, rfl⟩
      · exact (Numeral.writes_iff (Nat.le_refl 16)).mpr (hdiv ▸ ⟨hhigh, hhigh'⟩)
      · exact (Numeral.writes_iff (Nat.le_refl 16)).mpr (hmod ▸ ⟨hlow, hlow'⟩)
  · rintro ⟨pairs, hpairs, rfl⟩
    induction hpairs with
    | nil => exact .nil
    | @cons byte pair bytes pairs hpair _ ih =>
      obtain ⟨hhigh, hlow⟩ := hpair
      exact .cons ((Numeral.writes_iff (Nat.le_refl 16)).mp hhigh).1 ((Numeral.writes_iff (Nat.le_refl 16)).mp hlow).1
        (Nat.div_add_mod byte.toNat 16).symm ih

/-- Digits do not begin with a mark. -/
theorem dropMark_digits {digits : List Char} (h : digits.all (Numeral.isDigit 16) = true) :
    dropMark digits = digits := by
  unfold dropMark
  split
  · simp only [List.all_cons, Bool.and_eq_true] at h
    exact absurd h.2.1 (by decide)
  · rfl

theorem spelling_iff_spelled {text : String} {bytes : List UInt8} :
    Spelling text bytes ↔ Spelled (dropMark text.toList) bytes := by
  constructor
  · rintro ⟨mark, pairs, hmark, hpairs, rfl⟩
    have hspelled := spelled_iff.mpr ⟨pairs, hpairs, rfl⟩
    rcases hmark with rfl | rfl
    · simpa [dropMark_digits hspelled.digits.1] using hspelled
    · simpa [dropMark] using hspelled
  · intro h
    obtain ⟨pairs, hpairs, hdigits⟩ := spelled_iff.mp h
    unfold dropMark at hdigits
    split at hdigits
    · rename_i rest htext
      refine ⟨"0x", pairs, .inr rfl, hpairs, String.toList_inj.mp ?_⟩
      simp [htext, hdigits]
    · refine ⟨"", pairs, .inl rfl, hpairs, String.toList_inj.mp ?_⟩
      simp [hdigits]

/-- The texts of the right form are the spellings, and they are decoded to what they spell. -/
theorem spelling_iff {text : String} {bytes : List UInt8} :
    Spelling text bytes ↔ isSpelling text = true ∧ ofHex text = bytes := by
  have hread : Shape.hexBytes [] (some (.string text)) = .read bytes [] ↔ _ := Shape.hexBytes_eq_read_iff
  simp only [Shape.hexBytes, Shape.noting_eq_read_iff, Option.some.injEq, Json.string.injEq,
    exists_eq_left', Bool.not_eq_false'] at hread
  rw [spelling_iff_spelled, ← hread, and_comm]

end Bytes

namespace Options
open Bytes

theorem bytesOf_iff {json : Json} {bytes : List UInt8} :
    BytesOf json bytes ↔ ∃ text, json = .string text ∧ Spelling text bytes := by
  simp only [BytesOf, spelling_iff_spelled]

/-- Call data that is spelled is accepted. -/
theorem resolve_calldata {text : String} {bytes : List UInt8} (h : Spelling text bytes) :
    resolve (some (.object [("calldata", .string text)])) =
      .ok { setting := { calldata := bytes }, target := .evm, verbose := false } :=
  resolve_eq_ok_iff.mpr ⟨_, rfl, {
    maxSteps := .none
    maxNesting := .none
    target := .none
    calldata := .some (bytesOf_iff.mpr ⟨text, rfl, h⟩)
    address := .none
    caller := .none
    callvalue := .none
    dataObjects := .none
    verbose := .none }⟩

/-- Call data that is accepted is spelled. -/
theorem calldata_spelled {members : List (String × Json)} {options : Options} (h : options.SetUp members) {json : Json}
    (hjson : Json.member members "calldata" = some json) :
    ∃ text, json = .string text ∧ Spelling text options.setting.calldata := by
  have hfilled := h.calldata
  rw [hjson] at hfilled
  cases hfilled
  exact bytesOf_iff.mp ‹_›

/-- A document in which the data of a data object is spelled. -/
def SpellsData (item : Json) (object : DataObject) : Prop :=
  ∃ fields text, item = .object fields ∧ Json.member fields "data" = some (.string text) ∧ Spelling text object.data

/-- The data of each object that is accepted is spelled. -/
theorem dataObjects_spelled {members : List (String × Json)} {options : Options} (h : options.SetUp members)
    {json : Json} (hjson : Json.member members "dataObjects" = some json) :
    ∃ items, json = .array items ∧ List.Forall₂ SpellsData items options.setting.dataObjects := by
  have hfilled := h.dataObjects
  rw [hjson] at hfilled
  cases hfilled
  rename_i hobjects
  obtain ⟨items, hitems, hall⟩ := hobjects
  refine ⟨items, hitems, hall.imp ?_⟩
  rintro item object ⟨fields, hitem, -, data, hdata, hbytes⟩
  obtain ⟨text, rfl, htext⟩ := bytesOf_iff.mp hbytes
  exact ⟨fields, text, hitem, hdata, htext⟩

end Options

open Bytes Options in
/-- Every spelling of bytes has the form that options ask for and is decoded to these bytes, and every text of that
form is a spelling. So options that are accepted hold the bytes that are spelled in them, and nothing that comes of
decoding any other text. -/
theorem hex_options_decode_exactly :
    (∀ text bytes, Spelling text bytes → isSpelling text = true ∧ ofHex text = bytes) ∧
    (∀ text, isSpelling text = true → Spelling text (ofHex text)) ∧
    (∀ place doc bytes, Shape.hexBytes place doc = .read bytes [] ↔
      ∃ text, doc = some (.string text) ∧ Spelling text bytes) ∧
    (∀ text bytes, Spelling text bytes → ∃ options,
      resolve (some (.object [("calldata", .string text)])) = .ok options ∧ options.setting.calldata = bytes) ∧
    ∀ doc members options, doc.getD (.object []) = .object members → resolve doc = .ok options →
      (∀ json, Json.member members "calldata" = some json →
        ∃ text, json = .string text ∧ Spelling text options.setting.calldata) ∧
      ∀ json, Json.member members "dataObjects" = some json →
        ∃ items, json = .array items ∧ List.Forall₂ SpellsData items options.setting.dataObjects := by
  refine ⟨fun text bytes => spelling_iff.mp, fun text h => spelling_iff.mpr ⟨h, rfl⟩, fun place doc bytes => ?_,
    fun text bytes h => ⟨_, resolve_calldata h, rfl⟩, fun doc members options hdoc hoptions => ?_⟩
  · simp only [Shape.hexBytes_eq_read_iff, spelling_iff_spelled]
  · obtain ⟨others, hothers, hset⟩ := resolve_eq_ok_iff.mp hoptions
    cases hdoc.symm.trans hothers
    exact ⟨fun json => calldata_spelled hset, fun json => dataObjects_spelled hset⟩

open Bytes Options in
theorem hex_options_decode_exactly_sample :
    (Spelling "0xaB0F" [0xab, 0x0f] ∧ isSpelling "0xaB0F" = true ∧ ofHex "0xaB0F" = [0xab, 0x0f]) ∧
    (isSpelling "aB" = true ∧ Spelling "aB" (ofHex "aB")) ∧
    ∃ options, resolve (some (.object [("calldata", .string "0xaB0F")])) = .ok options ∧
      Spelling "0xaB0F" options.setting.calldata := by
  obtain ⟨hdecoded, hform, -, hresolved, haccepted⟩ := hex_options_decode_exactly
  have hspelling : Spelling "0xaB0F" [0xab, 0x0f] :=
    ⟨"0x", [('a', 'B'), ('0', 'F')], .inr rfl,
      .cons ⟨⟨by decide, .inl rfl⟩, by decide, .inr rfl⟩ (.cons ⟨⟨by decide, .inl rfl⟩, by decide, .inr rfl⟩ .nil), rfl⟩
  have hplain : isSpelling "aB" = true := by cbv
  obtain ⟨options, hoptions, -⟩ := hresolved _ _ hspelling
  obtain ⟨text, htext, hdata⟩ := (haccepted _ _ _ rfl hoptions).1 _ rfl
  cases htext
  exact ⟨⟨hspelling, hdecoded _ _ hspelling⟩, ⟨hplain, hform _ hplain⟩, options, hoptions, hdata⟩

end BlockIR
