import BlockIR.Proofs.Numeral
import BlockIR.Proofs.Trimming
import BlockIR.Run

/-! What options set up.

`Options.SetUp` says it field by field: which documents may stand in a field and
what each of them gives, and what is taken if the field is absent. Options are
resolved to just that (`resolve_eq_ok_iff`), so what is left is how resolving
fails. A wrong shape is a validation error. A numeral in place of a word has the
right shape however large it is, and one of `2 ^ 256` or more is an invalid
literal and not a validation error (`resolve_outcome`). -/
namespace BlockIR

/-! ### Bytes -/

namespace Bytes

/-- Hexadecimal digits spell bytes, two digits a byte and the higher one first. -/
inductive Spelled : List Char → List UInt8 → Prop
  | nil : Spelled [] []
  | cons {first second : Char} {high low : Nat} {digits : List Char} {byte : UInt8} {bytes : List UInt8} :
    Numeral.digitValue? first = some high → Numeral.digitValue? second = some low →
      byte.toNat = 16 * high + low → Spelled digits bytes → Spelled (first :: second :: digits) (byte :: bytes)

theorem not_isBlank {c : Char} {d : Nat} (h : Numeral.digitValue? c = some d) : isBlank c = false := by
  refine Bool.eq_false_iff.mpr fun hblank => ?_
  simp only [isBlank, Bool.or_eq_true, decide_eq_true_eq, Bool.and_eq_true] at hblank
  obtain hblank | ⟨hlow, -⟩ := hblank
  · have hnone : ∀ c ∈ ['\t', '\n', '\x0b', '\x0c', '\r', ' ', '\u00a0', '\u1680', '\u2028', '\u2029', '\u202f',
        '\u205f', '\u3000', '\ufeff'], Numeral.digitValue? c = none := by simp [Numeral.digitValue?]
    cases (hnone c hblank).symm.trans h
  · have hlow : 8192 ≤ c.toNat := hlow
    have := (Numeral.digitValue?_range h).1
    omega

/-- Two digits are read as the number they spell. -/
theorem leadingInteger?_pair {first second : Char} {high low : Nat} (hfirst : Numeral.digitValue? first = some high)
    (hsecond : Numeral.digitValue? second = some low) :
    leadingInteger? [first, second] = some ((16 * high + low : Nat) : Int) := by
  have hother {c : Char} (hnone : Numeral.digitValue? c = none) : first ≠ c ∧ second ≠ c := by
    constructor <;> rintro rfl
    · cases hnone.symm.trans hfirst
    · cases hnone.symm.trans hsecond
  have hrun : Numeral.run? 16 ([first, second].takeWhile (Numeral.isDigit 16)) = some (16 * high + low) := by
    have hdigits : Numeral.isDigit 16 first = true ∧ Numeral.isDigit 16 second = true :=
      ⟨Numeral.isDigit_sixteen_iff.mpr ⟨_, hfirst⟩, Numeral.isDigit_sixteen_iff.mpr ⟨_, hsecond⟩⟩
    simp [List.takeWhile, Numeral.run?, Numeral.valueFrom, hdigits, hfirst, hsecond, Nat.mul_comm]
  have hmagnitude : leadingMagnitude? [first, second] = some (16 * high + low) := by
    unfold leadingMagnitude?
    split
    · rename_i heq
      exact absurd (List.cons.inj (List.cons.inj heq).2).1 (hother rfl).2
    · rename_i heq
      exact absurd (List.cons.inj (List.cons.inj heq).2).1 (hother rfl).2
    · exact hrun
  unfold leadingInteger?
  rw [List.dropWhile_cons_of_neg (by rw [not_isBlank hfirst]; decide)]
  split
  · rename_i heq
    exact absurd (List.cons.inj heq).1 (hother rfl).1
  · rename_i heq
    exact absurd (List.cons.inj heq).1 (hother rfl).1
  · rw [hmagnitude]
    rfl

theorem units_digits {digits : List Char} (h : digits.all (Numeral.isDigit 16) = true) : units digits = digits := by
  induction digits with
  | nil => rfl
  | cons c rest ih =>
    simp only [List.all_cons, Bool.and_eq_true] at h
    obtain ⟨d, hd⟩ := Numeral.isDigit_sixteen_iff.mp h.1
    have hsmall : c.toNat < 65536 := Nat.lt_trans (Numeral.digitValue?_range hd).1 (by decide)
    unfold units at ih ⊢
    rw [List.flatMap_cons, if_pos hsmall, ih h.2, List.singleton_append]

/-- An even number of digits spells the bytes they are decoded to. -/
theorem spelled_pairs : ∀ {digits : List Char}, digits.all (Numeral.isDigit 16) = true → digits.length % 2 = 0 →
    Spelled digits (pairs digits)
  | [], _, _ => .nil
  | [_], _, heven => nomatch heven
  | first :: second :: rest, hall, heven => by
    simp only [List.all_cons, Bool.and_eq_true] at hall
    obtain ⟨high, hhigh⟩ := Numeral.isDigit_sixteen_iff.mp hall.1
    obtain ⟨low, hlow⟩ := Numeral.isDigit_sixteen_iff.mp hall.2.1
    have hbyte : 16 * high + low < 256 := by
      have := (Numeral.digitValue?_range hhigh).2
      have := (Numeral.digitValue?_range hlow).2
      omega
    rw [pairs, leadingInteger?_pair hhigh hlow]
    simp only [List.length_cons] at heven
    refine .cons hhigh hlow ?_ (spelled_pairs hall.2.2 (by omega))
    rw [Option.getD_some, ofInt, Int.emod_eq_of_lt (by omega) (by omega), Int.toNat_natCast]
    exact UInt8.toNat_ofNat_of_lt hbyte

theorem Spelled.unique {digits : List Char} {bytes others : List UInt8} (h : Spelled digits bytes)
    (h' : Spelled digits others) : bytes = others := by
  induction h generalizing others with
  | nil => cases h'; rfl
  | cons hhigh hlow hbyte _ ih =>
    cases h' with
    | cons hhigh' hlow' hbyte' hrest =>
      cases hhigh.symm.trans hhigh'
      cases hlow.symm.trans hlow'
      rw [ih hrest, UInt8.toNat_inj.mp (hbyte.trans hbyte'.symm)]

theorem Spelled.digits {digits : List Char} {bytes : List UInt8} (h : Spelled digits bytes) :
    digits.all (Numeral.isDigit 16) = true ∧ digits.length % 2 = 0 := by
  induction h with
  | nil => exact ⟨rfl, rfl⟩
  | cons hhigh hlow _ _ ih =>
    simp only [List.all_cons, Numeral.isDigit_sixteen_iff.mpr ⟨_, hhigh⟩, Numeral.isDigit_sixteen_iff.mpr ⟨_, hlow⟩,
      ih.1, List.length_cons, Bool.and_self, true_and]
    omega

end Bytes

namespace Shape
variable {place : Place} {doc : Option Json}

theorem noting_eq_read_iff {α : Type} {fault : ShapeFault} {bad : Bool} {given value : α} :
    noting place fault bad given = .read value [] ↔ given = value ∧ bad = false := by
  cases bad <;> simp [noting]

theorem hexBytes_eq_read_iff {bytes : List UInt8} : hexBytes place doc = .read bytes [] ↔
    ∃ text, doc = some (.string text) ∧ Bytes.Spelled (Bytes.dropMark text.toList) bytes := by
  unfold hexBytes
  split
  · rename_i text
    rw [noting_eq_read_iff]
    constructor
    · rintro ⟨rfl, hspelling⟩
      simp only [Bytes.isSpelling, Bool.not_eq_false', Bool.and_eq_true, beq_iff_eq] at hspelling
      refine ⟨text, rfl, ?_⟩
      rw [Bytes.ofHex, Bytes.units_digits hspelling.1]
      exact Bytes.spelled_pairs hspelling.1 hspelling.2
    · rintro ⟨_, hdoc, hspelled⟩
      cases hdoc
      obtain ⟨hall, heven⟩ := hspelled.digits
      refine ⟨?_, by simp [Bytes.isSpelling, hall, heven]⟩
      rw [Bytes.ofHex, Bytes.units_digits hall]
      exact (Bytes.spelled_pairs hall heven).unique hspelled
  · rename_i h
    refine iff_of_false (by rintro ⟨⟩) ?_
    rintro ⟨text, hdoc, -⟩
    exact h text hdoc

theorem count_eq_read_iff {n : Nat} : count place doc = .read n [] ↔
    ∃ value : Json.Number, doc = some (.number value) ∧ value.toInt? = some (n : Int) ∧ n ≤ ShapeFault.safeBound := by
  unfold count
  split
  · rename_i negative significand exponent
    constructor
    · intro h
      split at h
      · cases h
      · rename_i v hv
        injection h with hn hcomplaints
        simp only [List.append_eq_nil_iff, ite_eq_right_iff, reduceCtorEq, imp_false, Int.not_lt] at hcomplaints
        have hv' : v = (n : Int) := hn ▸ (Int.toNat_of_nonneg hcomplaints.2).symm
        exact ⟨_, rfl, hv' ▸ hv, by omega⟩
    · rintro ⟨_, hdoc, hn, hbound⟩
      cases hdoc
      rw [hn]
      have hsafe : ¬(ShapeFault.safeBound : Int) < (n : Int) := by omega
      have hbelow : ¬(n : Int) < -(ShapeFault.safeBound : Int) := by omega
      have hnonneg : ¬(n : Int) < 0 := by omega
      simp [hsafe, hbelow, hnonneg]
  · rename_i h
    refine iff_of_false (by rintro ⟨⟩) ?_
    rintro ⟨value, rfl, hn, -⟩
    cases value with
    | finite => exact absurd rfl (h _ _ _)
    | infinite => cases hn

theorem numeral_eq_read_iff {text : String} : numeral place doc = .read text [] ↔
    doc = some (.string text) ∧ ∃ n, Numeral.value? text.toList = some n := by
  unfold numeral
  split
  · rename_i given
    rw [noting_eq_read_iff, Option.isNone_eq_false_iff, Option.isSome_iff_exists]
    constructor
    · rintro ⟨rfl, hn⟩
      exact ⟨rfl, hn⟩
    · rintro ⟨hdoc, hn⟩
      cases hdoc
      exact ⟨rfl, hn⟩
  · rename_i h
    exact iff_of_false (by rintro ⟨⟩) fun hread => h text hread.1

theorem boolean_eq_read_iff {value : Bool} : boolean place doc = .read value [] ↔ doc = some (.bool value) := by
  unfold boolean
  split
  · rw [pure_eq_read]
    simp
  · rename_i h
    exact iff_of_false (by rintro ⟨⟩) fun hdoc => absurd hdoc (h value)

end Shape

/-! ### Fields -/

namespace Options

/-- A natural number, given as a number. -/
def CountOf (json : Json) (n : Nat) : Prop :=
  ∃ value : Json.Number, json = .number value ∧ value.toInt? = some (n : Int) ∧ n ≤ ShapeFault.safeBound

/-- A numeral of any size. -/
def NumeralOf (json : Json) (n : Nat) : Prop := ∃ text, json = .string text ∧ Numeral.value? text.toList = some n

/-- A word, given as a number or a numeral. -/
def WordOf (json : Json) (w : Word) : Prop := (CountOf json w ∨ NumeralOf json w) ∧ w.InRange

/-- Bytes, spelled with or without a mark in front. -/
def BytesOf (json : Json) (bytes : List UInt8) : Prop :=
  ∃ text, json = .string text ∧ Bytes.Spelled (Bytes.dropMark text.toList) bytes

/-- A data object. -/
def ObjectOf (json : Json) (object : DataObject) : Prop :=
  ∃ members, json = .object members ∧ (Json.member members "name" = some (.string object.name) ∧ object.name ≠ "") ∧
    ∃ data, Json.member members "data" = some data ∧ BytesOf data object.data

/-- Data objects in order. -/
def ObjectsOf (json : Json) (objects : List DataObject) : Prop :=
  ∃ items, json = .array items ∧ List.Forall₂ ObjectOf items objects

/-- What a field gives: what it holds, or what is taken if it is absent. -/
inductive Filled {α : Type} (absent : α) (Holds : Json → α → Prop) : Option Json → α → Prop
  | none : Filled absent Holds none absent
  | some {json : Json} {value : α} : Holds json value → Filled absent Holds (some json) value

/-- What the members of a document set up. -/
structure SetUp (members : List (String × Json)) (options : Options) : Prop where
  maxSteps : Filled 0 CountOf (Json.member members "maxSteps") options.setting.maxSteps
  maxNesting : Filled 0 CountOf (Json.member members "maxExprNesting") options.setting.maxNesting
  target : Filled .evm (fun json target => json = .string target.name) (Json.member members "dialect") options.target
  calldata : Filled [] BytesOf (Json.member members "calldata") options.setting.calldata
  address : Filled 0 WordOf (Json.member members "address") options.setting.address
  caller : Filled 0 WordOf (Json.member members "caller") options.setting.caller
  callvalue : Filled 0 WordOf (Json.member members "callvalue") options.setting.callvalue
  dataObjects : Filled [] ObjectsOf (Json.member members "dataObjects") options.setting.dataObjects
  verbose : Filled false (fun json value => json = .bool value) (Json.member members "verbose") options.verbose

variable {members : List (String × Json)} {name : String}

section Reading
variable {place : Place} {json : Json}

theorem count_eq_read_iff {n : Nat} : Shape.count place (some json) = .read n [] ↔ CountOf json n := by
  simp [Shape.count_eq_read_iff, CountOf]

theorem bytes_eq_read_iff {bytes : List UInt8} :
    Shape.hexBytes place (some json) = .read bytes [] ↔ BytesOf json bytes := by
  simp [Shape.hexBytes_eq_read_iff, BytesOf]

theorem flag_eq_read_iff {value : Bool} : Shape.boolean place (some json) = .read value [] ↔ json = .bool value :=
  Shape.boolean_eq_read_iff.trans (Option.some_inj ..)

theorem wordOption_eq_read_iff {given : WordOption} : WordOption.read? place (some json) = .read given [] ↔
    (∃ n, given = .number n ∧ CountOf json n) ∨
      ∃ text, given = .numeral text ∧ json = .string text ∧ ∃ n, Numeral.value? text.toList = some n := by
  have hcount (n : Nat) : Shape.count place (some json) = .read n [] ↔ CountOf json n := count_eq_read_iff
  have hnumeral (text : String) : Shape.numeral place (some json) = .read text [] ↔
      json = .string text ∧ ∃ n, Numeral.value? text.toList = some n := by
    simp [Shape.numeral_eq_read_iff]
  simp only [← hcount, ← hnumeral, WordOption.read?]
  rcases hn : Shape.count place (some json) with ⟨n, complaints⟩ | complaints <;>
    rcases ht : Shape.numeral place (some json) with ⟨text, others⟩ | others
  · -- a number is no text
    cases json <;> simp only [Shape.count, Shape.numeral, Shape.refuse, reduceCtorEq] at hn ht
  · rcases complaints with _ | ⟨first, rest⟩ <;> simp [eq_comm]
  · rcases others with _ | ⟨first, rest⟩ <;> simp [eq_comm]
  · simp [Shape.refuse]

theorem dataObject_eq_read_iff {object : DataObject} :
    dataObject place (some json) = .read object [] ↔ ObjectOf json object := by
  unfold dataObject
  split
  · rename_i members hjson
    cases hjson
    simp only [Shape.seq_eq_read, Shape.map_eq_read, Shape.name_eq_read_iff, Shape.hexBytes_eq_read_iff]
    constructor
    · rintro ⟨_, bytes, ⟨name, hname, rfl⟩, ⟨text, hdata, hbytes⟩, rfl⟩
      exact ⟨members, rfl, hname, .string text, hdata, text, rfl, hbytes⟩
    · rintro ⟨_, hjson, hname, _, hdata, text, rfl, hbytes⟩
      cases hjson
      exact ⟨_, object.data, ⟨object.name, hname, rfl⟩, ⟨text, hdata, hbytes⟩, rfl⟩
  · rename_i h
    refine iff_of_false (by rintro ⟨⟩) ?_
    rintro ⟨members, rfl, -⟩
    exact absurd rfl (h members)

theorem dataObjectItems_eq_read_iff {position : Nat} {items : List Json} {objects : List DataObject} :
    dataObjectItems place position items = .read objects [] ↔ List.Forall₂ ObjectOf items objects := by
  induction items generalizing position objects with
  | nil =>
    rw [dataObjectItems, Shape.pure_eq_read]
    cases objects <;> simp
  | cons item rest ih =>
    simp only [dataObjectItems, Shape.seq_eq_read, Shape.map_eq_read, dataObject_eq_read_iff, ih]
    constructor
    · rintro ⟨_, others, ⟨first, hfirst, rfl⟩, hothers, rfl⟩
      exact .cons hfirst hothers
    · rintro (_ | ⟨hfirst, hothers⟩)
      exact ⟨_, _, ⟨_, hfirst, rfl⟩, hothers, rfl⟩

theorem dataObjects_eq_read_iff {objects : List DataObject} :
    dataObjects place (some json) = .read objects [] ↔ ObjectsOf json objects := by
  unfold dataObjects
  split
  · rename_i items hjson
    cases hjson
    rw [dataObjectItems_eq_read_iff]
    constructor
    · exact fun h => ⟨items, rfl, h⟩
    · rintro ⟨_, hjson, h⟩
      cases hjson
      exact h
  · rename_i h
    refine iff_of_false (by rintro ⟨⟩) ?_
    rintro ⟨items, rfl, -⟩
    exact absurd rfl (h items)

theorem target_eq_read_iff {target : Target} :
    Shape.oneOf place targets (some json) = .read target [] ↔ json = .string target.name := by
  refine (oneOf_eq_read_iff ?_ (by cases target <;> decide)).trans (Option.some_inj ..)
  exact fun a b h => by cases a <;> cases b <;> simp_all [Target.name]

end Reading

/-- A field that may be absent is read as what it gives. -/
theorem field_filled {α : Type} {read? : Place → Option Json → Shape α} {Holds : Json → α → Prop} {absent : α}
    (hread : ∀ place json value, read? place (some json) = .read value [] ↔ Holds json value) {value : α} :
    (∃ given, field members name read? = .read given [] ∧ given.getD absent = value) ↔
      Filled absent Holds (Json.member members name) value := by
  unfold field
  constructor
  · rintro ⟨given, hgiven, rfl⟩
    split at hgiven <;> rename_i hmember <;> rw [hmember]
    · cases Shape.pure_eq_read.mp hgiven
      exact .none
    · obtain ⟨value, hvalue, rfl⟩ := Shape.map_eq_read.mp hgiven
      exact .some ((hread ..).mp hvalue)
  · intro h
    split <;> rename_i hmember <;> rw [hmember] at h <;> cases h
    · exact ⟨none, rfl, rfl⟩
    · rename_i hvalue
      exact ⟨some value, Shape.map_eq_read.mpr ⟨value, (hread ..).mpr hvalue, rfl⟩, rfl⟩

/-- A numeral that is read as a word option has a value, which a word is if it is small enough. -/
theorem Word.parse_eq {text : String} {n : Nat} (h : Numeral.value? text.toList = some n) :
    Word.parse text = if n < Word.modulus then .ok n else .error .tooLarge := by
  unfold Word.parse
  rw [h]

/-- A word that may be absent is read as what it gives. -/
theorem word_filled {w : Word} :
    (∃ given, field members name WordOption.read? = .read given [] ∧ word given = .ok w) ↔
      Filled 0 WordOf (Json.member members name) w := by
  unfold field
  cases Json.member members name with
  | none =>
    constructor
    · rintro ⟨given, hgiven, hw⟩
      cases Shape.pure_eq_read.mp hgiven
      cases hw
      exact .none
    · intro h
      cases h
      exact ⟨none, rfl, rfl⟩
  | some json =>
    simp only [Shape.map_eq_read, wordOption_eq_read_iff]
    constructor
    · rintro ⟨_, ⟨_, ⟨n, rfl, hn⟩ | ⟨text, rfl, hjson, n, hn⟩, rfl⟩, hw⟩
      · cases hw
        refine .some ⟨.inl hn, ?_⟩
        obtain ⟨-, -, -, hbound⟩ := hn
        exact Nat.lt_of_le_of_lt hbound (by decide)
      · rw [word, WordOption.value, Word.parse_eq hn] at hw
        split at hw <;> cases hw
        exact .some ⟨.inr ⟨text, hjson, hn⟩, ‹_›⟩
    · rintro (_ | ⟨hn | ⟨text, hjson, hn⟩, hrange⟩)
      · exact ⟨_, ⟨_, .inl ⟨w, rfl, hn⟩, rfl⟩, rfl⟩
      · refine ⟨_, ⟨_, .inr ⟨text, rfl, hjson, w, hn⟩, rfl⟩, ?_⟩
        rw [word, WordOption.value, Word.parse_eq hn, if_pos (show w < Word.modulus from hrange)]
        rfl

/-- A field holds a numeral of `2 ^ 256` or more. -/
def Oversized (members : List (String × Json)) (name : String) (error : Error) : Prop :=
  ∃ text n, Json.member members name = some (.string text) ∧ Numeral.value? text.toList = some n ∧
    Word.modulus ≤ n ∧ error = .invalidLiteral text .tooLarge

theorem word_fails {given : Option WordOption} (hread : field members name WordOption.read? = .read given [])
    {error : Error} (h : word given = .error error) : Oversized members name error := by
  unfold field at hread
  split at hread
  · cases Shape.pure_eq_read.mp hread
    cases h
  · rename_i json hmember
    obtain ⟨option, hoption, rfl⟩ := Shape.map_eq_read.mp hread
    obtain ⟨n, rfl, -⟩ | ⟨text, rfl, rfl, n, hn⟩ := wordOption_eq_read_iff.mp hoption
    · cases h
    · rw [word, WordOption.value, Word.parse_eq hn] at h
      split at h <;> rename_i hsmall <;> cases h
      exact ⟨text, n, hmember, hn, Nat.not_lt.mp hsmall, rfl⟩

/-! ### Resolving -/

theorem read?_object {json : Json} {fields : OptionFields} {complaints : List Complaint}
    (h : read? json = .read fields complaints) : ∃ members, json = .object members := by
  unfold read? at h
  split at h
  · exact ⟨_, rfl⟩
  · cases h

theorem read?_eq_read_iff {fields : OptionFields} : read? (.object members) = .read fields [] ↔
    field members "maxSteps" Shape.count = .read fields.maxSteps [] ∧
    field members "maxExprNesting" Shape.count = .read fields.maxNesting [] ∧
    field members "dialect" (fun place => Shape.oneOf place targets) = .read fields.target [] ∧
    field members "calldata" Shape.hexBytes = .read fields.calldata [] ∧
    field members "address" WordOption.read? = .read fields.address [] ∧
    field members "caller" WordOption.read? = .read fields.caller [] ∧
    field members "callvalue" WordOption.read? = .read fields.callvalue [] ∧
    field members "dataObjects" dataObjects = .read fields.dataObjects [] ∧
    field members "verbose" Shape.boolean = .read fields.verbose [] := by
  simp only [read?, Shape.seq_eq_read, Shape.map_eq_read]
  constructor
  · rintro ⟨_, _, ⟨_, _, ⟨_, _, ⟨_, _, ⟨_, _, ⟨_, _, ⟨_, _, ⟨_, _, ⟨_, h₁, rfl⟩, h₂, rfl⟩, h₃, rfl⟩, h₄, rfl⟩, h₅, rfl⟩,
      h₆, rfl⟩, h₇, rfl⟩, h₈, rfl⟩, h₉, rfl⟩
    exact ⟨h₁, h₂, h₃, h₄, h₅, h₆, h₇, h₈, h₉⟩
  · rintro ⟨h₁, h₂, h₃, h₄, h₅, h₆, h₇, h₈, h₉⟩
    exact ⟨_, _, ⟨_, _, ⟨_, _, ⟨_, _, ⟨_, _, ⟨_, _, ⟨_, _, ⟨_, _, ⟨_, h₁, rfl⟩, h₂, rfl⟩, h₃, rfl⟩, h₄, rfl⟩, h₅, rfl⟩,
      h₆, rfl⟩, h₇, rfl⟩, h₈, rfl⟩, h₉, rfl⟩

theorem ofFields_eq_ok {fields : OptionFields} {options : Options} : ofFields fields = .ok options ↔
    word fields.address = .ok options.setting.address ∧ word fields.caller = .ok options.setting.caller ∧
    word fields.callvalue = .ok options.setting.callvalue ∧
    fields.maxSteps.getD 0 = options.setting.maxSteps ∧ fields.maxNesting.getD 0 = options.setting.maxNesting ∧
    fields.calldata.getD [] = options.setting.calldata ∧ fields.dataObjects.getD [] = options.setting.dataObjects ∧
    fields.target.getD .evm = options.target ∧ fields.verbose.getD false = options.verbose := by
  unfold ofFields
  cases word fields.address with
  | error e => simp [bind, Except.bind]
  | ok address =>
    cases word fields.caller with
    | error e => simp [bind, Except.bind]
    | ok caller =>
      cases word fields.callvalue with
      | error e => simp [bind, Except.bind]
      | ok callvalue =>
        obtain ⟨⟨_, _, _, _, _, _, _⟩, _, _⟩ := options
        simp only [bind, Except.bind, Except.ok.injEq, Options.mk.injEq, Setting.mk.injEq]
        tauto

theorem resolve_eq_read {doc : Option Json} {fields : OptionFields}
    (h : read? (doc.getD (.object [])) = .read fields []) : resolve doc = ofFields fields := by
  unfold resolve
  rw [h]

/-- Options are resolved to what the members of the document set up, and to nothing else. -/
theorem resolve_eq_ok_iff {doc : Option Json} {options : Options} : resolve doc = .ok options ↔
    ∃ members, doc.getD (.object []) = .object members ∧ options.SetUp members := by
  constructor
  · intro h
    unfold resolve at h
    split at h
    · rename_i fields hread
      obtain ⟨members, hdoc⟩ := read?_object hread
      rw [hdoc, read?_eq_read_iff] at hread
      obtain ⟨h₁, h₂, h₃, h₄, h₅, h₆, h₇, h₈, h₉⟩ := hread
      obtain ⟨haddress, hcaller, hcallvalue, hsteps, hnesting, hdata, hobjects, htarget, hverbose⟩ :=
        ofFields_eq_ok.mp h
      exact ⟨members, hdoc, {
        maxSteps := (field_filled fun _ _ _ => count_eq_read_iff).mp ⟨_, h₁, hsteps⟩
        maxNesting := (field_filled fun _ _ _ => count_eq_read_iff).mp ⟨_, h₂, hnesting⟩
        target := (field_filled fun _ _ _ => target_eq_read_iff).mp ⟨_, h₃, htarget⟩
        calldata := (field_filled fun _ _ _ => bytes_eq_read_iff).mp ⟨_, h₄, hdata⟩
        address := word_filled.mp ⟨_, h₅, haddress⟩
        caller := word_filled.mp ⟨_, h₆, hcaller⟩
        callvalue := word_filled.mp ⟨_, h₇, hcallvalue⟩
        dataObjects := (field_filled fun _ _ _ => dataObjects_eq_read_iff).mp ⟨_, h₈, hobjects⟩
        verbose := (field_filled fun _ _ _ => flag_eq_read_iff).mp ⟨_, h₉, hverbose⟩ }⟩
    · split at h <;> cases h
  · rintro ⟨members, hdoc, h⟩
    obtain ⟨maxSteps, h₁, hsteps⟩ := (field_filled fun _ _ _ => count_eq_read_iff).mpr h.maxSteps
    obtain ⟨maxNesting, h₂, hnesting⟩ := (field_filled fun _ _ _ => count_eq_read_iff).mpr h.maxNesting
    obtain ⟨target, h₃, htarget⟩ := (field_filled fun _ _ _ => target_eq_read_iff).mpr h.target
    obtain ⟨calldata, h₄, hdata⟩ := (field_filled fun _ _ _ => bytes_eq_read_iff).mpr h.calldata
    obtain ⟨address, h₅, haddress⟩ := word_filled.mpr h.address
    obtain ⟨caller, h₆, hcaller⟩ := word_filled.mpr h.caller
    obtain ⟨callvalue, h₇, hcallvalue⟩ := word_filled.mpr h.callvalue
    obtain ⟨objects, h₈, hobjects⟩ := (field_filled fun _ _ _ => dataObjects_eq_read_iff).mpr h.dataObjects
    obtain ⟨verbose, h₉, hverbose⟩ := (field_filled fun _ _ _ => flag_eq_read_iff).mpr h.verbose
    have hread : read? (.object members) =
        .read ⟨maxSteps, maxNesting, target, calldata, address, caller, callvalue, objects, verbose⟩ [] :=
      read?_eq_read_iff.mpr ⟨h₁, h₂, h₃, h₄, h₅, h₆, h₇, h₈, h₉⟩
    rw [resolve_eq_read (hdoc ▸ hread)]
    exact ofFields_eq_ok.mpr ⟨haddress, hcaller, hcallvalue, hsteps, hnesting, hdata, hobjects, htarget, hverbose⟩

/-- Resolving fails because of the shape of the document or because of a numeral that is too large. -/
theorem resolve_error {doc : Option Json} {error : Error} (h : resolve doc = .error error) :
    (∃ path message, error = .validation path message none) ∨
      ∃ members, doc.getD (.object []) = .object members ∧
        ∃ name ∈ ["address", "caller", "callvalue"], Oversized members name error := by
  unfold resolve at h
  split at h
  · rename_i fields hread
    obtain ⟨members, hdoc⟩ := read?_object hread
    rw [hdoc, read?_eq_read_iff] at hread
    obtain ⟨-, -, -, -, haddress, hcaller, hcallvalue, -⟩ := hread
    refine .inr ⟨members, hdoc, ?_⟩
    unfold ofFields at h
    rcases hfirst : word fields.address with e | address <;> simp only [hfirst, bind, Except.bind] at h
    · cases h
      exact ⟨_, by simp, word_fails haddress hfirst⟩
    rcases hsecond : word fields.caller with e | caller <;> simp only [hsecond] at h
    · cases h
      exact ⟨_, by simp, word_fails hcaller hsecond⟩
    rcases hthird : word fields.callvalue with e | callvalue <;> simp only [hthird] at h
    · cases h
      exact ⟨_, by simp, word_fails hcallvalue hthird⟩
    · cases h
  · split at h <;> cases h
    · exact .inl ⟨_, _, rfl⟩
    · exact .inl ⟨_, _, rfl⟩

/-- Resolving gives the options that the document sets up, or fails with a validation error, or because
of a numeral of `2 ^ 256` or more with an invalid literal. A run fails on account of its options just
as resolving them does. -/
theorem resolve_outcome (doc : Option Json) :
    (∀ options, resolve doc = .ok options ↔
      ∃ members, doc.getD (.object []) = .object members ∧ options.SetUp members) ∧
    (∀ error, resolve doc = .error error →
      (error.code = "ValidationError" ∨
        error.code = "InvalidLiteral" ∧ ∃ members, doc.getD (.object []) = .object members ∧
          ∃ name ∈ ["address", "caller", "callvalue"], Oversized members name error) ∧
      ∀ depth program, interpret depth program doc = .error (.failed error) ∧
        ∀ name args, callFunction depth program name args doc =
          .error (.failed ((Run.argumentFault? 0 args).getD error))) := by
  refine ⟨fun options => resolve_eq_ok_iff, fun error herror => ⟨?_, fun depth program => ⟨?_, fun name args => ?_⟩⟩⟩
  · obtain ⟨path, message, rfl⟩ | ⟨members, hdoc, name, hname, hlarge⟩ := resolve_error herror
    · exact .inl rfl
    · refine .inr ⟨?_, members, hdoc, name, hname, hlarge⟩
      obtain ⟨text, n, -, -, -, rfl⟩ := hlarge
      rfl
  · rw [interpret, Run.withOptions, herror]
  · rw [callFunction, Run.withOptions, herror]
    cases Run.argumentFault? 0 args <;> rfl

/-- The numeral of `2 ^ 256`. -/
def tooLarge : String := "115792089237316195423570985008687907853269984665640564039457584007913129639936"

set_option maxRecDepth 4096 in
theorem resolve_tooLarge :
    resolve (some (.object [("address", .string tooLarge)])) = .error (.invalidLiteral tooLarge .tooLarge) := by
  with_unfolding_all rfl

theorem resolve_outcome_sample :
    (∃ members options, (none : Option Json).getD (.object []) = .object members ∧ SetUp members options) ∧
    ∀ depth program, interpret depth program (some (.object [("address", .string tooLarge)])) =
      .error (.failed (.invalidLiteral tooLarge .tooLarge)) := by
  obtain ⟨members, hdoc, hset⟩ := ((resolve_outcome none).1 _).mp rfl
  refine ⟨⟨members, _, hdoc, hset⟩, fun depth program => ?_⟩
  exact (((resolve_outcome (some (.object [("address", .string tooLarge)]))).2 _ resolve_tooLarge).2 depth program).1

/-- Not every failure to resolve options is a validation error. -/
theorem not_resolve_or_validation : ¬∀ doc : Option Json,
    (∃ options, resolve doc = .ok options) ∨ ∃ error, resolve doc = .error error ∧ error.code = "ValidationError" := by
  intro h
  obtain ⟨options, hoptions⟩ | ⟨error, herror, hcode⟩ := h (some (.object [("address", .string tooLarge)]))
  · cases hoptions.symm.trans resolve_tooLarge
  · cases herror.symm.trans resolve_tooLarge
    exact absurd hcode (by decide)

end Options

end BlockIR
