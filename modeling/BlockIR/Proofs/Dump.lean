import BlockIR.Machine.Dump
import BlockIR.Proofs.Numeral
import BlockIR.Proofs.Ranges
import Mathlib.Data.List.Sort

/-! Equal dumps say that two machines look the same.

The bytes of memory are gathered into words, each byte in a place of its own, so
the word at a multiple of 32 has the bits of the number that is read there
(`Memory.getD_gather`), in whatever order the bytes are gone through. What is
shown of memory and storage is then an ascending list, and such lists are the same
if they have the same entries. In the other direction the text gives back its
lines, since no line has a line end in it, and the titles divide the lines, since
every other line is indented (`Shows.lines_injective`). The line of a word ends in
64 digits, so the padding in front of the offset does no harm. -/
namespace BlockIR

/-! ### Entries -/

/-- The entries that are not zero, in ascending order. -/
def nonzero (words : Std.ExtTreeMap Nat Nat) : List (Nat × Nat) := words.toList.filter fun entry => entry.2 ≠ 0

theorem mem_nonzero_iff {words : Std.ExtTreeMap Nat Nat} {key value : Nat} :
    (key, value) ∈ nonzero words ↔ value ≠ 0 ∧ words.getD key 0 = value := by
  rw [nonzero, List.mem_filter, Std.ExtTreeMap.mem_toList_iff_getElem?_eq_some, decide_eq_true_eq,
    Std.ExtTreeMap.getD_eq_getD_getElem?]
  cases words[key]? with
  | none => simp only [reduceCtorEq, false_and, Option.getD_none, false_iff, not_and]; exact fun h h' => h h'.symm
  | some w => simp only [Option.some_inj, Option.getD_some]; exact and_comm

theorem nonzero_ascending (words : Std.ExtTreeMap Nat Nat) : (nonzero words).Pairwise fun a b => a.1 < b.1 :=
  (Std.ExtTreeMap.ordered_keys_toList.filter _).imp Nat.compare_eq_lt.mp

/-- What has no entry that is not zero is zero. -/
theorem getD_eq_of_nonzero {words others : Std.ExtTreeMap Nat Nat} (h : nonzero words = nonzero others) (key : Nat) :
    words.getD key 0 = others.getD key 0 := by
  by_cases hzero : words.getD key 0 = 0
  · refine Classical.byContradiction fun hne => ?_
    have hmem : (key, others.getD key 0) ∈ nonzero words :=
      h ▸ mem_nonzero_iff.mpr ⟨fun hother => hne (hzero.trans hother.symm), rfl⟩
    exact hne (mem_nonzero_iff.mp hmem).2
  · have hmem : (key, words.getD key 0) ∈ nonzero others := h ▸ mem_nonzero_iff.mpr ⟨hzero, rfl⟩
    exact (mem_nonzero_iff.mp hmem).2.symm

/-- Lists in ascending order with the same entries are the same. -/
theorem eq_of_ascending {l l' : List (Nat × Nat)} (h : l.Pairwise fun a b => a.1 < b.1)
    (h' : l'.Pairwise fun a b => a.1 < b.1) (hmem : ∀ entry, entry ∈ l ↔ entry ∈ l') : l = l' := by
  have : Std.Antisymm fun a b : Nat × Nat => a.1 < b.1 := ⟨fun _ _ hab hba => absurd hba (Nat.lt_asymm hab)⟩
  have : Std.Irrefl fun a b : Nat × Nat => a.1 < b.1 := ⟨fun _ => Nat.lt_irrefl _⟩
  exact h.eq_of_mem_iff h' hmem

/-! ### Words of memory -/

namespace Memory

/-- The number at offsets with the lowest byte first, bit by bit. -/
theorem testBit_spelled (memory : Memory) (places : List Nat) (i : Nat) :
    (memory.spelled places.reverse).testBit i = true ↔
      ∃ place, places[i / 8]? = some place ∧ (memory.byte place).toNat.testBit (i % 8) = true := by
  induction places generalizing i with
  | nil => simp [spelled]
  | cons first rest ih =>
    have hbyte : (memory.byte first).toNat < 2 ^ 8 := (memory.byte first).toNat_lt
    have hspelled : memory.spelled (first :: rest).reverse =
        2 ^ 8 * memory.spelled rest.reverse + (memory.byte first).toNat := by
      rw [spelled, List.reverse_cons, List.foldl_append, Nat.mul_comm]
      rfl
    rw [hspelled, Nat.testBit_two_pow_mul_add _ hbyte]
    split
    · rename_i hlow
      rw [Nat.div_eq_of_lt hlow, Nat.mod_eq_of_lt hlow]
      simp
    · rename_i hhigh
      obtain ⟨j, rfl⟩ : ∃ j, i = j + 8 := ⟨i - 8, by omega⟩
      rw [Nat.add_sub_cancel, ih, Nat.add_mod_right, Nat.add_div_right _ (by decide), List.getElem?_cons_succ]

/-- The number in a word of memory, bit by bit. -/
theorem testBit_peek (memory : Memory) (base i : Nat) :
    (memory.peek .bigEndian base wordBytes).testBit i = true ↔
      i / 8 < wordBytes ∧ (memory.byte (base + (wordBytes - 1 - i / 8))).toNat.testBit (i % 8) = true := by
  have hplaces : offsets .bigEndian base wordBytes =
      ((List.range wordBytes).map fun j => base + (wordBytes - 1 - j)).reverse := rfl
  rw [peek, hplaces, testBit_spelled]
  simp only [List.getElem?_map, Option.map_eq_some_iff, List.getElem?_eq_some_iff, List.length_range,
    List.getElem_range]
  constructor
  · rintro ⟨_, ⟨_, ⟨hlt, rfl⟩, rfl⟩, hbit⟩
    exact ⟨hlt, hbit⟩
  · rintro ⟨hlt, hbit⟩
    exact ⟨_, ⟨_, ⟨hlt, rfl⟩, rfl⟩, hbit⟩

/-- Puts a byte into the word it belongs to. -/
def gather (words : Std.ExtTreeMap Nat Nat) (cell : Nat × UInt8) : Std.ExtTreeMap Nat Nat :=
  let base := cell.1 / wordBytes * wordBytes
  let shift := 8 * (wordBytes - 1 - cell.1 % wordBytes)
  words.insert base (words.getD base 0 ||| cell.2.toNat <<< shift)

/-- A bit of a word comes from a byte, whatever the order of the bytes. -/
theorem testBit_gather (cells : List (Nat × UInt8)) (words : Std.ExtTreeMap Nat Nat) (base i : Nat) :
    ((cells.foldl gather words).getD base 0).testBit i = true ↔
      (words.getD base 0).testBit i = true ∨ ∃ cell ∈ cells, cell.1 / wordBytes * wordBytes = base ∧
        (cell.2.toNat <<< (8 * (wordBytes - 1 - cell.1 % wordBytes))).testBit i = true := by
  induction cells generalizing words with
  | nil => simp
  | cons first rest ih =>
    simp only [List.foldl_cons, ih, List.mem_cons, or_and_right, exists_or, exists_eq_left]
    rw [← or_assoc]
    refine or_congr_left ?_
    rw [gather, Std.ExtTreeMap.getD_insert]
    by_cases hbase : first.1 / wordBytes * wordBytes = base
    · simp [hbase]
    · simp [hbase]

theorem dvd_of_mem_gather {cells : List (Nat × UInt8)} {words : Std.ExtTreeMap Nat Nat} {base : Nat}
    (h : base ∈ cells.foldl gather words) : base ∈ words ∨ wordBytes ∣ base := by
  induction cells generalizing words with
  | nil => exact .inl h
  | cons first rest ih =>
    obtain h | h := ih h
    · rw [gather, Std.ExtTreeMap.mem_insert] at h
      obtain h | h := h
      · exact .inr (Nat.compare_eq_eq.mp h ▸ Nat.dvd_mul_left ..)
      · exact .inl h
    · exact .inr h

/-- A byte that is not zero is among the written ones. -/
theorem testBit_byte (memory : Memory) (place i : Nat) : (memory.byte place).toNat.testBit i = true ↔
    ∃ cell ∈ memory.cells.toList, cell.1 = place ∧ cell.2.toNat.testBit i = true := by
  rw [byte, Std.ExtTreeMap.getD_eq_getD_getElem?]
  constructor
  · intro h
    cases hcell : memory.cells[place]? with
    | none => simp [hcell] at h
    | some b =>
      rw [hcell] at h
      exact ⟨(place, b), Std.ExtTreeMap.mem_toList_iff_getElem?_eq_some.mpr hcell, rfl, h⟩
  · rintro ⟨⟨_, b⟩, hcell, rfl, h⟩
    rw [Std.ExtTreeMap.mem_toList_iff_getElem?_eq_some.mp hcell]
    exact h

theorem lt_of_testBit {b : UInt8} {i : Nat} (h : b.toNat.testBit i = true) : i < 8 := by
  refine Nat.lt_of_not_le fun hle => ?_
  have hsmall : b.toNat < 2 ^ i := Nat.lt_of_lt_of_le b.toNat_lt (Nat.pow_le_pow_right (by decide) hle)
  rw [Nat.testBit_lt_two_pow hsmall] at h
  cases h

/-- What is gathered at a multiple of 32 is the number that is read there, whatever the order in which
the bytes are gone through. -/
theorem getD_gather {memory : Memory} {cells : List (Nat × UInt8)} (hcells : cells.Perm memory.cells.toList)
    {base : Nat} (hbase : wordBytes ∣ base) :
    (cells.foldl gather ∅).getD base 0 = memory.peek .bigEndian base wordBytes := by
  refine Nat.eq_of_testBit_eq fun i => Bool.eq_iff_iff.mpr ?_
  obtain ⟨n, rfl⟩ := hbase
  rw [testBit_gather, testBit_peek, testBit_byte, Std.ExtTreeMap.getD_empty]
  simp only [Nat.zero_testBit, Bool.false_eq_true, false_or, hcells.mem_iff, Nat.testBit_shiftLeft, Bool.and_eq_true,
    decide_eq_true_eq, wordBytes]
  constructor
  · rintro ⟨cell, hcell, hplace, hlow, hbit⟩
    have hsmall := lt_of_testBit hbit
    exact ⟨by omega, cell, hcell, by omega, (show i % 8 = i - 8 * (32 - 1 - cell.1 % 32) by omega) ▸ hbit⟩
  · rintro ⟨hhigh, cell, hcell, hplace, hbit⟩
    refine ⟨cell, hcell, by omega, by omega, ?_⟩
    rwa [show i - 8 * (32 - 1 - cell.1 % 32) = i % 8 by omega]

/-- A word is shown where what is read at a multiple of 32 is not zero, and what is read is shown there. -/
theorem mem_nonzero_gather {memory : Memory} {cells : List (Nat × UInt8)} (hcells : cells.Perm memory.cells.toList)
    {base value : Nat} : (base, value) ∈ nonzero (cells.foldl gather ∅) ↔
      wordBytes ∣ base ∧ value ≠ 0 ∧ memory.peek .bigEndian base wordBytes = value := by
  rw [mem_nonzero_iff]
  constructor
  · rintro ⟨hvalue, hword⟩
    have hmem : base ∈ cells.foldl gather ∅ := Classical.byContradiction fun hnot =>
      hvalue (hword.symm.trans (Std.ExtTreeMap.getD_eq_fallback hnot))
    obtain hnone | hbase := dvd_of_mem_gather hmem
    · exact absurd hnone Std.ExtTreeMap.not_mem_empty
    · exact ⟨hbase, hvalue, (getD_gather hcells hbase).symm.trans hword⟩
  · rintro ⟨hbase, hvalue, hpeek⟩
    exact ⟨hvalue, (getD_gather hcells hbase).trans hpeek⟩

theorem mem_nonzero_words {memory : Memory} {base value : Nat} : (base, value) ∈ nonzero memory.words ↔
    wordBytes ∣ base ∧ value ≠ 0 ∧ memory.peek .bigEndian base wordBytes = value := by
  have hwords : memory.words = memory.cells.toList.foldl gather ∅ := rfl
  rw [hwords, mem_nonzero_gather (.refl _)]

/-- A byte is a part of the word that it belongs to. -/
theorem byte_eq_of_words {memory other : Memory} (h : nonzero memory.words = nonzero other.words) (offset : Nat) :
    memory.byte offset = other.byte offset := by
  have hpeek : memory.peek .bigEndian (wordBytes * (offset / wordBytes)) wordBytes =
      other.peek .bigEndian (wordBytes * (offset / wordBytes)) wordBytes := by
    rw [← getD_gather (.refl _) (Nat.dvd_mul_right ..), ← getD_gather (.refl _) (Nat.dvd_mul_right ..)]
    exact getD_eq_of_nonzero h _
  refine UInt8.toNat_inj.mp (Nat.eq_of_testBit_eq fun i => ?_)
  by_cases hi : i < 8
  · -- the bits of the byte within the word
    have hbits (m : Memory) :=
      testBit_peek m (wordBytes * (offset / wordBytes)) (8 * (wordBytes - 1 - offset % wordBytes) + i)
    have hplace : wordBytes * (offset / wordBytes) +
        (wordBytes - 1 - (8 * (wordBytes - 1 - offset % wordBytes) + i) / 8) = offset := by
      simp only [wordBytes]
      omega
    have hbit : (8 * (wordBytes - 1 - offset % wordBytes) + i) % 8 = i := by omega
    have hinside : (8 * (wordBytes - 1 - offset % wordBytes) + i) / 8 < wordBytes := by
      simp only [wordBytes]
      omega
    simp only [hplace, hbit, hinside, true_and] at hbits
    refine Bool.eq_iff_iff.mpr ((hbits memory).symm.trans ?_)
    rw [hpeek]
    exact hbits other
  · have hhigh (b : UInt8) : b.toNat.testBit i = false := Bool.eq_false_iff.mpr fun h => hi (lt_of_testBit h)
    rw [hhigh, hhigh]

end Memory

/-! ### Numbers as text -/

namespace Machine

theorem offsetText_injective {m n : Nat} (h : offsetText m = offsetText n) : m = n := by
  have hvalue (n : Nat) : Numeral.valueFrom 16 0 (offsetText n).toList = n := by
    rw [offsetText, String.toList_ofList, Numeral.valueFrom_leftpad (by decide),
      Numeral.valueFrom_toUpper (Numeral.mem_toDigits (by decide) n),
      Numeral.valueFrom_toDigits (by decide) (by decide)]
  rw [← hvalue m, h, hvalue]

/-- Text before the digits of a word is determined by the two together, and so is the word. -/
theorem eq_of_append_hex64 {text other : String} {v w : Word} (hv : v.InRange) (hw : w.InRange)
    (h : text ++ ": " ++ Word.hex64 v = other ++ ": " ++ Word.hex64 w) : text = other ∧ v = w := by
  have hlist := congrArg String.toList h
  simp only [String.toList_append] at hlist
  obtain ⟨hfront, hback⟩ := List.append_inj' hlist (by rw [Word.length_hex64 hv, Word.length_hex64 hw])
  exact ⟨String.toList_inj.mp (List.append_cancel_right hfront), Word.hex64_injective (String.toList_inj.mp hback)⟩

end Machine

/-! ### Lines -/

/-- What stands in front of the first mark is determined by the whole, and so is what stands behind it. -/
theorem eq_of_append_mark {α : Type} {mark : α} : ∀ {a b s t : List α}, mark ∉ a → mark ∉ b →
    a ++ mark :: s = b ++ mark :: t → a = b ∧ s = t
  | [], [], _, _, _, _, h => ⟨rfl, (List.cons.inj h).2⟩
  | [], c :: _, _, _, _, hb, h => absurd ((List.cons.inj h).1 ▸ List.mem_cons_self ..) hb
  | c :: _, [], _, _, ha, _, h => absurd ((List.cons.inj h).1 ▸ List.mem_cons_self ..) ha
  | c :: a, d :: b, s, t, ha, hb, h => by
    obtain ⟨rfl, hrest⟩ := List.cons.inj h
    obtain ⟨rfl, hst⟩ := eq_of_append_mark (fun hmem => ha (List.mem_cons_of_mem _ hmem))
      (fun hmem => hb (List.mem_cons_of_mem _ hmem)) hrest
    exact ⟨rfl, hst⟩

/-- Lines without line ends are determined by the text that they make. -/
theorem eq_of_join_lines : ∀ {lines others : List String}, (∀ line ∈ lines, '\n' ∉ line.toList) →
    (∀ line ∈ others, '\n' ∉ line.toList) →
      String.join (lines.map (· ++ "\n")) = String.join (others.map (· ++ "\n")) → lines = others := by
  intro lines others hlines hothers h
  have hchars := congrArg String.toList h
  simp only [String.toList_join, List.flatMap_map, String.toList_append] at hchars
  clear h
  induction lines generalizing others with
  | nil =>
    cases others with
    | nil => rfl
    | cons other rest => simp at hchars
  | cons line rest ih =>
    cases others with
    | nil => simp at hchars
    | cons other rest' =>
      simp only [List.flatMap_cons, List.append_assoc] at hchars
      obtain ⟨hline, hrest⟩ := List.forall_mem_cons.mp hlines
      obtain ⟨hother, hrest'⟩ := List.forall_mem_cons.mp hothers
      obtain ⟨hsame, hchars⟩ := eq_of_append_mark hline hother hchars
      rw [String.toList_inj.mp hsame, ih hrest hrest' hchars]

namespace Machine

/-- A line of a section. -/
def indented (line : String) : String := "  " ++ line

/-- The lines of a dump that shows such words and slots. -/
def lines (trace : List String) (words slots : List (Nat × Nat)) : List String :=
  "Trace:" :: (trace.map indented ++
    "Memory dump:" :: ((words.map memoryLine).map indented ++
      "Storage dump:" :: (slots.map storageLine).map indented))

theorem titled_append (title : String) (texts rest : List String) :
    titled title texts ++ String.join (rest.map (· ++ "\n")) =
      String.join ((title :: (texts.map indented ++ rest)).map (· ++ "\n")) := by
  rw [← String.toList_inj]
  simp [titled, indented, String.toList_join, List.flatMap_map]

/-- A dump is its lines, each ended. -/
theorem dump_eq_join (trace : List String) (words slots : List (Nat × Nat)) :
    titled "Trace:" trace ++ titled "Memory dump:" (words.map memoryLine) ++
      titled "Storage dump:" (slots.map storageLine) = String.join ((lines trace words slots).map (· ++ "\n")) := by
  have hlast := titled_append "Storage dump:" (slots.map storageLine) []
  rw [List.map_nil, String.join_nil, String.append_empty, List.append_nil] at hlast
  rw [lines, String.append_assoc, hlast, titled_append, titled_append]

theorem indented_injective {line other : String} (h : indented line = indented other) : line = other := by
  have hchars := congrArg String.toList h
  simp only [indented, String.toList_append] at hchars
  exact String.toList_inj.mp (List.append_cancel_left hchars)

/-- No line of a section is a title. -/
theorem title_notMem {title : String} (htitle : title.toList.head? ≠ some ' ') (texts : List String) :
    title ∉ texts.map indented := by
  intro hmem
  obtain ⟨text, -, rfl⟩ := List.mem_map.mp hmem
  exact htitle (by simp [indented])

/-- What can be shown: a trace of lines, and words by words. -/
structure Shows (trace : List String) (words slots : List (Nat × Nat)) : Prop where
  trace : ∀ line ∈ trace, '\n' ∉ line.toList
  words : ∀ entry ∈ words, Word.InRange entry.2
  slots : ∀ entry ∈ slots, Word.InRange entry.1 ∧ Word.InRange entry.2

section Shows
variable {trace trace' : List String} {words words' slots slots' : List (Nat × Nat)}

theorem digit_ne_lineEnd {c : Char} {n : Nat} (h : c ∈ Nat.toDigits 16 n) : c ≠ '\n' ∧ c.toUpper ≠ '\n' := by
  obtain ⟨d, hd, rfl⟩ := Numeral.mem_toDigits (by decide) n c h
  have hall : ∀ d : Fin 16, d.val.digitChar ≠ '\n' ∧ d.val.digitChar.toUpper ≠ '\n' := by decide
  exact hall ⟨d, hd⟩

theorem lineEnd_notMem_hex64 (w : Word) : '\n' ∉ (Word.hex64 (w : Int)).toList := by
  rw [Word.toList_hex64, List.leftpad, List.mem_append, List.mem_replicate]
  rintro (⟨-, h⟩ | h)
  · cases h
  · exact (digit_ne_lineEnd h).1 rfl

theorem lineEnd_notMem_offsetText (n : Nat) : '\n' ∉ (offsetText n).toList := by
  rw [offsetText, String.toList_ofList, List.leftpad, List.mem_append, List.mem_replicate, List.mem_map]
  rintro (⟨-, h⟩ | ⟨c, hc, h⟩)
  · cases h
  · exact (digit_ne_lineEnd hc).2 h

/-- No line of a dump has a line end in it. -/
theorem Shows.lineEnd_notMem (h : Shows trace words slots) : ∀ line ∈ lines trace words slots, '\n' ∉ line.toList := by
  have hsection {texts : List String} (htexts : ∀ text ∈ texts, '\n' ∉ text.toList) :
      ∀ line ∈ texts.map indented, '\n' ∉ line.toList := by
    intro line hline
    obtain ⟨text, htext, rfl⟩ := List.mem_map.mp hline
    simpa [indented] using htexts text htext
  simp only [lines, List.forall_mem_cons, List.forall_mem_append]
  refine ⟨by decide, hsection h.trace, by decide, hsection ?_, by decide, hsection ?_⟩
  · intro text htext
    obtain ⟨entry, -, rfl⟩ := List.mem_map.mp htext
    simp [memoryLine, lineEnd_notMem_offsetText, lineEnd_notMem_hex64]
  · intro text htext
    obtain ⟨entry, -, rfl⟩ := List.mem_map.mp htext
    simp [storageLine, lineEnd_notMem_hex64]

/-- Equal lines show the same. -/
theorem Shows.lines_injective (h : Shows trace words slots) (h' : Shows trace' words' slots')
    (hlines : lines trace words slots = lines trace' words' slots') :
    trace = trace' ∧ words = words' ∧ slots = slots' := by
  obtain ⟨htrace, hrest⟩ := eq_of_append_mark (title_notMem (by decide) _) (title_notMem (by decide) _)
    (List.cons.inj hlines).2
  obtain ⟨hwords, hslots⟩ := eq_of_append_mark (title_notMem (by decide) _) (title_notMem (by decide) _) hrest
  have hinjective : Function.Injective indented := fun _ _ => indented_injective
  have htexts {texts others : List String} (heq : texts.map indented = others.map indented) : texts = others :=
    List.map_injective_iff.mpr hinjective heq
  have hentries {f : Nat × Nat → String} {entries others : List (Nat × Nat)} (heq : entries.map f = others.map f)
      (hf : ∀ a ∈ entries, ∀ b ∈ others, f a = f b → a = b) : entries = others := by
    refine List.ext_getElem (by simpa using congrArg List.length heq) fun i h h' => ?_
    exact hf _ (List.getElem_mem h) _ (List.getElem_mem h') (by simpa [h, h'] using congrArg (·[i]?) heq)
  refine ⟨htexts htrace, hentries (htexts hwords) ?_, hentries (htexts hslots) ?_⟩
  · intro a ha b hb hab
    obtain ⟨hoffset, hvalue⟩ := eq_of_append_hex64 (h.words a ha) (h'.words b hb) hab
    exact Prod.ext (offsetText_injective hoffset) hvalue
  · intro a ha b hb hab
    obtain ⟨hkey, hvalue⟩ := eq_of_append_hex64 (h.slots a ha).2 (h'.slots b hb).2 hab
    exact Prod.ext (Word.hex64_injective hkey) hvalue

end Shows

/-! ### Dumps -/

/-- What a dump can show: a trace of lines, and words by words in storage. -/
structure Printable (machine : Machine) : Prop where
  trace : ∀ line ∈ machine.trace.toList, '\n' ∉ line.toList
  storage : ∀ key value, machine.storage[key]? = some value → Word.InRange key ∧ Word.InRange value

theorem Printable.log {machine : Machine} (h : machine.Printable) {line : String} (hline : '\n' ∉ line.toList) :
    (machine.log line).Printable where
  trace := by
    rw [trace_log]
    exact List.forall_mem_append.mpr ⟨h.trace, List.forall_mem_singleton.mpr hline⟩
  storage := h.storage

theorem Printable.store {machine : Machine} (h : machine.Printable) {key value : Word} (hkey : key.InRange)
    (hvalue : value.InRange) : (machine.store key value).Printable where
  trace := h.trace
  storage slot word hslot := by
    rw [Machine.store, Std.ExtTreeMap.getElem?_insert] at hslot
    split at hslot <;> rename_i hsame
    · cases hslot
      exact ⟨Nat.compare_eq_eq.mp hsame ▸ hkey, hvalue⟩
    · exact h.storage slot word hslot

/-- The lines of a machine's dump. -/
theorem dump_eq (machine : Machine) : machine.dump =
    String.join ((lines machine.trace.toList (nonzero machine.memory.words) (nonzero machine.storage)).map (· ++ "\n")) :=
  dump_eq_join ..

theorem Printable.shows {machine : Machine} (h : machine.Printable) :
    Shows machine.trace.toList (nonzero machine.memory.words) (nonzero machine.storage) where
  trace := h.trace
  words := by
    rintro ⟨base, value⟩ hentry
    obtain ⟨-, -, rfl⟩ := Memory.mem_nonzero_words.mp hentry
    exact Memory.peek_lt machine.memory .bigEndian base Memory.wordBytes
  slots := by
    rintro ⟨key, value⟩ hentry
    exact h.storage key value (Std.ExtTreeMap.mem_toList_iff_getElem?_eq_some.mp (List.mem_of_mem_filter hentry))

theorem mem_nonzero_storage {machine : Machine} {key value : Word} :
    (key, value) ∈ nonzero machine.storage ↔ value ≠ 0 ∧ machine.stored key = value := mem_nonzero_iff

/-- Machines with the same trace, bytes and slots have the same dump. -/
theorem dump_congr {s t : Machine} (htrace : s.trace = t.trace)
    (hmemory : ∀ offset, s.memory.byte offset = t.memory.byte offset) (hstorage : ∀ key, s.stored key = t.stored key) :
    s.dump = t.dump := by
  have hpeek (base : Nat) :
      s.memory.peek .bigEndian base Memory.wordBytes = t.memory.peek .bigEndian base Memory.wordBytes :=
    Nat.eq_of_testBit_eq fun i => Bool.eq_iff_iff.mpr (by rw [Memory.testBit_peek, Memory.testBit_peek, hmemory])
  have hwords : nonzero s.memory.words = nonzero t.memory.words := by
    refine eq_of_ascending (nonzero_ascending _) (nonzero_ascending _) fun ⟨base, value⟩ => ?_
    rw [Memory.mem_nonzero_words, Memory.mem_nonzero_words, hpeek]
  have hslots : nonzero s.storage = nonzero t.storage := by
    refine eq_of_ascending (nonzero_ascending _) (nonzero_ascending _) fun ⟨key, value⟩ => ?_
    rw [mem_nonzero_storage, mem_nonzero_storage, hstorage]
  rw [dump_eq, dump_eq, htrace, hwords, hslots]

/-- Machines that can be printed have the same dump just if they have the same trace, bytes and slots. A
dump shows, in ascending order, each word of memory that is not zero where it is read and each slot
that is not zero. So neither the order of the writes nor a written zero shows. -/
theorem dump_eq_iff {s t : Machine} (hs : s.Printable) (ht : t.Printable) :
    (s.dump = t.dump ↔ s.trace = t.trace ∧ (∀ offset, s.memory.byte offset = t.memory.byte offset) ∧
      ∀ key, s.stored key = t.stored key) ∧
    (∃ words slots : List (Nat × Nat),
      words.Pairwise (fun a b => a.1 < b.1) ∧ slots.Pairwise (fun a b => a.1 < b.1) ∧
      (∀ base value, (base, value) ∈ words ↔
        32 ∣ base ∧ value ≠ 0 ∧ (s.memory.read .bigEndian base 32).1 = value) ∧
      (∀ key value, (key, value) ∈ slots ↔ value ≠ 0 ∧ s.stored key = value) ∧
      (∀ cells : List (Nat × UInt8), cells.Perm s.memory.cells.toList → nonzero (cells.foldl Memory.gather ∅) = words) ∧
      s.dump = titled "Trace:" s.trace.toList ++ titled "Memory dump:" (words.map memoryLine) ++
        titled "Storage dump:" (slots.map storageLine)) ∧
    (∀ offset, s.memory.byte offset = 0 → { s with memory := s.memory.writeByte offset 0 }.dump = s.dump) ∧
    ∀ key, s.stored key = 0 → (s.store key 0).dump = s.dump := by
  refine ⟨⟨fun h => ?_, fun ⟨htrace, hmemory, hstorage⟩ => dump_congr htrace hmemory hstorage⟩,
    ⟨nonzero s.memory.words, nonzero s.storage, nonzero_ascending _, nonzero_ascending _,
      fun _ _ => Memory.mem_nonzero_words, fun _ _ => mem_nonzero_storage, fun cells hcells => ?_, rfl⟩,
    fun offset hzero => ?_, fun key hzero => ?_⟩
  · rw [dump_eq, dump_eq] at h
    obtain ⟨htrace, hwords, hslots⟩ := hs.shows.lines_injective ht.shows
      (eq_of_join_lines hs.shows.lineEnd_notMem ht.shows.lineEnd_notMem h)
    exact ⟨Array.toList_inj.mp htrace, Memory.byte_eq_of_words hwords, getD_eq_of_nonzero hslots⟩
  · refine eq_of_ascending (nonzero_ascending _) (nonzero_ascending _) fun ⟨base, value⟩ => ?_
    rw [Memory.mem_nonzero_gather hcells, Memory.mem_nonzero_words]
  · refine dump_congr rfl (fun place => ?_) fun _ => rfl
    rw [Memory.writeByte, Memory.byte_put, Memory.byte_touch]
    split
    · subst_vars
      exact hzero.symm
    · rfl
  · refine dump_congr rfl (fun _ => rfl) fun slot => ?_
    rw [stored_store]
    split
    · subst_vars; exact hzero.symm
    · rfl

theorem dump_eq_iff_sample :
    (((({} : Machine).log "add").store 1 2).store 3 0).dump = ((({} : Machine).store 1 2).log "add").dump := by
  have hstart : ({} : Machine).Printable := ⟨nofun, fun key value h => by simp at h⟩
  have hs : ((({} : Machine).log "add").store 1 2).Printable := (hstart.log (by decide)).store (by decide) (by decide)
  have ht : ((({} : Machine).store 1 2).log "add").Printable := (hstart.store (by decide) (by decide)).log (by decide)
  have hzero := (dump_eq_iff hs ht).2.2.2 3 (by rw [stored_store]; simp [stored, log])
  rw [hzero]
  exact (dump_eq_iff hs ht).1.mpr ⟨rfl, fun _ => rfl, fun _ => rfl⟩

end Machine

end BlockIR
