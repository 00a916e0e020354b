import Mathlib.Data.List.TakeWhile
import BlockIR.Builtin
import BlockIR.Proofs.Numeral

/-! Replay: what is stored, told by the lines of a trace alone.

A line `NAME(0xA, 0xB)` of a store says where something is stored and what, so a
reader of the trace can do the stores again, from empty memory and empty storage
(`Stores.replay`). The reading goes by the text of a line; a line that a call
leaves is read back as that call (`call?_callLine`). -/
namespace BlockIR

/-- What is stored: bytes of memory by offset and words of storage by key, written zeros included. -/
structure Stores where
  cells : Std.ExtTreeMap Nat UInt8 := ∅
  slots : Storage := ∅

/-- What is stored in a machine. -/
def Machine.stores (machine : Machine) : Stores := ⟨machine.memory.cells, machine.storage⟩

/-! ### Reading a line -/

namespace Replay

/-- The number that a text begins with, written as `0x` and hexadecimal digits, and the text after it. -/
def number? : List Char → Option (Nat × List Char)
  | '0' :: 'x' :: text =>
    (Numeral.run? 16 (text.takeWhile (Numeral.isDigit 16))).map fun n =>
      (n, text.dropWhile (Numeral.isDigit 16))
  | _ => none

/-- The two numbers of a text `0xA, 0xB)`. -/
def pair? (text : List Char) : Option (Nat × Nat) :=
  match number? text with
  | some (a, ',' :: ' ' :: rest) =>
    match number? rest with
    | some (b, [')']) => some (a, b)
    | _ => none
  | _ => none

/-- The name and the two arguments of a line `NAME(0xA, 0xB)`. -/
def call? (line : String) : Option (String × Nat × Nat) :=
  match line.toList.dropWhile (· ≠ '(') with
  | '(' :: rest => (pair? rest).map fun args => (String.ofList (line.toList.takeWhile (· ≠ '(')), args)
  | _ => none

end Replay

/-! ### Doing what a line says -/

namespace Stores

/-- The first offset that memory does not have. -/
def memoryEnd : Nat := 0x100000000

/-- Where in a region the byte of a number goes that has `i` bytes below it. -/
def place (order : ByteOrder) (offset size i : Nat) : Nat :=
  match order with
  | .bigEndian => offset + (size - 1 - i)
  | .littleEndian => offset + i

/-- Sets the bytes of a region to the low bytes of a number. -/
def spread (cells : Std.ExtTreeMap Nat UInt8) (order : ByteOrder) (offset size value : Nat) :
    Std.ExtTreeMap Nat UInt8 :=
  (List.range size).foldl
    (fun cells i => cells.insert (place order offset size i) (UInt8.ofNat (value >>> (8 * i)))) cells

/-- Stores a number in a region of memory; one that does not end within memory is left as it is. -/
def write (stores : Stores) (order : ByteOrder) (offset size value : Nat) : Stores :=
  if offset + size ≤ memoryEnd then
    { stores with cells := spread stores.cells order offset size value }
  else stores

/-- Does what a line of the trace says. Lines that tell of no store change nothing. -/
def replayLine (stores : Stores) (line : String) : Stores :=
  match Replay.call? line with
  | some ("SSTORE", key, value) => { stores with slots := stores.slots.insert key value }
  | some ("MSTORE", offset, value) => stores.write .bigEndian offset 32 value
  | some ("MSTORE8", offset, value) => stores.write .bigEndian offset 1 value
  | some ("i64.store", address, value) => stores.write .littleEndian address 8 value
  | some ("i32.store", address, value) => stores.write .littleEndian address 4 value
  | some ("i64.store8", address, value) => stores.write .littleEndian address 1 value
  | _ => stores

/-- Does what the lines of a trace say, in order. -/
def replay (stores : Stores) (lines : List String) : Stores := lines.foldl replayLine stores

theorem replay_append (stores : Stores) (lines more : List String) :
    stores.replay (lines ++ more) = (stores.replay lines).replay more := List.foldl_append

@[simp] theorem replay_nil (stores : Stores) : stores.replay [] = stores := rfl

@[simp] theorem replay_singleton (stores : Stores) (line : String) :
    stores.replay [line] = stores.replayLine line := rfl

end Stores

/-! ### Lines of calls -/

/-- The line that a call leaves. -/
def callLine (title : String) (args : List Word) : String :=
  title ++ "(" ++ ", ".intercalate (args.map fun (w : Word) => Word.hex w) ++ ")"

namespace Replay

/-- A number is read up to the first character that is no digit. -/
theorem number?_hex (w : Word) {c : Char} (hc : Numeral.isDigit 16 c = false) (rest : List Char) :
    number? ((Word.hex (w : Int)).toList ++ c :: rest) = some (w, c :: rest) := by
  have hlow : 1 < 16 := by decide
  have hhigh : 16 ≤ 16 := Nat.le_refl 16
  have hdigits := Numeral.isDigit_of_mem_toDigits hlow hhigh w
  have htake : (Nat.toDigits 16 w ++ c :: rest).takeWhile (Numeral.isDigit 16) = Nat.toDigits 16 w := by
    rw [List.takeWhile_append_of_pos hdigits]
    simp [hc]
  have hdrop : (Nat.toDigits 16 w ++ c :: rest).dropWhile (Numeral.isDigit 16) = c :: rest := by
    rw [List.dropWhile_append_of_pos hdigits]
    simp [hc]
  rw [Word.toList_hex]
  simp [number?, htake, hdrop, Numeral.run?_toDigits hlow hhigh]

theorem pair?_hex (a b : Word) :
    pair? ((Word.hex (a : Int)).toList ++ ',' :: ' ' :: ((Word.hex (b : Int)).toList ++ [')'])) =
      some (a, b) := by
  unfold pair?
  rw [number?_hex a (by decide)]
  simp only
  rw [number?_hex b (by decide)]
  rfl

/-- In search of a parenthesis a text that has none is passed over. -/
theorem ne_paren {text : String} (h : '(' ∉ text.toList) : ∀ c ∈ text.toList, decide (c ≠ '(') = true := by
  intro c hc
  have hne : c ≠ '(' := fun hparen => h (hparen ▸ hc)
  simpa using hne

/-- A line without a parenthesis is not that of a call. -/
theorem call?_eq_none {line : String} (h : '(' ∉ line.toList) : call? line = none := by
  unfold call?
  rw [List.dropWhile_eq_nil_iff.mpr (ne_paren h)]

variable {title : String} (htitle : '(' ∉ title.toList)
include htitle

theorem takeWhile_title (rest : List Char) :
    (title.toList ++ '(' :: rest).takeWhile (· ≠ '(') = title.toList := by
  rw [List.takeWhile_append_of_pos (ne_paren htitle)]
  simp

theorem dropWhile_title (rest : List Char) :
    (title.toList ++ '(' :: rest).dropWhile (· ≠ '(') = '(' :: rest := by
  rw [List.dropWhile_append_of_pos (ne_paren htitle)]
  simp

/-- A line is read as a call of its title or not at all. -/
theorem call?_title (args : List Word) :
    call? (callLine title args) = none ∨ ∃ a b, call? (callLine title args) = some (title, a, b) := by
  obtain ⟨rest, hlist⟩ : ∃ rest, (callLine title args).toList = title.toList ++ '(' :: rest :=
    ⟨(", ".intercalate (args.map fun (w : Word) => Word.hex w)).toList ++ [')'], by simp [callLine]⟩
  unfold call?
  rw [hlist, takeWhile_title htitle, dropWhile_title htitle]
  rcases hpair : pair? rest with _ | ⟨a, b⟩
  · simp [hpair]
  · simp [hpair]

/-- The line of a call with two arguments is read back. -/
theorem call?_callLine (a b : Word) : call? (callLine title [a, b]) = some (title, a, b) := by
  have hlist : (callLine title [a, b]).toList = title.toList ++ '(' ::
      ((Word.hex (a : Int)).toList ++ ',' :: ' ' :: ((Word.hex (b : Int)).toList ++ [')'])) := by
    simp [callLine]
  unfold call?
  rw [hlist, takeWhile_title htitle, dropWhile_title htitle]
  simp [pair?_hex]

omit htitle in
example : call? "SSTORE(0x1f, 0x2)" = some ("SSTORE", 0x1f, 0x2) := by decide

end Replay
end BlockIR
