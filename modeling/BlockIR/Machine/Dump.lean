import BlockIR.Machine

/-! The dump: a machine as text.

The trace in order, then the words of memory that are not zero, then the storage
slots that are not zero, both in ascending order. Zeros that were written do not
show. -/
namespace BlockIR

/-- The written bytes gathered into words, by the offset each word starts at. -/
def Memory.words (memory : Memory) : Std.ExtTreeMap Nat Nat :=
  memory.cells.toList.foldl (fun words cell =>
    let base := cell.1 / wordBytes * wordBytes
    let shift := 8 * (wordBytes - 1 - cell.1 % wordBytes)
    words.insert base (words.getD base 0 ||| cell.2.toNat <<< shift)) ∅

namespace Machine

/-- An offset in upper-case hexadecimal, at least four characters wide. -/
def offsetText (offset : Nat) : String :=
  String.ofList ((((Nat.toDigits 16 offset).map Char.toUpper)).leftpad 4 ' ')

/-- The line of one word of memory. -/
def memoryLine (entry : Nat × Nat) : String := offsetText entry.1 ++ ": " ++ Word.hex64 entry.2

/-- The line of one storage slot. -/
def storageLine (entry : Word × Word) : String := Word.hex64 entry.1 ++ ": " ++ Word.hex64 entry.2

/-- The lines of a section, each indented and ended. -/
def titled (title : String) (lines : List String) : String :=
  title ++ "\n" ++ String.join (lines.map fun line => "  " ++ line ++ "\n")

/-- Trace, memory and storage as text. -/
def dump (machine : Machine) : String :=
  titled "Trace:" machine.trace.toList ++
  titled "Memory dump:"
    ((machine.memory.words.toList.filter fun entry => entry.2 ≠ 0).map memoryLine) ++
  titled "Storage dump:"
    ((machine.storage.toList.filter fun entry => entry.2 ≠ 0).map storageLine)

end Machine
end BlockIR
