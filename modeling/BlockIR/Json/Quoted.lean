/-! Quoted strings: how a text stands between double quotes in a document.

Quote and backslash are escaped, the five control characters with a letter of
their own are written with it, the other characters below `U+0020` as `\u00` and
two lower-case hexadecimal digits, and everything else stands for itself. -/
namespace BlockIR
namespace Json

/-- The two lower-case hexadecimal digits of a number below 256. -/
def hexPair (n : Nat) : String :=
  String.ofList [Nat.digitChar (n / 16), Nat.digitChar (n % 16)]

/-- One character inside the quotes. -/
def escape (c : Char) : String :=
  if c = '"' then "\\\""
  else if c = '\\' then "\\\\"
  else if c = '\x08' then "\\b"
  else if c = '\x0c' then "\\f"
  else if c = '\n' then "\\n"
  else if c = '\r' then "\\r"
  else if c = '\t' then "\\t"
  else if c.toNat < 0x20 then "\\u00" ++ hexPair c.toNat
  else String.singleton c

/-- A text between double quotes. -/
def quote (text : String) : String := "\"" ++ String.join (text.toList.map escape) ++ "\""

end Json
end BlockIR
