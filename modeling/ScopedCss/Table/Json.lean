import ScopedCss.Table.Basic

/-!
# Tables as JSON

A table is written as a JSON object of strings, one class on a line, in the order of the table.
-/

namespace ScopedCss
namespace Table

/-- The lowercase hexadecimal digit of a value below 16. -/
def hexDigit (n : Nat) : Char :=
  if n < 10 then Char.ofNat ('0'.toNat + n) else Char.ofNat ('a'.toNat + (n - 10))

/-- One character inside a JSON string: quotes, backslashes and control characters are escaped,
the usual ones of these by a letter, and every other character stands for itself. -/
def jsonChar (c : Char) : List Char :=
  if c = '"' then ['\\', '"']
  else if c = '\\' then ['\\', '\\']
  else if c = '\x08' then ['\\', 'b']
  else if c = '\x0C' then ['\\', 'f']
  else if c = '\n' then ['\\', 'n']
  else if c = '\r' then ['\\', 'r']
  else if c = '\t' then ['\\', 't']
  else if c.toNat < 0x20 then
    ['\\', 'u', '0', '0', hexDigit (c.toNat / 16), hexDigit (c.toNat % 16)]
  else [c]

/-- A text as a JSON string, in its quotes. -/
def jsonString (s : String) : String :=
  "\"" ++ String.ofList (s.toList.flatMap jsonChar) ++ "\""

/-- A table as a JSON object, indented by two blanks. -/
def toJson (t : Table) : String :=
  if t.isEmpty then "{}"
  else
    "\x7b\n"
      ++ ",\n".intercalate (t.toList.map fun p => "  " ++ jsonString p.1 ++ ": " ++ jsonString p.2)
      ++ "\n\x7d"

end Table
end ScopedCss
