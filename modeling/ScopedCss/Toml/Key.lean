import ScopedCss.Toml.Quoted

/-!
# Keys in TOML

A key leads from table to table: its parts have dots between them, and each is a bare name or a
string on one line.
-/

namespace ScopedCss
namespace Toml

/-- A character of a key without quotes. -/
def isKeyChar (c : Char) : Bool := c.isAlphanum || c == '_' || c == '-'

/-- One part of a key: without quotes, or a string on one line. -/
def keyPart (s : List Char) : Reading String s :=
  match s with
  | [] => none
  | '"' :: rest => (basic rest).after (.tail '"' rest) String.ofList
  | '\'' :: rest => (literal rest).after (.tail '\'' rest) String.ofList
  | c :: rest =>
    if isKeyChar c then
      let name := rest.takeWhile isKeyChar
      some (String.ofList (c :: name), (Rest.tail c rest).drop name.length)
    else none

/-- A key: parts with dots between them, the blanks around which mean nothing. -/
def key (s : List Char) : Reading (List String) s :=
  match (keyPart (dropBlanks s)).within id (length_dropBlanks_le s) with
  | none => none
  | some (part, rest) =>
    match sign? '.' rest.1 with
    | some after => (key after.1).after (rest.trans after) (part :: ·)
    | none => some ([part], rest)
termination_by s.length
decreasing_by exact (rest.trans after).2

end Toml
end ScopedCss
