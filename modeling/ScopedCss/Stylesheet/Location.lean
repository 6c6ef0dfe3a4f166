import ScopedCss.Stylesheet.Token.Name
import ScopedCss.Text.Utf16

/-!
# Places in a stylesheet

A place is a line and a column, both from 1. A line ends with a line feed, a form feed, a carriage
return, or a carriage return and a line feed together; columns count UTF-16 units.
-/

namespace ScopedCss
namespace Stylesheet

/-- A place in a stylesheet. -/
structure Location where
  line : Nat
  column : Nat
  deriving DecidableEq, Inhabited

namespace Location

/-- The beginning of a stylesheet. -/
def start : Location := ⟨1, 1⟩

/-- The beginning of the next line. -/
def nextLine (place : Location) : Location := ⟨place.line + 1, 1⟩

/-- The place after a text that begins here. -/
def after : Location → List Char → Location
  | place, '\r' :: '\n' :: rest => place.nextLine.after rest
  | place, c :: rest =>
    if isNewline c then place.nextLine.after rest
    else after { place with column := place.column + (Text.units16 c).length } rest
  | place, [] => place

example : start.after ['a', '\r', '\n', '\r', '😀', 'b'] = ⟨3, 4⟩ := by decide +kernel

end Location
end Stylesheet
end ScopedCss
