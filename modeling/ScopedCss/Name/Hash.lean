import ScopedCss.Text.Utf16

/-!
# Hashing a text

A 32-bit hash that mixes in the UTF-16 units of a text from its end to its start. It is short and
stable rather than strong: names made from it do not change between builds.
-/

namespace ScopedCss
namespace Name

/-- Mix one unit into a hash: times 33, then exclusive or, modulo 2³². -/
def mix (unit : UInt16) (h : UInt32) : UInt32 := h * 33 ^^^ unit.toUInt32

/-- The hash of a text: all its units mixed into 5381, the last unit first. -/
def hash (text : String) : UInt32 := (Text.utf16 text.toList).foldr mix 5381

end Name
end ScopedCss
