/-!
# Base 36

Hashes are written in base 36, with the digits `0` to `9` and `a` to `z`. A *segment* is a hash cut
down to exactly five digits.
-/

namespace ScopedCss
namespace Name

/-- The digit of a value below 36. -/
def digit36 (n : Nat) : Char :=
  if n < 10 then Char.ofNat ('0'.toNat + n) else Char.ofNat ('a'.toNat + (n - 10))

/-- The base-36 digits of a number, the highest first; zero has the single digit `0`. -/
def digits36 (n : Nat) : List Char :=
  if _ : n < 36 then [digit36 n] else digits36 (n / 36) ++ [digit36 (n % 36)]
termination_by n
decreasing_by omega

/-- A 32-bit value in base 36. -/
def base36 (value : UInt32) : String := String.ofList (digits36 value.toNat)

/-- The number of digits in a segment. -/
def segmentWidth : Nat := 5

/-- The digits, with zeros in front until there are as many as a segment has. -/
def padSegment (digits : List Char) : List Char :=
  List.replicate (segmentWidth - digits.length) '0' ++ digits

/-- The last five base-36 digits of a hash. -/
def segment (h : UInt32) : String :=
  let digits := padSegment (digits36 h.toNat)
  String.ofList (digits.drop (digits.length - segmentWidth))

end Name
end ScopedCss
