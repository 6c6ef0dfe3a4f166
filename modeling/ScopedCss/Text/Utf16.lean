/-!
# UTF-16 units

Hashes and source columns count a text in UTF-16 code units: one for each character of the basic
plane and a surrogate pair for every other one.
-/

namespace ScopedCss
namespace Text

/-- The UTF-16 code units of one character. -/
def units16 (c : Char) : List UInt16 :=
  if c.toNat < 0x10000 then [c.toNat.toUInt16]
  else
    let n := c.toNat - 0x10000
    [(0xD800 + n / 0x400).toUInt16, (0xDC00 + n % 0x400).toUInt16]

/-- The UTF-16 code units of a text, in order. -/
def utf16 (s : List Char) : List UInt16 := s.flatMap units16

@[simp] theorem utf16_nil : utf16 [] = [] := rfl

@[simp] theorem utf16_append (s t : List Char) : utf16 (s ++ t) = utf16 s ++ utf16 t := by
  simp [utf16]

example : utf16 ['a', '😀'] = [0x61, 0xD83D, 0xDE00] := by decide

end Text
end ScopedCss
