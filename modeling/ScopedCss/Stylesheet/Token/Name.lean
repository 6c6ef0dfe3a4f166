/-!
# Identifiers

An identifier of a stylesheet is a run of letters, digits, dashes, underscores and characters
outside ASCII, where any character may also be written as an escape. `name` reads one and says what
it spells: escapes stand for their character, and a NUL for the replacement character.

Every reader of a stylesheet's tokens gives back what is left of the text, which is an end of the
text (`<:+`).
-/

namespace ScopedCss
namespace Stylesheet

/-- A character that ends a line. -/
def isNewline (c : Char) : Bool := c == '\n' || c == '\r' || c == '\x0C'

/-- A character that separates tokens. -/
def isSpace (c : Char) : Bool := c == ' ' || c == '\t' || isNewline c

/-- The text begins with the end of a line. -/
def startsNewline (s : List Char) : Bool := s.head?.any isNewline

/-! ### Escapes -/

/-- A hexadecimal digit. -/
def isHexDigit (c : Char) : Bool :=
  c.isDigit || ('a' ≤ c && c ≤ 'f') || ('A' ≤ c && c ≤ 'F')

/-- The value of a hexadecimal digit. -/
def hexDigitValue (c : Char) : Nat :=
  if c.isDigit then c.toNat - '0'.toNat else c.toLower.toNat - 'a'.toNat + 10

/-- The value of a run of hexadecimal digits. -/
def hexValue (digits : List Char) : Nat :=
  digits.foldl (fun value c => value * 16 + hexDigitValue c) 0

/-- What stands for a character that a text cannot hold. -/
def replacement : Char := '\uFFFD'

/-- The character itself, and the replacement for a NUL. -/
def orReplacement (c : Char) : Char := if c = '\x00' then replacement else c

/-- The character with this code point. `Char.ofNat` is NUL where there is none. -/
def ofCodePoint (n : Nat) : Char := orReplacement (Char.ofNat n)

/-- The text without a separator at its start; a carriage return and a line feed are one. -/
def dropSpace : List Char → List Char
  | '\r' :: '\n' :: rest => rest
  | c :: rest => if isSpace c then rest else c :: rest
  | [] => []

/-- The character that an escape stands for, from the text after the backslash, and the rest: up to
six hexadecimal digits and a separator, or a character that stands for itself. -/
def escape : List Char → Char × List Char
  | [] => (replacement, [])
  | c :: rest =>
    if isHexDigit c then
      let digits := ((c :: rest).take 6).takeWhile isHexDigit
      (ofCodePoint (hexValue digits), dropSpace ((c :: rest).drop digits.length))
    else (orReplacement c, rest)

theorem dropSpace_suffix (s : List Char) : dropSpace s <:+ s := by
  unfold dropSpace
  split
  · exact ⟨['\r', '\n'], rfl⟩
  · split
    · exact List.suffix_cons _ _
    · exact List.suffix_refl _
  · exact List.suffix_refl _

theorem escape_suffix (s : List Char) : (escape s).2 <:+ s := by
  unfold escape
  split
  · exact List.suffix_refl _
  · split
    · exact (dropSpace_suffix _).trans (List.drop_suffix _ _)
    · exact List.suffix_cons _ _

/-! ### Names -/

/-- A character that an identifier may start with. -/
def isNameStart (c : Char) : Bool := c.isAlpha || c == '_' || c == '\x00' || 0x80 ≤ c.toNat

/-- A character that an identifier may go on with. -/
def isNamePoint (c : Char) : Bool := isNameStart c || c.isDigit || c == '-'

/-- The text begins with an escape: a backslash that is not before the end of a line. -/
def startsEscape : List Char → Bool
  | '\\' :: rest => !startsNewline rest
  | _ => false

/-- The text begins with an identifier. After a dash any backslash will do: where it is no escape,
the dash alone is the identifier. -/
def startsName : List Char → Bool
  | '-' :: rest => rest.head?.any fun c => isNameStart c || c == '-' || c == '\\'
  | s => startsEscape s || s.head?.any isNameStart

/-- The rest of an identifier: what it spells, and what comes after it. -/
def name : List Char → List Char × List Char
  | [] => ([], [])
  | c :: rest =>
    if isNamePoint c then
      let more := name rest
      (orReplacement c :: more.1, more.2)
    else if c = '\\' ∧ startsNewline rest = false then
      let more := name (escape rest).2
      ((escape rest).1 :: more.1, more.2)
    else ([], c :: rest)
termination_by s => s.length
decreasing_by
  · simp
  · exact Nat.lt_succ_of_le (escape_suffix rest).length_le

theorem name_suffix (s : List Char) : (name s).2 <:+ s := by
  fun_induction name s with
  | case1 => exact List.suffix_refl _
  | case2 c rest hc more ih => exact ih.trans (List.suffix_cons _ _)
  | case3 c rest hc hescape more ih =>
    exact (ih.trans (escape_suffix rest)).trans (List.suffix_cons _ _)
  | case4 => exact List.suffix_refl _

/-- An identifier takes at least the character it begins with. -/
theorem name_suffix_tail {c : Char} {rest : List Char} (h : startsName (c :: rest)) :
    (name (c :: rest)).2 <:+ rest := by
  rw [name]
  split
  · exact name_suffix rest
  · next hc =>
    split
    · exact (name_suffix _).trans (escape_suffix rest)
    · next hescape =>
      unfold startsName startsEscape at h
      split at h
      · simp_all [isNamePoint]
      · split at h <;> simp_all [isNamePoint, isNameStart]
        omega

example : name ['\\', '7', '5', 's', 'e', ' '] = (['u', 's', 'e'], [' ']) := by decide +kernel
example : startsName ['-', '\\', '\n'] ∧ name ['-', '\\', '\n'] = (['-'], ['\\', '\n']) := by
  decide +kernel

end Stylesheet
end ScopedCss
