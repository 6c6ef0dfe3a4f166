import ScopedCss.Stylesheet.Token.Name

/-!
# Numbers

A number has a sign, digits, a fraction and an exponent, and takes a percent sign or a unit with it.
Only where it ends matters here.
-/

namespace ScopedCss
namespace Stylesheet

/-- The text begins with a digit. -/
def startsDigit (s : List Char) : Bool := s.head?.any Char.isDigit

/-- The text begins with digits, or with a dot and digits. -/
def startsUnsigned : List Char → Bool
  | '.' :: rest => startsDigit rest
  | s => startsDigit s

/-- The text begins with a number. -/
def startsNumber : List Char → Bool
  | '+' :: rest => startsUnsigned rest
  | '-' :: rest => startsUnsigned rest
  | s => startsUnsigned s

/-- The text without a sign at its start. -/
def dropSign : List Char → List Char
  | '+' :: rest => rest
  | '-' :: rest => rest
  | s => s

/-- The text without the digits at its start. -/
def dropDigits (s : List Char) : List Char := s.dropWhile Char.isDigit

/-- The text without a dot and digits at its start. -/
def dropFraction : List Char → List Char
  | '.' :: rest => if startsDigit rest then dropDigits rest else '.' :: rest
  | s => s

/-- The text without an exponent at its start. -/
def dropExponent : List Char → List Char
  | c :: rest =>
    if (c = 'e' ∨ c = 'E') ∧ startsDigit (dropSign rest) then dropDigits (dropSign rest)
    else c :: rest
  | [] => []

/-- The text without a percent sign or a unit at its start. -/
def dropUnit : List Char → List Char
  | '%' :: rest => rest
  | s => if startsName s then (name s).2 else s

/-- What comes after a number. -/
def afterNumber (s : List Char) : List Char :=
  dropUnit (dropExponent (dropFraction (dropDigits (dropSign s))))

theorem dropSign_suffix (s : List Char) : dropSign s <:+ s := by
  unfold dropSign
  split
  · exact List.suffix_cons _ _
  · exact List.suffix_cons _ _
  · exact List.suffix_refl _

theorem dropDigits_suffix (s : List Char) : dropDigits s <:+ s := List.dropWhile_suffix _

theorem dropFraction_suffix (s : List Char) : dropFraction s <:+ s := by
  unfold dropFraction
  split
  · split
    · exact (dropDigits_suffix _).trans (List.suffix_cons _ _)
    · exact List.suffix_refl _
  · exact List.suffix_refl _

theorem dropExponent_suffix (s : List Char) : dropExponent s <:+ s := by
  unfold dropExponent
  split
  · split
    · exact ((dropDigits_suffix _).trans (dropSign_suffix _)).trans (List.suffix_cons _ _)
    · exact List.suffix_refl _
  · exact List.suffix_refl _

theorem dropUnit_suffix (s : List Char) : dropUnit s <:+ s := by
  unfold dropUnit
  split
  · exact List.suffix_cons _ _
  · split
    · exact name_suffix _
    · exact List.suffix_refl _

/-- A number takes at least the character it begins with. -/
theorem afterNumber_suffix_tail {c : Char} {rest : List Char} (h : startsNumber (c :: rest)) :
    afterNumber (c :: rest) <:+ rest := by
  refine ((dropUnit_suffix _).trans (dropExponent_suffix _)).trans ?_
  by_cases hsign : c = '+' ∨ c = '-'
  · have hdrop : dropSign (c :: rest) = rest := by rcases hsign with rfl | rfl <;> rfl
    rw [hdrop]
    exact (dropFraction_suffix _).trans (dropDigits_suffix _)
  · have hdrop : dropSign (c :: rest) = c :: rest := by
      unfold dropSign
      split <;> simp_all
    rw [hdrop]
    by_cases hdigit : c.isDigit
    · have hdigits : dropDigits (c :: rest) = dropDigits rest := by simp [dropDigits, hdigit]
      rw [hdigits]
      exact (dropFraction_suffix _).trans (dropDigits_suffix _)
    · have hdot : c = '.' ∧ startsDigit rest = true := by
        unfold startsNumber startsUnsigned at h
        split at h
        · simp_all
        · simp_all
        · split at h <;> simp_all [startsDigit]
      obtain ⟨rfl, hdigits⟩ := hdot
      have hfraction : dropFraction (dropDigits ('.' :: rest)) = dropDigits rest := by
        simp [dropDigits, dropFraction, hdigits]
      rw [hfraction]
      exact dropDigits_suffix rest

end Stylesheet
end ScopedCss
