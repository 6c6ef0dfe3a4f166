import ScopedCss.Text.Blank
import ScopedCss.Text.Quote

/-!
# Class names

Selectors and directives read class names by one rule: a class name is a non-empty run of characters
that are neither blank nor have a meaning of their own in a selector.
-/

namespace ScopedCss
namespace Text

/-- A character that may stand in a class name. -/
def isNameChar (c : Char) : Bool :=
  !isBlank c && !(['.', ',', '#', ':', '(', ')', '[', ']', '>', '+', '~', '*', '\'', '"', '{',
    '}', '|', '='].contains c)

/-- A text that is a class name. -/
def isClassName (name : String) : Bool := !name.toList.isEmpty && name.toList.all isNameChar

/-! ### The characters of a name -/

variable {c : Char}

theorem isBlank_of_isNameChar (h : isNameChar c) : isBlank c = false := by
  rw [isNameChar, Bool.and_eq_true] at h
  simpa using h.1

theorem isQuote_of {p : Char → Bool} (h : p c) (hsingle : p '\'' = false)
    (hdouble : p '"' = false) :
    isQuote c = false := by
  simp only [isQuote, Bool.or_eq_false_iff, beq_eq_false_iff_ne]
  constructor <;> rintro rfl
  · exact absurd h (by simp [hsingle])
  · exact absurd h (by simp [hdouble])

theorem isQuote_of_isNameChar (h : isNameChar c) : isQuote c = false :=
  isQuote_of h (by decide) (by decide)

theorem isClassName_ofList {name : List Char} (hne : name ≠ []) (hall : name.all isNameChar) :
    isClassName (String.ofList name) := by
  simp [isClassName, hne, hall]

theorem isNameChar_of_isClassName {name : String} (h : isClassName name) (hc : c ∈ name.toList) :
    isNameChar c := by
  rw [isClassName, Bool.and_eq_true] at h
  exact List.all_eq_true.1 h.2 c hc

theorem exists_of_isClassName {name : String} (h : isClassName name) :
    ∃ c s, name.toList = c :: s ∧ isNameChar c ∧ s.all isNameChar := by
  simp only [isClassName, Bool.and_eq_true, Bool.not_eq_true', List.isEmpty_eq_false_iff] at h
  obtain ⟨c, s, hname⟩ := List.exists_cons_of_ne_nil h.1
  rw [hname, List.all_cons, Bool.and_eq_true] at h
  exact ⟨c, s, hname, h.2.1, h.2.2⟩

end Text
end ScopedCss
