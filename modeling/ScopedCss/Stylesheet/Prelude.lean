import ScopedCss.Stylesheet.Block
import ScopedCss.Text.Blank

/-!
# Preludes

What stands before a block or a semicolon, or at the end of a text, is a *prelude*. An at-keyword at
the start does not count to it.
-/

namespace ScopedCss
namespace Stylesheet

/-- The at-keyword that a text begins with, and the text after it. -/
def splitKeyword (s : List Char) : Option String × List Char :=
  match s with
  | [] => (none, s)
  | c :: rest =>
    match token c rest with
    | (.atKeyword name, after) => (some name, after)
    | _ => (none, s)

theorem splitKeyword_suffix (s : List Char) : (splitKeyword s).2 <:+ s := by
  unfold splitKeyword
  split
  · exact List.suffix_refl _
  · next c rest =>
    have h := token_suffix c rest
    split
    · next heq =>
      rw [heq] at h
      exact h.trans (List.suffix_cons _ _)
    · exact List.suffix_refl _

/-- The text from the semicolon or the block on that ends the prelude of an item. -/
def afterPrelude (s : List Char) : List Char := untilBody (splitKeyword s).2

/-- The prelude of the item that a text begins with. -/
def preludeOf (s : List Char) : String :=
  String.ofList (Text.trim (before (splitKeyword s).2 (afterPrelude s)))

theorem afterPrelude_suffix (s : List Char) : afterPrelude s <:+ s :=
  (untilBody_suffix _).trans (splitKeyword_suffix s)

theorem length_tail_afterPrelude_lt {s : List Char} {c : Char} {rest : List Char}
    (h : skipBlanks s = c :: rest) : (afterPrelude (c :: rest)).tail.length < s.length := by
  have hskip := (skipBlanks_suffix s).length_le
  have hprelude := (afterPrelude_suffix (c :: rest)).length_le
  simp only [h, List.length_cons, List.length_tail] at *
  omega

theorem length_before_le (s rest : List Char) : (before s rest).length ≤ s.length := by
  simp only [before, List.length_take]
  omega

end Stylesheet
end ScopedCss
