import ScopedCss.Stylesheet.Token

/-!
# Blocks

A bracket opens a block that reaches to its own closing bracket. Inside a block every other closing
bracket is an ordinary token, unless it closes a block that was opened in between. A block that is
not closed reaches to the end.

* `skipBlanks` goes to the first token of a node.
* `untilClose` goes to the bracket that closes a block.
* `untilBody` goes to the end of what stands before a block or a semicolon.
-/

namespace ScopedCss
namespace Stylesheet

/-- What a text began with, given an end of it. -/
def before (s rest : List Char) : List Char := s.take (s.length - rest.length)

theorem before_append_right (s rest : List Char) : before (s ++ rest) rest = s := by
  simp [before]

/-- The text without the separators and comments at its start. -/
def skipBlanks : List Char → List Char
  | [] => []
  | c :: rest => if (token c rest).1 = .blank then skipBlanks (token c rest).2 else c :: rest
termination_by s => s.length
decreasing_by exact length_token_lt c rest

/-- The text from the bracket on that closes the outermost of the open blocks, or the empty text if
there is none. The open blocks are listed from the inside. -/
def untilClose : List Bracket → List Char → List Char
  | _, [] => []
  | blocks, c :: rest =>
    match (token c rest).1 with
    | .opening bracket => untilClose (bracket :: blocks) (token c rest).2
    | .closing bracket =>
      if blocks = [bracket] then c :: rest
      else if blocks.head? = some bracket then untilClose blocks.tail (token c rest).2
      else untilClose blocks (token c rest).2
    | _ => untilClose blocks (token c rest).2
termination_by _ s => s.length
decreasing_by all_goals exact length_token_lt c rest

theorem skipBlanks_suffix (s : List Char) : skipBlanks s <:+ s := by
  fun_induction skipBlanks s with
  | case1 => exact List.suffix_refl _
  | case2 c rest _ ih => exact (ih.trans (token_suffix c rest)).trans (List.suffix_cons _ _)
  | case3 => exact List.suffix_refl _

theorem untilClose_suffix (blocks : List Bracket) (s : List Char) :
    untilClose blocks s <:+ s := by
  fun_induction untilClose blocks s with
  | case1 => exact List.suffix_refl _
  | case3 => exact List.suffix_refl _
  | case2 _ c rest _ _ ih => exact (ih.trans (token_suffix c rest)).trans (List.suffix_cons _ _)
  | case4 _ c rest _ _ _ _ ih =>
    exact (ih.trans (token_suffix c rest)).trans (List.suffix_cons _ _)
  | case5 _ c rest _ _ _ _ ih =>
    exact (ih.trans (token_suffix c rest)).trans (List.suffix_cons _ _)
  | case6 _ c rest _ _ ih => exact (ih.trans (token_suffix c rest)).trans (List.suffix_cons _ _)

/-- The text from the first semicolon or opening brace on that stands in no other block, or the
empty text if there is none. -/
def untilBody : List Char → List Char
  | [] => []
  | c :: rest =>
    match (token c rest).1 with
    | .semicolon => c :: rest
    | .opening .curly => c :: rest
    | .opening bracket => untilBody (untilClose [bracket] (token c rest).2).tail
    | _ => untilBody (token c rest).2
termination_by s => s.length
decreasing_by
  · have h := (untilClose_suffix [bracket] (token c rest).2).length_le
    have htoken := length_token_lt c rest
    simp only [List.length_tail]
    omega
  · exact length_token_lt c rest

theorem untilBody_suffix (s : List Char) : untilBody s <:+ s := by
  fun_induction untilBody s with
  | case1 => exact List.suffix_refl _
  | case2 => exact List.suffix_refl _
  | case3 => exact List.suffix_refl _
  | case4 c rest bracket _ _ ih =>
    exact ((ih.trans (List.tail_suffix _)).trans (untilClose_suffix _ _)).trans
      ((token_suffix c rest).trans (List.suffix_cons _ _))
  | case5 c rest _ _ _ ih => exact (ih.trans (token_suffix c rest)).trans (List.suffix_cons _ _)

end Stylesheet
end ScopedCss
