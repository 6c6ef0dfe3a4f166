import ScopedCss.Text.ClassName
import ScopedCss.Text.Quote

/-!
# The words of a `@use` directive

The parameters of `@use` are cut into classes, the words `from` and `as`, commas, parentheses and
quoted texts. Blanks separate words and mean nothing else. Any other word is kept, so that an error
can show it.
-/

namespace ScopedCss
namespace Use

open Text

/-- A word of a `@use` directive. -/
inductive Token where
  /-- A class, written with a dot in front. -/
  | className (name : String)
  | fromWord
  | asWord
  | comma
  | openParen
  | closeParen
  /-- A quoted text, without its quotes. -/
  | quoted (text : String)
  /-- Anything else. -/
  | word (text : String)
  deriving DecidableEq

/-- A word as an error shows it: a quoted text is in single quotes. -/
def Token.text : Token → String
  | .className name => "." ++ name
  | .fromWord => "from"
  | .asWord => "as"
  | .comma => ","
  | .openParen => "("
  | .closeParen => ")"
  | .quoted text => "'" ++ text ++ "'"
  | .word text => text

/-- The token of a run of word characters. -/
def Token.ofWord (word : List Char) : Token :=
  if word = ['f', 'r', 'o', 'm'] then .fromWord
  else if word = ['a', 's'] then .asWord
  else
    match word with
    | '.' :: name =>
      if isClassName (String.ofList name) then .className (String.ofList name)
      else .word (String.ofList word)
    | _ => .word (String.ofList word)

/-- A character that goes on with a word. -/
def isWordChar (c : Char) : Bool := !isBlank c && !isQuote c && !(['(', ')', ','].contains c)

/-- The tokens of a text; none if a quoted text in it is not closed. -/
def tokensOf? : List Char → Option (List Token)
  | [] => some []
  | c :: rest =>
    if isQuote c then
      match _h : splitQuote? c rest with
      | some (inside, after) => (tokensOf? after).map (.quoted (String.ofList inside) :: ·)
      | none => none
    else if c = ',' then (tokensOf? rest).map (.comma :: ·)
    else if c = '(' then (tokensOf? rest).map (.openParen :: ·)
    else if c = ')' then (tokensOf? rest).map (.closeParen :: ·)
    else if isBlank c then tokensOf? rest
    else
      (tokensOf? (rest.dropWhile isWordChar)).map
        (Token.ofWord (c :: rest.takeWhile isWordChar) :: ·)
termination_by s => s.length
decreasing_by
  · simp only [splitQuote?_eq_some _h, List.length_cons, List.length_append]
    omega
  all_goals simp only [List.length_cons]
  all_goals first
    | omega
    | exact Nat.lt_succ_of_le (length_dropWhile_le _ _)

/-- The tokens of the parameters of a `@use` directive; none if a quoted text is not closed. -/
def tokenize? (params : String) : Option (List Token) := tokensOf? params.toList

example : tokenize? "(.a as .b) from'./x'" = some [.openParen, .className "a", .asWord,
    .className "b", .closeParen, .fromWord, .quoted "./x"] := by decide +kernel

end Use
end ScopedCss
