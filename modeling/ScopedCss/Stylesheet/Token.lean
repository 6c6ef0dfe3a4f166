import ScopedCss.Stylesheet.Token.Number
import ScopedCss.Stylesheet.Token.Quoted

/-!
# The tokens of a stylesheet

A stylesheet is split into blocks without a look at what stands in them. For this the tokens matter
that open or close a block, end a statement or begin an at-rule; of all others only where they end
matters, since a brace inside a string, a url or a comment is none.

* `token_suffix`: a token takes at least the character it begins with.
-/

namespace ScopedCss
namespace Stylesheet

/-- The kinds of brackets. -/
inductive Bracket where
  | round
  | square
  | curly
  deriving DecidableEq

/-- A token, as far as it matters for the structure of a stylesheet. -/
inductive Token where
  /-- A separator or a comment. -/
  | blank
  /-- An at sign and the identifier after it. -/
  | atKeyword (name : String)
  | semicolon
  /-- An opening bracket, or a function name with its parenthesis. -/
  | opening (bracket : Bracket)
  | closing (bracket : Bracket)
  | other
  deriving DecidableEq

/-- The identifier is `url`, in capitals or not. -/
def isUrlName (identifier : List Char) : Bool := identifier.map Char.toLower == ['u', 'r', 'l']

/-- The text after `url(` begins with a quote, so that it is an ordinary function. -/
def startsQuotedUrl (s : List Char) : Bool :=
  match s.dropWhile isSpace with
  | c :: _ => c == '"' || c == '\''
  | [] => false

/-- The token that ends with an identifier or with what its parenthesis opens. -/
def nameToken (s : List Char) : Token × List Char :=
  match name s with
  | (identifier, '(' :: inside) =>
    if isUrlName identifier && !startsQuotedUrl inside then
      (.other, afterUrl (inside.dropWhile isSpace))
    else (.opening .round, inside)
  | (_, after) => (.other, after)

/-- The token of a hash sign: an identifier may follow, and it may begin with a digit. -/
def hashToken (rest : List Char) : Token × List Char :=
  if startsName rest || startsDigit rest || rest.head? == some '-' then (.other, (name rest).2)
  else (.other, rest)

/-- The token of an at sign. -/
def atToken (rest : List Char) : Token × List Char :=
  if startsName rest then (.atKeyword (String.ofList (name rest).1), (name rest).2)
  else (.other, rest)

/-- A token made of several signs, or of the first sign alone. -/
def signToken (c : Char) (rest : List Char) : Token × List Char :=
  match c, rest with
  | '-', '-' :: '>' :: after => (.other, after)
  | '<', '!' :: '-' :: '-' :: after => (.other, after)
  | '/', '*' :: after => (.blank, afterComment after)
  | _, _ => (.other, rest)

/-- The token that begins with an ordinary character: a number, an identifier, or a sign. -/
def wordToken (c : Char) (rest : List Char) : Token × List Char :=
  if startsNumber (c :: rest) then (.other, afterNumber (c :: rest))
  -- the arrow comes before identifiers, which two dashes could begin as well
  else if c = '-' ∧ ['-', '>'].isPrefixOf rest then signToken c rest
  else if startsName (c :: rest) then nameToken (c :: rest)
  else signToken c rest

/-- The first token of a text that begins with `c`, and the rest. -/
def token (c : Char) (rest : List Char) : Token × List Char :=
  if isSpace c then (.blank, rest)
  else
    match c with
    | ';' => (.semicolon, rest)
    | '(' => (.opening .round, rest)
    | '[' => (.opening .square, rest)
    | '{' => (.opening .curly, rest)
    | ')' => (.closing .round, rest)
    | ']' => (.closing .square, rest)
    | '}' => (.closing .curly, rest)
    | '"' => (.other, afterString '"' rest)
    | '\'' => (.other, afterString '\'' rest)
    | '#' => hashToken rest
    | '@' => atToken rest
    | c => wordToken c rest

/-! ### What is left -/

theorem nameToken_suffix {c : Char} {rest : List Char} (h : startsName (c :: rest)) :
    (nameToken (c :: rest)).2 <:+ rest := by
  have hname := name_suffix_tail h
  unfold nameToken
  split
  · next hsplit =>
    rw [hsplit] at hname
    have hinside := (List.suffix_cons _ _).trans hname
    split
    · exact ((afterUrl_suffix _).trans (List.dropWhile_suffix _)).trans hinside
    · exact hinside
  · next hsplit =>
    rw [hsplit] at hname
    exact hname

theorem hashToken_suffix (rest : List Char) : (hashToken rest).2 <:+ rest := by
  unfold hashToken
  split
  · exact name_suffix rest
  · exact List.suffix_refl _

theorem atToken_suffix (rest : List Char) : (atToken rest).2 <:+ rest := by
  unfold atToken
  split
  · exact name_suffix rest
  · exact List.suffix_refl _

theorem signToken_suffix (c : Char) (rest : List Char) : (signToken c rest).2 <:+ rest := by
  unfold signToken
  split
  · exact ⟨['-', '>'], rfl⟩
  · exact ⟨['!', '-', '-'], rfl⟩
  · exact (afterComment_suffix _).trans (List.suffix_cons _ _)
  · exact List.suffix_refl _

theorem wordToken_suffix (c : Char) (rest : List Char) : (wordToken c rest).2 <:+ rest := by
  unfold wordToken
  split
  · next h => exact afterNumber_suffix_tail h
  · split
    · exact signToken_suffix c rest
    · split
      · next h => exact nameToken_suffix h
      · exact signToken_suffix c rest

/-- A token takes at least the character it begins with. -/
theorem token_suffix (c : Char) (rest : List Char) : (token c rest).2 <:+ rest := by
  unfold token
  repeat' split
  all_goals first
    | exact List.suffix_refl _
    | exact afterString_suffix _ _
    | exact hashToken_suffix _
    | exact atToken_suffix _
    | exact wordToken_suffix _ _

theorem length_token_lt (c : Char) (rest : List Char) :
    (token c rest).2.length < (c :: rest).length :=
  Nat.lt_succ_of_le (token_suffix c rest).length_le

end Stylesheet
end ScopedCss
