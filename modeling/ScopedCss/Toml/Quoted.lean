import ScopedCss.Toml.Space

/-!
# Strings in TOML

A string is basic, with escapes, or literal, without; either may go over several lines between three
quotes. The readers take the text after the opening quotes.
-/

namespace ScopedCss
namespace Toml

/-! ### Escapes -/

/-- The value of a hexadecimal digit. -/
def hexValue? (c : Char) : Option Nat :=
  if c.isDigit then some (c.toNat - '0'.toNat)
  else if 'a' ≤ c ∧ c ≤ 'f' then some (c.toNat - 'a'.toNat + 10)
  else if 'A' ≤ c ∧ c ≤ 'F' then some (c.toNat - 'A'.toNat + 10)
  else none

/-- The character with the code point that exactly so many hexadecimal digits spell. -/
def codePoint? (digits : Nat) (s : List Char) : Option Char := do
  let values ← (s.take digits).mapM hexValue?
  guard (values.length = digits)
  let value := values.foldl (fun value digit => value * 16 + digit) 0
  if value.isValidChar then return Char.ofNat value else none

/-- The character that an escape stands for, from the text after the backslash. -/
def escape? (s : List Char) : Reading Char s :=
  match s with
  | [] => none
  | c :: rest =>
    let simple (d : Char) : Reading Char (c :: rest) := some (d, .tail c rest)
    let coded (digits : Nat) : Reading Char (c :: rest) :=
      (codePoint? digits rest).map fun d => (d, (Rest.tail c rest).drop digits)
    match c with
    | 'b' => simple '\x08'
    | 't' => simple '\t'
    | 'n' => simple '\n'
    | 'f' => simple '\x0C'
    | 'r' => simple '\r'
    | '"' => simple '"'
    | '\\' => simple '\\'
    | 'u' => coded 4
    | 'U' => coded 8
    | _ => none

/-! ### Strings -/

/-- A basic string. -/
def basic (s : List Char) : Reading (List Char) s :=
  match s with
  | [] => none
  | '"' :: rest => some ([], .tail '"' rest)
  | '\\' :: rest =>
    match escape? rest with
    | some (c, after) => (basic after.1).after ((Rest.tail '\\' rest).trans after) (c :: ·)
    | none => none
  | c :: rest => if isPlain c then (basic rest).after (.tail c rest) (c :: ·) else none
termination_by s.length
decreasing_by
  · have := after.2
    simp only [List.length_cons]
    omega
  · simp

/-- A literal string. -/
def literal (s : List Char) : Reading (List Char) s :=
  match s with
  | [] => none
  | '\'' :: rest => some ([], .tail '\'' rest)
  | c :: rest => if isPlain c then (literal rest).after (.tail c rest) (c :: ·) else none

/-- The quotes that end a string of several lines. Up to two of them still belong to its text. -/
def closing? (quote : Char) (s : List Char) : Reading (List Char) s :=
  match s with
  | a :: b :: c :: rest =>
    if a = quote ∧ b = quote ∧ c = quote then
      let kept := (rest.take 2).takeWhile (· == quote)
      some (kept, (Rest.tail a (b :: c :: rest)).drop (2 + kept.length))
    else none
  | _ => none

/-- One character of a string of several lines, or the end of a line, which becomes a line feed. -/
def lineChar? (s : List Char) : Reading Char s :=
  match newline? s with
  | some rest => some ('\n', rest)
  | none =>
    match s with
    | c :: rest => if isPlain c then some (c, .tail c rest) else none
    | [] => none

/-- What is left after a backslash at the end of a line: the blanks and ends of lines that follow
are dropped as well. -/
def joint? (s : List Char) : Option (Rest s) :=
  match s with
  | '\\' :: rest =>
    (newline? (dropBlanks rest)).map fun after =>
      ((Rest.tail '\\' rest).trans (after.ofLe (length_dropBlanks_le rest))).dropSpace
  | _ => none

/-- One character of a basic string of several lines: an escape, or the character itself. -/
def basicChar? (s : List Char) : Reading Char s :=
  match s with
  | '\\' :: rest => (escape? rest).after (.tail '\\' rest) id
  | s => lineChar? s

/-- A basic string of several lines. -/
def basicLines (s : List Char) : Reading (List Char) s :=
  match closing? '"' s with
  | some found => some found
  | none =>
    match joint? s with
    | some after => (basicLines after.1).after after id
    | none =>
      match basicChar? s with
      | some (c, after) => (basicLines after.1).after after (c :: ·)
      | none => none
termination_by s.length
decreasing_by all_goals exact after.2

/-- A literal string of several lines. -/
def literalLines (s : List Char) : Reading (List Char) s :=
  match closing? '\'' s with
  | some found => some found
  | none =>
    match lineChar? s with
    | some (c, after) => (literalLines after.1).after after (c :: ·)
    | none => none
termination_by s.length
decreasing_by exact after.2

/-- A text without the end of a line right at its start. -/
def dropFirstNewline (s : List Char) : List Char :=
  match newline? s with
  | some rest => rest.1
  | none => s

theorem length_dropFirstNewline_le (s : List Char) : (dropFirstNewline s).length ≤ s.length := by
  unfold dropFirstNewline
  split
  · next rest _ => exact Nat.le_of_lt rest.2
  · exact Nat.le_refl _

/-- A string of any kind. -/
def string? (s : List Char) : Reading String s :=
  match s with
  | '"' :: '"' :: '"' :: rest =>
    ((basicLines (dropFirstNewline rest)).within id (length_dropFirstNewline_le rest)).after
      ((Rest.tail '"' ('"' :: '"' :: rest)).drop 2) String.ofList
  | '\'' :: '\'' :: '\'' :: rest =>
    ((literalLines (dropFirstNewline rest)).within id (length_dropFirstNewline_le rest)).after
      ((Rest.tail '\'' ('\'' :: '\'' :: rest)).drop 2) String.ofList
  | '"' :: rest => (basic rest).after (.tail '"' rest) String.ofList
  | '\'' :: rest => (literal rest).after (.tail '\'' rest) String.ofList
  | _ => none

end Toml
end ScopedCss
