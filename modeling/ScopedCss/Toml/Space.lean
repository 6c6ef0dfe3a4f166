import ScopedCss.Toml.Rest

/-!
# Blanks, comments and signs

What separates the keys and values of a TOML document. Within a line these are blanks; in an array
they may be ends of lines and comments as well.
-/

namespace ScopedCss
namespace Toml

/-- A blank within a line. -/
def isBlank (c : Char) : Bool := c == ' ' || c == '\t'

/-- A character that may stand in comments and strings: no control character but the tabulator. -/
def isPlain (c : Char) : Bool := c == '\t' || (0x20 ≤ c.toNat && c.toNat != 0x7F)

/-- The text without the blanks at its start. -/
def dropBlanks (s : List Char) : List Char := s.dropWhile isBlank

/-- The text without a comment at its start. -/
def dropComment : List Char → List Char
  | '#' :: rest => rest.dropWhile isPlain
  | s => s

/-- What is left after the end of a line: a line feed, with or without a carriage return. -/
def newline? (s : List Char) : Option (Rest s) :=
  match s with
  | '\n' :: rest => some (.tail '\n' rest)
  | '\r' :: '\n' :: rest => some ((Rest.tail '\r' ('\n' :: rest)).trans (.tail '\n' rest))
  | _ => none

theorem length_dropBlanks_le (s : List Char) : (dropBlanks s).length ≤ s.length :=
  (List.dropWhile_sublist _).length_le

theorem length_dropComment_le (s : List Char) : (dropComment s).length ≤ s.length := by
  unfold dropComment
  split
  · exact Nat.le_succ_of_le (List.dropWhile_sublist _).length_le
  · exact Nat.le_refl _

/-- The text without the blanks and ends of lines at its start. -/
def dropSpace (s : List Char) : List Char :=
  match newline? (dropBlanks s) with
  | some rest => dropSpace rest.1
  | none => dropBlanks s
termination_by s.length
decreasing_by exact Nat.lt_of_lt_of_le rest.2 (length_dropBlanks_le s)

/-- The text without the blanks and the comment that may end a line. -/
def dropTail (s : List Char) : List Char := dropComment (dropBlanks s)

theorem length_dropTail_le (s : List Char) : (dropTail s).length ≤ s.length :=
  Nat.le_trans (length_dropComment_le _) (length_dropBlanks_le s)

/-- The text without the blanks, ends of lines and comments at its start. -/
def dropAll (s : List Char) : List Char :=
  match newline? (dropTail s) with
  | some rest => dropAll rest.1
  | none => dropTail s
termination_by s.length
decreasing_by exact Nat.lt_of_lt_of_le rest.2 (length_dropTail_le s)

theorem length_dropSpace_le (s : List Char) : (dropSpace s).length ≤ s.length := by
  fun_induction dropSpace s with
  | case1 s rest _ ih =>
    have := rest.2
    have := length_dropBlanks_le s
    omega
  | case2 s => exact length_dropBlanks_le s

/-- What is left after blanks and ends of lines as well. -/
def Rest.dropSpace {s : List Char} (rest : Rest s) : Rest s :=
  ⟨Toml.dropSpace rest.1, Nat.lt_of_le_of_lt (length_dropSpace_le rest.1) rest.2⟩

theorem length_dropAll_le (s : List Char) : (dropAll s).length ≤ s.length := by
  fun_induction dropAll s with
  | case1 s rest _ ih =>
    have := rest.2
    have := length_dropTail_le s
    omega
  | case2 s => exact length_dropTail_le s

/-- What is left after a sign. -/
def signHere? (sign : Char) (s : List Char) : Option (Rest s) :=
  match s with
  | c :: rest => if c = sign then some (.tail c rest) else none
  | [] => none

/-- What is left after blanks and a sign. -/
def sign? (sign : Char) (s : List Char) : Option (Rest s) :=
  (signHere? sign (dropBlanks s)).map (.ofLe (length_dropBlanks_le s))

/-- What is left after a sign that may stand on a later line. -/
def signBelow? (sign : Char) (s : List Char) : Option (Rest s) :=
  (sign? sign (dropAll s)).map (.ofLe (length_dropAll_le s))

end Toml
end ScopedCss
