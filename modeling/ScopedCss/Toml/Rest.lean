/-!
# What is left of a text

Every reader of a TOML document takes something from the start of a text and gives back what is left
as a `Rest`, which is shorter by its type. The operations on rests and readings carry the proofs of
this, so that a reader that is put together from others needs none of its own.
-/

namespace ScopedCss
namespace Toml

/-- What is left of a text after something was taken from it. -/
abbrev Rest (s : List Char) := { r : List Char // r.length < s.length }

/-- What is left of the end of a text is left of the text. -/
def Rest.ofLe {s t : List Char} (h : t.length ≤ s.length) (rest : Rest t) : Rest s :=
  ⟨rest.1, Nat.lt_of_lt_of_le rest.2 h⟩

/-- What is left after the first character. -/
def Rest.tail (c : Char) (s : List Char) : Rest (c :: s) := ⟨s, Nat.lt_succ_self _⟩

/-- What is left of a rest is left of the text. -/
def Rest.trans {s : List Char} (rest : Rest s) (rest' : Rest rest.1) : Rest s :=
  ⟨rest'.1, Nat.lt_trans rest'.2 rest.2⟩

/-- What is left after so many more characters. -/
def Rest.drop {s : List Char} (rest : Rest s) (n : Nat) : Rest s :=
  ⟨rest.1.drop n, Nat.lt_of_le_of_lt (List.drop_sublist n rest.1).length_le rest.2⟩

/-- A reader of something, for a given text. -/
abbrev Reading (α : Type) (s : List Char) := Option (α × Rest s)

/-- What was read at the end of a text, for the whole text. -/
def Reading.within {α β : Type} {s t : List Char} (f : α → β) (h : t.length ≤ s.length)
    (reading : Reading α t) : Reading β s :=
  reading.map fun parts => (f parts.1, parts.2.ofLe h)

/-- What was read from a rest, for the whole text. -/
def Reading.after {α β : Type} {s : List Char} (rest : Rest s) (f : α → β)
    (reading : Reading α rest.1) : Reading β s :=
  reading.map fun parts => (f parts.1, rest.trans parts.2)

end Toml
end ScopedCss
