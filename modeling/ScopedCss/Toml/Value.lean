import ScopedCss.Toml.Key

/-!
# TOML values

The values of a TOML document that options are written with: truth values, strings, arrays and
tables. Numbers and dates are not read, since no option is one.

A table remembers how it came about, since this decides what may still be added to it.
-/

namespace ScopedCss
namespace Toml

/-- How a table came about. -/
inductive Origin where
  /-- By the header of a table inside it. -/
  | implied
  /-- By a header of its own. -/
  | header
  /-- By the dots of a key. -/
  | dotted
  /-- In braces; nothing can be added to it. -/
  | inline
  deriving DecidableEq

/-- A TOML value. -/
inductive Value where
  | bool (value : Bool)
  | string (value : String)
  | array (values : List Value)
  | table (origin : Origin) (entries : List (String × Value))
  /-- An array whose elements are tables with headers of their own. -/
  | tables (elements : List (List (String × Value)))

/-- The entries of a table, in the order in which they were written. -/
abbrev Entries := List (String × Value)

namespace Entries

/-- The value of a key. -/
def get? (entries : Entries) (key : String) : Option Value := entries.lookup key

/-- Give a key a value, in place of the one it may have. -/
def set (entries : Entries) (key : String) (value : Value) : Entries :=
  if entries.any (·.1 == key) then
    entries.map fun entry => if entry.1 = key then (key, value) else entry
  else entries ++ [(key, value)]

/-- Add a value under a key with dots. A key cannot be given twice, and dots lead only into tables
that dots have made. -/
def insert? : Entries → List String → Value → Option Entries
  | _, [], _ => none
  | entries, [key], value =>
    match get? entries key with
    | none => some (entries ++ [(key, value)])
    | some _ => none
  | entries, key :: keys, value => do
    let inner ← match get? entries key with
      | none => some []
      | some (.table .dotted inner) => some inner
      | some _ => none
    return set entries key (.table .dotted (← insert? inner keys value))

end Entries

/-! ### Reading -/

mutual

/-- A value, after blanks. -/
def value (s : List Char) : Reading Value s :=
  (valueHere (dropBlanks s)).within id (length_dropBlanks_le s)
termination_by 4 * s.length + 1
decreasing_by
  have := length_dropBlanks_le s
  omega

/-- A value right at the start. -/
def valueHere (s : List Char) : Reading Value s :=
  match s with
  | 't' :: 'r' :: 'u' :: 'e' :: rest =>
    some (.bool true, (Rest.tail 't' ('r' :: 'u' :: 'e' :: rest)).drop 3)
  | 'f' :: 'a' :: 'l' :: 's' :: 'e' :: rest =>
    some (.bool false, (Rest.tail 'f' ('a' :: 'l' :: 's' :: 'e' :: rest)).drop 4)
  | '[' :: rest => (elements rest).after (.tail '[' rest) .array
  | '{' :: rest =>
    match inlineTable rest with
    | none => none
    | some (found, after) =>
      (found.foldlM (fun entries pair => Entries.insert? entries pair.1 pair.2) []).map
        fun entries => (.table .inline entries, (Rest.tail '{' rest).trans after)
  | s => (string? s).within .string (Nat.le_refl s.length)
termination_by 4 * s.length
decreasing_by all_goals
  simp only [List.length_cons]
  omega

/-- The elements of an array after its opening bracket or a comma, up to its closing bracket. -/
def elements (s : List Char) : Reading (List Value) s :=
  match signBelow? ']' s with
  | some after => some ([], after)
  | none =>
    match (value (dropAll s)).within id (length_dropAll_le s) with
    | none => none
    | some (first, rest) =>
      match signBelow? ',' rest.1, signBelow? ']' rest.1 with
      | some after, _ => (elements after.1).after (rest.trans after) (first :: ·)
      | none, some after => some ([first], rest.trans after)
      | none, none => none
termination_by 4 * s.length + 2
decreasing_by
  · have := length_dropAll_le s
    omega
  · have := (rest.trans after).2
    simp only [Rest.trans] at this
    omega

/-- The keys and values of a table in braces after its opening brace, up to the closing one. -/
def inlineTable (s : List Char) : Reading (List (List String × Value)) s :=
  match sign? '}' s with
  | some after => some ([], after)
  | none => pairs s
termination_by 4 * s.length + 2

/-- One or more keys and values with commas between them, up to a closing brace. -/
def pairs (s : List Char) : Reading (List (List String × Value)) s :=
  match key s with
  | none => none
  | some (key, atSign) =>
    match sign? '=' atSign.1 with
    | none => none
    | some atValue =>
      match (value atValue.1).after (atSign.trans atValue) (key, ·) with
      | none => none
      | some (first, rest) =>
        match sign? ',' rest.1, sign? '}' rest.1 with
        | some after, _ => (pairs after.1).after (rest.trans after) (first :: ·)
        | none, some after => some ([first], rest.trans after)
        | none, none => none
termination_by 4 * s.length + 1
decreasing_by
  · have := atSign.2
    have := atValue.2
    omega
  · have := rest.2
    have := after.2
    omega

end

end Toml
end ScopedCss
