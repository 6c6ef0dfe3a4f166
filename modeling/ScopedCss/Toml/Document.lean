import ScopedCss.Toml.Value

/-!
# TOML documents

A document is a table. Its lines add entries to the table at hand, which is the whole document at
first, or open another table with a header: `[a.b]` a table of its own, `[[a.b]]` one more element
of an array of tables. A table is opened at most once, though after tables inside it.
-/

namespace ScopedCss
namespace Toml

namespace Entries

/-- Change the entries of the table that a path leads to, making the tables on the way that are not
there yet. A path goes into the last element of an array of tables. -/
def modify? (entries : Entries) (path : List String) (change : Entries → Option Entries) :
    Option Entries :=
  match path with
  | [] => change entries
  | key :: path =>
    match entries.get? key with
    | none => do return entries.set key (.table .implied (← modify? [] path change))
    | some (.table .inline _) => none
    | some (.table origin inner) => do
      return entries.set key (.table origin (← modify? inner path change))
    | some (.tables elements) => do
      let last ← elements.getLast?
      return entries.set key (.tables (elements.dropLast ++ [← modify? last path change]))
    | some _ => none

/-- Open the table with this header. -/
def openTable? (root : Entries) (header : List String) : Option Entries := do
  let name ← header.getLast?
  root.modify? header.dropLast fun entries =>
    match entries.get? name with
    | none => some (entries.set name (.table .header []))
    -- only headers of tables inside it have led here so far
    | some (.table .implied inner) => some (entries.set name (.table .header inner))
    | some _ => none

/-- Open one more element of the array of tables with this header. -/
def openElement? (root : Entries) (header : List String) : Option Entries := do
  let name ← header.getLast?
  root.modify? header.dropLast fun entries =>
    match entries.get? name with
    | none => some (entries.set name (.tables [[]]))
    | some (.tables elements) => some (entries.set name (.tables (elements ++ [[]])))
    | some _ => none

end Entries

/-! ### Lines -/

/-- A line of a document. -/
inductive Line where
  | table (header : List String)
  | element (header : List String)
  | entry (key : List String) (value : Value)
  | nothing

/-- The table so far, and the header of the table at hand. -/
structure Draft where
  root : Entries
  header : List String

/-- Take one line more. -/
def Draft.add? (draft : Draft) : Line → Option Draft
  | .table header => (draft.root.openTable? header).map (⟨·, header⟩)
  | .element header => (draft.root.openElement? header).map (⟨·, header⟩)
  | .entry key value =>
    (draft.root.modify? draft.header (·.insert? key value)).map (⟨·, draft.header⟩)
  | .nothing => some draft

/-- A line in brackets, after the brackets that open it, and the text after the `closing + 1`
brackets that close it. -/
def header? (s : List Char) (closing : Nat) : Reading (List String) s :=
  match key s with
  | none => none
  | some (header, rest) =>
    match sign? ']' rest.1 with
    | none => none
    | some rest' =>
      if (List.replicate closing ']').isPrefixOf rest'.1 then
        some (header, (rest.trans rest').drop closing)
      else none

/-- An entry, and the text after it. -/
def entryLine? (s : List Char) : Reading Line s :=
  match key s with
  | none => none
  | some (key, rest) =>
    match sign? '=' rest.1 with
    | none => none
    | some rest' => (value rest'.1).after (rest.trans rest') (.entry key)

/-- A line, and the text from its end on. It may have nothing in it. -/
def line? (s : List Char) : Option (Line × List Char) :=
  match s with
  | [] => some (.nothing, [])
  | '[' :: '[' :: rest => (header? rest 1).map fun parts => (.element parts.1, parts.2.1)
  | '[' :: rest => (header? rest 0).map fun parts => (.table parts.1, parts.2.1)
  | c :: rest =>
    if c = '#' ∨ c = '\n' ∨ c = '\r' then some (.nothing, c :: rest)
    else (entryLine? (c :: rest)).map fun parts => (parts.1, parts.2.1)

theorem length_line?_le {s rest : List Char} {line : Line} (h : line? s = some (line, rest)) :
    rest.length ≤ s.length := by
  unfold line? at h
  split at h
  · cases h
    exact Nat.le_refl _
  · obtain ⟨parts, -, heq⟩ := Option.map_eq_some_iff.1 h
    cases heq
    have := parts.2.2
    simp only [List.length_cons]
    omega
  · obtain ⟨parts, -, heq⟩ := Option.map_eq_some_iff.1 h
    cases heq
    have := parts.2.2
    simp only [List.length_cons]
    omega
  · split at h
    · cases h
      exact Nat.le_refl _
    · obtain ⟨parts, -, heq⟩ := Option.map_eq_some_iff.1 h
      cases heq
      exact Nat.le_of_lt parts.2.2

/-- The text after a line that ends here, after blanks and a comment; none if something else is
left of the line. The last line has no text after it. -/
def afterLine? (s : List Char) : Option (Option (Rest s)) :=
  if (dropTail s).isEmpty then some none
  else (newline? (dropTail s)).map fun after => some (after.ofLe (length_dropTail_le s))

/-- Take the lines of a text into the draft. -/
def lines? (draft : Draft) (s : List Char) : Option Draft :=
  match _h : line? (dropBlanks s) with
  | none => none
  | some (line, rest) =>
    match draft.add? line, afterLine? rest with
    | some draft, some none => some draft
    | some draft, some (some after) => lines? draft after.1
    | _, _ => none
termination_by s.length
decreasing_by
  have := length_dropBlanks_le s
  have := length_line?_le _h
  have := after.2
  omega

/-- The text without a byte order mark at its start. -/
def dropMark : List Char → List Char
  | '\uFEFF' :: rest => rest
  | s => s

/-- The entries of a TOML document; none if it is malformed, or has a value that is not read. -/
def parse? (text : String) : Option Entries :=
  (lines? ⟨[], []⟩ (dropMark text.toList)).map Draft.root

end Toml
end ScopedCss
