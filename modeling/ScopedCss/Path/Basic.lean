/-!
# Paths

A path is a text with `/` between its names. Repeated slashes, a trailing slash and the name `.` say
nothing about the place a path names, except a `.` at its very start. Two paths therefore name the
same place when their *components* are equal, while a path keeps the text it was built from.

* `Path.components` is the view that equality of places goes by.
* `Path.join` and `Path.parent?` build one path from another.
-/

namespace ScopedCss

/-- A path, as it was written. -/
structure Path where
  text : String
  deriving DecidableEq, Inhabited

namespace Path

/-- The path without any name. -/
def empty : Path := ⟨""⟩

/-- A path is absolute if it starts with a slash. -/
def isAbsolute (p : Path) : Bool := p.text.toList.head? == some '/'

/-! ### Components -/

/-- A segment between two slashes that names no step: nothing at all, or a `.`. -/
def isFiller (segment : List Char) : Bool := segment.isEmpty || segment == ['.']

/-- The start of a text that is no ordinary segment, and the rest: the slash of an absolute path, or
a `.` that stands alone or before a slash. -/
def splitStart : List Char → List Char × List Char
  | '/' :: rest => (['/'], rest)
  | ['.'] => (['.'], [])
  | '.' :: '/' :: rest => (['.'], '/' :: rest)
  | s => ([], s)

/-- The names of a path, without fillers; `..` is a name. -/
def names (p : Path) : List String :=
  (((splitStart p.text.toList).2.splitOn '/').filter (!isFiller ·)).map String.ofList

/-- The components of a path: its start, if it has one, then its names. -/
def components (p : Path) : List String :=
  match (splitStart p.text.toList).1 with
  | [] => p.names
  | start => String.ofList start :: p.names

/-- Two paths name the same place. -/
abbrev SamePlace (p q : Path) : Prop := p.components = q.components

/-! ### Joining and parents -/

/-- The place `p` as seen from the directory `dir`: an absolute path stands for itself. -/
def join (dir p : Path) : Path :=
  if p.isAbsolute then p
  else if dir.text.isEmpty || dir.text.toList.getLast? == some '/' then ⟨dir.text ++ p.text⟩
  else ⟨dir.text ++ "/" ++ p.text⟩

/-- The directory of a path: the text before its last name, without the fillers that end it. The
root and the empty path are in no directory. -/
def parent? (p : Path) : Option Path :=
  let (start, body) := splitStart p.text.toList
  match (body.splitOn '/').reverse.dropWhile isFiller with
  | [] => if start = ['.'] then some empty else none
  | _ :: above =>
    some ⟨String.ofList (start ++ ['/'].intercalate (above.dropWhile isFiller).reverse)⟩

/-- The directory of a path, or the empty path. -/
def directory (p : Path) : Path := p.parent?.getD empty

example : components ⟨"./a//b/./c/"⟩ = [".", "a", "b", "c"] := by decide +kernel
example : components ⟨"//s/../a"⟩ = ["/", "s", "..", "a"] := by decide +kernel
example : parent? ⟨"/s//a.css/."⟩ = some ⟨"/s"⟩ := by decide +kernel
example : parent? ⟨"a.css"⟩ = some empty ∧ parent? ⟨"/."⟩ = none := by decide +kernel

end Path
end ScopedCss
