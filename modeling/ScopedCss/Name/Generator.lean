import ScopedCss.Name.Base36
import ScopedCss.Name.Hash
import ScopedCss.Path.Basic

/-!
# Scoped names

A scoped name replaces a class name in the output, so that equal class names of two files do not
meet. A *generator* makes it from the class name and a *seed* that says which file owns the class.

The built-in generators write `_class_xxxxx_yyyyy`. Which part of the seed sets the files apart is
their `Naming`: the path, or the source text where it is known.
-/

namespace ScopedCss
namespace Name

/-- The file that owns a class. The source is empty for a file that has not been read yet. -/
structure Seed where
  path : Path
  source : String
  deriving DecidableEq

/-- A way to make a scoped name from a class name and the owner's seed. -/
abbrev Generator := String → Seed → String

/-- The part of the seed that the built-in names are made from. -/
inductive Naming where
  | path
  | content
  deriving DecidableEq, Inhabited

/-- The path as it enters a name: with slashes only, so that names agree between systems. -/
def slashed (p : Path) : String := p.text.map fun c => if c = '\\' then '/' else c

/-- `_class_f_c`, where `f` is a segment of the hash of the path and `c` one of the hash of
`class:path`. -/
def pathName (className : String) (p : Path) : String :=
  let file := slashed p
  "_" ++ className ++ "_" ++ segment (hash file) ++ "_" ++ segment (hash (className ++ ":" ++ file))

/-- The text before the first place where `needle` stands. -/
def textBefore? (needle : List Char) : List Char → Option (List Char)
  | [] => if needle.isEmpty then some [] else none
  | c :: rest =>
    if needle.isPrefixOf (c :: rest) then some []
    else (textBefore? needle rest).map (c :: ·)

/-- The line, from 1, of the first `.class` in the source, each line feed and each carriage return
ending a line; 1 if there is none. -/
def firstLine (className source : String) : Nat :=
  match textBefore? ('.' :: className.toList) source.toList with
  | some before => before.countP (fun c => c == '\r' || c == '\n') + 1
  | none => 1

/-- `_class_h_l`, where `h` is the start of the hash of the source and `l` the line of the first
use of the class. -/
def contentName (className source : String) : String :=
  "_" ++ className ++ "_"
    ++ String.ofList ((digits36 (hash source).toNat).take segmentWidth)
    ++ "_" ++ toString (firstLine className source)

/-- The built-in generator for a naming. A file whose source is not known is named by its path. -/
def Naming.generate : Naming → Generator
  | .path, className, seed => pathName className seed.path
  | .content, className, seed =>
    if seed.source.isEmpty then pathName className seed.path
    else contentName className seed.source

end Name
end ScopedCss
