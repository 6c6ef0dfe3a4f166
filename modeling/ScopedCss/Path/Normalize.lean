import ScopedCss.Path.Basic

/-!
# Normalized paths

Normalizing a path resolves its `..` names without looking at any file: a `..` takes away the name
before it, is dropped at the root, and stays at the start of a relative path.

* `Path.normalize` writes the result with single slashes and no filler.
* `Path.resolve` is the usual way to find the place that a declared path names.
-/

namespace ScopedCss
namespace Path

/-- Take one more step from the names walked so far, the last one first. -/
def step (rooted : Bool) (walked : List String) (name : String) : List String :=
  if name = ".." then
    match walked with
    -- the root is its own parent; above the start of a relative path there is a parent to keep
    | [] => if rooted then [] else [".."]
    | last :: before => if last = ".." then ".." :: walked else before
  else name :: walked

/-- The names that are left when every step has been taken. -/
def walk (rooted : Bool) (names : List String) : List String :=
  (names.foldl (step rooted) []).reverse

/-- The path with these names. -/
def ofNames (rooted : Bool) (names : List String) : Path :=
  ⟨(if rooted then "/" else "") ++ "/".intercalate names⟩

/-- The path to the same place without fillers and without a `..` that a name before it undoes. -/
def normalize (p : Path) : Path := ofNames p.isAbsolute (walk p.isAbsolute p.names)

/-- How a declared path is turned into the path that names the file, given the directory of the
document that declares it. -/
abbrev Resolver := String → Path → Path

/-- The declared path as seen from the document's directory, normalized. -/
def resolve : Resolver := fun declared dir => (dir.join ⟨declared⟩).normalize

example : normalize ⟨"./a/../../b//c/."⟩ = ⟨"../b/c"⟩ := by decide +kernel
example : resolve "../base.css" ⟨"/styles/app"⟩ = ⟨"/styles/base.css"⟩ := by decide +kernel

end Path
end ScopedCss
