import ScopedCss.Error
import Std.Data.ExtTreeMap

/-!
# A tree of files

The files that documents and options are read from, held in memory. A place in the tree is the names
that lead to it: from the working directory, above which there are only the directories that `..`
leads to, or from the root, which is written `/`. Paths are followed name by name, so a `..` counts
only behind a directory that is there.
-/

namespace ScopedCss

/-- What a name in the tree stands for. -/
inductive FileNode where
  | directory
  | file (content : ByteArray)

/-- A tree of files: what stands at a place, given by the names that lead to it from the outermost
on. The root, the working directory and the directories above it are always there. -/
structure Files where
  nodes : Std.ExtTreeMap (List String) FileNode

namespace Files

instance : EmptyCollection Files := ⟨⟨∅⟩⟩

/-- The text between two slashes, each of them. -/
def segments (path : Path) : List String := (path.text.toList.splitOn '/').map String.ofList

/-- The place where a path begins. -/
def origin (path : Path) : List String := if path.isAbsolute then ["/"] else []

/-- The directory above a place, which is given with its last name first. The root is above
itself. -/
def above : List String → List String
  | [] => [".."]
  | ["/"] => ["/"]
  | last :: place => if last = ".." then ".." :: last :: place else place

/-- Follow segments from a directory, which is given with its last name first. -/
def follow (files : Files) (place : List String) : List String → Except ReadFault FileNode
  | [] => .ok .directory
  | segment :: segments =>
    if segment = "" ∨ segment = "." then files.follow place segments
    else if segment = ".." then files.follow (above place) segments
    else
      match files.nodes[(segment :: place).reverse]? with
      | none => .error .notFound
      | some .directory => files.follow (segment :: place) segments
      | some (.file content) =>
        if segments.isEmpty then .ok (.file content) else .error .notADirectory

/-- The text of a file. The empty path leads nowhere. -/
def read (files : Files) (path : Path) : Except ReadFault String := do
  if path.text.isEmpty then throw .notFound
  match ← files.follow (origin path) (segments path) with
  | .directory => throw .isADirectory
  | .file content =>
    match String.fromUTF8? content with
    | some text => return text
    | none => throw .invalidText

/-- Make the directory with these names, unless there is something already. -/
def makeDirectory (files : Files) (place : List String) : Files :=
  if files.nodes.contains place then files else ⟨files.nodes.insert place .directory⟩

/-- Write a file at the end of these names, making the directories that lead to it. The place where
the names begin is given with its last name first. -/
def writeAt (files : Files) (content : ByteArray) (place : List String) : List String → Files
  | [] => files
  | [name] => ⟨files.nodes.insert (name :: place).reverse (.file content)⟩
  | name :: names =>
    if name = ".." then files.writeAt content (above place) names
    else (files.makeDirectory (name :: place).reverse).writeAt content (name :: place) names

/-- Write a file, making the directories that lead to it. -/
def write (files : Files) (path : Path) (content : ByteArray) : Files :=
  files.writeAt content (origin path) path.names

end Files
end ScopedCss
