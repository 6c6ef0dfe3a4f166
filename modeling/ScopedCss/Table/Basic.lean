import ScopedCss.Name.Generator
import Std.Data.ExtTreeMap

/-!
# Translation tables

A table gives each class name of one file its scoped name. It is ordered by class name, code point
by code point. Within a table a class name never changes its scoped name by itself: `translate`
makes a name at the first request and gives the same one back ever after; only `bind` replaces.
-/

namespace ScopedCss

/-- The scoped names of the classes of one file. -/
structure Table where
  names : Std.ExtTreeMap String String
  deriving DecidableEq

namespace Table

instance : EmptyCollection Table := ⟨⟨∅⟩⟩

instance : Inhabited Table := ⟨∅⟩

/-- The scoped name of a class. -/
def get? (t : Table) (className : String) : Option String := t.names[className]?

/-- The class has a scoped name. -/
def contains (t : Table) (className : String) : Bool := t.names.contains className

/-- The number of classes that have a scoped name. -/
def size (t : Table) : Nat := t.names.size

/-- No class has a scoped name. -/
def isEmpty (t : Table) : Bool := t.names.isEmpty

/-- The classes with their scoped names, in the order of the class names. -/
def toList (t : Table) : List (String × String) := t.names.toList

/-- Give a label a scoped name, in place of the one it may have. -/
def bind (t : Table) (label name : String) : Table := ⟨t.names.insert label name⟩

/-- The table of these pairs; of two pairs with one class the later counts. -/
def ofList (pairs : List (String × String)) : Table :=
  pairs.foldl (fun t pair => t.bind pair.1 pair.2) ∅

/-- The scoped name of a class and the table that holds it: the name it has, or else a generated
one. -/
def translate (t : Table) (generate : Name.Generator) (seed : Name.Seed) (className : String) :
    String × Table :=
  match t.get? className with
  | some name => (name, t)
  | none =>
    let name := generate className seed
    (name, t.bind className name)

/-! ### What the operations do to `get?` -/

theorem ext {s t : Table} (h : ∀ className, s.get? className = t.get? className) : s = t := by
  cases s
  cases t
  exact congrArg Table.mk (Std.ExtTreeMap.ext_getElem? fun {k} => h k)

@[simp] theorem get?_empty (className : String) : (∅ : Table).get? className = none :=
  Std.ExtTreeMap.getElem?_empty

theorem get?_bind (t : Table) (label name className : String) :
    (t.bind label name).get? className
      = if label = className then some name else t.get? className := by
  simp [bind, get?, Std.ExtTreeMap.getElem?_insert]

end Table
end ScopedCss
