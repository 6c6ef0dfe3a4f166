import ScopedCss.Table.Basic
import ScopedCss.Text.Word

/-!
# Camel case

For use as names in a script the dashed class names of a table are turned into camel case: dashes
before a word character are taken away and that character becomes a capital.

Two class names may become one name. The greater of them in the order of the table then keeps it,
and the `Collision` says what was lost.
-/

namespace ScopedCss
namespace Table

/-- The camel case of a text that comes after so many dashes. Dashes with no word character after
them stay. -/
def camelAfter : Nat → List Char → List Char
  | dashes, [] => List.replicate dashes '-'
  | dashes, c :: rest =>
    -- dashes are held back until it is clear whether a word character follows
    if c = '-' then camelAfter (dashes + 1) rest
    else if 0 < dashes ∧ Text.isWordChar c then c.toUpper :: camelAfter 0 rest
    else List.replicate dashes '-' ++ c :: camelAfter 0 rest

/-- The camel case of a class name. -/
def camelName (className : String) : String := String.ofList (camelAfter 0 className.toList)

/-- Two class names of a table have the same camel case: the name from `className` takes the place
of the scoped name `replaced`. -/
structure Collision where
  camel : String
  className : String
  replaced : String
  deriving DecidableEq

/-- Enter one class under its camel case name, noting what it takes the place of. -/
def addCamel (done : Table × List Collision) (pair : String × String) :
    Table × List Collision :=
  let camel := camelName pair.1
  let collisions := match done.1.get? camel with
    | some replaced => done.2 ++ [⟨camel, pair.1, replaced⟩]
    | none => done.2
  (done.1.bind camel pair.2, collisions)

/-- The table under the camel case of its class names, and the collisions in the order of the
table. -/
def camelCase (t : Table) : Table × List Collision := t.toList.foldl addCamel (∅, [])

example : camelName "--my-class_-name-" = "MyClass_Name-" := by decide +kernel

end Table
end ScopedCss
