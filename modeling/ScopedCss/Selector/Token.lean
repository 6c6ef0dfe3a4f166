/-!
# The pieces of a selector

A selector is cut into the pieces that matter for scoping: commas, blanks, classes, scope markers
and composition references. Everything else (type selectors, ids, pseudo-classes, combinators,
attribute selectors, quoted texts) is raw text.

`Token.source` writes a piece as it stands in the selector.
-/

namespace ScopedCss
namespace Selector

/-- Whether class names are replaced by their scoped names or stay as they are. -/
inductive Scope where
  | localScope
  | globalScope
  deriving DecidableEq, Inhabited

/-- The name of a scope in its marker. -/
def Scope.name : Scope → String
  | .localScope => "local"
  | .globalScope => "global"

/-- The scope with this name. -/
def Scope.ofName? (name : String) : Option Scope :=
  if name = "local" then some .localScope
  else if name = "global" then some .globalScope
  else none

/-- A reference `aliasName::remote` to the class `remote` of the file that `aliasName` was imported
for. It may follow a dot and may stand in parentheses. -/
structure Composition where
  dotted : Bool
  aliasName : String
  remote : String
  parenthesized : Bool
  deriving DecidableEq

/-- A composition reference as it is written. -/
def Composition.source (c : Composition) : List Char :=
  (if c.parenthesized then ['('] else []) ++ (if c.dotted then ['.'] else [])
    ++ c.aliasName.toList ++ [':', ':'] ++ c.remote.toList
    ++ (if c.parenthesized then [')'] else [])

/-- A piece of a selector. -/
inductive Token where
  /-- The comma between two selectors. -/
  | comma
  /-- A run of blanks. -/
  | blank (text : String)
  /-- A class, written with a dot in front. -/
  | className (name : String)
  /-- A marker without parentheses, for the rest of the selector. -/
  | marker (scope : Scope)
  /-- A marker with the text in its parentheses, for that text only. -/
  | within (scope : Scope) (content : String)
  /-- A reference to a class of another file. -/
  | composition (reference : Composition)
  /-- A text that means nothing for scoping. -/
  | raw (text : String)
  deriving DecidableEq

/-- A piece as it stands in the selector. -/
def Token.source : Token → List Char
  | .comma => [',']
  | .blank text => text.toList
  | .className name => '.' :: name.toList
  | .marker scope => ':' :: scope.name.toList
  | .within scope content => ':' :: scope.name.toList ++ '(' :: content.toList ++ [')']
  | .composition reference => reference.source
  | .raw text => text.toList

end Selector
end ScopedCss
