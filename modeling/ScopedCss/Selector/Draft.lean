import ScopedCss.Selector.Token
import ScopedCss.Text.Blank

/-!
# The rewritten selector as it grows

A rule has several selectors with commas between them, its *branches*. They are rewritten from left
to right: `Draft` holds the branches that are done, the text of the one at hand, and the scope in
force there. A branch that is left without any text, because it held only a marker, is dropped
together with its comma.
-/

namespace ScopedCss
namespace Selector

open Text

/-- A partly rewritten selector. -/
structure Draft where
  /-- The branches that are done and kept. -/
  kept : List String
  /-- The branch at hand, so far. -/
  branch : String
  /-- The scope in force. -/
  scope : Scope
  /-- A blank that comes next was left behind by a marker and is dropped. -/
  skipBlank : Bool
  deriving DecidableEq

namespace Draft

/-- Nothing is written yet. -/
def start (scope : Scope) : Draft := ⟨[], "", scope, false⟩

/-- The branch at hand has no text. -/
def isBlank (d : Draft) : Bool := isBlankText d.branch.toList

/-- The last character of the branch at hand is a blank. -/
def endsBlank (d : Draft) : Bool := d.branch.toList.getLast?.any Text.isBlank

/-- Write a text. -/
def write (d : Draft) (text : String) : Draft :=
  { d with branch := d.branch ++ text, skipBlank := false }

/-- Write a blank, unless a marker left it behind. -/
def writeBlank (d : Draft) (text : String) : Draft :=
  if d.skipBlank then { d with skipBlank := false } else d.write text

/-- Go on in another scope. The blank after a marker goes with it if there is one before it, or
nothing at all. -/
def switch (d : Draft) (scope : Scope) : Draft :=
  { d with scope, skipBlank := d.isBlank || d.endsBlank }

/-- Begin the branch after a comma, in the scope `initial`. -/
def nextBranch (d : Draft) (initial : Scope) : Draft :=
  { start initial with kept := if d.isBlank then d.kept else d.kept ++ [d.branch] }

/-- The branches of a finished draft. A single branch stays even without any text. -/
def branches (d : Draft) : List String :=
  if d.isBlank && !d.kept.isEmpty then d.kept else d.kept ++ [d.branch]

/-- The rewritten selector. -/
def text (d : Draft) : String := ",".intercalate d.branches

end Draft
end Selector
end ScopedCss
