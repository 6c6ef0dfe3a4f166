import ScopedCss.Stylesheet.Cursor
import ScopedCss.Stylesheet.Location
import ScopedCss.Stylesheet.Node
import ScopedCss.Stylesheet.Prelude

/-!
# Reading a stylesheet

A stylesheet is read node by node, in one pass. What stands in a block is read on its own, one level
deeper. Inside a block a prelude without a block is a declaration; one that is none is left out and
reported. Outside all blocks it has to begin with an at-keyword, otherwise the stylesheet cannot be
read.

Before a prelude or a block is left, a check makes sure that nothing of it has been overlooked.
-/

namespace ScopedCss
namespace Stylesheet

open Text

/-- A text in a block that is left out because it is no declaration. -/
structure Skipped where
  text : String
  line : Nat
  deriving DecidableEq

/-- Why a stylesheet cannot be read. -/
inductive Cause where
  /-- Outside all blocks, no block follows the prelude. -/
  | noBlock (prelude : String)
  /-- A prelude was left before its end, at this token. -/
  | leftInPrelude (token : Token)
  /-- A block was left before its end, at this token. -/
  | leftInBlock (token : Token)
  deriving DecidableEq

/-- The wording of a cause. -/
def Cause.message : Cause → String
  | .noBlock prelude => "Expected '\x7b' after selector '" ++ prelude ++ "'"
  | .leftInPrelude _ => "Failed to parse prelude: unexpected token"
  | .leftInBlock _ => "Failed to parse block: unexpected token"

/-- What is wrong with a stylesheet, and where. -/
structure Fault where
  cause : Cause
  place : Location
  deriving DecidableEq

/-! ### Declarations -/

/-- The text cut at its first colon. -/
def splitColon? : List Char → Option (List Char × List Char)
  | [] => none
  | c :: rest =>
    if c = ':' then some ([], rest)
    else (splitColon? rest).map fun parts => (c :: parts.1, parts.2)

/-- The declaration that a text spells: a property, a colon and a value. -/
def declaration? (text : String) : Option Node :=
  match splitColon? text.toList with
  | some (property, value) =>
    if (trim property).isEmpty then none
    else some (.declaration (String.ofList (trim property)) (String.ofList (trim value)))
  | none => none

/-- What was read, with the texts that were left out on the way. -/
abbrev Read (α : Type) := List Skipped × α

/-- Read a declaration that begins at this place. -/
def parseDeclaration (place : Location) (text : String) : Read (List Node) :=
  match declaration? text with
  | some node => ([], [node])
  | none => ([⟨text, place.line⟩], [])

/-! ### Preludes -/

/-- How a prelude ends. -/
inductive Terminator where
  /-- A block follows. -/
  | block
  | semicolon
  /-- The text ends. -/
  | ending
  deriving DecidableEq

/-- What ends the prelude before this text. -/
def Terminator.of : List Char → Terminator
  | '{' :: _ => .block
  | ';' :: _ => .semicolon
  | _ => .ending

/-- Read the prelude that a text begins with, at this place. -/
def parsePrelude (place : Location) (s : List Char) : Except Fault (String × Terminator) :=
  let prelude := before s (untilBody s)
  match (Cursor.drain ⟨prelude, none⟩).next? with
  | some (token, _) => .error ⟨.leftInPrelude token, place⟩
  | none => .ok (String.ofList (trim prelude), .of (untilBody s))

/-- The node of a prelude with a block. -/
def blockNode (keyword : Option String) (prelude : String) (nodes : List Node) : Node :=
  match keyword with
  | some name => .block name prelude nodes
  | none => .rule prelude nodes

/-- Read a prelude without a block, inside so many blocks. The item begins at this place. -/
def parseEnded (depth : Nat) (place : Location) (keyword : Option String) (prelude : String) :
    Read (Except Fault (List Node)) :=
  match keyword with
  | some name => ([], .ok [.statement name prelude])
  | none =>
    if prelude.isEmpty then ([], .ok [])
    else if 0 < depth then
      let (skipped, nodes) := parseDeclaration place prelude
      (skipped, .ok nodes)
    else ([], .error ⟨.noBlock prelude, place⟩)

/-! ### Nodes -/

/-- What came of reading nodes. -/
structure Parsed where
  skipped : List Skipped
  result : Except Fault (List Node)
  /-- What has not been read. -/
  rest : List Char

namespace Parsed

/-- Leave a block, which begins at this place, after what could be read of it. -/
def leave (place : Location) (keyword : Option String) (prelude : String) (block : Parsed) :
    Read (Except Fault (List Node)) :=
  match (Cursor.drain ⟨block.rest, none⟩).next? with
  | some (token, _) => (block.skipped, .error ⟨.leftInBlock token, place⟩)
  | none => (block.skipped, block.result.map fun nodes => [blockNode keyword prelude nodes])

/-- Go on with what comes next, unless something is wrong already. -/
def andThen (first : Read (Except Fault (List Node))) (rest : List Char) (next : Unit → Parsed) :
    Parsed :=
  match first with
  | (skipped, .error fault) => ⟨skipped, .error fault, rest⟩
  | (skipped, .ok nodes) =>
    let more := next ()
    { more with skipped := skipped ++ more.skipped, result := more.result.map (nodes ++ ·) }

end Parsed

/-- Read the nodes of a text inside so many blocks. The text begins at this place. -/
def parseNodes (depth : Nat) (place : Location) (s : List Char) : Parsed :=
  match _h : skipBlanks s with
  | [] => ⟨[], .ok [], []⟩
  | c :: rest =>
    let item := c :: rest
    let start := place.after (before s item)
    let keyword := (splitKeyword item).1
    let afterKeyword := (splitKeyword item).2
    let body := (afterPrelude item).tail
    let inside := start.after (before item body)
    match parsePrelude (start.after (before item afterKeyword)) afterKeyword with
    | .error fault => ⟨[], .error fault, afterPrelude item⟩
    | .ok (prelude, .block) =>
      -- begins with the closing brace, or is empty if the block is not closed
      let close := untilClose [.curly] body
      let block := (parseNodes (depth + 1) inside (before body close)).leave inside keyword prelude
      .andThen block close.tail fun _ =>
        parseNodes depth (start.after (before item close.tail)) close.tail
    | .ok (prelude, _) =>
      .andThen (parseEnded depth start keyword prelude) body fun _ => parseNodes depth inside body
termination_by s.length
decreasing_by
  · exact Nat.lt_of_le_of_lt (length_before_le _ _) (length_tail_afterPrelude_lt _h)
  · refine Nat.lt_of_le_of_lt ?_ (length_tail_afterPrelude_lt _h)
    exact ((List.tail_suffix _).trans (untilClose_suffix _ _)).length_le
  · exact length_tail_afterPrelude_lt _h

/-- Read a stylesheet. -/
def read (source : String) : Read (Except Fault (List Node)) :=
  let parsed := parseNodes 0 .start source.toList
  (parsed.skipped, parsed.result)

/-- Read the stylesheet of the file at a path. -/
def Document.read (path : Path) (source : String) : Read (Except Fault Document) :=
  let (skipped, nodes) := Stylesheet.read source
  (skipped, nodes.map (⟨path, source, ·⟩))

example : (read "@media screen { .a { color: red } }").2.toOption
    = some [.block "media" "screen" [.rule ".a" [.declaration "color" "red"]]] := by
  decide +kernel

end Stylesheet
end ScopedCss
