import ScopedCss.Stylesheet.Node

/-!
# Writing a stylesheet

Every node is written on lines of its own, indented by two blanks for each block around it, with an
empty line between the nodes that are in no block. In texts, `\x7b` and `\x7d` are an opening
and a closing brace.
-/

namespace ScopedCss
namespace Stylesheet

/-- The indentation inside so many blocks. -/
def indent (depth : Nat) : String := String.ofList (List.replicate (2 * depth) ' ')

/-- The head of an at-rule: its name and its parameters, if it has any. -/
def atHead (name params : String) : String :=
  "@" ++ name ++ if params.isEmpty then "" else " " ++ params

mutual

/-- A node inside so many blocks. -/
def Node.print (depth : Nat) : Node → String
  | .rule selector nodes =>
    indent depth ++ selector ++ " \x7b\n" ++ printAll (depth + 1) nodes ++ indent depth ++ "\x7d\n"
  | .block name params nodes =>
    indent depth ++ atHead name params ++ " \x7b\n" ++ printAll (depth + 1) nodes ++ indent depth
      ++ "\x7d\n"
  | .statement name params => indent depth ++ atHead name params ++ ";\n"
  | .declaration property value => indent depth ++ property ++ ": " ++ value ++ ";\n"

/-- Nodes inside so many blocks, one after the other. -/
def printAll (depth : Nat) : List Node → String
  | [] => ""
  | node :: nodes => node.print depth ++ printAll depth nodes

end

/-- A whole stylesheet. -/
def print (nodes : List Node) : String := "\n".intercalate (nodes.map (Node.print 0))

/-- The text of a document's nodes. -/
def Document.text (document : Document) : String := print document.nodes

end Stylesheet
end ScopedCss
