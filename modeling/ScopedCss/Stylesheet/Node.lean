import ScopedCss.Path.Basic

/-!
# Stylesheets

A stylesheet is a tree: rules and at-rules hold nodes, declarations and statements do not.
Selectors, parameters and values are kept as texts.

* `Node.selectors` lists the selectors of a tree in the order of the stylesheet.
-/

namespace ScopedCss
namespace Stylesheet

/-- A node of a stylesheet. -/
inductive Node where
  /-- `selector { nodes }` -/
  | rule (selector : String) (nodes : List Node)
  /-- `@name params { nodes }` -/
  | block (name params : String) (nodes : List Node)
  /-- `@name params;` -/
  | statement (name params : String)
  /-- `property: value;` -/
  | declaration (property value : String)
  deriving Inhabited

/-! ### Equality -/

mutual

/-- Two nodes are alike all the way down. -/
def Node.same : Node → Node → Bool
  | .rule selector nodes, .rule selector' nodes' => selector == selector' && sameAll nodes nodes'
  | .block name params nodes, .block name' params' nodes' =>
    name == name' && params == params' && sameAll nodes nodes'
  | .statement name params, .statement name' params' => name == name' && params == params'
  | .declaration property value, .declaration property' value' =>
    property == property' && value == value'
  | _, _ => false

/-- Two lists of nodes are alike, node by node. -/
def sameAll : List Node → List Node → Bool
  | [], [] => true
  | node :: nodes, node' :: nodes' => node.same node' && sameAll nodes nodes'
  | _, _ => false

end

mutual

theorem Node.same_iff : (node node' : Node) → (node.same node' = true ↔ node = node')
  | .rule _ nodes, node' => by cases node' <;> simp [Node.same, sameAll_iff nodes]
  | .block _ _ nodes, node' => by cases node' <;> simp [Node.same, sameAll_iff nodes, and_assoc]
  | .statement _ _, node' => by cases node' <;> simp [Node.same]
  | .declaration _ _, node' => by cases node' <;> simp [Node.same]

theorem sameAll_iff : (nodes nodes' : List Node) → (sameAll nodes nodes' = true ↔ nodes = nodes')
  | [], nodes' => by cases nodes' <;> simp [sameAll]
  | node :: nodes, nodes' => by
    cases nodes' <;> simp [sameAll, Node.same_iff node, sameAll_iff nodes]

end

instance : DecidableEq Node := fun node node' => decidable_of_iff _ (node.same_iff node')

/-! ### Selectors -/

mutual

/-- The selectors of the rules in a node, that of the node itself first. -/
def Node.selectors : Node → List String
  | .rule selector nodes => selector :: selectorsOf nodes
  | .block _ _ nodes => selectorsOf nodes
  | .statement _ _ => []
  | .declaration _ _ => []

/-- The selectors of the rules in these nodes. -/
def selectorsOf : List Node → List String
  | [] => []
  | node :: nodes => node.selectors ++ selectorsOf nodes

end

/-- A stylesheet with the path of its file and the text it was read from. -/
structure Document where
  path : Path
  source : String
  nodes : List Node
  deriving DecidableEq

end Stylesheet
end ScopedCss
