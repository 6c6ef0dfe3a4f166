import ScopedCss.Directive

/-!
# Walking through a document

The nodes of a document are taken in their order, each before the nodes in its block. A directive is
followed and taken out; of any other rule the selector is rewritten. The first error ends the walk;
the nodes then are as far changed as the walk came.
-/

namespace ScopedCss

open Stylesheet (Node)

/-- How a walk ended, and what has become of the nodes. -/
abbrev Walked (α : Type) := Except Error Unit × α

/-- Rewrite the selector of a rule. -/
def scopeSelector (config : Config) (selector : String) : StateM Context (Except Error String) := do
  let scope := Selector.defaultScope config.modules
  match ← (Selector.rewrite (Context.names config) scope selector).run with
  | .error marker => return .error (.ofOpenMarker marker)
  | .ok result =>
    Context.note (.rewritten selector result)
    return .ok result

mutual

/-- Walk through a node that is no directive. -/
def walkNode (config : Config) : Node → StateM Context (Walked Node)
  | .rule selector nodes => do
    match ← scopeSelector config selector with
    | .error error => return (.error error, .rule selector nodes)
    | .ok result =>
      let (ended, nodes) ← walk config nodes
      return (ended, .rule result nodes)
  | .block name params nodes => do
    let (ended, nodes) ← walk config nodes
    return (ended, .block name params nodes)
  | node => return (.ok (), node)

/-- Walk through nodes one after the other. -/
def walk (config : Config) : List Node → StateM Context (Walked (List Node))
  | [] => return (.ok (), [])
  | node :: nodes => do
    match ← (Directive.interceptAny config (Grammar.distinct config.grammars) node).run with
    | .error error => return (.error error, node :: nodes)
    | .ok true => walk config nodes
    | .ok false =>
      match ← walkNode config node with
      | (.error error, node) => return (.error error, node :: nodes)
      | (.ok (), node) =>
        let (ended, nodes) ← walk config nodes
        return (ended, node :: nodes)

end

end ScopedCss
