import ScopedCss.Context

/-!
# Directives

A directive is a node that refers to classes of another file; it is not part of the scoped
stylesheet. Each grammar knows its own directives.
-/

namespace ScopedCss
namespace Directive

open Stylesheet (Node)

/-- Take the classes that a `@use` directive names. -/
def applyUse (config : Config) (params : String) : Scoping Unit := do
  match Use.Directive.parse params with
  | .error fault => throw (.ofUse params fault)
  | .ok directive =>
    let target := config.resolvePath (← get).directory directive.path
    Context.require config target
    directive.references.forM fun reference => do
      let name ← Context.remoteName config target reference.className
      Context.bind (Error.useDirective params) reference.label name

/-- Let the alias of a declaration in an `:import` rule stand for the file that its value names. -/
def applyImport (config : Config) (node : Node) : Scoping Unit := do
  match node with
  | .declaration aliasName value =>
    unless Text.isClassName aliasName do
      throw (.directive (Error.importDirective aliasName) .invalidAlias)
    match Import.Source.parse value with
    | .error fault => throw (.ofImport value fault)
    | .ok source =>
      let target := config.resolvePath (← get).directory source.path
      Context.require config target
      if let some className := source.className then
        let name ← Context.remoteName config target className
        Context.bind (Error.importDirective aliasName) aliasName name
      Context.addImport aliasName target
  | _ => throw (.directive ":import" .notADeclaration)

/-- Follow a node if it is a directive of the grammar, and say whether it is one. -/
def intercept (config : Config) (grammar : Grammar) (node : Node) : Scoping Bool := do
  match grammar, node with
  | .atUse, .block "use" params _ | .atUse, .statement "use" params =>
    applyUse config params
    return true
  | .importRule, .rule selector nodes =>
    if Text.trimText selector = ":import" then
      nodes.forM (applyImport config)
      return true
    else
      return false
  | _, _ => return false

/-- Follow a node if it is a directive of one of the grammars, which are asked in their order. -/
def interceptAny (config : Config) : List Grammar → Node → Scoping Bool
  | [], _ => return false
  | grammar :: grammars, node => do
    if ← intercept config grammar node then return true
    interceptAny config grammars node

end Directive
end ScopedCss
