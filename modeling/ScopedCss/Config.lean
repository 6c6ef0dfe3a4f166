import ScopedCss.Name.Generator
import ScopedCss.Path.Extension
import ScopedCss.Path.Normalize

/-!
# Configuration

How documents are scoped: which grammars of directives they may use, what happens to a reference
that leads nowhere, and how names are made and paths resolved. `Options` is the part of it that can
be written in a file.
-/

namespace ScopedCss

/-- What happens to a reference to a file that has not been processed. -/
inductive MissingPolicy where
  /-- The document fails. -/
  | error
  /-- It is reported, and names are made in advance. -/
  | warn
  /-- Names are made in advance. -/
  | ignore
  deriving DecidableEq, Inhabited

/-- The grammars for references to other files. -/
inductive Grammar where
  /-- `@use (.a, .b as .c) from './file';` -/
  | atUse
  /-- `:import { alias: "from './file'" }`, with references `alias::class` in selectors. -/
  | importRule
  deriving DecidableEq

/-- The grammars without repetition, each where it came first. -/
def Grammar.distinct (grammars : List Grammar) : List Grammar := grammars.eraseDups

/-- The options that can be written in a file. -/
structure Options where
  /-- Class names are scoped; otherwise every selector is global. -/
  modules : Bool := true
  /-- What is added to a declared path without an extension. -/
  extension : String := ".css"
  missing : MissingPolicy := .error
  /-- The resulting table is given out under camel case names. -/
  camelCase : Bool := false
  naming : Name.Naming := .path
  /-- The grammars that are recognized. -/
  grammars : List Grammar := [.atUse]
  deriving DecidableEq

/-- A configuration. -/
structure Config where
  /-- Class names are scoped; otherwise every selector is global. -/
  modules : Bool
  /-- What is added to a declared path without an extension. -/
  extension : String
  missing : MissingPolicy
  /-- The resulting table is given out under camel case names. -/
  camelCase : Bool
  /-- The grammars that are recognized, in the order in which they look at a node. -/
  grammars : List Grammar
  generate : Name.Generator
  resolve : Path.Resolver

namespace Config

/-- The configuration that options describe. -/
def ofOptions (options : Options) : Config where
  modules := options.modules
  extension := options.extension
  missing := options.missing
  camelCase := options.camelCase
  grammars := options.grammars
  generate := options.naming.generate
  resolve := Path.resolve

instance : Inhabited Config := ⟨ofOptions {}⟩

/-- The grammar is recognized. -/
def recognizes (config : Config) (grammar : Grammar) : Bool := config.grammars.contains grammar

/-- The path that a declared path stands for in a document of this directory. -/
def resolvePath (config : Config) (directory : Path) (declared : String) : Path :=
  config.resolve (Path.withDefaultExtension declared config.extension) directory

end Config
end ScopedCss
