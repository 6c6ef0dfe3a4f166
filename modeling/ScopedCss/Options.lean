import ScopedCss.Config
import ScopedCss.Toml.Document

/-!
# Options in a file

    modules = true
    extension = ".css"
    missing-reference = "warn"
    camel-case = true
    naming = "path"
    syntax = ["use", "import"]

Options are written as a TOML document. Each may be left out; any other key, and any value of
another kind, makes the document invalid. A choice between names may also be written as a table
whose only key is the name and whose value is empty.
-/

namespace ScopedCss
namespace Options

open Toml (Value Entries)

/-- The value is an array or a table without anything in it. -/
def isVoid : Value → Bool
  | .array [] | .table _ [] | .tables [] => true
  | _ => false

/-- The name that a value chooses. -/
def choice? : Value → Option String
  | .string name => some name
  | .table _ [(name, value)] => if isVoid value then some name else none
  | _ => none

/-- The policy with this name. -/
def missing? : String → Option MissingPolicy
  | "error" => some .error
  | "warn" => some .warn
  | "ignore" => some .ignore
  | _ => none

/-- The naming with this name. -/
def naming? : String → Option Name.Naming
  | "path" => some .path
  | "content" => some .content
  | _ => none

/-- The grammar with this name. -/
def grammar? : String → Option Grammar
  | "use" => some .atUse
  | "import" => some .importRule
  | _ => none

/-- The grammars that the elements of an array choose. -/
def grammars? : Value → Option (List Grammar)
  | .array values => values.mapM fun value => (choice? value).bind grammar?
  | .tables elements =>
    elements.mapM fun element => (choice? (.table .header element)).bind grammar?
  | _ => none

/-- Set one option. -/
def set? (options : Options) : String × Value → Option Options
  | ("modules", .bool modules) => some { options with modules }
  | ("extension", .string extension) => some { options with extension }
  | ("missing-reference", value) =>
    ((choice? value).bind missing?).map fun missing => { options with missing }
  | ("camel-case", .bool camelCase) => some { options with camelCase }
  | ("naming", value) => ((choice? value).bind naming?).map fun naming => { options with naming }
  | ("syntax", value) => (grammars? value).map fun grammars => { options with grammars }
  | _ => none

/-- The options that a TOML document sets; none if it is invalid. -/
def ofToml? (text : String) : Option Options := (Toml.parse? text).bind (·.foldlM set? {})

example : ofToml? "camel-case = true\nsyntax = ['use', \"import\"]"
    = some { camelCase := true, grammars := [.atUse, .importRule] } := by decide +kernel

end Options
end ScopedCss
