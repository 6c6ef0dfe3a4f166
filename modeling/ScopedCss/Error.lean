import ScopedCss.Import.Source
import ScopedCss.Path.Basic
import ScopedCss.Selector.Lexer
import ScopedCss.Stylesheet.Reader
import ScopedCss.Use.Directive

/-!
# Errors

What can be wrong with a stylesheet, with a reference to another file, or with a file itself.
`Error.message` has the wording of all of them.
-/

namespace ScopedCss

/-- What may be wrong with a directive or a scope marker. -/
inductive DirectiveFault where
  /-- The parenthesis of a scope marker is not closed. -/
  | openMarker (scope : Selector.Scope)
  /-- The parameters of `@use`. -/
  | use (fault : Use.Fault)
  /-- The value of a declaration in an `:import` rule. -/
  | importValue (fault : Import.Fault)
  /-- Something else than a declaration stands in an `:import` rule. -/
  | notADeclaration
  /-- The property of a declaration in an `:import` rule is no class name. -/
  | invalidAlias
  /-- The document knows another class by the label already. -/
  | labelTaken (label name : String)
  deriving DecidableEq

/-- The wording of a fault. -/
def DirectiveFault.message : DirectiveFault → String
  | .openMarker scope => "Unclosed ':" ++ scope.name ++ "('"
  | .use fault => fault.message
  | .importValue fault => fault.message
  | .notADeclaration => "Only declarations are allowed"
  | .invalidAlias => "Invalid alias"
  | .labelTaken label name => "'" ++ label ++ "' is already bound to '" ++ name ++ "'"

/-- Why a file cannot be read. -/
inductive ReadFault where
  | notFound
  | notADirectory
  | isADirectory
  /-- The bytes of the file are no text. -/
  | invalidText
  deriving DecidableEq

/-- The wording of a fault. -/
def ReadFault.message : ReadFault → String
  | .notFound => "No such file or directory (os error 2)"
  | .notADirectory => "Not a directory (os error 20)"
  | .isADirectory => "Is a directory (os error 21)"
  | .invalidText => "stream did not contain valid UTF-8"

/-- What goes wrong when a stylesheet is read or scoped. -/
inductive Error where
  /-- The stylesheet cannot be read: it has a text outside all blocks that is no rule. -/
  | unfinished (fault : Stylesheet.Fault)
  /-- A directive, or a selector with scope markers, is malformed. -/
  | directive (text : String) (fault : DirectiveFault)
  /-- A reference leads to a file that has not been processed. -/
  | unresolved (path : Path)
  | unreadable (path : Path) (fault : ReadFault)
  /-- The options file is malformed. -/
  | invalidOptions
  deriving DecidableEq

namespace Error

/-- The error of a selector with an open marker. -/
def ofOpenMarker (marker : Selector.OpenMarker) : Error :=
  .directive marker.selector (.openMarker marker.scope)

/-- How a `@use` directive is named in errors. -/
def useDirective (params : String) : String := "@use " ++ params

/-- How a declaration of an `:import` rule is named in errors, by its alias or its value. -/
def importDirective (text : String) : String := ":import " ++ text

/-- The error of a `@use` directive. -/
def ofUse (params : String) (fault : Use.Fault) : Error :=
  .directive (useDirective params) (.use fault)

/-- The error of a value in an `:import` rule. -/
def ofImport (value : String) (fault : Import.Fault) : Error :=
  .directive (importDirective (Text.trimText value)) (.importValue fault)

/-- The wording of an error. -/
def message : Error → String
  | .unfinished fault =>
    "CSS parse error at line " ++ toString fault.place.line ++ ", column "
      ++ toString fault.place.column ++ ": " ++ fault.cause.message
  | .directive text fault => "Invalid directive '" ++ text ++ "': " ++ fault.message
  | .unresolved path => "'" ++ path.text ++ "' not found or not imported yet"
  | .unreadable path fault =>
    "Failed to read stylesheet '" ++ path.text ++ "': " ++ fault.message
  | .invalidOptions => "Invalid configuration"

end Error
end ScopedCss
