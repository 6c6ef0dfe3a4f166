import ScopedCss.Text.ClassName
import ScopedCss.Text.Quote

/-!
# The values of an `:import` rule

    :import {
      base: "from './base'";
      accent: from './theme.css'::accent;
    }

The value of a declaration says which file an alias stands for: a quoted path, with or without the
word `from` before it, either of them once more in quotes or not. After the path there may be
`::class`, which makes the alias stand for that class as well.
-/

namespace ScopedCss
namespace Import

open Text

/-- The declared path of a file and the class that is taken from it, if any. -/
structure Source where
  path : String
  className : Option String
  deriving DecidableEq

/-- What may be wrong with a value. -/
inductive Fault where
  /-- The path is not in quotes. -/
  | unquotedPath
  /-- Something other than `::class` follows a quoted path. -/
  | trailingText
  /-- No class name follows the `::` of a path without quotes of its own. -/
  | invalidClass
  | emptyPath
  deriving DecidableEq

/-- The wording of a fault. -/
def Fault.message : Fault → String
  | .unquotedPath => "Expected a quoted module path"
  | .trailingText => "Unexpected text after module path"
  | .invalidClass => "Invalid class name after '::'"
  | .emptyPath => "Empty module path"

/-- The text without a leading word `from` and the blanks after it. -/
def dropFrom (s : List Char) : List Char :=
  match s with
  | 'f' :: 'r' :: 'o' :: 'm' :: c :: rest =>
    if isBlank c || isQuote c then trimStart (c :: rest) else s
  | _ => s

/-- A quoted text at the start, without its quotes, and the rest. -/
def splitQuoted? : List Char → Option (List Char × List Char)
  | [] => none
  | quote :: rest => if isQuote quote then splitQuote? quote rest else none

/-- The text cut at its first `::`. -/
def splitColons? : List Char → Option (List Char × List Char)
  | [] => none
  | c :: rest =>
    if c = ':' ∧ rest.head? = some ':' then some ([], rest.tail)
    else (splitColons? rest).map fun parts => (c :: parts.1, parts.2)

/-- The class that the text after a quoted path names, if there is any text. -/
def classSuffix (rest : List Char) : Except Fault (Option String) :=
  match trim rest with
  | [] => .ok none
  | ':' :: ':' :: name =>
    if isClassName (String.ofList name) then .ok (some (String.ofList name))
    else .error .trailingText
  | _ => .error .trailingText

/-- The path and the class that a text inside quotes names. The class given is the one after the
closing quote; one inside the quotes comes before it. -/
def innerSource (inner : List Char) (outerClass : Option String) :
    Except Fault (List Char × Option String) :=
  match splitQuoted? inner with
  | some (path, rest) => (classSuffix rest).map fun name => (trim path, name.or outerClass)
  | none =>
    match splitColons? inner with
    | some (path, name) =>
      if isClassName (String.ofList name) then .ok (trim path, some (String.ofList name))
      else .error .invalidClass
    | none => .ok (inner, outerClass)

/-- Read the value of a declaration in an `:import` rule. A path with blanks in it has to be in
quotes of its own. -/
def Source.parse (value : String) : Except Fault Source := do
  let some (quoted, rest) := splitQuoted? (dropFrom (trim value.toList))
    | throw .unquotedPath
  let outerClass ← classSuffix rest
  -- the quotes may be those of the path, or may hold a value that has quotes of its own
  let inner := dropFrom (trim quoted)
  let (path, className) ← innerSource inner outerClass
  if path.isEmpty then throw .emptyPath
  if path.any isBlank && (splitQuoted? inner).isNone then throw .unquotedPath
  return ⟨String.ofList path, className⟩

example : (Source.parse "\"from './theme'::accent\"").toOption
    = some ⟨"./theme", some "accent"⟩ := by decide +kernel

end Import
end ScopedCss
