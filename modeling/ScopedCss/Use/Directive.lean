import ScopedCss.Use.Token

/-!
# The `@use` directive

    @use .button from './base';
    @use (.button, .title as .heading) from './base.css';

A directive names one class of another file, or several in parentheses, and the path of that file. A
class is known in the document by its *label*: the class itself, or what stands after `as`.
-/

namespace ScopedCss
namespace Use

/-- A class of another file and its label in the document. -/
structure Reference where
  className : String
  label : String
  deriving DecidableEq

/-- A `@use` directive: what is taken from which declared path. -/
structure Directive where
  references : List Reference
  path : String
  deriving DecidableEq

/-- What may be wrong with the parameters of a `@use` directive. -/
inductive Fault where
  /-- A quoted text is not closed. -/
  | openString
  /-- The parameters end where a class should be. -/
  | missingClass
  /-- There is no class before `from`. -/
  | noClassBeforeFrom
  | unexpectedOpenParen
  | unexpectedCloseParen
  | unexpectedComma
  /-- Something else stands where a class should be. -/
  | invalidClass (found : Token)
  /-- No class stands after `as`. -/
  | invalidLabel
  /-- The parameters end inside the parentheses. -/
  | openList
  /-- There is a `from` inside the parentheses. -/
  | fromInList
  /-- Neither a comma nor a closing parenthesis stands after a reference in parentheses. -/
  | noSeparator (found : Token)
  /-- Something else, or nothing at all, stands where `from` should be. -/
  | missingFrom (found : Option Token)
  /-- Something else, or nothing at all, stands where the path should be. -/
  | missingPath (found : Option Token)
  /-- Something stands after the path. -/
  | trailing (found : Token)
  deriving DecidableEq

/-- The wording of a fault. -/
def Fault.message : Fault → String
  | .openString => "Unterminated string literal"
  | .missingClass => "Expected a class reference"
  | .noClassBeforeFrom => "Expected a class found 'from'"
  | .unexpectedOpenParen => "Unexpected '('"
  | .unexpectedCloseParen => "Unexpected ')'"
  | .unexpectedComma => "Unexpected comma"
  | .invalidClass found => "Invalid class name '" ++ found.text ++ "'"
  | .invalidLabel => "Invalid class label"
  | .openList => "Expected ')'"
  | .fromInList => "Expected ')' found 'from'"
  | .noSeparator found => "Expected ',' or ')' found '" ++ found.text ++ "'"
  | .missingFrom none => "Expected 'from'"
  | .missingFrom (some found) => "Expected 'from' found '" ++ found.text ++ "'"
  | .missingPath none => "Expected a quoted path after 'from'"
  | .missingPath (some found) => "Expected a quoted path found '" ++ found.text ++ "'"
  | .trailing found => "Expected end of rule but found '" ++ found.text ++ "'"

/-! ### Reading -/

/-- One reference, `.class` or `.class as .label`, and the rest. -/
def readReference : List Token → Except Fault (Reference × List Token)
  | .className name :: .asWord :: .className label :: rest => .ok (⟨name, label⟩, rest)
  | .className _ :: .asWord :: _ => .error .invalidLabel
  | .className name :: rest => .ok (⟨name, name⟩, rest)
  | .openParen :: _ => .error .unexpectedOpenParen
  | found :: _ => .error (.invalidClass found)
  | [] => .error .missingClass

theorem length_readReference_lt {tokens rest : List Token} {r : Reference}
    (h : readReference tokens = .ok (r, rest)) : rest.length < tokens.length := by
  unfold readReference at h
  split at h <;> cases h <;> simp only [List.length_cons] <;> omega

/-- What cannot begin a reference in parentheses, if the tokens begin with it. -/
def notInList? : List Token → Option Fault
  | .comma :: _ => some .unexpectedComma
  | .closeParen :: _ => some .unexpectedCloseParen
  | .fromWord :: _ => some .fromInList
  | [] => some .openList
  | _ => none

/-- The references after an opening parenthesis, and the rest after the closing one. -/
def readList (tokens : List Token) : Except Fault (List Reference × List Token) :=
  match notInList? tokens with
  | some fault => .error fault
  | none =>
    match _h : readReference tokens with
    | .error fault => .error fault
    | .ok (first, .comma :: rest) =>
      (readList rest).map fun parts => (first :: parts.1, parts.2)
    | .ok (first, .closeParen :: rest) => .ok ([first], rest)
    | .ok (_, .fromWord :: _) => .error .fromInList
    | .ok (_, found :: _) => .error (.noSeparator found)
    | .ok (_, []) => .error .openList
termination_by tokens.length
decreasing_by
  have := length_readReference_lt _h
  simp only [List.length_cons] at this
  omega

/-- What a directive takes: one reference, or several in parentheses; and the rest. -/
def readReferences : List Token → Except Fault (List Reference × List Token)
  | [] => .error .missingClass
  | .fromWord :: _ => .error .noClassBeforeFrom
  | .openParen :: rest => readList rest
  | tokens => (readReference tokens).map fun parts => ([parts.1], parts.2)

/-- The path after `from`, with nothing behind it. -/
def readPath : List Token → Except Fault String
  | [.fromWord, .quoted path] => .ok path
  | .fromWord :: .quoted _ :: found :: _ => .error (.trailing found)
  | .fromWord :: rest => .error (.missingPath rest.head?)
  | .comma :: _ => .error .unexpectedComma
  | .closeParen :: _ => .error .unexpectedCloseParen
  | rest => .error (.missingFrom rest.head?)

/-- The directive that the tokens spell. -/
def Directive.ofTokens (tokens : List Token) : Except Fault Directive := do
  let (references, rest) ← readReferences tokens
  return ⟨references, ← readPath rest⟩

/-- Read the parameters of a `@use` directive. -/
def Directive.parse (params : String) : Except Fault Directive :=
  match tokenize? params with
  | some tokens => Directive.ofTokens tokens
  | none => .error .openString

example : (Directive.parse "(.button, .title as .heading) from './base.css'").toOption
    = some ⟨[⟨"button", "button"⟩, ⟨"title", "heading"⟩], "./base.css"⟩ := by decide +kernel

end Use
end ScopedCss
