import ScopedCss.Error
import ScopedCss.Table.CamelCase

/-!
# Events

What is worth a report while documents are processed. An event has a level, so that a reader can
leave out the finer ones, and a topic.
-/

namespace ScopedCss

/-- Something that happened. -/
inductive Event where
  /-- A text in a block was left out because it is no declaration. -/
  | skipped (declaration : Stylesheet.Skipped)
  /-- A reference leads to a file that has not been processed. -/
  | missing (path : Path)
  /-- A reference names a class that the processed file does not have. -/
  | undefinedClass (path : Path) (className : String)
  /-- Two class names have the same camel case. -/
  | collision (collision : Table.Collision)
  /-- A label of the document stands for a class of another file from now on. -/
  | bound (label name : String)
  /-- A selector refers to an alias that was not imported. -/
  | unknownAlias (aliasName remote : String)
  /-- A document is about to be processed. -/
  | started (path : Path)
  /-- A document is done: so many classes, and so many files it referred to first. -/
  | finished (classes placeholders : Nat)
  /-- A document failed. -/
  | rolledBack (error : Error)
  /-- All documents were forgotten. -/
  | storeReset
  /-- A selector was rewritten. -/
  | rewritten (selector result : String)
  deriving DecidableEq

/-- How much an event matters. -/
inductive Event.Level where
  | warn
  | debug
  | trace
  deriving DecidableEq

/-- How fine a level is. -/
def Event.Level.rank : Event.Level → Nat
  | .warn => 0
  | .debug => 1
  | .trace => 2

/-- What an event is about. -/
inductive Event.Topic where
  | process
  | resolve
  | rewrite
  | parser
  deriving DecidableEq

namespace Event

/-- The level of an event: what may be a mistake of an author is a warning. -/
def level : Event → Level
  | .skipped _ | .missing _ | .undefinedClass _ _ | .collision _ => .warn
  | .bound _ _ | .unknownAlias _ _ | .started _ | .finished _ _ | .rolledBack _ | .storeReset =>
    .debug
  | .rewritten _ _ => .trace

/-- The topic of an event. -/
def topic : Event → Topic
  | .skipped _ => .parser
  | .missing _ | .undefinedClass _ _ | .bound _ _ => .resolve
  | .collision _ | .started _ | .finished _ _ | .rolledBack _ | .storeReset => .process
  | .unknownAlias _ _ | .rewritten _ _ => .rewrite

/-- The wording of an event. -/
def message : Event → String
  | .skipped declaration =>
    "Skipping malformed declaration '" ++ declaration.text ++ "' at line "
      ++ toString declaration.line
  | .missing path => (Error.unresolved path).message
  | .undefinedClass path className =>
    "'" ++ path.text ++ "' does not define class '" ++ className ++ "'"
  | .collision c =>
    "camelCase key '" ++ c.camel ++ "' from '" ++ c.className ++ "' replaces '" ++ c.replaced ++ "'"
  | .bound label name => "bound '" ++ label ++ "' to '" ++ name ++ "'"
  | .unknownAlias aliasName remote =>
    "no import named '" ++ aliasName ++ "', keeping '" ++ aliasName ++ "::" ++ remote ++ "'"
  | .started path => "path=" ++ path.text
  | .finished classes placeholders =>
    "processed classes=" ++ toString classes ++ " placeholders=" ++ toString placeholders
  | .rolledBack error => "rolling back: " ++ error.message
  | .storeReset => "module store reset"
  | .rewritten selector result => "'" ++ selector ++ "' -> '" ++ result ++ "'"

/-- The events of a log that are no finer than the level. -/
def upTo (level : Level) (log : List Event) : List Event :=
  log.filter (·.level.rank ≤ level.rank)

end Event
end ScopedCss
