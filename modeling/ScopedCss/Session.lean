import ScopedCss.Files
import ScopedCss.Options
import ScopedCss.Process

/-!
# Sessions

A session is one build: a configuration, and the store that all documents processed in it share.
-/

namespace ScopedCss

/-- A configuration with the store of the documents processed under it. -/
structure Session where
  config : Config
  store : Store

namespace Session

/-- A session without any document. -/
def start (config : Config) : Session := ⟨config, ∅⟩

/-- Scope a document. -/
def process (session : Session) (document : Stylesheet.Document) : Outcome :=
  ScopedCss.process session.config document session.store

/-- Read, scope and write a stylesheet. -/
def processText (session : Session) (path : Path) (source : String) : TextOutcome :=
  ScopedCss.processText session.config path source session.store

/-- Scope the stylesheet in a file. -/
def processFile (session : Session) (files : Files) (path : Path) : TextOutcome :=
  match files.read path with
  | .error fault => ⟨.error (.unreadable path fault), session.store, []⟩
  | .ok source => session.processText path source

/-- The table of a file, by any path that normalizes to the one it was processed under. -/
def translations (session : Session) (path : Path) : Option Table :=
  session.store.table? path.normalize

/-- Forget all documents. -/
def reset (session : Session) : Session × List Event := (start session.config, [.storeReset])

end Session

/-- The options in a file. -/
def Options.ofFile (files : Files) (path : Path) : Except Error Options :=
  match files.read path with
  | .error fault => .error (.unreadable path fault)
  | .ok text =>
    match Options.ofToml? text with
    | some options => .ok options
    | none => .error .invalidOptions

end ScopedCss
