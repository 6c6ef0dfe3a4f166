import ScopedCss.Stylesheet.Printer
import ScopedCss.Walk

/-!
# Processing a document

A document is scoped as a whole or not at all: when it fails, neither its nodes nor the store are
changed. A processed document leaves its table in the store, under its normalized path.
-/

namespace ScopedCss

open Stylesheet (Document)

/-- What processing a document comes to. -/
structure Outcome where
  /-- The table of the document. -/
  result : Except Error Table
  /-- The document afterwards. -/
  document : Document
  /-- The store afterwards. -/
  store : Store
  /-- What happened. -/
  log : List Event

/-- The table that is given out, with the collisions of its names. -/
def givenTable (config : Config) (table : Table) : Table × List Event :=
  if config.camelCase then
    let (table, collisions) := table.camelCase
    (table, collisions.map .collision)
  else (table, [])

/-- Scope a document. -/
def process (config : Config) (document : Document) (store : Store) : Outcome :=
  let path := document.path.normalize
  let (begun, checkpoint) := store.begin path document.source
  let ((ended, nodes), cx) := (walk config document.nodes).run (.start path document.source begun)
  let log := .started path :: cx.log
  match ended with
  | .error error =>
    -- the nodes that the walk has changed so far are left behind
    { result := .error error
      document
      store := cx.store.rollback checkpoint cx.journal
      log := log ++ [.rolledBack error] }
  | .ok () =>
    let (given, collisions) := givenTable config cx.table
    { result := .ok given
      document := { document with nodes }
      store := cx.store.commit checkpoint cx.table
      log := log ++ .finished cx.table.size cx.journal.created.length :: collisions }

/-! ### From text to text -/

/-- A scoped stylesheet and its table. -/
structure Output where
  css : String
  table : Table
  deriving DecidableEq

/-- What processing the text of a stylesheet comes to. -/
structure TextOutcome where
  result : Except Error Output
  /-- The store afterwards. -/
  store : Store
  /-- What happened. -/
  log : List Event

/-- Read, scope and write a stylesheet. -/
def processText (config : Config) (path : Path) (source : String) (store : Store) : TextOutcome :=
  let (skipped, read) := Document.read path source
  let readLog := skipped.map Event.skipped
  match read with
  | .error fault => ⟨.error (.unfinished fault), store, readLog⟩
  | .ok document =>
    let outcome := process config document store
    ⟨outcome.result.map (⟨outcome.document.text, ·⟩), outcome.store, readLog ++ outcome.log⟩

end ScopedCss
