import ScopedCss.Config
import ScopedCss.Event
import ScopedCss.Selector.Rewrite
import ScopedCss.Store.Journal

/-!
# A document while it is scoped

A `Context` holds what changes while one document is scoped: its table, its imports, and the store
that it shares with all other documents. A step may fail; what it did before that stays done and is
taken back by the journal.

* `Context.require` and `Context.remoteName` are how a document refers to another file.
* `Context.names` is where the selectors of the document get their names from.
-/

namespace ScopedCss

/-- A document while it is scoped. -/
structure Context where
  /-- The path of the document, as the store knows it. -/
  path : Path
  /-- The directory that declared paths are seen from. -/
  directory : Path
  source : String
  /-- The names of the document's own classes and labels, so far. -/
  table : Table
  /-- The files that aliases stand for. -/
  imports : Std.ExtTreeMap String Path
  store : Store
  journal : Journal
  /-- What happened so far. -/
  log : List Event

/-- A step of scoping a document. A failed step keeps what it did to the context. -/
abbrev Scoping := ExceptT Error (StateM Context)

namespace Context

/-- The context of a document in which nothing has been done. -/
def start (path : Path) (source : String) (store : Store) : Context where
  path
  directory := path.directory
  source
  table := ∅
  imports := ∅
  store
  journal := {}
  log := []

/-- The seed of the document's own names. -/
def seed (cx : Context) : Name.Seed := ⟨cx.path, cx.source⟩

/-- Write an event into the log. -/
def note (event : Event) : StateM Context Unit :=
  modify fun cx => { cx with log := cx.log ++ [event] }

/-! ### Other files -/

/-- See to it that a file has an entry in the store. -/
def ensure (target : Path) : StateM Context Unit :=
  modify fun cx =>
    if cx.store.contains target then cx
    else
      { cx with
        store := cx.store.ensure target
        journal := { cx.journal with created := cx.journal.created ++ [target] } }

/-- Refer to a file, which should have been processed. -/
def require (config : Config) (target : Path) : Scoping Unit := do
  unless (← get).store.isResolved target do
    match config.missing with
    | .error => throw (.unresolved target)
    | .warn => note (.missing target)
    | .ignore => pure ()
  ensure target

/-- The name that a file has, or will have, for a class. A processed file has it in its table, or
not at all; for any other file the name goes into the table that stands for it so far. -/
def remoteName (config : Config) (target : Path) (className : String) : StateM Context String := do
  ensure target
  let cx ← get
  let entry := cx.store.entry target
  let seed := ⟨target, entry.source.getD ""⟩
  if entry.stage = .processed then
    -- this table does not change any more, so a name that is not in it is made but not kept
    match entry.table.get? className with
    | some name => return name
    | none =>
      note (.undefinedClass target className)
      return config.generate className seed
  else
    -- kept for every document that refers to the file before it is processed
    let (name, table) := entry.table.translate config.generate seed className
    let journal :=
      if entry.isPlaceholder then cx.journal.snapshot target entry.table else cx.journal
    set { cx with store := cx.store.setTable target table, journal }
    return name

/-- Let a label of the document stand for a name of another file. A label keeps its first name;
another one is a fault of the directive. -/
def bind (directive label name : String) : Scoping Unit := do
  match (← get).table.get? label with
  | some known =>
    unless known = name do
      throw (.directive directive (.labelTaken label known))
  | none =>
    note (.bound label name)
    modify fun cx => { cx with table := cx.table.bind label name }

/-- Let an alias stand for a file. -/
def addImport (aliasName : String) (target : Path) : StateM Context Unit :=
  modify fun cx => { cx with imports := cx.imports.insert aliasName target }

/-! ### Names for selectors -/

/-- The name of a class of the document itself. -/
def localName (config : Config) (className : String) : StateM Context String :=
  modifyGet fun cx =>
    let (name, table) := cx.table.translate config.generate cx.seed className
    (name, { cx with table })

/-- The name of a class of the file that an alias stands for, if it stands for one. -/
def composed? (config : Config) (aliasName remote : String) : StateM Context (Option String) := do
  match (← get).imports[aliasName]? with
  | some target => return some (← remoteName config target remote)
  | none => return none

/-- The names for the selectors of the document. A reference to an unknown alias is reported. -/
def names (config : Config) : Selector.NameSource Context where
  localName := localName config
  composed? aliasName remote := do
    let name? ← composed? config aliasName remote
    if name?.isNone then note (.unknownAlias aliasName remote)
    return name?

end Context
end ScopedCss
