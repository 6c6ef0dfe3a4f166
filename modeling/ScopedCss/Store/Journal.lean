import ScopedCss.Store.Basic

/-!
# Taking back what a document did

A document that fails part-way leaves the store as it found it. To this end the entry that it takes
the place of is kept in a `Checkpoint`, and what it does to the entries of other files is written
down in a `Journal`: the placeholders it made, and the tables of older placeholders as they were
before it added to them.
-/

namespace ScopedCss

/-- What a document did to the entries of other files. -/
structure Journal where
  /-- The files that it was the first to refer to. -/
  created : List Path := []
  /-- The tables of other placeholders before it first added to them. -/
  touched : List (Path × Table) := []
  deriving DecidableEq

namespace Journal

/-- The journal has something about the file. -/
def knows (journal : Journal) (path : Path) : Bool :=
  journal.created.any (fun known => decide (known.SamePlace path))
    || journal.touched.any (fun known => decide (known.1.SamePlace path))

/-- Write down the table of a placeholder, unless the journal has something about it. -/
def snapshot (journal : Journal) (path : Path) (table : Table) : Journal :=
  if journal.knows path then journal
  else { journal with touched := journal.touched ++ [(path, table)] }

end Journal

/-- What a document's own entry was before it is processed. -/
structure Checkpoint where
  path : Path
  previous : Option Entry
  deriving DecidableEq

namespace Store

/-- The store in which the document at this path is being processed, and the way back. -/
def begin (store : Store) (path : Path) (source : String) : Store × Checkpoint :=
  (store.put path ⟨∅, some source, .processing⟩, ⟨path, store.get? path⟩)

/-- The store in which the document is done. It is kept under the path of this document, and with
the text that it has at hand. -/
def commit (store : Store) (checkpoint : Checkpoint) (table : Table) : Store :=
  let source := (store.get? checkpoint.path).bind Entry.source
  -- an entry that is there keeps its spelling, so it is forgotten first
  (store.erase checkpoint.path).put checkpoint.path ⟨table, source, .processed⟩

/-- Give a placeholder back the table that it had. -/
def restoreTable (store : Store) (known : Path × Table) : Store :=
  if store.isPlaceholder known.1 then store.setTable known.1 known.2 else store

/-- Forget a placeholder. -/
def dropPlaceholder (store : Store) (path : Path) : Store :=
  if store.isPlaceholder path then store.erase path else store

/-- The store as it was before the document was processed. -/
def rollback (store : Store) (checkpoint : Checkpoint) (journal : Journal) : Store :=
  let store := journal.touched.foldl restoreTable store
  let store := journal.created.foldl dropPlaceholder store
  match checkpoint.previous with
  | some entry => store.put checkpoint.path entry
  | none => store.erase checkpoint.path

end Store
end ScopedCss
