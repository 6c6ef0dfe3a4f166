import ScopedCss.Proofs.Document.Frame
import ScopedCss.Proofs.Run.Agreement

/-!
# The names that a document makes itself

A class of a document has two homes while the document is scoped: the table that grows with it,
which is the one that is kept, and the document's entry in the store, which answers those who refer
to the document, itself among them. Both make names from the document's path and text.

* `entry_reached`: with the usual resolver, all that happens to the entry of a file while a document
  is scoped is that it keeps names.
* `nameOf_own`: what the entry answers is always the document's own name.
* `get?_finished_of_own`: the table has this name too, unless a directive binds the class.
-/

namespace ScopedCss

open Stylesheet (Document)

variable {config : Config} {document : Document} {store : Store} {file : Path} {className : String}
  {step : Step} {cx : Context}

/-! ## The entry of one file -/

theorem entry_reached (hresolve : config.resolve = Path.resolve) {motive : Entry → Prop}
    (hremember : ∀ entry asked, motive entry →
      motive (entry.remember config.generate file.normalize asked))
    (h : motive ((document.opening store).store.entry file.normalize)) {before after : List Step}
    (hsteps : document.steps config = before ++ after) :
    motive ((perform config before (document.opening store)).2.store.entry file.normalize) := by
  refine perform_induction (motive := fun cx => motive (cx.store.entry file.normalize)) h ?_
  intro step hstep cx _
  apply Step.entry_effect ?_ hremember
  intro target htarget hsame
  have hmem : step ∈ document.steps config := hsteps ▸ List.mem_append_left _ hstep
  exact eq_normalize_of_mem_steps hresolve hmem htarget hsame

/-! ## Names from one seed -/

/-- All names of the entry are made from this seed, and so are those that it will get. -/
structure Entry.NamedFrom (generate : Name.Generator) (seed : Name.Seed) (entry : Entry) :
    Prop where
  source : entry.source.getD "" = seed.source
  table : ∀ className, entry.table.Agrees className (generate className seed)

namespace Entry.NamedFrom

variable {generate : Name.Generator} {seed : Name.Seed} {entry : Entry}

theorem remember (h : entry.NamedFrom generate seed) (asked : String) :
    (entry.remember generate seed.path asked).NamedFrom generate seed := by
  unfold Entry.remember
  split
  · exact h
  · refine ⟨h.source, fun className => (h.table className).enter ?_⟩
    rintro rfl
    rw [h.source]

theorem nameOf (h : entry.NamedFrom generate seed) (className : String) :
    entry.nameOf generate seed.path className = generate className seed := by
  unfold Entry.nameOf
  rw [h.source]
  exact (h.table className).getD

end Entry.NamedFrom

/-! ## The document's own names -/

namespace Stylesheet.Document

/-- What the names of a document are made from. -/
def seed (document : Document) : Name.Seed := ⟨document.key, document.source⟩

/-- The name that a document makes for one of its own classes. -/
def ownName (config : Config) (document : Document) (className : String) : String :=
  config.generate className document.seed

end Stylesheet.Document

/-- Whenever the document refers to itself, it is answered with its own name for the class. -/
theorem nameOf_own (hresolve : config.resolve = Path.resolve)
    (hreaches : document.Reaches config store step cx) (className : String) :
    cx.store.nameOf config.generate document.key className = document.ownName config className := by
  have hopened : ((document.opening store).store.entry document.key).NamedFrom config.generate
      document.seed := by
    rw [entry_opening, if_pos rfl]
    exact ⟨rfl, fun _ => .empty⟩
  obtain ⟨before, after, hsteps, hbefore⟩ := hreaches
  have hnamed := entry_reached (motive := Entry.NamedFrom config.generate document.seed) hresolve
    (fun entry asked h => h.remember asked) hopened hsteps
  rw [hbefore] at hnamed
  exact hnamed.nameOf className

/-- A class that no directive binds has the document's own name in its table, if any. -/
theorem agrees_finished (hlabel : className ∉ document.labels config) :
    (document.finished config store).Agrees className (document.ownName config className) := by
  suffices hkept : (document.performed config store).2.seed = document.seed ∧
      (document.finished config store).Agrees className (document.ownName config className) from
    hkept.2
  refine perform_induction (motive := fun cx => cx.seed = document.seed ∧
    cx.table.Agrees className (document.ownName config className)) ⟨opening_seed, ?_⟩ ?_
  · rw [opening_table]
    exact .empty
  rintro step hstep cx - ⟨hseed, htable⟩
  cases step with
  | own asked =>
    refine ⟨hseed, htable.enter ?_⟩
    rintro rfl
    rw [hseed]
    rfl
  | bind directive label target asked =>
    have hmem : label ∈ document.labels config := List.mem_filterMap.2 ⟨_, hstep, rfl⟩
    refine ⟨hseed, htable.enter ?_⟩
    rintro rfl
    exact absurd hmem hlabel
  | fail | require | ask | addImport => exact ⟨hseed, htable⟩

/-- A class that stands in local scope, and that no directive binds, has the document's own name in
its table. -/
theorem get?_finished_of_own {given : Table}
    (h : (process config document store).result = .ok given)
    (hown : className ∈ document.ownClasses config) (hlabel : className ∉ document.labels config) :
    (document.finished config store).get? className = some (document.ownName config className) := by
  obtain ⟨cx, hperformed⟩ := performed_of_ok h
  have hcontains : (document.finished config store).contains className :=
    (contains_perform (congrArg Prod.fst hperformed) className).2 (.inr (.inl hown))
  obtain ⟨name, hname⟩ := (Table.contains_iff _ _).1 hcontains
  rw [hname, agrees_finished hlabel name hname]

end ScopedCss
