import ScopedCss.Proofs.Step.Walk

/-!
# The steps of a document

Processing a document is performing its steps in a store that is ready for it, and then keeping what
they did or taking it back.

* `Document.steps`: the steps of a document, which depend on nothing but the document and the
  configuration.
* `process_of_done`, `process_of_fault`: what processing a document comes to.
-/

namespace ScopedCss

open Stylesheet (Node Document)

variable (config : Config) (document : Document) (store : Store)

/-- The path that the store keeps a document under. -/
def Stylesheet.Document.key : Path := document.path.normalize

/-- The steps of a document. -/
def Stylesheet.Document.steps : List Step :=
  stepsOf config document.key.directory ∅ document.nodes

/-- The nodes of a document with the names of a table and a store. -/
def Stylesheet.Document.settled (table : Table) (names : Store) : List Node :=
  settle config document.key.directory table names ∅ document.nodes

/-- The context in which the steps of a document are performed. -/
def Stylesheet.Document.opening : Context :=
  .start document.key document.source (store.begin document.key document.source).1

/-- The entry that a document takes the place of. -/
def Stylesheet.Document.checkpoint : Checkpoint := (store.begin document.key document.source).2

/-- The steps of a document, performed. -/
def Stylesheet.Document.performed : Except Error Unit × Context :=
  perform config (document.steps config) (document.opening store)

variable {config document store} {cx : Context}

theorem opening_directory : (document.opening store).directory = document.key.directory := by
  rw [Document.opening, Context.start]

theorem opening_imports : (document.opening store).imports = ∅ := by
  rw [Document.opening, Context.start]

theorem opening_seed : (document.opening store).seed = ⟨document.key, document.source⟩ := by
  rw [Document.opening, Context.start, Context.seed]

theorem opening_table : (document.opening store).table = ∅ := by
  rw [Document.opening, Context.start]

/-- Whatever the document's own entry was, it is a new one now. -/
theorem entry_opening (file : Path) :
    (document.opening store).store.entry file
      = if document.key.SamePlace file then ⟨∅, some document.source, .processing⟩
        else store.entry file :=
  Store.entry_put ..

/-- The walk through a document comes to the same end as its steps, and to nodes with the names that
are there in the end. -/
theorem walk_of_performed {ended : Except Error Unit}
    (h : document.performed config store = (ended, cx)) :
    ∃ nodes log, (walk config document.nodes).run (document.opening store)
        = ((ended, nodes), { cx with log }) ∧
      (ended = .ok () → nodes = document.settled config cx.table cx.store) := by
  have hwalks := walk_walks config (document.opening store) document.nodes
  rw [opening_directory, opening_imports] at hwalks
  obtain ⟨⟨hended, hsilent⟩, hsettled⟩ := hwalks
  rw [show perform config (stepsOf config _ _ _) _ = _ from h] at hended hsilent
  generalize (walk config document.nodes).run (document.opening store)
    = out at hended hsilent hsettled ⊢
  obtain ⟨⟨ended', nodes⟩, cx'⟩ := out
  obtain rfl : ended = ended' := hended
  -- the walk leaves what the steps leave, and a log
  have hleft : cx' = { cx with log := cx'.log } :=
    (congrArg (fun left => { left with log := cx'.log }) hsilent).symm
  have htable : cx'.table = cx.table := (congrArg Context.table hsilent.symm :)
  have hstore : cx'.store = cx.store := (congrArg Context.store hsilent.symm :)
  refine ⟨nodes, cx'.log, congrArg _ hleft, fun hok => ?_⟩
  exact hsettled hok _ _ (le_of_eq htable) (le_of_eq hstore)

/-- **A document fails with the first fault of its steps.** It is left as it was, and what the steps
before did to the store is taken back. -/
theorem process_of_fault {error : Error}
    (h : document.performed config store = (.error error, cx)) :
    (process config document store).result = .error error ∧
      (process config document store).document = document ∧
      (process config document store).store
        = cx.store.rollback (document.checkpoint store) cx.journal := by
  obtain ⟨nodes, log, hwalk, -⟩ := walk_of_performed h
  simp only [process]
  generalize hrun : StateT.run (walk config document.nodes) _ = walked
  obtain rfl := hrun.symm.trans hwalk
  exact ⟨rfl, rfl, rfl⟩

/-- **A document without a fault is scoped.** Its table goes into the store, and its nodes have the
names that are there in the end. -/
theorem process_of_done (h : document.performed config store = (.ok (), cx)) :
    (process config document store).result = .ok (givenTable config cx.table).1 ∧
      (process config document store).document
        = { document with nodes := document.settled config cx.table cx.store } ∧
      (process config document store).store
        = cx.store.commit (document.checkpoint store) cx.table := by
  obtain ⟨nodes, log, hwalk, hnodes⟩ := walk_of_performed h
  obtain rfl := hnodes rfl
  simp only [process]
  generalize hrun : StateT.run (walk config document.nodes) _ = walked
  obtain rfl := hrun.symm.trans hwalk
  exact ⟨rfl, rfl, rfl⟩

theorem path_of_performed {steps : List Step} {ended : Except Error Unit}
    (h : perform config steps (document.opening store) = (ended, cx)) : cx.path = document.key := by
  have hplace := (perform_place config steps (document.opening store)).1
  rwa [h] at hplace

/-- A document that is scoped has no fault. -/
theorem performed_of_ok {given : Table} (h : (process config document store).result = .ok given) :
    ∃ cx, document.performed config store = (.ok (), cx) := by
  match hperformed : document.performed config store with
  | (.ok (), cx) => exact ⟨cx, rfl⟩
  | (.error error, cx) => cases h.symm.trans (process_of_fault hperformed).1

/-- A document that fails has a fault, and fails with it. -/
theorem performed_of_error {error : Error}
    (h : (process config document store).result = .error error) :
    ∃ cx, document.performed config store = (.error error, cx) := by
  match hperformed : document.performed config store with
  | (.ok (), cx) => cases h.symm.trans (process_of_done hperformed).1
  | (.error error', cx) =>
    obtain rfl := Except.error.inj (h.symm.trans (process_of_fault hperformed).1)
    exact ⟨cx, rfl⟩

end ScopedCss
