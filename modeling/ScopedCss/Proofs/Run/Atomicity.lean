import Mathlib.Control.Monad.Basic
import ScopedCss.Proofs.Run.Basic
import ScopedCss.Proofs.Store.Recovery

/-!
# A document is scoped as a whole or not at all

At every moment of a walk the journal knows the way back to the store in which the document was
begun (`recoverable_perform`), so that a document that fails has no effect (`process_atomic`). This
takes that no other document is being processed meanwhile, which holds after every run
(`atRest_storeAfter`).
-/

namespace ScopedCss

open Stylesheet (Document)

variable {config : Config} {document : Document} {store : Store}

variable (config document) in
/-- At every moment the journal knows the way back. -/
theorem recoverable_perform (hrest : store.AtRest) (steps : List Step) :
    Recoverable store document.key (perform config steps (document.opening store)).2.store
      (perform config steps (document.opening store)).2.journal := by
  refine perform_induction (motive := fun cx => Recoverable store document.key cx.store cx.journal)
    (.begin store document.key document.source) ?_
  intro step _ cx _ h
  cases step with
  | require target => exact h.require target
  | ask target className => exact h.ask hrest config.generate target className
  | fail | bind | addImport | own => exact h

/-- A document that fails leaves the store as it was. -/
theorem process_store_of_error (hrest : store.AtRest) {error : Error}
    (h : (process config document store).result = .error error) :
    (process config document store).store = store := by
  obtain ⟨cx, hperformed⟩ := performed_of_error h
  have hrecoverable := recoverable_perform config document hrest (document.steps config)
  rw [show perform _ _ _ = _ from hperformed] at hrecoverable
  rw [(process_of_fault hperformed).2.2]
  exact hrecoverable.rollback

theorem atRest_process (hrest : store.AtRest) : (process config document store).store.AtRest := by
  match hperformed : document.performed config store with
  | (.error _, cx) => rwa [process_store_of_error hrest (process_of_fault hperformed).1]
  | (.ok (), cx) =>
    have hrecoverable := recoverable_perform config document hrest (document.steps config)
    rw [show perform _ _ _ = _ from hperformed] at hrecoverable
    rw [(process_of_done hperformed).2.2]
    intro k slot hslot hstage
    rw [Store.slots_commit] at hslot
    split at hslot
    · obtain rfl := Option.some.inj hslot
      cases hstage
    · next hk => exact hk (hrecoverable.own_of_processing hrest hslot hstage)

/-- No document is being processed after a run. -/
theorem atRest_storeAfter (calls : List Call) : (storeAfter calls).AtRest := by
  refine storeAfter_induction (fun k slot hslot => ?_) (fun _ _ _ => atRest_process) calls
  rw [Store.slots_empty] at hslot
  cases hslot

/-- **A document that fails has no effect.** Whatever was processed before, under whatever
configurations, and wherever the document fails, the store has the same entries under the same
spellings as before, and the document has the same nodes. -/
theorem process_atomic (calls : List Call) (config : Config) (document : Document) {error : Error}
    (h : (process config document (storeAfter calls)).result = .error error) :
    (process config document (storeAfter calls)).store = storeAfter calls ∧
      (process config document (storeAfter calls)).document = document := by
  obtain ⟨cx, hperformed⟩ := performed_of_error h
  exact ⟨process_store_of_error (atRest_storeAfter calls) h, (process_of_fault hperformed).2.1⟩

/-- Deep in the second document a label is taken, after it has added a class to the placeholder that
the first one made, and has made another one. -/
theorem process_atomic_labelTaken :
    let config := Config.ofOptions { missing := .warn }
    let calls : List Call :=
      [.process config ⟨⟨"/a.css"⟩, "", [.statement "use" "(.x) from './b.css'"]⟩]
    let document : Document := ⟨⟨"/c.css"⟩, "", [.rule ".z" [.statement "use" "(.y) from './b.css'",
      .statement "use" "(.y as .w) from './d.css'", .statement "use" "(.v as .y) from './b.css'"]]⟩
    (process config document (storeAfter calls)).result = .error (.directive
        (Error.useDirective "(.v as .y) from './b.css'") (.labelTaken "y" "_y_i6491_tsq9y")) ∧
      (process config document (storeAfter calls)).store = storeAfter calls ∧
      (process config document (storeAfter calls)).document = document := by
  intro config calls document
  have h : (process config document (storeAfter calls)).result = .error (.directive
      (Error.useDirective "(.v as .y) from './b.css'") (.labelTaken "y" "_y_i6491_tsq9y")) := by
    decide +kernel
  exact ⟨h, process_atomic calls config document h⟩

end ScopedCss
