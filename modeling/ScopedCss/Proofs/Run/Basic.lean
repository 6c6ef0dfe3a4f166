import ScopedCss.Proofs.Step.Document
import ScopedCss.Session

/-!
# Runs

A run is a list of calls that share a store, which is empty at first. A call processes a document,
under a configuration of its own, or forgets all documents.

* `storeAfter_induction`: what holds of the empty store, and after a document if it held before,
  holds after every run.
-/

namespace ScopedCss

open Stylesheet (Document)

/-- What can be done to a store. -/
inductive Call where
  /-- Process a document. -/
  | process (config : Config) (document : Document)
  /-- Forget all documents. -/
  | reset

/-- The store after a call. -/
def Call.run (store : Store) : Call → Store
  | process config document => (ScopedCss.process config document store).store
  | reset => ∅

/-- The store after these calls, made one after the other. -/
def storeAfter (calls : List Call) : Store := calls.foldl Call.run ∅

theorem storeAfter_append (calls : List Call) (call : Call) :
    storeAfter (calls ++ [call]) = call.run (storeAfter calls) := by
  rw [storeAfter, List.foldl_append]
  rfl

theorem storeAfter_induction {motive : Store → Prop} (empty : motive ∅)
    (process : ∀ config document store, motive store →
      motive (process config document store).store) (calls : List Call) :
    motive (storeAfter calls) := by
  suffices ∀ store, motive store → motive (calls.foldl Call.run store) from this ∅ empty
  induction calls with
  | nil => exact fun _ h => h
  | cons call calls ih =>
    intro store h
    refine ih _ ?_
    cases call with
    | process config document => exact process config document store h
    | reset => exact empty

end ScopedCss
