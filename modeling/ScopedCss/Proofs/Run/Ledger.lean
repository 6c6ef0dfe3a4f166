import ScopedCss.Proofs.Document.Frame
import ScopedCss.Proofs.Run.Atomicity

/-!
# The store as a ledger

A store goes through placeholders, documents that are begun and documents that are taken back. In
the end all of this comes to a ledger with one line for each file: its last success since all
documents were forgotten.

* `ledgerAfter` keeps this ledger beside a run, from the results of its calls alone.
* `Recorded` relates a line of the ledger to what the store has under the same key. Each call keeps
  it (`Store.Records.run`), so it holds after every run (`storeAfter_records`).
-/

namespace ScopedCss

open Stylesheet (Document)

/-! ## The ledger -/

/-- A document that was scoped. -/
structure Success where
  config : Config
  document : Document
  /-- The table that was given out. -/
  given : Table
  /-- The table of the document, before its names were turned into camel case. -/
  finished : Table

/-- The last success under each key. -/
abbrev Ledger := Std.ExtTreeMap (List String) Success

/-- Enter what a call in this store has come to. A document that fails leaves no line. -/
def Call.enter (store : Store) (ledger : Ledger) : Call → Ledger
  | process config document =>
    match (ScopedCss.process config document store).result with
    | .ok given =>
      ledger.insert document.key.components
        ⟨config, document, given, document.finished config store⟩
    | .error _ => ledger
  | reset => ∅

/-- The ledger after more calls, made one after the other from this store on. -/
def ledgerFrom (store : Store) (ledger : Ledger) : List Call → Ledger
  | [] => ledger
  | call :: calls => ledgerFrom (call.run store) (call.enter store ledger) calls

/-- The ledger of a run. -/
def ledgerAfter (calls : List Call) : Ledger := ledgerFrom ∅ ∅ calls

/-! ## What the store has of it -/

/-- What the store has under a key, by the line of the ledger: the last success, with its text and
its table as it was finished, under the normalized path; or at most a placeholder without a text. -/
inductive Recorded : Option Success → Option Slot → Prop
  | success {success : Success}
      (hgiven : success.given = (givenTable success.config success.finished).1) :
      Recorded (some success)
        (some ⟨success.document.key, success.finished, some success.document.source, .processed⟩)
  | placeholder (path : Path) (table : Table) :
      Recorded none (some ⟨path, table, none, .placeholder⟩)
  | absent : Recorded none none

/-- The store has under each key what the ledger says. -/
def Store.Records (store : Store) (ledger : Ledger) : Prop :=
  ∀ k : List String, Recorded ledger[k]? store.slots[k]?

variable {config : Config} {document : Document} {store : Store} {ledger : Ledger}

/-- What other documents leave is recorded as what was there. -/
theorem Recorded.leaves {declared : Path → Prop} {k : List String} {success? : Option Success}
    {was is : Option Slot} (h : Recorded success? was) (hleaves : Leaves declared k was is) :
    Recorded success? is := by
  cases h with
  | success hgiven =>
    cases hleaves with
    | grown hstage => exact absurd rfl hstage
    | frozen => exact .success hgiven
  | placeholder path =>
    cases hleaves with
    | grown => exact .placeholder path _
    | frozen hstage => cases hstage
  | absent =>
    cases hleaves with
    | absent => exact .absent
    | created => exact .placeholder _ _

theorem records_empty : (∅ : Store).Records ∅ := by
  intro k
  rw [Store.slots_empty, Std.ExtTreeMap.getElem?_empty]
  exact .absent

namespace Store.Records

theorem atRest (h : store.Records ledger) : store.AtRest := by
  intro k slot hslot
  have hk := h k
  rw [hslot] at hk
  generalize ledger[k]? = success? at hk
  cases hk <;> exact nofun

theorem process (h : store.Records ledger) :
    (ScopedCss.process config document store).store.Records
      ((Call.process config document).enter store ledger) := by
  intro k
  cases hresult : (ScopedCss.process config document store).result with
  | error error =>
    rw [process_store_of_error h.atRest hresult]
    simp only [Call.enter, hresult]
    exact h k
  | ok given =>
    simp only [Call.enter, hresult, Std.ExtTreeMap.getElem?_insert,
      Std.LawfulEqOrd.compare_eq_iff_eq]
    by_cases hk : document.key.components = k
    · subst hk
      have hslot : (ScopedCss.process config document store).store.slots[document.key.components]?
          = _ := slot?_process hresult
      rw [if_pos rfl, hslot]
      exact .success (given_eq hresult)
    · rw [if_neg hk]
      exact (h k).leaves (leaves_process hresult hk)

theorem run (h : store.Records ledger) (call : Call) :
    (call.run store).Records (call.enter store ledger) := by
  cases call with
  | process config document => exact h.process
  | reset => exact records_empty

theorem foldl (h : store.Records ledger) (calls : List Call) :
    (calls.foldl Call.run store).Records (ledgerFrom store ledger calls) := by
  induction calls generalizing store ledger with
  | nil => exact h
  | cons call calls ih => exact ih (h.run call)

end Store.Records

/-- **The store is the record of the last successes.** After any calls, of documents that succeed or
fail under configurations of their own, and with all documents forgotten now and then, the processed
entries are those of the documents that have been scoped since, each with the text and the finished
table of its last success. Every other entry is a placeholder without a text, and none is that of a
document that is being processed. -/
theorem storeAfter_records (calls : List Call) : (storeAfter calls).Records (ledgerAfter calls) :=
  records_empty.foldl calls

/-- All documents are forgotten after the first one. The next one succeeds twice, under two
spellings of its path, one fails, and one refers to a file that is not processed. -/
theorem storeAfter_records_respelled :
    let config := Config.ofOptions {}
    let calls : List Call := [.process config ⟨⟨"/d.css"⟩, "", [.rule ".x" []]⟩, .reset,
      .process config ⟨⟨"/b.css"⟩, "old", [.rule ".x" []]⟩,
      .process config ⟨⟨"/s/../b.css"⟩, "new", [.rule ".y" []]⟩,
      .process config ⟨⟨"/a.css"⟩, "", [.statement "use" "(.x) from './c.css'"]⟩,
      .process { config with missing := .warn }
        ⟨⟨"/e.css"⟩, "", [.statement "use" "(.x) from './f.css'"]⟩]
    ((ledgerAfter calls).toList.map fun line => (line.1, line.2.document.source))
        = [(["/", "b.css"], "new"), (["/", "e.css"], "")] ∧
      ((storeAfter calls).toList.map fun slot => (slot.path, slot.entry.source, slot.entry.stage))
        = [(⟨"/b.css"⟩, some "new", .processed), (⟨"/e.css"⟩, some "", .processed),
          (⟨"/f.css"⟩, none, .placeholder)] ∧
      (storeAfter calls).Records (ledgerAfter calls) := by
  intro config calls
  exact ⟨by decide +kernel, by decide +kernel, storeAfter_records calls⟩

end ScopedCss
