import ScopedCss.Proofs.Step.Replay
import ScopedCss.Proofs.Step.Simulation

/-!
# Documents that are processed again

A document that has been scoped has made all its changes of other files, and the store has kept each
name that it asked for. Processed once more, it finds these names instead of making them, and comes
to the same end (`process_again`). No generator or resolver is at odds with this, as long as they
answer the same each time: a file may even go by two spellings of its path, which have names of
their own.
-/

namespace ScopedCss

open Stylesheet (Document)

variable {config : Config} {document : Document} {store : Store} {cx : Context}

/-- Off its key, a document leaves the entries as they were when its last step was done. -/
theorem entry_process_of_ne (h : document.performed config store = (.ok (), cx)) {file : Path}
    (hother : ¬ document.key.SamePlace file) :
    (process config document store).store.entry file = cx.store.entry file := by
  rw [(process_of_done h).2.2, Store.entry_commit]
  exact if_neg hother

/-- A document that has been scoped leaves nothing to be done to other files. -/
theorem change_process (h : document.performed config store = (.ok (), cx)) {step : Step}
    (hstep : step ∈ document.steps config) :
    step.change config document.key (process config document store).store
      = (process config document store).store := by
  rw [process_store_of_done h, commute_change_keep_own, change_changes hstep]

/-- The second time a document is opened as it was the first time. -/
theorem replays_opening (config : Config) (document : Document) (store : Store) :
    Replays document.key (process config document store).store (document.opening store)
      (document.opening (process config document store).store) := by
  constructor
  · rw [opening_seed, opening_seed]
  · rw [opening_table, opening_table]
  · intro file hown
    rw [entry_opening, entry_opening, if_pos hown, if_pos hown]
  · exact sameOff_opening document _

/-- **To process a document once more has no effect.** Whatever the store, the generator and the
resolver: if the document is scoped, then the same document is scoped again, with the same table and
the same nodes, and the store stays as the first time has left it. -/
theorem process_again (store : Store) (config : Config) (document : Document) {given : Table}
    (h : (process config document store).result = .ok given) :
    let once := process config document store
    let twice := process config document once.store
    twice.result = .ok given ∧ twice.document = once.document ∧ twice.store = once.store := by
  intro once twice
  obtain ⟨cx, hperformed⟩ := performed_of_ok h
  have hleft : LeOff document.key cx.store once.store := by
    intro file hother
    exact le_of_eq (entry_process_of_ne hperformed hother).symm
  have hfixed : ∀ step ∈ document.steps config,
      step.change config document.key once.store = once.store :=
    fun step hstep => change_process hperformed hstep
  obtain ⟨cx', hperformed', hreplays⟩ := perform_replay (AsksFirst.stepsOf config _ _ _) hperformed
    hleft hfixed (replays_opening config document store)
  obtain ⟨hresult, hdocument, -⟩ := process_of_done hperformed
  obtain ⟨hresult', hdocument', -⟩ := process_of_done hperformed'
  refine ⟨?_, ?_, ?_⟩
  · rw [hresult', hreplays.table, ← hresult, h]
  · -- every file has the entry that it had when the first walk was done
    have hnames : SameNames config (fun _ => True) cx'.store cx.store := by
      intro file _ className
      rw [Store.nameOf, Store.nameOf]
      by_cases hown : document.key.SamePlace file
      · rw [hreplays.own file hown]
      · rw [hreplays.others.entry hown, entry_process_of_ne hperformed hown]
    rw [hdocument', hdocument, hreplays.table]
    congr 1
    exact settle_congr hnames ∅ (fun _ _ _ => trivial) document.nodes fun _ _ _ _ => trivial
  · rw [process_store_of_done hperformed', changes_eq_self hfixed, hreplays.table]
    rw [show once.store = _ from process_store_of_done hperformed]
    exact Store.keep_keep _ _ _

/-- The paths of files are not normalized, and names are made from texts. The document replaces a
placeholder, refers to itself, adds to another placeholder under two spellings of its path, and
makes a third one. -/
theorem process_again_respelled :
    let options : Options :=
      { missing := .warn, naming := .content, grammars := [.importRule, .atUse] }
    let config := { Config.ofOptions options with
      resolve := fun declared directory => directory.join ⟨declared⟩ }
    let store := (process config ⟨⟨"/d.css"⟩, "", [.statement "use" "(.u) from 'p.css'",
      .statement "use" "(.v) from 'a.css'"]⟩ ∅).store
    let document : Document := ⟨⟨"/a.css"⟩, "new", [.statement "use" "(.u, .x) from './p.css'",
      .rule ":import" [.declaration "own" "'a.css'", .declaration "later" "'n.css'::y"],
      .rule ".x own::v .v" [.statement "use" "(.w) from 'p.css'", .rule "later::z own::u" []]]⟩
    let given := Table.ofList [("u", "_u_i64lz_u3l20"), ("x", "_x_u3lau_8jc7o"),
      ("later", "_y_i645l_tptoq"), ("v", "_v_375v0_1"), ("w", "_w_i64lz_u3l22")]
    let once := process config document store
    let twice := process config document once.store
    store.table? ⟨"/a.css"⟩ = some (Table.ofList [("v", "_v_i649y_tthyi")]) ∧
      once.store.table? ⟨"/p.css"⟩ = some (Table.ofList [("u", "_u_i64lz_u3l20"),
        ("x", "_x_u3lau_8jc7o"), ("w", "_w_i64lz_u3l22")]) ∧
      once.result = .ok given ∧ twice.result = .ok given ∧ twice.document = once.document ∧
      twice.store = once.store := by
  intro options config store document given once twice
  have h : once.result = .ok given := by decide +kernel
  exact ⟨by decide +kernel, by decide +kernel, h, process_again store config document h⟩

end ScopedCss
