import Mathlib.Control.Monad.Basic
import ScopedCss.Proofs.Step.Document

/-!
# One name for each class of a document

The table of a document grows while selectors are already being written. No name in it ever changes,
so the selectors have the names of the finished table (`process_oneName`): it is as if they had been
written in a second pass over the document.

* `Document.ownClasses`: the classes that stand in the document's selectors in local scope.
* `Document.labels`: the labels that its directives bind.
-/

namespace ScopedCss

open Stylesheet (Document)

/-- The class of the document that a step asks for. -/
def Step.ownClass? : Step → Option String
  | own className => some className
  | _ => none

/-- The label that a step binds. -/
def Step.label? : Step → Option String
  | bind _ label _ _ => some label
  | _ => none

/-- The classes in local scope, in all selectors of a document, with those in the parentheses of
markers and the dotted aliases of references that lead nowhere. -/
def Stylesheet.Document.ownClasses (config : Config) (document : Document) : List String :=
  (document.steps config).filterMap Step.ownClass?

/-- The labels that the directives of a document bind. -/
def Stylesheet.Document.labels (config : Config) (document : Document) : List String :=
  (document.steps config).filterMap Step.label?

variable {config : Config} {steps more : List Step} {cx : Context}

/-! ## The table while steps are performed -/

theorem table_perform_append_le :
    (perform config steps cx).2.table ≤ (perform config (steps ++ more) cx).2.table := by
  rw [perform_append]
  match perform config steps cx with
  | (.ok (), cx₁) => exact (le_perform config more cx₁).1
  | (.error _, cx₁) => exact le_refl _

/-- A step without a fault gives the document its class or its label, and nothing else. -/
theorem contains_effect (step : Step) (hfault : step.fault? config cx = none) (className : String) :
    (step.effect config cx).table.contains className ↔
      cx.table.contains className ∨ step.ownClass? = some className ∨
        step.label? = some className := by
  cases step with
  | bind directive label target asked =>
    show (cx.table.enter _ _).contains className ↔ _
    rw [Table.contains_enter]
    simp [Step.ownClass?, Step.label?, or_comm]
  | own asked =>
    show (cx.table.enter _ _).contains className ↔ _
    rw [Table.contains_enter]
    simp [Step.ownClass?, Step.label?, or_comm]
  | fail error => cases hfault
  | require | ask | addImport => simp [Step.effect, Step.ownClass?, Step.label?]

theorem contains_perform (h : (perform config steps cx).1 = .ok ()) (className : String) :
    (perform config steps cx).2.table.contains className ↔
      cx.table.contains className ∨ className ∈ steps.filterMap Step.ownClass? ∨
        className ∈ steps.filterMap Step.label? := by
  induction steps generalizing cx with
  | nil => simp [perform]
  | cons step steps ih =>
    have hfault := fault?_of_perform_cons h
    rw [perform_cons hfault] at h ⊢
    rw [ih h, contains_effect step hfault]
    simp only [List.mem_filterMap, List.mem_cons, or_and_right, exists_or, exists_eq_left]
    grind

/-! ## The finished table -/

/-- The table of a document after some of its steps. -/
def Stylesheet.Document.tableAfter (config : Config) (document : Document) (store : Store)
    (steps : List Step) : Table :=
  (perform config steps (document.opening store)).2.table

/-- The table of a document when all of its steps are done. -/
def Stylesheet.Document.finished (config : Config) (document : Document) (store : Store) : Table :=
  document.tableAfter config store (document.steps config)

theorem table?_commit (store : Store) (checkpoint : Checkpoint) (table : Table) :
    (store.commit checkpoint table).table? checkpoint.path = some table := by
  have hslot : (store.commit checkpoint table).slot? checkpoint.path = _ :=
    (Store.slots_commit ..).trans (if_pos rfl)
  rw [Store.table?, Store.get?, hslot]
  rfl

/-- **One name for each class of a document.** For any generator and any store, a name that is in
the table at one moment is there ever after, so that the document is written as if it were gone
through once more with its finished table: each of its own classes in local scope becomes a dot and
the name that the table has for it. The table has these classes and the labels of directives, and no
other. -/
theorem process_oneName {document : Document} {store : Store} {given : Table}
    (h : (process config document store).result = .ok given) :
    (∀ before more after, document.steps config = before ++ more ++ after →
      document.tableAfter config store before ≤ document.tableAfter config store (before ++ more)) ∧
    (process config document store).store.table? document.key
      = some (document.finished config store) ∧
    (process config document store).document.nodes
      = document.settled config (document.finished config store)
          (document.performed config store).2.store ∧
    ∀ className, (document.finished config store).contains className ↔
      className ∈ document.ownClasses config ∨ className ∈ document.labels config := by
  obtain ⟨cx, hperformed⟩ := performed_of_ok h
  obtain ⟨-, hdocument, hstore⟩ := process_of_done hperformed
  have hfinished : document.finished config store = cx.table :=
    congrArg (fun performed => performed.2.table) hperformed
  refine ⟨fun before more after _ => table_perform_append_le, ?_, ?_, fun className => ?_⟩
  · rw [hstore, hfinished]
    exact table?_commit _ _ _
  · rw [hdocument, hfinished, hperformed]
  · have hcontains := contains_perform (congrArg Prod.fst hperformed) className
    have hnone : ¬ (document.opening store).table.contains className := by
      rw [Table.contains_iff]
      rintro ⟨name, hname⟩
      cases (Table.get?_empty className).symm.trans hname
    exact hcontains.trans (or_iff_right hnone)

/-- A label, classes in markers, and a class that is the alias of a reference that leads nowhere. -/
theorem process_oneName_nested :
    let config := Config.ofOptions { missing := .warn }
    let document : Document := ⟨⟨"/a.css"⟩, "", [.statement "use" "(.x as .y) from './b.css'",
      .block "media" "print" [.rule ".a:global(.b :local(.c)) .y" [.rule ".d::e .a" []]]]⟩
    let finished := Table.ofList [("y", "_x_i6491_tsq9z"), ("a", "_a_i649y_tthz1"),
      ("c", "_c_i649y_tthz3"), ("d", "_d_i649y_tthyw")]
    (process config document ∅).result = .ok finished ∧
      document.finished config ∅ = finished ∧
      (process config document ∅).document.nodes
        = document.settled config finished (document.performed config ∅).2.store := by
  intro config document finished
  have h : (process config document ∅).result = .ok finished := by decide +kernel
  have hfinished : document.finished config ∅ = finished := by decide +kernel
  have hnodes := (process_oneName h).2.2.1
  rw [hfinished] at hnodes
  exact ⟨h, hfinished, hnodes⟩

end ScopedCss
