import Mathlib.Data.List.Basic
import ScopedCss.Proofs.Step.Changes
import ScopedCss.Proofs.Step.Simulation

/-!
# The references of a document

The directives of a document stand anywhere in its tree. What they take from which files can be read
off them without following them. A declaration in an `:import` rule takes what a `@use` directive
with one class, or without any, would take.

* `Document.declarations` lists what the directives take. The steps of the document refer to the
  same files (`mem_references_iff_declares`) and bind the same labels (`bind_mem_steps_iff_takes`).
* `process_eq_of_agree`: a document depends on the entries of these files, and on nothing else.
-/

namespace ScopedCss

open Stylesheet (Node Document)

/-! ## Directives and what they declare -/

mutual

/-- The directives within a node that is none itself. -/
def directivesWithin (config : Config) : Node → List Node
  | .rule _ nodes => directivesOf config nodes
  | .block _ _ nodes => directivesOf config nodes
  | _ => []

/-- The directives among these nodes and within them, in the order in which they are followed. -/
def directivesOf (config : Config) : List Node → List Node
  | [] => []
  | node :: nodes =>
    (if isDirective config node then [node] else directivesWithin config node)
      ++ directivesOf config nodes

end

/-- What a declaration in an `:import` rule takes, if it is well-formed. -/
def importDeclaration? : Node → Option Use.Directive
  | .declaration aliasName value =>
    if Text.isClassName aliasName then
      (Import.Source.parse value).toOption.map fun source =>
        ⟨source.className.toList.map fun className => ⟨className, aliasName⟩, source.path⟩
    else none
  | _ => none

/-- What a directive takes, path by path. -/
def declarationsOf : Node → List Use.Directive
  | .block _ params _ | .statement _ params => (Use.Directive.parse params).toOption.toList
  | .rule _ nodes => nodes.filterMap importDeclaration?
  | .declaration _ _ => []

namespace Stylesheet.Document

variable (config : Config) (document : Document)

/-- What the directives of a document take, path by path. -/
def declarations : List Use.Directive :=
  (directivesOf config document.nodes).flatMap declarationsOf

/-- A directive of the document declares a path that is resolved to the file. -/
def Declares (file : Path) : Prop :=
  ∃ declared ∈ document.declarations config,
    file = config.resolvePath document.key.directory declared.path

/-- A directive of the document takes a class from the file, under a label. -/
def Takes (file : Path) (reference : Use.Reference) : Prop :=
  ∃ declared ∈ document.declarations config,
    file = config.resolvePath document.key.directory declared.path ∧ reference ∈ declared.references

end Stylesheet.Document

variable {config : Config} {directory target : Path} {document : Document}

/-! ## The steps of directives -/

/-- These steps refer to files and bind labels as the declarations say. -/
structure StepsDeclare (config : Config) (directory : Path) (steps : List Step)
    (declarations : List Use.Directive) : Prop where
  require : ∀ target, .require target ∈ steps ↔
    ∃ declared ∈ declarations, target = config.resolvePath directory declared.path
  bind : ∀ label target className, (∃ directive, .bind directive label target className ∈ steps) ↔
    ∃ declared ∈ declarations, target = config.resolvePath directory declared.path ∧
      ⟨className, label⟩ ∈ declared.references

namespace StepsDeclare

theorem nothing {steps : List Step} (hrequire : ∀ target, .require target ∉ steps)
    (hbind : ∀ directive label target className, .bind directive label target className ∉ steps) :
    StepsDeclare config directory steps [] := by
  constructor <;> simp [hrequire, hbind]

theorem append {steps more : List Step} {declarations others : List Use.Directive}
    (h : StepsDeclare config directory steps declarations)
    (hmore : StepsDeclare config directory more others) :
    StepsDeclare config directory (steps ++ more) (declarations ++ others) := by
  constructor
  · intro target
    simp only [List.mem_append, h.require, hmore.require, or_and_right, exists_or]
  · intro label target className
    simp only [List.mem_append, exists_or, h.bind, hmore.bind, or_and_right]

theorem flatMap {α : Type} {stepsOf : α → List Step} {declared : α → List Use.Directive}
    (h : ∀ a, StepsDeclare config directory (stepsOf a) (declared a)) (list : List α) :
    StepsDeclare config directory (list.flatMap stepsOf) (list.flatMap declared) := by
  induction list with
  | nil => exact nothing (by simp) (by simp)
  | cons a list ih => exact (h a).append ih

/-- One declared path: a reference to the file, then the labels of its classes. -/
theorem declared (text : String) (directive : Use.Directive) :
    StepsDeclare config directory
      (.require (config.resolvePath directory directive.path) ::
        directive.references.flatMap fun reference => referenceSteps text reference.label
          (config.resolvePath directory directive.path) reference.className)
      [directive] := by
  constructor
  · intro target
    simp [referenceSteps]
  · intro label target className
    simp only [referenceSteps, List.mem_cons, List.mem_flatMap, List.not_mem_nil, or_false,
      false_or, reduceCtorEq, Step.bind.injEq, exists_eq_left]
    constructor
    · rintro ⟨_, reference, hreference, -, rfl, rfl, rfl⟩
      exact ⟨rfl, hreference⟩
    · rintro ⟨rfl, hreference⟩
      exact ⟨text, _, hreference, rfl, rfl, rfl, rfl⟩

end StepsDeclare

theorem useSteps_declare (params : String) :
    StepsDeclare config directory (useSteps config directory params)
      (Use.Directive.parse params).toOption.toList := by
  unfold useSteps
  cases Use.Directive.parse params with
  | error fault => exact .nothing (by simp) (by simp)
  | ok directive => exact .declared _ directive

theorem importSteps_declare (node : Node) :
    StepsDeclare config directory (importSteps config directory node)
      (importDeclaration? node).toList := by
  cases node with
  | declaration aliasName value =>
    simp only [importSteps, importDeclaration?]
    by_cases halias : Text.isClassName aliasName
    · rw [if_pos halias, if_pos halias]
      cases Import.Source.parse value with
      | error fault => exact .nothing (by simp) (by simp)
      | ok source =>
        -- the alias itself is no concern of the declaration
        have halone : StepsDeclare config directory
            [.addImport aliasName (config.resolvePath directory source.path)] [] :=
          .nothing (by simp) (by simp)
        have h : StepsDeclare config directory _ _ :=
          (StepsDeclare.declared (Error.importDirective aliasName) ⟨source.className.toList.map
            fun className => ⟨className, aliasName⟩, source.path⟩).append halone
        cases hclass : source.className <;> simpa [Except.toOption, hclass] using h
    · rw [if_neg halias, if_neg halias]
      exact .nothing (by simp) (by simp)
  | rule | block | statement => exact .nothing (by simp [importSteps]) (by simp [importSteps])

theorem directiveSteps_declare (node : Node) :
    StepsDeclare config directory (directiveSteps config directory node) (declarationsOf node) := by
  cases node with
  | rule selector nodes =>
    have h : StepsDeclare config directory _ _ := StepsDeclare.flatMap importSteps_declare nodes
    rwa [← List.filterMap_eq_flatMap_toList] at h
  | block name params nodes => exact useSteps_declare params
  | statement name params => exact useSteps_declare params
  | declaration property value =>
    exact .nothing (by simp [directiveSteps]) (by simp [directiveSteps])

/-! ## The steps of a document -/

theorem requestSteps_declare (imports : Imports) (request : Selector.Request) :
    StepsDeclare config directory (requestSteps imports request) [] := by
  cases request with
  | composition aliasName remote =>
    cases halias : imports[aliasName]? <;>
      exact .nothing (by simp [requestSteps, halias]) (by simp [requestSteps, halias])
  | ownName | closing => exact .nothing (by simp [requestSteps]) (by simp [requestSteps])

theorem selectorSteps_declare (imports : Imports) (selector : String) :
    StepsDeclare config directory (selectorSteps config imports selector) [] := by
  have h : StepsDeclare config directory _ _ := StepsDeclare.flatMap (requestSteps_declare imports)
    (Selector.requests imports.knows (Selector.defaultScope config.modules) selector)
  rwa [List.flatMap_eq_nil_iff.2 fun _ _ => rfl] at h

mutual

theorem nodeSteps_declare (imports : Imports) : (node : Node) →
    StepsDeclare config directory (nodeSteps config directory imports node)
      ((directivesWithin config node).flatMap declarationsOf)
  | .rule selector nodes =>
    (selectorSteps_declare imports selector).append (stepsOf_declare imports nodes)
  | .block _ _ nodes => stepsOf_declare imports nodes
  | .statement _ _ => .nothing (by simp [nodeSteps]) (by simp [nodeSteps])
  | .declaration _ _ => .nothing (by simp [nodeSteps]) (by simp [nodeSteps])

theorem stepsOf_declare (imports : Imports) : (nodes : List Node) →
    StepsDeclare config directory (stepsOf config directory imports nodes)
      ((directivesOf config nodes).flatMap declarationsOf)
  | [] => .nothing (by simp [stepsOf]) (by simp [stepsOf])
  | node :: nodes => by
    rw [stepsOf, directivesOf, List.flatMap_append]
    refine StepsDeclare.append ?_ (stepsOf_declare _ nodes)
    by_cases hdirective : isDirective config node
    · simpa [hdirective] using directiveSteps_declare node
    · simpa [hdirective] using nodeSteps_declare imports node

end

/-- The files that the steps of a document refer to are those that its directives declare. -/
theorem mem_references_iff_declares {file : Path} :
    file ∈ document.references config ↔ document.Declares config file :=
  mem_references_iff.trans ((stepsOf_declare ∅ document.nodes).require file)

/-- The labels that the steps of a document bind are those that its directives take. -/
theorem bind_mem_steps_iff_takes {file : Path} {label className : String} :
    (∃ directive, .bind directive label file className ∈ document.steps config) ↔
      document.Takes config file ⟨className, label⟩ :=
  (stepsOf_declare ∅ document.nodes).bind label file className

/-! ## What a document depends on -/

theorem indistinct_eq (config : Config) (files : Path → Prop) :
    Indistinct config files fun _ entry entry' => entry = entry' where
  refl _ _ := rfl
  isPlaceholder h := by rw [h]
  nameOf h className := by rw [h]
  remember _ _ _ h className := by rw [h]

/-- **A document depends on the entries of the files that its directives declare**, and on nothing
else in a store: not on other files, nor on its own entry from an earlier time. From two stores with
the same entries of these files it gets the same table and the same nodes, or the same error, and it
leaves the same entry of its own. -/
theorem process_eq_of_agree {store store' : Store}
    (hagree : ∀ file, document.Declares config file → ¬ document.key.SamePlace file →
      store.get? file = store'.get? file) :
    (process config document store).result = (process config document store').result ∧
      (process config document store).document = (process config document store').document ∧
      ∀ given, (process config document store).result = .ok given →
        ∃ table, (process config document store).store.slot? document.key
            = some ⟨document.key, table, some document.source, .processed⟩ ∧
          (process config document store').store.slot? document.key
            = some ⟨document.key, table, some document.source, .processed⟩ := by
  have hentries (file : Path) (hfile : file ∈ document.references config)
      (hother : ¬ document.key.SamePlace file) : store.entry file = store'.entry file := by
    unfold Store.entry
    rw [hagree file (mem_references_iff_declares.1 hfile) hother]
  obtain ⟨hresult, hdocument⟩ := process_congr (indistinct_eq config _) hentries
  refine ⟨hresult, hdocument, ?_⟩
  intro given hgiven
  obtain ⟨cx, hperformed⟩ := performed_of_ok hgiven
  obtain ⟨cx', hperformed'⟩ := performed_of_ok (hresult.symm.trans hgiven)
  -- the two walks have grown the same table
  obtain ⟨-, hsimilar⟩ := performed_similar (indistinct_eq config _) hentries
  have htable : cx.table = cx'.table := by
    have htable := hsimilar.table
    rwa [hperformed, hperformed'] at htable
  refine ⟨cx.table, slot?_process_of_done hperformed, ?_⟩
  rw [htable]
  exact slot?_process_of_done hperformed'

/-- A document is processed again, after other files have come: it refers to itself, to a file that
it takes a class from, and to one that is not processed. -/
theorem process_eq_of_agree_again :
    let config := Config.ofOptions { missing := .ignore, grammars := [.importRule, .atUse] }
    let document : Document := ⟨⟨"/a.css"⟩, "new", [.statement "use" "(.x) from './b.css'",
      .rule ":import" [.declaration "own" "'../a.css'", .declaration "later" "'./c.css'::y"],
      .rule ".x own::z later::w" []]⟩
    let base : Store := (process config ⟨⟨"/b.css"⟩, "", [.rule ".x" []]⟩ ∅).store
    let other : Document := ⟨⟨"/d.css"⟩, "", [.rule ".v" [.statement "use" "(.u) from './e.css'"]]⟩
    let grown := (process config ⟨⟨"/a.css"⟩, "old", [.rule ".z .w" []]⟩
      (process config other base).store).store
    let table := Table.ofList [("x", "_x_i6491_tsq9z"), ("later", "_y_i64bo_tuy93")]
    (process config document grown).result = .ok table ∧
      (process config document base).result = .ok table ∧
      (process config document grown).document = (process config document base).document := by
  intro config document base other grown table
  have htable : (process config document grown).result = .ok table := by decide +kernel
  have hagree : ∀ declared ∈ document.declarations config,
      let file := config.resolvePath document.key.directory declared.path
      ¬ document.key.SamePlace file → grown.get? file = base.get? file := by
    decide +kernel
  have h := @process_eq_of_agree config document grown base (by
    rintro file ⟨declared, hdeclared, rfl⟩ hother
    exact hagree declared hdeclared hother)
  exact ⟨htable, h.1.symm.trans htable, h.2.1⟩

end ScopedCss
