import ScopedCss.Proofs.Path.Canonical
import ScopedCss.Proofs.Step.Document

/-!
# The files that a document refers to

A document refers to other files by its directives only. Whatever file a step of it is about, there
is a directive that refers to this file, by a declared path that is resolved from the document's
directory (`refersTo_of_mem_steps`).
-/

namespace ScopedCss

open Stylesheet (Node Document)

/-- The file that a step is about, if it is not the document itself. -/
def Step.target? : Step → Option Path
  | require target => some target
  | ask target _ => some target
  | bind _ _ target _ => some target
  | addImport _ target => some target
  | _ => none

/-- The file that a directive refers to in a step. -/
def Step.required? : Step → Option Path
  | require target => some target
  | _ => none

/-- The files that the directives of a document refer to. -/
def Stylesheet.Document.references (config : Config) (document : Document) : List Path :=
  (document.steps config).filterMap Step.required?

variable (config : Config) (directory : Path)

/-- These steps refer to a file, by a declared path in a document of this directory. -/
def RefersTo (steps : List Step) (target : Path) : Prop :=
  .require target ∈ steps ∧ ∃ declared, target = config.resolvePath directory declared

/-- Each file that these steps are about is one that is known, or the steps refer to it. -/
def Referred (known : Path → Prop) (steps : List Step) : Prop :=
  ∀ step ∈ steps, ∀ target, step.target? = some target →
    known target ∨ RefersTo config directory steps target

namespace Referred

variable {config directory} {known known' : Path → Prop} {steps more : List Step}

theorem nil : Referred config directory known [] := by
  intro step hstep
  cases hstep

theorem mono (h : Referred config directory known steps)
    (hknown : ∀ target, known target → known' target) : Referred config directory known' steps := by
  intro step hstep target htarget
  exact (h step hstep target htarget).imp_left (hknown target)

/-- Steps may be about the files that the steps before them refer to. -/
theorem append (h : Referred config directory known steps)
    (hmore : Referred config directory (fun target =>
      known target ∨ RefersTo config directory steps target) more) :
    Referred config directory known (steps ++ more) := by
  intro step hstep target htarget
  rcases List.mem_append.1 hstep with hstep | hstep
  · refine (h step hstep target htarget).imp_right fun hrefers => ?_
    exact ⟨List.mem_append_left _ hrefers.1, hrefers.2⟩
  · rcases hmore step hstep target htarget with (hknown | hrefers) | hrefers
    · exact .inl hknown
    · exact .inr ⟨List.mem_append_left _ hrefers.1, hrefers.2⟩
    · exact .inr ⟨List.mem_append_right _ hrefers.1, hrefers.2⟩

theorem flatMap {α : Type} {list : List α} {stepsOf : α → List Step}
    (h : ∀ a ∈ list, Referred config directory known (stepsOf a)) :
    Referred config directory known (list.flatMap stepsOf) := by
  induction list with
  | nil => exact nil
  | cons a list ih =>
    obtain ⟨hfirst, hrest⟩ := List.forall_mem_cons.1 h
    rw [List.flatMap_cons]
    exact hfirst.append ((ih hrest).mono fun _ => .inl)

/-- Steps that are about files that are known. -/
theorem of_known (h : ∀ step ∈ steps, ∀ target, step.target? = some target → known target) :
    Referred config directory known steps := by
  intro step hstep target htarget
  exact .inl (h step hstep target htarget)

/-- A reference to a declared path, and steps that are about it. -/
theorem require_cons (declared : String)
    (h : ∀ step ∈ steps, ∀ target, step.target? = some target →
      target = config.resolvePath directory declared) :
    Referred config directory known
      (.require (config.resolvePath directory declared) :: steps) := by
  intro step hstep target htarget
  obtain rfl : target = config.resolvePath directory declared := by
    rcases List.mem_cons.1 hstep with rfl | hstep
    · exact (Option.some.inj htarget).symm
    · exact h step hstep target htarget
  exact .inr ⟨List.mem_cons_self, declared, rfl⟩

end Referred

/-! ## The steps of a document -/

variable {config directory} {known : Path → Prop}

theorem target_of_mem_referenceSteps {directive label className : String} {target target' : Path}
    {step : Step} (hstep : step ∈ referenceSteps directive label target className)
    (htarget : step.target? = some target') : target' = target := by
  simp only [referenceSteps, List.mem_cons, List.not_mem_nil, or_false] at hstep
  rcases hstep with rfl | rfl <;> exact (Option.some.inj htarget).symm

theorem referred_useSteps (params : String) :
    Referred config directory known (useSteps config directory params) := by
  unfold useSteps
  cases Use.Directive.parse params with
  | error fault => exact .of_known (by simp [Step.target?])
  | ok directive =>
    refine .require_cons _ fun step hstep target htarget => ?_
    obtain ⟨reference, -, hstep⟩ := List.mem_flatMap.1 hstep
    exact target_of_mem_referenceSteps hstep htarget

theorem referred_importSteps (node : Node) :
    Referred config directory known (importSteps config directory node) := by
  unfold importSteps
  split
  · next aliasName value =>
    split
    · cases Import.Source.parse value with
      | error fault => exact .of_known (by simp [Step.target?])
      | ok source =>
        refine .require_cons _ fun step hstep target htarget => ?_
        rcases List.mem_append.1 hstep with hstep | hstep
        · cases hclass : source.className with
          | none => simp [hclass] at hstep
          | some className =>
            rw [hclass] at hstep
            exact target_of_mem_referenceSteps hstep htarget
        · obtain rfl := List.mem_singleton.1 hstep
          exact (Option.some.inj htarget).symm
    · exact .of_known (by simp [Step.target?])
  · exact .of_known (by simp [Step.target?])

theorem referred_directiveSteps (node : Node) :
    Referred config directory known (directiveSteps config directory node) := by
  cases node with
  | rule selector nodes => exact .flatMap fun node _ => referred_importSteps node
  | block name params nodes => exact referred_useSteps params
  | statement name params => exact referred_useSteps params
  | declaration property value => exact .nil

/-- The aliases stand for files that are known. -/
def Imports.Within (imports : Imports) (known : Path → Prop) : Prop :=
  ∀ (aliasName : String) (target : Path), imports[aliasName]? = some target → known target

theorem Imports.Within.add {imports : Imports} (h : imports.Within known) {step : Step}
    (hstep : ∀ target, step.target? = some target → known target) :
    (imports.add step).Within known := by
  cases step with
  | addImport aliasName target =>
    intro aliasName' target' htarget'
    simp only [Imports.add, Std.ExtTreeMap.getElem?_insert] at htarget'
    split at htarget'
    · exact Option.some.inj htarget' ▸ hstep target rfl
    · exact h aliasName' target' htarget'
  | fail | require | ask | bind | own => exact h

theorem Imports.Within.addAll {imports : Imports} {steps : List Step} (h : imports.Within known)
    (hsteps : ∀ step ∈ steps, ∀ target, step.target? = some target → known target) :
    (imports.addAll steps).Within known := by
  induction steps generalizing imports with
  | nil => exact h
  | cons step steps ih =>
    obtain ⟨hstep, hrest⟩ := List.forall_mem_cons.1 hsteps
    exact ih (h.add hstep) hrest

theorem referred_selectorSteps {imports : Imports} (h : imports.Within known) (selector : String) :
    Referred config directory known (selectorSteps config imports selector) := by
  refine .flatMap fun request _ => .of_known fun step hstep target htarget => ?_
  cases request with
  | ownName className =>
    obtain rfl := List.mem_singleton.1 hstep
    cases htarget
  | composition aliasName remote =>
    simp only [requestSteps] at hstep
    cases halias : imports[aliasName]? with
    | none => simp [halias] at hstep
    | some target' =>
      simp only [halias, Option.elim_some, List.mem_singleton] at hstep
      subst hstep
      exact Option.some.inj htarget ▸ h aliasName target' halias
  | closing marker =>
    obtain rfl := List.mem_singleton.1 hstep
    cases htarget

mutual

theorem referred_nodeSteps (imports : Imports) (known : Path → Prop) (h : imports.Within known) :
    (node : Node) → Referred config directory known (nodeSteps config directory imports node)
  | .rule selector nodes =>
    (referred_selectorSteps h selector).append
      (referred_stepsOf imports _
        (fun aliasName target himport => .inl (h aliasName target himport)) nodes)
  | .block _ _ nodes => referred_stepsOf imports known h nodes
  | .statement _ _ => .nil
  | .declaration _ _ => .nil

theorem referred_stepsOf (imports : Imports) (known : Path → Prop) (h : imports.Within known) :
    (nodes : List Node) → Referred config directory known (stepsOf config directory imports nodes)
  | [] => .nil
  | node :: nodes => by
    have hfirst : Referred config directory known (if isDirective config node then
        directiveSteps config directory node else nodeSteps config directory imports node) := by
      split
      · exact referred_directiveSteps node
      · exact referred_nodeSteps imports known h node
    rw [stepsOf]
    -- an alias stands for a file of this document, or for one that the nodes before refer to
    refine hfirst.append (referred_stepsOf _ _ (Imports.Within.addAll ?_ hfirst) nodes)
    exact fun aliasName target himport => .inl (h aliasName target himport)

end

/-! ## References -/

theorem mem_references_iff {document : Document} {target : Path} :
    target ∈ document.references config ↔ .require target ∈ document.steps config := by
  unfold Document.references
  rw [List.mem_filterMap]
  constructor
  · rintro ⟨step, hstep, hrequired⟩
    cases step <;> cases hrequired
    exact hstep
  · exact fun hstep => ⟨_, hstep, rfl⟩

/-- **Whatever file a step is about, a directive of the document refers to it**, by a path that is
resolved from the document's directory. -/
theorem refersTo_of_mem_steps {document : Document} {step : Step} {target : Path}
    (hstep : step ∈ document.steps config) (htarget : step.target? = some target) :
    target ∈ document.references config ∧
      ∃ declared, target = config.resolvePath document.key.directory declared := by
  have hsteps :
      Referred config document.key.directory (fun _ => False) (document.steps config) := by
    refine referred_stepsOf ∅ _ (fun aliasName target himport => ?_) document.nodes
    simp at himport
  rcases hsteps step hstep target htarget with hknown | ⟨hrequire, hdeclared⟩
  · exact hknown.elim
  · exact ⟨mem_references_iff.2 hrequire, hdeclared⟩

/-! ### The entry of one file -/

/-- All that a step does to the entry of a file is to keep a name there, if the file has one
spelling. -/
theorem Step.entry_effect {step : Step} {cx : Context} {file : Path} {motive : Entry → Prop}
    (htarget : ∀ target, step.target? = some target → target.SamePlace file → target = file)
    (hremember : ∀ entry asked, motive entry → motive (entry.remember config.generate file asked))
    (h : motive (cx.store.entry file)) : motive ((step.effect config cx).store.entry file) := by
  cases step with
  | require target =>
    show motive ((cx.store.ensure target).entry file)
    rwa [Store.entry_ensure]
  | ask target asked =>
    show motive ((cx.store.update target _).entry file)
    rw [Store.entry_update]
    split
    · next hsame =>
      obtain rfl := htarget target rfl hsame
      apply hremember
      exact h
    · exact h
  | fail | bind | addImport | own => exact h

/-! ### The usual resolver -/

/-- The usual resolver gives normalized paths, so that a file that is referred to has one
spelling. -/
theorem eq_normalize_of_mem_references (hresolve : config.resolve = Path.resolve)
    {document : Document} {file path : Path} (h : file ∈ document.references config)
    (hsame : file.SamePlace path.normalize) : file = path.normalize := by
  obtain ⟨-, declared, rfl⟩ := refersTo_of_mem_steps (mem_references_iff.1 h) rfl
  unfold Config.resolvePath at hsame ⊢
  rw [hresolve] at hsame ⊢
  exact Path.normalize_eq_of_samePlace hsame

theorem eq_normalize_of_mem_steps (hresolve : config.resolve = Path.resolve) {document : Document}
    {step : Step} (hstep : step ∈ document.steps config) {target path : Path}
    (htarget : step.target? = some target) (hsame : target.SamePlace path.normalize) :
    target = path.normalize := by
  have hreferred := (refersTo_of_mem_steps hstep htarget).1
  exact eq_normalize_of_mem_references hresolve hreferred hsame

theorem eq_of_mem_references (hresolve : config.resolve = Path.resolve) {a b : Document}
    {file file' : Path} (h : file ∈ a.references config) (h' : file' ∈ b.references config)
    (hsame : file.SamePlace file') : file = file' := by
  obtain ⟨-, declared, rfl⟩ := refersTo_of_mem_steps (mem_references_iff.1 h') rfl
  unfold Config.resolvePath at hsame ⊢
  rw [hresolve] at hsame ⊢
  exact eq_normalize_of_mem_references hresolve h hsame

end ScopedCss
