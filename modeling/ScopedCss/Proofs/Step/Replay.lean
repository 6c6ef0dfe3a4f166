import ScopedCss.Proofs.Document.Names
import ScopedCss.Proofs.Step.Changes

/-!
# Steps that are performed again

When a document is processed again, its steps meet what they have left in the store themselves: a
file that had no entry has one, and a name that was made then is there now. To the document each
step does the same as before (`perform_replay`).

* `AsksFirst`: a label is bound to a name that has just been asked for, so that the store has kept
  it.
* `Replays`: the second context is to the document what the first one was, and the other files in
  its store are already what they will be.
-/

namespace ScopedCss

open Stylesheet (Node)

/-! ## Names are asked for before labels are bound to them -/

/-- Each label is bound to a name right after the name was asked for. -/
inductive AsksFirst : List Step → Prop
  | nil : AsksFirst []
  | step {step : Step} {steps : List Step} (hlabel : step.label? = none) (hrest : AsksFirst steps) :
      AsksFirst (step :: steps)
  | reference (directive label : String) (target : Path) (className : String) {steps : List Step}
      (hrest : AsksFirst steps) :
      AsksFirst (referenceSteps directive label target className ++ steps)

namespace AsksFirst

variable {steps more : List Step}

theorem singleton {step : Step} (hlabel : step.label? = none) : AsksFirst [step] :=
  .step hlabel .nil

theorem append (h : AsksFirst steps) (hmore : AsksFirst more) : AsksFirst (steps ++ more) := by
  induction h with
  | nil => exact hmore
  | step hlabel _ ih => exact .step hlabel ih
  | reference directive label target className _ ih =>
    exact .reference directive label target className ih

theorem flatMap {α : Type} {stepsOf : α → List Step} (h : ∀ a, AsksFirst (stepsOf a))
    (list : List α) : AsksFirst (list.flatMap stepsOf) := by
  induction list with
  | nil => exact .nil
  | cons a list ih => exact (h a).append ih

variable (config : Config) (directory : Path) (imports : Imports)

theorem useSteps (params : String) : AsksFirst (useSteps config directory params) := by
  unfold ScopedCss.useSteps
  cases Use.Directive.parse params with
  | error fault => exact singleton rfl
  | ok directive =>
    apply AsksFirst.step rfl
    apply flatMap
    intro reference
    exact .reference _ _ _ _ .nil

theorem importSteps (node : Node) : AsksFirst (importSteps config directory node) := by
  cases node with
  | declaration aliasName value =>
    simp only [ScopedCss.importSteps]
    by_cases halias : Text.isClassName aliasName
    · rw [if_pos halias]
      cases Import.Source.parse value with
      | error fault => exact singleton rfl
      | ok source =>
        apply AsksFirst.step rfl
        cases source.className with
        | none => exact singleton rfl
        | some className => exact .reference _ _ _ _ (singleton rfl)
    · rw [if_neg halias]
      exact singleton rfl
  | rule | block | statement => exact singleton rfl

theorem directiveSteps (node : Node) : AsksFirst (directiveSteps config directory node) := by
  cases node with
  | rule selector nodes => exact flatMap (importSteps config directory) nodes
  | block name params nodes => exact useSteps config directory params
  | statement name params => exact useSteps config directory params
  | declaration property value => exact .nil

theorem requestSteps (request : Selector.Request) : AsksFirst (requestSteps imports request) := by
  cases request with
  | ownName className => exact singleton rfl
  | composition aliasName remote =>
    simp only [ScopedCss.requestSteps]
    cases imports[aliasName]? with
    | none => exact .nil
    | some target => exact singleton rfl
  | closing marker => exact singleton rfl

theorem stepsOf (nodes : List Node) : AsksFirst (stepsOf config directory imports nodes) :=
  have hcompositional : Compositional config directory AsksFirst :=
    ⟨.nil, append, directiveSteps config directory, requestSteps⟩
  hcompositional.stepsOf imports nodes

end AsksFirst

/-! ## The second time -/

/-- Off the key, each file has come at most as far as in the final store. -/
def LeOff (key : Path) (store final : Store) : Prop :=
  ∀ file, ¬ key.SamePlace file → store.entry file ≤ final.entry file

/-- The second context is to the document what the first one is. The other files are in its store
what they are in the final one. -/
structure Replays (key : Path) (final : Store) (cx cx' : Context) : Prop where
  seed : cx'.seed = cx.seed
  table : cx'.table = cx.table
  own : ∀ file, key.SamePlace file → cx'.store.entry file = cx.store.entry file
  others : SameOff key cx'.store final

variable {config : Config} {key : Path} {final : Store} {cx cx' : Context}

theorem LeOff.of_le {store later : Store} (h : LeOff key later final) (hle : store ≤ later) :
    LeOff key store final := by
  intro file hother
  exact le_trans (hle file) (h file hother)

namespace Replays

theorem isPlaceholder (h : Replays key final cx cx') (hle : LeOff key cx.store final)
    (file : Path) :
    (cx'.store.entry file).isPlaceholder = (cx.store.entry file).isPlaceholder := by
  by_cases hown : key.SamePlace file
  · rw [h.own file hown]
  · rw [h.others.entry hown]
    exact Entry.isPlaceholder_eq_of_le (hle file hown)

/-- A name that has just been asked for is the same in both contexts: the final store has kept
it. -/
theorem nameOf {target : Path} {className : String}
    (h : Replays key final ((Step.ask target className).effect config cx) cx')
    (hle : LeOff key ((Step.ask target className).effect config cx).store final) :
    cx'.store.nameOf config.generate target className
      = ((Step.ask target className).effect config cx).store.nameOf config.generate target
          className := by
  by_cases hown : key.SamePlace target
  · rw [Store.nameOf, Store.nameOf, h.own target hown]
  · have hentry := hle target hown
    change (cx.store.update target _).entry target ≤ _ at hentry
    rw [Store.entry_update, if_pos rfl] at hentry
    have hasked : ((Step.ask target className).effect config cx).store.nameOf config.generate target
        className = cx.store.nameOf config.generate target className :=
      Store.nameOf_eq_of_le (le_refl _)
    rw [hasked, Store.nameOf, h.others.entry hown, Entry.nameOf_eq_of_le hentry, Store.nameOf]

theorem effect {step : Step} (h : Replays key final cx cx') (hlabel : step.label? = none)
    (hle : LeOff key (step.effect config cx).store final)
    (hfixed : step.change config key final = final) (hfault : step.fault? config cx = none) :
    step.fault? config cx' = none ∧
      Replays key final (step.effect config cx) (step.effect config cx') := by
  have hothers : SameOff key (step.effect config cx').store final := by
    have hsame : SameOff key _ (step.change config key final) := sameOff_effect h.others step
    rwa [hfixed] at hsame
  cases step with
  | require target =>
    refine ⟨?_, h.seed, h.table, ?_, hothers⟩
    · have hplaceholder := h.isPlaceholder (hle.of_le (cx.store.le_ensure target)) target
      simp only [Step.fault?, Store.isResolved_eq] at hfault ⊢
      rwa [hplaceholder]
    · intro file hown
      show (cx'.store.ensure target).entry file = (cx.store.ensure target).entry file
      rw [Store.entry_ensure, Store.entry_ensure, h.own file hown]
  | ask target className =>
    refine ⟨rfl, h.seed, h.table, ?_, hothers⟩
    intro file hown
    show (cx'.store.update target _).entry file = (cx.store.update target _).entry file
    rw [Store.entry_update, Store.entry_update, h.own file hown]
  | own className =>
    refine ⟨rfl, h.seed, ?_, h.own, hothers⟩
    show cx'.table.enter className _ = cx.table.enter className _
    rw [h.table, h.seed]
  | addImport aliasName target => exact ⟨rfl, h.seed, h.table, h.own, hothers⟩
  | fail error => cases hfault
  | bind directive label target className => cases hlabel

theorem bind {directive label : String} {target : Path} {className : String}
    (h : Replays key final cx cx')
    (hname : cx'.store.nameOf config.generate target className
      = cx.store.nameOf config.generate target className)
    (hfault : (Step.bind directive label target className).fault? config cx = none) :
    (Step.bind directive label target className).fault? config cx' = none ∧
      Replays key final ((Step.bind directive label target className).effect config cx)
        ((Step.bind directive label target className).effect config cx') := by
  constructor
  · simp only [Step.fault?] at hfault ⊢
    rw [h.table, hname]
    exact hfault
  · refine ⟨h.seed, ?_, h.own, h.others⟩
    show cx'.table.enter label _ = cx.table.enter label _
    rw [h.table, hname]

end Replays

/-- **Steps that had no fault have none the second time**, in a store that has kept all that they
did, and do the same to the document. -/
theorem perform_replay {steps : List Step} (hasks : AsksFirst steps) {done : Context}
    (hdone : perform config steps cx = (.ok (), done)) (hle : LeOff key done.store final)
    (hfixed : ∀ step ∈ steps, step.change config key final = final)
    (h : Replays key final cx cx') :
    ∃ done', perform config steps cx' = (.ok (), done') ∧ Replays key final done done' := by
  -- at each moment of the first time the files have come at most as far as in the end
  have hbefore (rest : List Step) (cx₁ : Context)
      (hrest : perform config rest cx₁ = (.ok (), done)) : LeOff key cx₁.store final := by
    have hstore := (le_perform config rest cx₁).2
    rw [hrest] at hstore
    exact hle.of_le hstore
  induction hasks generalizing cx cx' with
  | nil =>
    cases hdone
    exact ⟨cx', rfl, h⟩
  | @step step steps hlabel _ ih =>
    have hfault := fault?_of_perform_cons (congrArg Prod.fst hdone)
    rw [perform_cons hfault] at hdone
    obtain ⟨hstep, hsteps⟩ := List.forall_mem_cons.1 hfixed
    obtain ⟨hfault', hreplays⟩ := h.effect hlabel (hbefore _ _ hdone) hstep hfault
    rw [perform_cons hfault']
    exact ih hdone hsteps hreplays
  | @reference directive label target className steps _ ih =>
    rw [referenceSteps, List.cons_append, List.cons_append, List.nil_append] at hfixed hdone ⊢
    rw [perform_cons rfl] at hdone ⊢
    obtain ⟨hask, hbound⟩ := List.forall_mem_cons.1 hfixed
    obtain ⟨-, hsteps⟩ := List.forall_mem_cons.1 hbound
    have hasked := hbefore _ _ hdone
    obtain ⟨-, hreplays⟩ := h.effect rfl hasked hask rfl
    have hfault := fault?_of_perform_cons (congrArg Prod.fst hdone)
    rw [perform_cons hfault] at hdone
    obtain ⟨hfault', hreplays'⟩ := hreplays.bind (hreplays.nameOf hasked) hfault
    rw [perform_cons hfault']
    exact ih hdone hsteps hreplays'

end ScopedCss
