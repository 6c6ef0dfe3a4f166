import ScopedCss.Proofs.Document.Frame
import ScopedCss.Proofs.Run.Atomicity

/-!
# Policies for references that lead nowhere

The policy is looked at in one place, where a directive refers to a file that has not been
processed. The strict policy makes this a fault, the lenient ones go on; otherwise the steps of a
document are the same under each of them.

* `perform_lenient`: no step tells the lenient policies apart.
* `perform_of_strict`: steps without a fault under the strict policy are the same under any policy.
* `change_eq_self_of_strict`: the strict policy only accepts documents all of whose files have been
  processed, which therefore leave the other files as they are.
-/

namespace ScopedCss

open Stylesheet (Node Document)

/-- The configuration with another policy for references that lead nowhere. -/
def Config.withPolicy (config : Config) (policy : MissingPolicy) : Config :=
  { config with missing := policy }

/-! ## The steps and the nodes do not depend on the policy -/

section

variable (config : Config) (policy : MissingPolicy) (directory : Path)

mutual

theorem nodeSteps_withPolicy (imports : Imports) : (node : Node) →
    nodeSteps (config.withPolicy policy) directory imports node
      = nodeSteps config directory imports node
  | .rule selector nodes => by
    rw [nodeSteps, nodeSteps, stepsOf_withPolicy imports nodes]
    rfl
  | .block _ _ nodes => stepsOf_withPolicy imports nodes
  | .statement _ _ => rfl
  | .declaration _ _ => rfl

theorem stepsOf_withPolicy (imports : Imports) : (nodes : List Node) →
    stepsOf (config.withPolicy policy) directory imports nodes
      = stepsOf config directory imports nodes
  | [] => rfl
  | node :: nodes => by
    have hdirective : isDirective (config.withPolicy policy) node = isDirective config node := rfl
    have hsteps : directiveSteps (config.withPolicy policy) directory node
        = directiveSteps config directory node := rfl
    rw [stepsOf, stepsOf, hdirective, hsteps, nodeSteps_withPolicy imports node,
      stepsOf_withPolicy _ nodes]

end

mutual

theorem settleNode_withPolicy (table : Table) (store : Store) (imports : Imports) : (node : Node) →
    settleNode (config.withPolicy policy) directory table store imports node
      = settleNode config directory table store imports node
  | .rule selector nodes => by
    rw [settleNode, settleNode, settle_withPolicy table store imports nodes]
    rfl
  | .block _ _ nodes => by
    rw [settleNode, settleNode, settle_withPolicy table store imports nodes]
  | .statement _ _ => rfl
  | .declaration _ _ => rfl

theorem settle_withPolicy (table : Table) (store : Store) (imports : Imports) :
    (nodes : List Node) →
    settle (config.withPolicy policy) directory table store imports nodes
      = settle config directory table store imports nodes
  | [] => rfl
  | node :: nodes => by
    have hdirective : isDirective (config.withPolicy policy) node = isDirective config node := rfl
    have hsteps : directiveSteps (config.withPolicy policy) directory node
        = directiveSteps config directory node := rfl
    rw [settle, settle, hdirective, hsteps, nodeSteps_withPolicy,
      settleNode_withPolicy table store imports node, settle_withPolicy table store _ nodes,
      settle_withPolicy table store _ nodes]

end

end

variable {config : Config} {policy policy' : MissingPolicy} {document : Document} {store : Store}
  {steps : List Step} {cx cx' : Context}

theorem steps_withPolicy : document.steps (config.withPolicy policy) = document.steps config :=
  stepsOf_withPolicy config policy _ _ _

theorem settled_withPolicy (table : Table) (names : Store) :
    document.settled (config.withPolicy policy) table names = document.settled config table names :=
  settle_withPolicy config policy _ _ _ _ _

/-! ## Steps under another policy -/

theorem effect_withPolicy (step : Step) (cx : Context) :
    step.effect (config.withPolicy policy) cx = step.effect config cx := by
  cases step <;> rfl

/-- Only the strict policy is at fault with a reference that leads nowhere. -/
theorem fault?_lenient (h : policy ≠ .error) (h' : policy' ≠ .error) (step : Step) (cx : Context) :
    step.fault? (config.withPolicy policy) cx = step.fault? (config.withPolicy policy') cx := by
  cases step with
  | require target => simp [Step.fault?, Config.withPolicy, h, h']
  | fail | ask | bind | addImport | own => rfl

theorem fault?_of_strict {step : Step} (h : step.fault? (config.withPolicy .error) cx = none) :
    step.fault? (config.withPolicy policy) cx = none := by
  cases step with
  | require target =>
    have hresolved : cx.store.isResolved target := by simpa [Step.fault?, Config.withPolicy] using h
    simp [Step.fault?, hresolved]
  | fail | ask | bind | addImport | own => exact h

/-- **No steps tell the lenient policies apart.** -/
theorem perform_lenient (h : policy ≠ .error) (h' : policy' ≠ .error) (steps : List Step)
    (cx : Context) :
    perform (config.withPolicy policy) steps cx = perform (config.withPolicy policy') steps cx := by
  induction steps generalizing cx with
  | nil => rfl
  | cons step steps ih =>
    rw [perform, perform, fault?_lenient h h', effect_withPolicy, effect_withPolicy]
    cases step.fault? (config.withPolicy policy') cx with
    | some error => rfl
    | none => exact ih _

/-- **What the strict policy accepts is the same under any policy.** -/
theorem perform_of_strict (h : perform (config.withPolicy .error) steps cx = (.ok (), cx')) :
    perform (config.withPolicy policy) steps cx = (.ok (), cx') := by
  induction steps generalizing cx with
  | nil => exact h
  | cons step steps ih =>
    have hfault := fault?_of_perform_cons (congrArg Prod.fst h)
    rw [perform_cons hfault, effect_withPolicy] at h
    rw [perform_cons (fault?_of_strict hfault), effect_withPolicy]
    exact ih h

/-! ## Documents under another policy -/

/-- The outcomes are the same, but for what is reported. -/
structure Outcome.Same (outcome outcome' : Outcome) : Prop where
  result : outcome.result = outcome'.result
  document : outcome.document = outcome'.document
  store : outcome.store = outcome'.store

theorem same_of_performed_eq (h : document.performed (config.withPolicy policy) store
      = document.performed (config.withPolicy policy') store) :
    (process (config.withPolicy policy) document store).Same
      (process (config.withPolicy policy') document store) := by
  match hperformed : document.performed (config.withPolicy policy') store with
  | (.error error, cx) =>
    obtain ⟨hresult, hdocument, hstore⟩ := process_of_fault (h.trans hperformed)
    obtain ⟨hresult', hdocument', hstore'⟩ := process_of_fault hperformed
    exact ⟨hresult.trans hresult'.symm, hdocument.trans hdocument'.symm, hstore.trans hstore'.symm⟩
  | (.ok (), cx) =>
    obtain ⟨hresult, hdocument, hstore⟩ := process_of_done (h.trans hperformed)
    obtain ⟨hresult', hdocument', hstore'⟩ := process_of_done hperformed
    rw [settled_withPolicy] at hdocument hdocument'
    exact ⟨hresult.trans hresult'.symm, hdocument.trans hdocument'.symm, hstore.trans hstore'.symm⟩

theorem performed_lenient (h : policy ≠ .error) (h' : policy' ≠ .error) :
    document.performed (config.withPolicy policy) store
      = document.performed (config.withPolicy policy') store := by
  unfold Document.performed
  rw [steps_withPolicy, steps_withPolicy]
  exact perform_lenient h h' _ _

theorem performed_of_strict
    (h : document.performed (config.withPolicy .error) store = (.ok (), cx)) :
    document.performed (config.withPolicy policy) store = (.ok (), cx) := by
  unfold Document.performed at h ⊢
  rw [steps_withPolicy] at h ⊢
  exact perform_of_strict h

/-! ## Documents that the strict policy accepts -/

section

variable (h : document.performed (config.withPolicy .error) store = (.ok (), cx))
include h

/-- Each file that a step is about is the document itself, or has been processed. -/
theorem isPlaceholder_of_strict {step : Step} (hstep : step ∈ document.steps config) {target : Path}
    (htarget : step.target? = some target) :
    ((document.opening store).store.entry target).isPlaceholder = false := by
  have hrequire : .require target ∈ document.steps config :=
    mem_references_iff.1 (refersTo_of_mem_steps hstep htarget).1
  obtain ⟨before, after, hsteps⟩ := List.append_of_mem hrequire
  unfold Document.performed at h
  rw [steps_withPolicy, hsteps] at h
  obtain ⟨cx₁, hbefore, hrest⟩ := perform_ok_of_append h
  have hfault := fault?_of_perform_cons (congrArg Prod.fst hrest)
  have hle := (le_perform (config.withPolicy .error) before (document.opening store)).2 target
  rw [hbefore] at hle
  rw [← Entry.isPlaceholder_eq_of_le hle]
  simpa [Step.fault?, Config.withPolicy, Store.isResolved_eq] using hfault

theorem change_eq_self_of_strict (hrest : store.AtRest) {step : Step}
    (hstep : step ∈ document.steps config) :
    step.change (config.withPolicy policy) document.key store = store := by
  rcases change_eq (config.withPolicy policy) document.key step with
    hchange | ⟨target, change, htarget, hother, hkeeps, hchange⟩
  · rw [hchange]
    rfl
  have hresolved : (store.entry target).isPlaceholder = false := by
    have hopened := isPlaceholder_of_strict h hstep htarget
    rwa [entry_opening, if_neg hother] at hopened
  rw [hchange]
  show store.update target change = store
  rw [Store.update_eq_self_iff]
  refine ⟨Store.contains_of_not_isPlaceholder hresolved, ?_⟩
  exact (hkeeps.entry _).1 (hrest.stage_eq_processed hresolved)

/-- The document leaves all other entries as they are. -/
theorem slots_process_of_strict (hrest : store.AtRest) {k : List String}
    (hk : document.key.components ≠ k) :
    (process (config.withPolicy policy) document store).store.slots[k]? = store.slots[k]? := by
  have hchanges : changes (config.withPolicy policy) document.key
      (document.steps (config.withPolicy policy)) store = store := by
    apply changes_eq_self
    intro step hstep
    rw [steps_withPolicy] at hstep
    exact change_eq_self_of_strict h hrest hstep
  rw [process_store_of_done (performed_of_strict h), hchanges, Store.actsAt_keep, if_neg hk]

/-- The document makes no placeholder and adds to none. -/
theorem journal_eq_of_strict :
    (document.performed (config.withPolicy policy) store).2.journal = {} := by
  suffices hkept : (document.opening store).store
        ≤ (document.performed (config.withPolicy policy) store).2.store ∧
      (document.performed (config.withPolicy policy) store).2.journal = {} from hkept.2
  refine perform_induction
    (motive := fun cx => (document.opening store).store ≤ cx.store ∧ cx.journal = {})
    ⟨le_refl _, rfl⟩ ?_
  rintro step hstep cx - ⟨hle, hjournal⟩
  rw [steps_withPolicy] at hstep
  refine ⟨le_trans hle (step.store_le_effect _ cx), ?_⟩
  -- the file that the step is about has an entry, which is no placeholder
  have hresolved (target : Path) (htarget : step.target? = some target) :
      (cx.store.entry target).isPlaceholder = false := by
    rw [Entry.isPlaceholder_eq_of_le (hle target)]
    exact isPlaceholder_of_strict h hstep htarget
  have hrequire (target : Path) (htarget : step.target? = some target) :
      cx.journal.require cx.store target = cx.journal :=
    if_pos (Store.contains_of_not_isPlaceholder (hresolved target htarget))
  cases step with
  | require target => exact (hrequire target rfl).trans hjournal
  | ask target className =>
    show cx.journal.ask cx.store target = {}
    simp only [Journal.ask, hrequire target rfl, hresolved target rfl]
    exact hjournal
  | fail | bind | addImport | own => exact hjournal

end

/-- **The policies refine each other.** A document is processed after any calls, under
configurations that differ in nothing but the policy. The lenient policies have the same result, the
same nodes and the same store. If the strict policy accepts the document, then under any policy it
has the same table, the same nodes and the same store; on the way no placeholder is made and none
gets another name, and every entry but the document's own is left as it was. -/
theorem process_withPolicy (calls : List Call) (config : Config) (document : Document) :
    let store := storeAfter calls
    let under policy := process (config.withPolicy policy) document store
    (under .warn).Same (under .ignore) ∧
    ∀ given, (under .error).result = .ok given → ∀ policy,
      (under policy).result = .ok given ∧ (under policy).Same (under .error) ∧
      (document.performed (config.withPolicy policy) store).2.journal = {} ∧
      ∀ k, document.key.components ≠ k → (under policy).store.slots[k]? = store.slots[k]? := by
  intro store under
  constructor
  · apply same_of_performed_eq
    exact performed_lenient (by decide) (by decide)
  intro given hgiven policy
  obtain ⟨cx, hperformed⟩ := performed_of_ok hgiven
  have hsame : (under policy).Same (under .error) := by
    apply same_of_performed_eq
    rw [performed_of_strict hperformed, hperformed]
  refine ⟨hsame.result.trans hgiven, hsame, journal_eq_of_strict hperformed, ?_⟩
  intro k hk
  exact slots_process_of_strict hperformed (atRest_storeAfter calls) hk

/-- The document takes the place of a placeholder, and takes names of a processed file and of itself
by both grammars. Another placeholder is not its concern. -/
theorem process_withPolicy_accepted :
    let config := Config.ofOptions { grammars := [.importRule, .atUse] }
    let calls : List Call := [.process (config.withPolicy .warn) ⟨⟨"/d.css"⟩, "",
        [.statement "use" "(.v) from './a.css'", .statement "use" "(.w) from './p.css'"]⟩,
      .process config ⟨⟨"/b.css"⟩, "", [.rule ".x .y" []]⟩]
    let document : Document := ⟨⟨"/a.css"⟩, "", [.statement "use" "(.x) from './b.css'",
      .rule ":import" [.declaration "other" "'./b.css'", .declaration "own" "'./a.css'::v"],
      .rule ".x other::y other::u" [.rule "own::v .v" []]]⟩
    let store := storeAfter calls
    let under policy := process (config.withPolicy policy) document store
    let given := Table.ofList [("own", "_v_i649y_tthyi"), ("v", "_v_i649y_tthyi"),
      ("x", "_x_i6491_tsq9z")]
    store.isPlaceholder ⟨"/a.css"⟩ ∧ store.isPlaceholder ⟨"/p.css"⟩ ∧
      (under .error).result = .ok given ∧ (under .warn).result = .ok given ∧
      (under .warn).Same (under .error) ∧
      (document.performed (config.withPolicy .warn) store).2.journal = {} ∧
      (under .warn).store.slots[(Path.mk "/p.css").components]?
        = store.slots[(Path.mk "/p.css").components]? := by
  intro config calls document store under given
  have h : (under .error).result = .ok given := by decide +kernel
  obtain ⟨hresult, hsame, hjournal, hothers⟩ :=
    (process_withPolicy calls config document).2 given h .warn
  exact ⟨by decide +kernel, by decide +kernel, h, hresult, hsame, hjournal,
    hothers _ (by decide +kernel)⟩

end ScopedCss
