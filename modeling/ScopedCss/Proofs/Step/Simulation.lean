import ScopedCss.Proofs.Step.Targets

/-!
# What a document depends on

A document depends on the store only through the entries of the files that it refers to: how far
these files have come, and what names they have. Two stores that agree on this give the same result.

* `Indistinct`: a relation between entries that no step can tell apart.
* `perform_similar`: steps do the same in contexts that are related by it.
* `process_congr`: so a document has the same result.
-/

namespace ScopedCss

open Stylesheet (Node Document)

/-- Entries of these files that are so related look the same to each step, and still do after it. -/
structure Indistinct (config : Config) (files : Path → Prop)
    (related : Path → Entry → Entry → Prop) :
    Prop where
  refl : ∀ file entry, related file entry entry
  isPlaceholder : ∀ {file entry entry'}, related file entry entry' →
    entry.isPlaceholder = entry'.isPlaceholder
  nameOf : ∀ {file entry entry'}, related file entry entry' → ∀ className,
    entry.nameOf config.generate file className = entry'.nameOf config.generate file className
  remember : ∀ {file target entry entry'}, files file → files target → target.SamePlace file →
    related file entry entry' → ∀ className,
      related file (entry.remember config.generate target className)
        (entry'.remember config.generate target className)

/-- The contexts are the same to the document, and related in what the files are. -/
structure Similar (files : Path → Prop) (related : Path → Entry → Entry → Prop)
    (cx cx' : Context) : Prop where
  seed : cx.seed = cx'.seed
  table : cx.table = cx'.table
  entries : ∀ file, files file → related file (cx.store.entry file) (cx'.store.entry file)

variable {config : Config} {files : Path → Prop} {related : Path → Entry → Entry → Prop}
  {cx cx' : Context}

/-! ## Steps -/

section

variable (hrelated : Indistinct config files related)
include hrelated

theorem nameOf_similar (h : Similar files related cx cx') {file : Path} (hfile : files file)
    (className : String) :
    cx.store.nameOf config.generate file className
      = cx'.store.nameOf config.generate file className :=
  hrelated.nameOf (h.entries file hfile) className

theorem fault?_similar (h : Similar files related cx cx') {step : Step}
    (hstep : ∀ target, step.target? = some target → files target) :
    step.fault? config cx = step.fault? config cx' := by
  cases step with
  | require target =>
    have hplaceholder := hrelated.isPlaceholder (h.entries target (hstep target rfl))
    simp only [Step.fault?, Store.isResolved_eq, hplaceholder]
  | bind directive label target className =>
    simp only [Step.fault?, h.table, nameOf_similar hrelated h (hstep target rfl)]
  | fail | ask | addImport | own => rfl

theorem effect_similar (h : Similar files related cx cx') {step : Step}
    (hstep : ∀ target, step.target? = some target → files target) :
    Similar files related (step.effect config cx) (step.effect config cx') := by
  obtain ⟨hseed, htable, hentries⟩ := h
  cases step with
  | require target =>
    refine ⟨hseed, htable, fun file hfile => ?_⟩
    show related file ((cx.store.ensure target).entry file) ((cx'.store.ensure target).entry file)
    rw [Store.entry_ensure, Store.entry_ensure]
    exact hentries file hfile
  | ask target className =>
    refine ⟨hseed, htable, fun file hfile => ?_⟩
    show related file ((cx.store.update target _).entry file)
      ((cx'.store.update target _).entry file)
    rw [Store.entry_update, Store.entry_update]
    split
    · next hsame => exact hrelated.remember hfile (hstep target rfl) hsame (hentries file hfile) _
    · exact hentries file hfile
  | bind directive label target className =>
    refine ⟨hseed, ?_, hentries⟩
    have hname := hrelated.nameOf (hentries target (hstep target rfl)) className
    show cx.table.enter label _ = cx'.table.enter label _
    rw [htable, Store.nameOf, Store.nameOf, hname]
  | own className =>
    refine ⟨hseed, ?_, hentries⟩
    show cx.table.enter className _ = cx'.table.enter className _
    rw [htable, hseed]
  | fail | addImport => exact ⟨hseed, htable, hentries⟩

/-- Steps that are about these files come to the same end, and the contexts stay related. -/
theorem perform_similar {steps : List Step} (h : Similar files related cx cx')
    (hsteps : ∀ step ∈ steps, ∀ target, step.target? = some target → files target) :
    (perform config steps cx).1 = (perform config steps cx').1 ∧
      Similar files related (perform config steps cx).2 (perform config steps cx').2 := by
  induction steps generalizing cx cx' with
  | nil => exact ⟨rfl, h⟩
  | cons step steps ih =>
    obtain ⟨hstep, hrest⟩ := List.forall_mem_cons.1 hsteps
    rw [perform, perform, ← fault?_similar hrelated h hstep]
    cases step.fault? config cx with
    | some error => exact ⟨rfl, h⟩
    | none => exact ih (effect_similar hrelated h hstep) hrest

end

/-! ## Nodes with settled names -/

/-- The files have the same names in both stores. -/
def SameNames (config : Config) (files : Path → Prop) (names names' : Store) : Prop :=
  ∀ file, files file → ∀ className,
    names.nameOf config.generate file className = names'.nameOf config.generate file className

variable {names names' : Store} {table : Table} {directory : Path}

theorem settleSelector_congr (hnames : SameNames config files names names') {imports : Imports}
    (himports : imports.Within files) (selector : String) :
    settleSelector config imports table names selector
      = settleSelector config imports table names' selector := by
  have hanswers : answersOf config.generate imports table names
      = answersOf config.generate imports table names' := by
    unfold answersOf
    congr 1
    funext aliasName remote
    cases halias : imports[aliasName]? with
    | none => rfl
    | some target => exact congrArg some (hnames target (himports aliasName target halias) remote)
  unfold settleSelector
  rw [hanswers]

mutual

theorem settleNode_congr (hnames : SameNames config files names names') (imports : Imports)
    (himports : imports.Within files) : (node : Node) →
    (∀ step ∈ nodeSteps config directory imports node, ∀ target, step.target? = some target →
      files target) →
    settleNode config directory table names imports node
      = settleNode config directory table names' imports node
  | .rule selector nodes, hsteps => by
    have hrest := settle_congr hnames imports himports nodes fun step hstep =>
      hsteps step (List.mem_append_right _ hstep)
    simp only [settleNode, settleSelector_congr hnames himports, hrest]
  | .block name params nodes, hsteps => by
    simp only [settleNode, settle_congr hnames imports himports nodes hsteps]
  | .statement _ _, _ => rfl
  | .declaration _ _, _ => rfl

theorem settle_congr (hnames : SameNames config files names names') (imports : Imports)
    (himports : imports.Within files) : (nodes : List Node) →
    (∀ step ∈ stepsOf config directory imports nodes, ∀ target, step.target? = some target →
      files target) →
    settle config directory table names imports nodes
      = settle config directory table names' imports nodes
  | [], _ => rfl
  | node :: nodes, hsteps => by
    rw [stepsOf] at hsteps
    by_cases hdirective : isDirective config node
    · simp only [if_pos hdirective, List.mem_append, or_imp, forall_and] at hsteps
      simp only [settle, if_pos hdirective]
      exact settle_congr hnames _ (himports.addAll hsteps.1) nodes hsteps.2
    · simp only [if_neg hdirective, List.mem_append, or_imp, forall_and] at hsteps
      simp only [settle, if_neg hdirective]
      rw [settleNode_congr hnames imports himports node hsteps.1,
        settle_congr hnames _ (himports.addAll hsteps.1) nodes hsteps.2]

end

/-! ## Documents -/

variable {document : Document} {store store' : Store}

section

variable (hrelated : Indistinct config (· ∈ document.references config) related)
  (h : ∀ file ∈ document.references config, ¬ document.key.SamePlace file →
    related file (store.entry file) (store'.entry file))
include hrelated h

theorem performed_similar :
    (document.performed config store).1 = (document.performed config store').1 ∧
      Similar (· ∈ document.references config) related (document.performed config store).2
        (document.performed config store').2 := by
  have hseed : (document.opening store).seed = (document.opening store').seed := by
    rw [opening_seed, opening_seed]
  have htable : (document.opening store).table = (document.opening store').table := by
    rw [opening_table, opening_table]
  refine perform_similar hrelated ⟨hseed, htable, fun file hfile => ?_⟩
    fun step hstep target htarget => (refersTo_of_mem_steps hstep htarget).1
  rw [entry_opening, entry_opening]
  split
  -- the document's own entry is a new one in both stores
  · exact hrelated.refl file _
  · next hother => exact h file hfile hother

/-- **A document depends on the files that it refers to, and on nothing else in the store.** -/
theorem process_congr :
    (process config document store).result = (process config document store').result ∧
      (process config document store).document = (process config document store').document := by
  obtain ⟨hended, hsimilar⟩ := performed_similar hrelated h
  match hperformed : document.performed config store,
    hperformed' : document.performed config store' with
  | (ended, cx), (ended', cx') =>
    rw [hperformed, hperformed'] at hended hsimilar
    obtain rfl : ended = ended' := hended
    cases ended with
    | error error =>
      obtain ⟨hresult, hdocument, -⟩ := process_of_fault hperformed
      obtain ⟨hresult', hdocument', -⟩ := process_of_fault hperformed'
      exact ⟨hresult.trans hresult'.symm, hdocument.trans hdocument'.symm⟩
    | ok =>
      obtain ⟨hresult, hdocument, -⟩ := process_of_done hperformed
      obtain ⟨hresult', hdocument', -⟩ := process_of_done hperformed'
      have hnames : SameNames config (· ∈ document.references config) cx.store cx'.store :=
        fun file hfile => nameOf_similar hrelated hsimilar hfile
      have hsettled : document.settled config cx.table cx.store
          = document.settled config cx.table cx'.store := by
        refine settle_congr hnames ∅ (fun aliasName target himport => ?_) document.nodes ?_
        · simp at himport
        · exact fun step hstep target htarget => (refersTo_of_mem_steps hstep htarget).1
      rw [hresult, hresult', hdocument, hdocument', hsettled, hsimilar.table]
      exact ⟨rfl, rfl⟩

end

end ScopedCss
