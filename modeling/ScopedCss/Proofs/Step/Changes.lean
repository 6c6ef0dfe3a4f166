import ScopedCss.Proofs.Store.Commute
import ScopedCss.Proofs.Step.Targets

/-!
# What a document does to the store

A document that is scoped changes the entries of the files that it refers to, and then leaves its
own table. What it changes can be read off its steps, whatever is in the store:
`process_store_of_done`.
-/

namespace ScopedCss

open Stylesheet (Document)

/-- What a step of the document under this path does to the entries of other files. -/
def Step.change (config : Config) (key : Path) : Step → Store → Store
  | require target => if key.SamePlace target then id else (·.update target id)
  | ask target className =>
    if key.SamePlace target then id
    else (·.update target (Entry.remember config.generate target className))
  | _ => id

/-- What the steps of the document under this path do to the entries of other files. -/
def changes (config : Config) (key : Path) : List Step → Store → Store
  | [] => id
  | step :: steps => changes config key steps ∘ step.change config key

/-- The stores differ under one key at most. -/
def SameOff (key : Path) (store store' : Store) : Prop :=
  ∀ k : List String, key.components ≠ k → store.slots[k]? = store'.slots[k]?

variable {config : Config} {key target : Path} {store store' : Store}

namespace SameOff

theorem act (h : SameOff key store store') {operation : Store → Store} {k : List String}
    {change : Option Slot → Option Slot} (hacts : Store.ActsAt operation k change) :
    SameOff key (operation store) (operation store') := by
  intro k' hk'
  rw [hacts, hacts, h k' hk']

theorem act_left (h : SameOff key store store') {operation : Store → Store}
    {change : Option Slot → Option Slot} (hacts : Store.ActsAt operation key.components change) :
    SameOff key (operation store) store' := by
  intro k' hk'
  rw [hacts, if_neg hk', h k' hk']

theorem entry (h : SameOff key store store') {file : Path} (hother : ¬ key.SamePlace file) :
    store.entry file = store'.entry file := by
  have hslot : store.slot? file = store'.slot? file := h file.components hother
  unfold Store.entry Store.get?
  rw [hslot]

end SameOff

theorem ensure_eq_update (store : Store) (target : Path) :
    store.ensure target = store.update target id :=
  (store.put_entry_eq_ensure target).symm

/-- Under its own key a step may do something else. -/
theorem sameOff_effect {cx : Context} (h : SameOff key cx.store store) (step : Step) :
    SameOff key (step.effect config cx).store (step.change config key store) := by
  have hupdate (target : Path) (change : Entry → Entry) :
      SameOff key (cx.store.update target change)
        ((if key.SamePlace target then id else (·.update target change)) store) := by
    split
    · next hsame => exact h.act_left (hsame ▸ Store.actsAt_update target change)
    · exact h.act (Store.actsAt_update target change)
  cases step with
  | require target =>
    show SameOff key (cx.store.ensure target) _
    rw [ensure_eq_update]
    exact hupdate target id
  | ask target className => exact hupdate target _
  | fail | bind | addImport | own => exact h

theorem sameOff_perform {steps : List Step} {cx : Context} (h : SameOff key cx.store store)
    (hdone : (perform config steps cx).1 = .ok ()) :
    SameOff key (perform config steps cx).2.store (changes config key steps store) := by
  induction steps generalizing cx store with
  | nil => exact h
  | cons step steps ih =>
    have hfault := fault?_of_perform_cons hdone
    rw [perform_cons hfault] at hdone ⊢
    exact ih (sameOff_effect h step) hdone

theorem sameOff_opening (document : Document) (store : Store) :
    SameOff document.key (document.opening store).store store := by
  intro k hk
  exact (Store.slots_put ..).trans (if_neg hk)

/-- **What a document leaves behind**: its changes of other entries, and its table with its text. -/
theorem process_store_of_done {document : Document} {cx : Context}
    (h : document.performed config store = (.ok (), cx)) :
    (process config document store).store
      = Store.keep document.key ⟨cx.table, some document.source, .processed⟩
          (changes config document.key (document.steps config) store) := by
  -- entries only grow, so the document's own one still has its text
  have hle : (document.opening store).store.entry document.key ≤ cx.store.entry document.key := by
    have hstore := (le_perform config (document.steps config) (document.opening store)).2
    rw [show perform _ _ _ = _ from h] at hstore
    exact hstore document.key
  have hsource : (cx.store.get? document.key).bind Entry.source = some document.source := by
    rw [Store.source_get?, hle.source, entry_opening, if_pos rfl]
  have hothers := sameOff_perform (sameOff_opening document store) (congrArg Prod.fst h)
  rw [show perform _ _ _ = _ from h] at hothers
  rw [(process_of_done h).2.2]
  apply Store.ext
  intro k
  rw [Store.slots_commit, Store.actsAt_keep]
  show (if document.key.components = k then some (Slot.mk document.key _) else _) = _
  by_cases hk : document.key.components = k
  · rw [if_pos hk, if_pos hk]
    exact congrArg
      (fun source => some (Slot.mk document.key ⟨cx.table, source, .processed⟩)) hsource
  · rw [if_neg hk, if_neg hk]
    exact hothers k hk

/-- The document's own entry holds its table and its text. -/
theorem slot?_process_of_done {document : Document} {cx : Context}
    (h : document.performed config store = (.ok (), cx)) :
    (process config document store).store.slot? document.key
      = some ⟨document.key, cx.table, some document.source, .processed⟩ := by
  rw [process_store_of_done h, Store.slot?, Store.actsAt_keep]
  exact if_pos rfl

/-! ## Changes that commute -/

/-- A change of the entry of a file that keeps the name of a class, or nothing. -/
def KeepsName (config : Config) (target : Path) (change : Entry → Entry) : Prop :=
  change = id ∨ ∃ className, change = Entry.remember config.generate target className

theorem KeepsName.commute {change change' : Entry → Entry} (h : KeepsName config target change)
    (h' : KeepsName config target change') : Function.Commute change change' := by
  rcases h with rfl | ⟨className, rfl⟩
  · exact .id_left
  · rcases h' with rfl | ⟨className', rfl⟩
    · exact .id_right
    · exact fun entry => entry.remember_comm className

/-- A step changes nothing, or the entry of the file that it is about. -/
theorem change_eq (config : Config) (key : Path) (step : Step) : step.change config key = id ∨
    ∃ target change, step.target? = some target ∧ ¬ key.SamePlace target ∧
      KeepsName config target change ∧ step.change config key = (·.update target change) := by
  cases step with
  | require target =>
    by_cases hsame : key.SamePlace target
    · exact .inl (if_pos hsame)
    · exact .inr ⟨target, id, rfl, hsame, .inl rfl, if_neg hsame⟩
  | ask target className =>
    by_cases hsame : key.SamePlace target
    · exact .inl (if_pos hsame)
    · exact .inr ⟨target, _, rfl, hsame, .inr ⟨className, rfl⟩, if_neg hsame⟩
  | fail | bind | addImport | own => exact .inl rfl

theorem KeepsName.le {change : Entry → Entry} (h : KeepsName config target change) (entry : Entry) :
    entry ≤ change entry := by
  rcases h with rfl | ⟨className, rfl⟩
  · exact le_refl entry
  · exact Entry.le_remember _ _ _ entry

theorem KeepsName.eq_self_of_le {change : Entry → Entry} (h : KeepsName config target change)
    {entry entry' : Entry} (hle : change entry ≤ entry') : change entry' = entry' := by
  rcases h with rfl | ⟨className, rfl⟩
  · rfl
  · exact Entry.remember_eq_self_of_le hle

/-- The changes of a document commute with an operation if those of each step do. -/
theorem commute_changes {steps : List Step} {operation : Store → Store}
    (h : ∀ step ∈ steps, Function.Commute (step.change config key) operation) :
    Function.Commute (changes config key steps) operation := by
  induction steps with
  | nil => exact .id_left
  | cons step steps ih =>
    obtain ⟨hstep, hrest⟩ := List.forall_mem_cons.1 h
    exact (ih hrest).comp_left hstep

/-- The changes of a document commute with what another one leaves in the store, unless it refers to
that one. -/
theorem commute_changes_keep {steps : List Step} {key' : Path} (entry : Entry)
    (h : ∀ step ∈ steps, ∀ target, step.target? = some target → ¬ target.SamePlace key') :
    Function.Commute (changes config key steps) (Store.keep key' entry) := by
  refine commute_changes fun step hstep => ?_
  rcases change_eq config key step with hchange | ⟨target, change, htarget, -, -, hchange⟩
  · rw [hchange]
    exact .id_left
  · rw [hchange]
    exact (Store.actsAt_update target change).commute_of_ne (Store.actsAt_keep key' entry)
      (h step hstep target htarget)

theorem commute_change_keep_own (step : Step) (entry : Entry) :
    Function.Commute (step.change config key) (Store.keep key entry) := by
  rcases change_eq config key step with hchange | ⟨target, change, -, hother, -, hchange⟩
  · rw [hchange]
    exact .id_left
  · rw [hchange]
    exact (Store.actsAt_update target change).commute_of_ne (Store.actsAt_keep key entry)
      (Ne.symm hother)

/-- The changes of two documents commute, if a place has one spelling. -/
theorem commute_changes_changes {steps steps' : List Step} {key' : Path}
    (h : ∀ step ∈ steps, ∀ step' ∈ steps', ∀ target target', step.target? = some target →
      step'.target? = some target' → target.SamePlace target' → target = target') :
    Function.Commute (changes config key steps) (changes config key' steps') := by
  refine commute_changes fun step hstep => (commute_changes fun step' hstep' => ?_).symm
  rcases change_eq config key step with hchange | ⟨target, change, htarget, -, hkeeps, hchange⟩
  · rw [hchange]
    exact .id_right
  rcases change_eq config key' step' with hchange'
    | ⟨target', change', htarget', -, hkeeps', hchange'⟩
  · rw [hchange']
    exact .id_left
  rw [hchange, hchange']
  -- in one file both keep names, in different files they do not meet
  by_cases hsame : target.SamePlace target'
  · obtain rfl := h step hstep step' hstep' target target' htarget htarget' hsame
    exact Store.commute_update (hkeeps'.commute hkeeps)
  · exact (Store.actsAt_update target' change').commute_of_ne (Store.actsAt_update target change)
      (Ne.symm hsame)

/-! ## Changes that have been made -/

theorem change_change (step : Step) (store : Store) :
    step.change config key (step.change config key store) = step.change config key store := by
  rcases change_eq config key step with hchange | ⟨target, change, -, -, hkeeps, hchange⟩
  · rw [hchange]
    rfl
  · rw [hchange]
    show (store.update target change).update target change = _
    rw [Store.update_eq_self_iff, Store.entry_update, if_pos rfl]
    constructor
    · rw [Store.update, Store.contains_put]
      exact .inl rfl
    · exact hkeeps.eq_self_of_le (le_refl _)

/-- A change that has been made is not undone by another one, also where both are about one file
under two spellings of its path. -/
theorem change_fixed {step other : Step} (h : step.change config key store = store) :
    step.change config key (other.change config key store) = other.change config key store := by
  rcases change_eq config key step with hchange | ⟨target, change, -, -, hkeeps, hchange⟩
  · rw [hchange]
    rfl
  rcases change_eq config key other with hother | ⟨target', change', -, -, hkeeps', hother⟩
  · rw [hother]
    exact h
  rw [hchange] at h ⊢
  rw [hother]
  change store.update target change = store at h
  show (store.update target' change').update target change = store.update target' change'
  rw [Store.update_eq_self_iff] at h ⊢
  obtain ⟨hcontains, hkept⟩ := h
  constructor
  · rw [Store.update, Store.contains_put]
    exact .inr hcontains
  · rw [Store.entry_update]
    split
    · apply hkeeps.eq_self_of_le
      rw [hkept]
      exact hkeeps'.le _
    · exact hkept

theorem change_changes_fixed {step : Step} {steps : List Step}
    (h : step.change config key store = store) :
    step.change config key (changes config key steps store) = changes config key steps store := by
  induction steps generalizing store with
  | nil => exact h
  | cons other steps ih => exact ih (change_fixed h)

/-- What the steps of a document have done to other files, none of them does again. -/
theorem change_changes {step : Step} {steps : List Step} (hstep : step ∈ steps) (store : Store) :
    step.change config key (changes config key steps store) = changes config key steps store := by
  induction steps generalizing store with
  | nil => cases hstep
  | cons first steps ih =>
    rcases List.mem_cons.1 hstep with rfl | hrest
    · show step.change config key (changes config key steps _) = changes config key steps _
      exact change_changes_fixed (change_change step store)
    · exact ih hrest _

theorem changes_eq_self {steps : List Step}
    (h : ∀ step ∈ steps, step.change config key store = store) :
    changes config key steps store = store := by
  induction steps with
  | nil => rfl
  | cons step steps ih =>
    obtain ⟨hstep, hrest⟩ := List.forall_mem_cons.1 h
    show changes config key steps (step.change config key store) = store
    rw [hstep]
    exact ih hrest

end ScopedCss
