import ScopedCss.Proofs.Document.Names
import ScopedCss.Proofs.Run.Atomicity
import ScopedCss.Proofs.Step.Changes
import ScopedCss.Proofs.Step.Simulation

/-!
# The order of documents

Documents that do not refer to each other may be processed in any order (`processAll_perm`). They
may still meet in files that both refer to, which are not processed yet; there each of them keeps
names that the other one would get as well.

* `process_after`: a document has the same result after one that it does not refer to.
* `process_comm`: two such documents leave the same store in either order.
-/

namespace ScopedCss

open Stylesheet (Document)

/-! ## Documents that do not refer to each other -/

/-- One of the documents refers to the other. -/
def Related (config : Config) (a b : Document) : Prop :=
  b.key ∈ a.references config ∨ a.key ∈ b.references config

instance (config : Config) (a b : Document) : Decidable (Related config a b) :=
  inferInstanceAs (Decidable (_ ∨ _))

/-- The file has come as far in both entries, and has the same names. -/
structure Alike (config : Config) (file : Path) (entry entry' : Entry) : Prop where
  stage : entry.stage = entry'.stage
  nameOf : ∀ className,
    entry.nameOf config.generate file className = entry'.nameOf config.generate file className

variable {config : Config} {store : Store} {a b : Document}

theorem not_samePlace_key (hresolve : config.resolve = Path.resolve)
    (hunrelated : b.key ∉ a.references config) {file : Path} (hfile : file ∈ a.references config) :
    ¬ file.SamePlace b.key := by
  intro hsame
  obtain rfl : file = b.key := eq_normalize_of_mem_references hresolve hfile hsame
  exact hunrelated hfile

theorem indistinct_alike (hresolve : config.resolve = Path.resolve) (document : Document) :
    Indistinct config (· ∈ document.references config) (Alike config) where
  refl _ _ := ⟨rfl, fun _ => rfl⟩
  isPlaceholder h := by rw [Entry.isPlaceholder, Entry.isPlaceholder, h.stage]
  nameOf h := h.nameOf
  remember := by
    intro file target entry entry' hfile htarget hsame h className
    obtain rfl := eq_of_mem_references hresolve htarget hfile hsame
    refine ⟨?_, fun className' => ?_⟩
    · rw [Entry.stage_remember, Entry.stage_remember, h.stage]
    · rw [Entry.nameOf_remember, Entry.nameOf_remember, h.nameOf]

/-- Changes of other documents leave a file as it is to those who refer to it. -/
theorem alike_changes {key file : Path} {steps : List Step}
    (h : ∀ step ∈ steps, ∀ target, step.target? = some target → target.SamePlace file →
      target = file) (store : Store) :
    Alike config file (store.entry file) ((changes config key steps store).entry file) := by
  induction steps generalizing store with
  | nil => exact ⟨rfl, fun _ => rfl⟩
  | cons step steps ih =>
    obtain ⟨hstep, hrest⟩ := List.forall_mem_cons.1 h
    have hlater := ih hrest (step.change config key store)
    suffices hfirst : Alike config file (store.entry file)
        ((step.change config key store).entry file) from
      ⟨hfirst.stage.trans hlater.stage, fun className =>
        (hfirst.nameOf className).trans (hlater.nameOf className)⟩
    rcases change_eq config key step with hchange | ⟨target, change, htarget, -, hkeeps, hchange⟩
    · rw [hchange]
      exact ⟨rfl, fun _ => rfl⟩
    rw [hchange]
    show Alike config file _ ((store.update target change).entry file)
    rw [Store.entry_update]
    split
    · next hsame =>
      obtain rfl := hstep target htarget hsame
      rcases hkeeps with rfl | ⟨className, rfl⟩
      · exact ⟨rfl, fun _ => rfl⟩
      · exact ⟨(Entry.stage_remember _).symm, fun className' => (Entry.nameOf_remember ..).symm⟩
    · exact ⟨rfl, fun _ => rfl⟩

theorem alike_process (hresolve : config.resolve = Path.resolve) (hrest : store.AtRest)
    (hunrelated : b.key ∉ a.references config) {file : Path} (hfile : file ∈ a.references config) :
    Alike config file (store.entry file) ((process config b store).store.entry file) := by
  match hperformed : b.performed config store with
  | (.error _, cx) =>
    rw [process_store_of_error hrest (process_of_fault hperformed).1]
    exact ⟨rfl, fun _ => rfl⟩
  | (.ok (), cx) =>
    have hother := not_samePlace_key hresolve hunrelated hfile
    rw [process_store_of_done hperformed, Store.entry_keep, if_neg (Ne.symm hother)]
    refine alike_changes (fun step hstep target htarget hsame => ?_) store
    exact eq_of_mem_references hresolve (refersTo_of_mem_steps hstep htarget).1 hfile hsame

/-- **A document has the same result after one that it does not refer to.** -/
theorem process_after (hresolve : config.resolve = Path.resolve) (hrest : store.AtRest)
    (hunrelated : b.key ∉ a.references config) :
    (process config a (process config b store).store).result = (process config a store).result ∧
      (process config a (process config b store).store).document
        = (process config a store).document := by
  obtain ⟨hresult, hdocument⟩ := process_congr (indistinct_alike hresolve a)
    fun file hfile _ => alike_process (b := b) hresolve hrest hunrelated hfile
  exact ⟨hresult.symm, hdocument.symm⟩

theorem performed_after (hresolve : config.resolve = Path.resolve) (hrest : store.AtRest)
    (hunrelated : b.key ∉ a.references config) {cx : Context}
    (h : a.performed config store = (.ok (), cx)) :
    ∃ cx', a.performed config (process config b store).store = (.ok (), cx') ∧
      cx'.table = cx.table := by
  obtain ⟨hended, hsimilar⟩ := performed_similar (indistinct_alike hresolve a)
    fun file hfile _ => alike_process (b := b) hresolve hrest hunrelated hfile
  rw [h] at hended hsimilar
  exact ⟨(a.performed config (process config b store).store).2, Prod.ext hended.symm rfl,
    hsimilar.table.symm⟩

/-- What two documents do to the store commutes. -/
theorem commute_leave (hresolve : config.resolve = Path.resolve) (hkey : a.key ≠ b.key)
    (hunrelated : ¬ Related config a b) (entry entry' : Entry) :
    Function.Commute (Store.keep a.key entry ∘ changes config a.key (a.steps config))
      (Store.keep b.key entry' ∘ changes config b.key (b.steps config)) := by
  obtain ⟨hab, hba⟩ := not_or.1 hunrelated
  have hkeys : ¬ a.key.SamePlace b.key := fun hsame => hkey (Path.normalize_eq_of_samePlace hsame)
  have hchanges : Function.Commute (changes config a.key (a.steps config))
      (changes config b.key (b.steps config)) := by
    refine commute_changes_changes fun step hstep step' hstep' target target' htarget htarget' => ?_
    exact eq_of_mem_references hresolve (refersTo_of_mem_steps hstep htarget).1
      (refersTo_of_mem_steps hstep' htarget').1
  have hleft : Function.Commute (changes config a.key (a.steps config))
      (Store.keep b.key entry') :=
    commute_changes_keep entry' fun step hstep target htarget =>
      not_samePlace_key hresolve hab (refersTo_of_mem_steps hstep htarget).1
  have hright : Function.Commute (changes config b.key (b.steps config))
      (Store.keep a.key entry) :=
    commute_changes_keep entry fun step hstep target htarget =>
      not_samePlace_key hresolve hba (refersTo_of_mem_steps hstep htarget).1
  have hkeep : Function.Commute (Store.keep a.key entry) (Store.keep b.key entry') :=
    (Store.actsAt_keep a.key entry).commute_of_ne (Store.actsAt_keep b.key entry') hkeys
  exact (hkeep.comp_right hright.symm).comp_left (hleft.comp_right hchanges)

/-- **Two documents that do not refer to each other leave the same store in either order.** -/
theorem process_comm (hresolve : config.resolve = Path.resolve) (hrest : store.AtRest)
    (hkey : a.key ≠ b.key) (hunrelated : ¬ Related config a b) :
    (process config b (process config a store).store).store
      = (process config a (process config b store).store).store := by
  obtain ⟨hab, hba⟩ := not_or.1 hunrelated
  have hrest_a : (process config a store).store.AtRest := atRest_process hrest
  have hrest_b : (process config b store).store.AtRest := atRest_process hrest
  -- a document that fails also fails after the other one, and has no effect either time
  match ha : a.performed config store, hb : b.performed config store with
  | (.error error, cx), _ =>
    have hfails : (process config a store).result = .error error := (process_of_fault ha).1
    have hfails' := (process_after hresolve hrest hab).1.trans hfails
    rw [process_store_of_error hrest hfails, process_store_of_error hrest_b hfails']
  | (.ok (), _), (.error error, cx) =>
    have hfails : (process config b store).result = .error error := (process_of_fault hb).1
    have hfails' := (process_after hresolve hrest hba).1.trans hfails
    rw [process_store_of_error hrest hfails, process_store_of_error hrest_a hfails']
  | (.ok (), cx), (.ok (), cx') =>
    obtain ⟨cx₁, ha', htable⟩ := performed_after hresolve hrest hab ha
    obtain ⟨cx₁', hb', htable'⟩ := performed_after hresolve hrest hba hb
    rw [process_store_of_done ha', process_store_of_done hb', process_store_of_done ha,
      process_store_of_done hb, htable, htable']
    exact (commute_leave hresolve hkey hunrelated _ _).symm store

/-! ## Lists of documents -/

/-- What has become of a document: its table or its error, and the document afterwards. -/
structure Report where
  document : Document
  result : Except Error Table
  output : Document
  deriving DecidableEq

/-- What becomes of a document in this store. -/
def report (config : Config) (document : Document) (store : Store) : Report :=
  ⟨document, (process config document store).result, (process config document store).document⟩

/-- Process documents one after the other. -/
def processAll (config : Config) : List Document → Store → List Report × Store
  | [], store => ([], store)
  | document :: documents, store =>
    let later := processAll config documents (process config document store).store
    (report config document store :: later.1, later.2)

theorem report_after (hresolve : config.resolve = Path.resolve) (hrest : store.AtRest)
    (hunrelated : b.key ∉ a.references config) :
    report config a (process config b store).store = report config a store := by
  obtain ⟨hresult, hdocument⟩ := process_after hresolve hrest hunrelated
  rw [report, report, hresult, hdocument]

/-- A document may be processed before others that it has nothing to do with. -/
theorem processAll_move (hresolve : config.resolve = Path.resolve) {document : Document}
    {before : List Document} (after : List Document) (hrest : store.AtRest)
    (hbefore : ∀ other ∈ before, other.key ≠ document.key ∧ ¬ Related config other document) :
    (processAll config (before ++ document :: after) store).1.Perm
        (processAll config (document :: (before ++ after)) store).1 ∧
      (processAll config (before ++ document :: after) store).2
        = (processAll config (document :: (before ++ after)) store).2 := by
  induction before generalizing store with
  | nil => exact ⟨.refl _, rfl⟩
  | cons other before ih =>
    obtain ⟨⟨hkey, hunrelated⟩, hbefore⟩ := List.forall_mem_cons.1 hbefore
    obtain ⟨hreports, hstore⟩ := ih (atRest_process hrest) hbefore
    have hcomm := process_comm hresolve hrest hkey hunrelated
    obtain ⟨hother, hdocument⟩ := not_or.1 hunrelated
    simp only [processAll, List.cons_append] at hreports hstore ⊢
    -- the document has been moved past those after `other`; now the two change places
    rw [report_after hresolve hrest hdocument, hcomm] at hreports
    rw [hcomm] at hstore
    rw [report_after hresolve hrest hother]
    exact ⟨(hreports.cons _).trans (.swap _ _ _), hstore⟩

/-- In a list without repetition, what comes before an element does not come after it. -/
theorem not_sublist_of_mem {α : Type} {before after : List α} {a b : α}
    (hnodup : (before ++ a :: after).Nodup) (hb : b ∈ before) :
    ¬ [a, b].Sublist (before ++ a :: after) := by
  intro hsub
  obtain ⟨-, hafter, hdisjoint⟩ := List.nodup_append.1 hnodup
  obtain ⟨first, last, hsplit, hfirst, hlast⟩ := List.sublist_append_iff.1 hsub
  cases first with
  | nil =>
    rw [List.nil_append] at hsplit
    subst hsplit
    exact hdisjoint b hb b (hlast.subset (by simp)) rfl
  | cons c first =>
    obtain ⟨rfl, -⟩ := List.cons.inj hsplit
    exact hdisjoint a (hfirst.subset List.mem_cons_self) a List.mem_cons_self rfl

theorem processAll_perm_of_atRest (hresolve : config.resolve = Path.resolve)
    {documents reordered : List Document} (hdistinct : documents.Pairwise fun a b => a.key ≠ b.key)
    (hrest : store.AtRest) (hperm : reordered.Perm documents)
    (horder : ∀ a b, Related config a b → [a, b].Sublist documents → [a, b].Sublist reordered) :
    (processAll config reordered store).1.Perm (processAll config documents store).1 ∧
      (processAll config reordered store).2 = (processAll config documents store).2 := by
  induction documents generalizing reordered store with
  | nil =>
    rw [hperm.eq_nil]
    exact ⟨.refl _, rfl⟩
  | cons document documents ih =>
    have hnodup : (document :: documents).Nodup :=
      hdistinct.imp fun hkey heq => hkey (congrArg Document.key heq)
    obtain ⟨hkeys, hdistinct⟩ := List.pairwise_cons.1 hdistinct
    obtain ⟨before, after, rfl⟩ := List.append_of_mem (hperm.symm.subset List.mem_cons_self)
    have hrestperm : (before ++ after).Perm documents :=
      (List.perm_middle.symm.trans hperm).cons_inv
    have hnodup' := hperm.symm.nodup hnodup
    have hnew : document ∉ before ++ after := fun hmem =>
      (List.nodup_cons.1 hnodup).1 (hrestperm.subset hmem)
    -- the first document comes first again, before those that stand in front of it
    have hbefore (other : Document) (hother : other ∈ before) :
        other.key ≠ document.key ∧ ¬ Related config other document := by
      have hmem : other ∈ documents := hrestperm.subset (List.mem_append_left _ hother)
      refine ⟨(hkeys other hmem).symm, fun hrelated => ?_⟩
      have hsub := horder document other hrelated.symm
        ((List.singleton_sublist.2 hmem).cons_cons document)
      exact not_sublist_of_mem hnodup' hother hsub
    -- and the others keep their order
    have hlater (a b : Document) (hrelated : Related config a b) (hsub : [a, b].Sublist documents) :
        [a, b].Sublist (before ++ after) := by
      have hold : document ∉ [a, b] := fun hmem =>
        (List.nodup_cons.1 hnodup).1 (hsub.subset hmem)
      have herase := (horder a b hrelated (hsub.cons document)).erase document
      rwa [List.erase_of_not_mem hold,
        List.erase_append_right _ fun hmem => hnew (List.mem_append_left _ hmem),
        List.erase_cons_head] at herase
    have hrest' : (process config document store).store.AtRest := atRest_process hrest
    obtain ⟨hreports, hstore⟩ := processAll_move hresolve after hrest hbefore
    obtain ⟨hreports', hstore'⟩ := ih hdistinct hrest' hrestperm hlater
    exact ⟨hreports.trans (hreports'.cons _), hstore.trans hstore'⟩

/-- **The order of documents does not matter**, as long as each document keeps its place before or
after those that it refers to or that refer to it. Whatever the run before it left in the store,
every document has the same result, the same nodes and the same table or the same error, and the
stores in the end are equal. -/
theorem processAll_perm (hresolve : config.resolve = Path.resolve) (calls : List Call)
    {documents reordered : List Document} (hdistinct : documents.Pairwise fun a b => a.key ≠ b.key)
    (hperm : reordered.Perm documents)
    (horder : ∀ a b, Related config a b → [a, b].Sublist documents → [a, b].Sublist reordered) :
    (processAll config reordered (storeAfter calls)).1.Perm
        (processAll config documents (storeAfter calls)).1 ∧
      (processAll config reordered (storeAfter calls)).2
        = (processAll config documents (storeAfter calls)).2 :=
  processAll_perm_of_atRest hresolve hdistinct (atRest_storeAfter calls) hperm horder

/-- The first and the third document share a placeholder, and the third one fails; the second one
refers to the first. -/
theorem processAll_perm_shared :
    let config := Config.ofOptions { missing := .warn }
    let first : Document := ⟨⟨"/a.css"⟩, "", [.statement "use" "(.x) from './p.css'"]⟩
    let second : Document := ⟨⟨"/b.css"⟩, "", [.statement "use" "(.x as .y) from './s/../a.css'"]⟩
    let third : Document := ⟨⟨"/c.css"⟩, "", [.statement "use" "(.x, .z) from './p.css'",
      .rule ":local(.z" []]⟩
    (processAll config [third, first, second] (storeAfter [])).1.Perm
        (processAll config [first, second, third] (storeAfter [])).1 ∧
      (processAll config [third, first, second] (storeAfter [])).2
        = (processAll config [first, second, third] (storeAfter [])).2 := by
  intro config first second third
  have horder : ∀ a ∈ [first, second, third], ∀ b ∈ [first, second, third], Related config a b →
      [a, b].Sublist [first, second, third] → [a, b].Sublist [third, first, second] := by
    decide +kernel
  refine processAll_perm rfl [] (by decide +kernel) (by decide +kernel) fun a b hrelated hsub => ?_
  exact horder a (hsub.subset (by simp)) b (hsub.subset (by simp)) hrelated hsub

end ScopedCss
