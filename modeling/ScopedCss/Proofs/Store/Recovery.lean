import ScopedCss.Proofs.Step.Basic

/-!
# The way back

A document that fails leaves the store as it found it, because its journal says how to take back
what was done to each entry. `Recoverable` is what makes this work at every moment in between: it
relates the store as it was, the store as it is, and the journal.

* `Recoverable.require`, `Recoverable.ask`: the steps that reach other files keep it.
* `Recoverable.rollback`: taking everything back gives the store as it was.
-/

namespace ScopedCss

/-! ## Taking back, entry by entry -/

/-- A placeholder with the table that it had; any other entry as it is. -/
def Slot.restore (table : Table) (slot : Slot) : Slot :=
  if slot.entry.isPlaceholder then { slot with entry := { slot.entry with table } } else slot

namespace Store

variable (store : Store)

theorem slots_restoreTable (known : Path × Table) (k : List String) :
    (store.restoreTable known).slots[k]? =
      if known.1.components = k then store.slots[k]?.map (Slot.restore known.2)
      else store.slots[k]? := by
  unfold restoreTable isPlaceholder setTable get?
  by_cases hk : known.1.components = k
  · subst hk
    rw [if_pos rfl]
    change _ = (store.slot? known.1).map _
    cases hslot : store.slot? known.1 with
    | none => exact hslot
    | some slot =>
      by_cases hplaceholder : slot.entry.isPlaceholder
      · simp [hplaceholder, slots_put, hslot, Slot.restore]
      · simp only [Option.map_some, Option.any_some, hplaceholder, Slot.restore]
        exact hslot
  · rw [if_neg hk]
    cases store.slot? known.1 with
    | none => rfl
    | some slot =>
      by_cases hplaceholder : slot.entry.isPlaceholder <;> simp [hplaceholder, slots_put, hk]

theorem slots_dropPlaceholder (path : Path) (k : List String) :
    (store.dropPlaceholder path).slots[k]? =
      if path.components = k then store.slots[k]?.filter (!·.entry.isPlaceholder)
      else store.slots[k]? := by
  unfold dropPlaceholder isPlaceholder get?
  by_cases hk : path.components = k
  · subst hk
    rw [if_pos rfl]
    change _ = (store.slot? path).filter _
    cases hslot : store.slot? path with
    | none => exact hslot
    | some slot =>
      by_cases hplaceholder : slot.entry.isPlaceholder
      · simp [hplaceholder, slots_erase, Option.filter_some]
      · simp only [Option.map_some, Option.any_some, hplaceholder, Option.filter_some]
        exact hslot
  · rw [if_neg hk]
    split
    · rw [slots_erase, if_neg hk]
    · rfl

theorem slots_foldl_restoreTable {touched : List (Path × Table)} {k : List String} {table : Table}
    (h : ∀ known ∈ touched, known.1.components = k → known.2 = table) :
    (touched.foldl restoreTable store).slots[k]? =
      if touched.any (·.1.components = k) then store.slots[k]?.map (Slot.restore table)
      else store.slots[k]? := by
  induction touched generalizing store with
  | nil => simp
  | cons first touched ih =>
    have hrest := ih (store.restoreTable first) fun known hmem => h known (.tail _ hmem)
    rw [List.foldl_cons, hrest, slots_restoreTable]
    by_cases hfirst : first.1.components = k
    · -- a placeholder may stand in the journal twice: it then has the same table there
      have htwice (slot : Slot) : (slot.restore table).restore table = slot.restore table := by
        by_cases hplaceholder : slot.entry.isPlaceholder <;> simp [Slot.restore, hplaceholder]
      obtain rfl := h first List.mem_cons_self hfirst
      simp [hfirst, Function.comp_def, htwice]
    · rw [if_neg hfirst, List.any_cons, decide_eq_false hfirst, Bool.false_or]

theorem slots_foldl_dropPlaceholder (created : List Path) (k : List String) :
    (created.foldl dropPlaceholder store).slots[k]? =
      if created.any (·.components = k) then
        store.slots[k]?.filter (!·.entry.isPlaceholder)
      else store.slots[k]? := by
  induction created generalizing store with
  | nil => simp
  | cons first created ih =>
    rw [List.foldl_cons, ih, slots_dropPlaceholder]
    by_cases hfirst : first.components = k <;> simp [hfirst]

end Store

/-- No file is being processed. -/
def Store.AtRest (store : Store) : Prop :=
  ∀ (k : List String) (slot : Slot), store.slots[k]? = some slot → slot.entry.stage ≠ .processing

/-- At rest, a file that is more than referred to has been processed. -/
theorem Store.AtRest.stage_eq_processed {store : Store} (h : store.AtRest) {path : Path}
    (hresolved : (store.entry path).isPlaceholder = false) :
    (store.entry path).stage = .processed := by
  unfold Store.entry get? at hresolved ⊢
  cases hslot : store.slot? path with
  | none =>
    rw [hslot] at hresolved
    cases hresolved
  | some slot =>
    rw [hslot] at hresolved
    show slot.entry.stage = .processed
    change (slot.entry.stage == .placeholder) = false at hresolved
    cases hstage : slot.entry.stage with
    | placeholder =>
      rw [hstage] at hresolved
      cases hresolved
    | processing => exact absurd hstage (h _ slot hslot)
    | processed => rfl

/-! ## What can be taken back -/

/-- What was and what is under a key, when the journal knows the way back. -/
inductive Recovers (journal : Journal) (k : List String) : Option Slot → Option Slot → Prop
  | kept (slot? : Option Slot) : Recovers journal k slot? slot?
  | touched {slot : Slot} (table : Table) (placeholder : slot.entry.isPlaceholder)
      (known : ∃ known ∈ journal.touched, known.1.components = k) :
      Recovers journal k (some slot) (some { slot with entry := { slot.entry with table } })
  | created {slot : Slot} (placeholder : slot.entry.isPlaceholder)
      (known : ∃ path ∈ journal.created, path.components = k) : Recovers journal k none (some slot)

/-- A journal that knows more knows the way back as well. -/
theorem Recovers.mono {journal journal' : Journal} {k : List String} {was slot? : Option Slot}
    (h : Recovers journal k was slot?) (htouched : journal.touched ⊆ journal'.touched)
    (hcreated : journal.created ⊆ journal'.created) : Recovers journal' k was slot? := by
  cases h with
  | kept => exact .kept was
  | touched table placeholder known =>
    obtain ⟨known, hmem, hk⟩ := known
    exact .touched table placeholder ⟨known, htouched hmem, hk⟩
  | created placeholder known =>
    obtain ⟨target, hmem, hk⟩ := known
    exact .created placeholder ⟨target, hcreated hmem, hk⟩

theorem Journal.knows_iff {journal : Journal} {path : Path} :
    journal.knows path ↔ (∃ known ∈ journal.created, known.components = path.components) ∨
      ∃ known ∈ journal.touched, known.1.components = path.components := by
  simp [Journal.knows, Path.SamePlace]

/-- Nothing was done under a key that the journal does not know. -/
theorem Recovers.eq_of_unknown {journal : Journal} {k : List String} {was slot? : Option Slot}
    (h : Recovers journal k was slot?)
    (hunknown : ¬ ((∃ path ∈ journal.created, path.components = k) ∨
      ∃ known ∈ journal.touched, known.1.components = k)) : was = slot? := by
  cases h with
  | kept => rfl
  | touched _ _ known => exact absurd (.inr known) hunknown
  | created _ known => exact absurd (.inl known) hunknown

/-- A placeholder that the journal knows may get another table. -/
theorem Recovers.setTable {journal : Journal} {k : List String} {was : Option Slot} {slot : Slot}
    (h : Recovers journal k was (some slot)) (hplaceholder : slot.entry.isPlaceholder)
    (hknown : (∃ path ∈ journal.created, path.components = k) ∨
      ∃ known ∈ journal.touched, known.1.components = k)
    (hcreated : (∃ path ∈ journal.created, path.components = k) → was = none) (table : Table) :
    Recovers journal k was (some { slot with entry := { slot.entry with table } }) := by
  cases h with
  | kept =>
    rcases hknown with hnew | hold
    · cases hcreated hnew
    · exact .touched table hplaceholder hold
  | touched _ placeholder known => exact .touched table placeholder known
  | created placeholder known => exact .created placeholder known

/-- What is under a key once its table is restored and, if it is new, it is dropped. -/
theorem Recovers.undo {journal : Journal} {k : List String} {was slot? restored : Option Slot}
    (h : Recovers journal k was slot?)
    (hcreated : (∃ path ∈ journal.created, path.components = k) → was = none)
    (hrestored : restored = if journal.touched.any (·.1.components = k) then
      slot?.map (Slot.restore ((was.map (·.entry.table)).getD ∅)) else slot?) :
    (if journal.created.any (·.components = k) then restored.filter (!·.entry.isPlaceholder)
      else restored) = was := by
  subst hrestored
  cases h with
  | kept =>
    -- nothing was done under this key, so a table that is restored is the one that is there
    have hrestore : was.map (Slot.restore ((was.map (·.entry.table)).getD ∅)) = was := by
      cases was <;> simp [Slot.restore]
    rw [hrestore, ite_self]
    split
    · next hany =>
      rw [hcreated (by simpa using hany)]
      rfl
    · rfl
  | @touched slot table placeholder known =>
    -- it was there before, so it is not among the entries that are dropped
    have hold : ¬ journal.created.any (·.components = k) := fun hany =>
      nomatch hcreated (by simpa using hany)
    have hplaceholder : Entry.isPlaceholder { slot.entry with table } := placeholder
    rw [if_neg hold, if_pos (by simpa using known)]
    simp [Slot.restore, hplaceholder]
  | @created slot placeholder known =>
    rw [if_pos (by simpa using known)]
    have hplaceholder (table : Table) : Entry.isPlaceholder { slot.entry with table } := placeholder
    split <;> simp [Slot.restore, placeholder, hplaceholder, Option.filter_some]

/-- The store was `before` when the document at this path was begun; the journal knows the way back
from what the store is now. -/
structure Recoverable (before : Store) (path : Path) (store : Store) (journal : Journal) :
    Prop where
  /-- The document's own entry keeps the spelling of its path. -/
  own : ∃ slot, store.slot? path = some slot ∧ slot.entry.stage = .processing ∧
    slot.path = ((before.slot? path).map Slot.path).getD path
  touched : ∀ known ∈ journal.touched, ¬ known.1.SamePlace path ∧
    ∃ slot, before.slot? known.1 = some slot ∧ slot.entry.isPlaceholder ∧ slot.entry.table = known.2
  created : ∀ target ∈ journal.created, ¬ target.SamePlace path ∧ before.slot? target = none
  others : ∀ k, path.components ≠ k → Recovers journal k before.slots[k]? store.slots[k]?

namespace Recoverable

variable {before store : Store} {path target : Path} {journal : Journal}

theorem begin (before : Store) (path : Path) (source : String) :
    Recoverable before path (before.begin path source).1 {} where
  own := by
    refine ⟨_, (Store.slot?_put ..).trans (if_pos rfl), rfl, rfl⟩
  touched := nofun
  created := nofun
  others k hk := by
    rw [Store.begin, Store.slots_put, if_neg hk]
    exact .kept _

/-- A file that the document was the first to refer to was not there before. -/
theorem slots_eq_none_of_created (h : Recoverable before path store journal) {k : List String}
    (hcreated : ∃ target ∈ journal.created, target.components = k) : before.slots[k]? = none := by
  obtain ⟨target, hmem, rfl⟩ := hcreated
  exact (h.created target hmem).2

/-- Under another key than the document's own the way back leads to what was there. -/
theorem undo_others (h : Recoverable before path store journal) {k : List String}
    (hk : path.components ≠ k) :
    (journal.created.foldl Store.dropPlaceholder
      (journal.touched.foldl Store.restoreTable store)).slots[k]? = before.slots[k]? := by
  have htable (known : Path × Table) (hmem : known ∈ journal.touched)
      (hknown : known.1.components = k) :
      known.2 = (before.slots[k]?.map (·.entry.table)).getD ∅ := by
    obtain ⟨-, slot, hslot, -, htable⟩ := h.touched known hmem
    rw [← hknown, show before.slots[known.1.components]? = some slot from hslot, ← htable]
    rfl
  rw [Store.slots_foldl_dropPlaceholder]
  exact (h.others k hk).undo h.slots_eq_none_of_created
    (Store.slots_foldl_restoreTable store htable)

/-- The document's own entry is not touched on the way back. -/
theorem undo_own (h : Recoverable before path store journal) :
    (journal.created.foldl Store.dropPlaceholder
      (journal.touched.foldl Store.restoreTable store)).slot? path = store.slot? path := by
  have htouched : journal.touched.any (·.1.components = path.components) = false := by
    simpa using fun q t hmem => (h.touched (q, t) hmem).1
  have hcreated : journal.created.any (·.components = path.components) = false := by
    simpa using fun target hmem => (h.created target hmem).1
  refine (Store.slots_foldl_dropPlaceholder ..).trans ?_
  rw [if_neg (by simp [hcreated])]
  have hsame (known : Path × Table) (hmem : known ∈ journal.touched)
      (hknown : known.1.components = path.components) : known.2 = ∅ :=
    absurd hknown (h.touched known hmem).1
  exact (Store.slots_foldl_restoreTable store hsame).trans (if_neg (by simp [htouched]))

/-- **Taking everything back gives the store as it was.** -/
theorem rollback (h : Recoverable before path store journal) :
    store.rollback ⟨path, before.get? path⟩ journal = before := by
  have hothers (k : List String) := h.undo_others (k := k)
  obtain ⟨slot, hslot, -, hspelling⟩ := h.own
  have hown := h.undo_own.trans hslot
  simp only [Store.rollback, Store.get?]
  -- of the way back we need only what it leaves under each key
  generalize journal.created.foldl Store.dropPlaceholder
    (journal.touched.foldl Store.restoreTable store) = undone at hothers hown
  apply Store.ext
  intro k
  by_cases hk : path.components = k
  · subst hk
    change _ = before.slot? path
    cases hbefore : before.slot? path with
    | none => exact (Store.slots_erase ..).trans (if_pos rfl)
    | some previous =>
      refine (Store.slots_put ..).trans ((if_pos rfl).trans ?_)
      rw [hbefore] at hspelling
      simp [hown, hspelling]
  · cases hbefore : before.slot? path with
    | none => exact (Store.slots_erase ..).trans ((if_neg hk).trans (hothers k hk))
    | some previous => exact (Store.slots_put ..).trans ((if_neg hk).trans (hothers k hk))

/-! ### Steps that reach other files -/

/-- Under its own key, the document is never where the journal has to know the way back. -/
theorem put_other {journal' : Journal} {entry : Entry}
    (h : Recoverable before path store journal) (hother : ¬ path.SamePlace target)
    (htouched : journal.touched ⊆ journal'.touched)
    (hcreated : journal.created ⊆ journal'.created)
    (hnewTouched : ∀ known ∈ journal'.touched, known ∈ journal.touched ∨
      known.1 = target ∧ ∃ slot, before.slot? target = some slot ∧ slot.entry.isPlaceholder ∧
        slot.entry.table = known.2)
    (hnewCreated : ∀ known ∈ journal'.created, known ∈ journal.created ∨
      known = target ∧ before.slot? target = none)
    (hrecovers : Recovers journal' target.components (before.slot? target)
      ((store.put target entry).slot? target)) :
    Recoverable before path (store.put target entry) journal' where
  own := by
    obtain ⟨slot, hslot, hstage, hspelling⟩ := h.own
    exact ⟨slot, by rw [Store.slot?_put, if_neg (Ne.symm hother), hslot], hstage, hspelling⟩
  touched known hmem := by
    rcases hnewTouched known hmem with hold | ⟨rfl, hnew⟩
    · exact h.touched known hold
    · exact ⟨Ne.symm hother, hnew⟩
  created known hmem := by
    rcases hnewCreated known hmem with hold | ⟨rfl, hnew⟩
    · exact h.created known hold
    · exact ⟨Ne.symm hother, hnew⟩
  others k hk := by
    by_cases htarget : target.components = k
    · subst htarget
      exact hrecovers
    · rw [Store.slots_put, if_neg htarget]
      exact (h.others k hk).mono htouched hcreated

theorem require (h : Recoverable before path store journal) (target : Path) :
    Recoverable before path (store.ensure target) (journal.require store target) := by
  unfold Store.ensure Journal.require
  split
  · exact h
  · next hcontains =>
    have hnone : store.slot? target = none := by simpa [Store.contains] using hcontains
    have hother : ¬ path.SamePlace target := by
      intro hsame
      obtain ⟨slot, hslot, -, -⟩ := h.own
      rw [Store.slot?, hsame] at hslot
      cases hnone.symm.trans hslot
    have hbefore : before.slot? target = none := by
      have hrecovers := h.others target.components hother
      change Recovers _ _ (before.slot? target) (store.slot? target) at hrecovers
      rw [hnone] at hrecovers
      generalize before.slot? target = was at hrecovers
      cases hrecovers
      rfl
    refine h.put_other hother (List.Subset.refl _) (List.subset_append_left _ _)
      (fun _ hmem => .inl hmem) (fun known hmem => ?_) ?_
    · rcases List.mem_append.1 hmem with hmem | hmem
      · exact .inl hmem
      · exact .inr ⟨List.mem_singleton.1 hmem, hbefore⟩
    · rw [hbefore, Store.slot?_put, if_pos rfl]
      exact .created rfl ⟨target, by simp, rfl⟩

/-- Only the document's own entry is in the stage `processing`. -/
theorem own_of_processing (h : Recoverable before path store journal) (hrest : before.AtRest)
    {k : List String} {slot : Slot} (hslot : store.slots[k]? = some slot)
    (hstage : slot.entry.stage = .processing) : path.components = k := by
  refine Decidable.byContradiction fun hother => ?_
  have hrecovers := h.others k hother
  rw [hslot] at hrecovers
  generalize hwas : before.slots[k]? = was at hrecovers
  cases hrecovers with
  | kept => exact hrest _ _ hwas hstage
  | touched table placeholder => simp_all [Entry.isPlaceholder]
  | created placeholder => simp [Entry.isPlaceholder, hstage] at placeholder

/-- The document's own entry may get other names. -/
theorem put_own (h : Recoverable before path store journal) (htarget : path.SamePlace target)
    {entry : Entry} (hstage : entry.stage = .processing) :
    Recoverable before path (store.put target entry) journal := by
  obtain ⟨slot, hslot, -, hspelling⟩ := h.own
  have hslot' : store.slot? target = some slot := by
    rw [← hslot, Store.slot?, Store.slot?, htarget]
  refine ⟨⟨⟨slot.path, entry⟩, ?_, hstage, hspelling⟩, h.touched, h.created, fun k hk => ?_⟩
  · rw [Store.slot?_put, if_pos htarget.symm, hslot']
    rfl
  · rw [Store.slots_put, if_neg (htarget ▸ hk)]
    exact h.others k hk

/-- The document's own entry is no placeholder. -/
theorem not_samePlace_of_isPlaceholder (h : Recoverable before path store journal) {slot : Slot}
    (hslot : store.slot? target = some slot) (hplaceholder : slot.entry.isPlaceholder) :
    ¬ path.SamePlace target := by
  intro hsame
  obtain ⟨own, hown, hstage, -⟩ := h.own
  rw [Store.slot?, hsame] at hown
  obtain rfl := Option.some.inj (hown.symm.trans hslot)
  simp [Entry.isPlaceholder, hstage] at hplaceholder

/-- A placeholder may get other names, once the journal has its table. -/
theorem put_placeholder (h : Recoverable before path store journal) {slot : Slot}
    (hslot : store.slot? target = some slot) (hplaceholder : slot.entry.isPlaceholder)
    (table : Table) :
    Recoverable before path (store.put target { slot.entry with table })
      (journal.snapshot target slot.entry.table) := by
  have hother := h.not_samePlace_of_isPlaceholder hslot hplaceholder
  have hrecovers := h.others target.components hother
  change Recovers _ _ (before.slot? target) (store.slot? target) at hrecovers
  rw [hslot] at hrecovers
  unfold Journal.snapshot
  split
  · next hknows =>
    -- the journal has the table that the placeholder had in the beginning
    refine h.put_other hother (List.Subset.refl _) (List.Subset.refl _) (fun _ hmem => .inl hmem)
      (fun _ hmem => .inl hmem) ?_
    rw [Store.slot?_put, if_pos rfl, hslot]
    exact hrecovers.setTable hplaceholder (Journal.knows_iff.1 hknows)
      h.slots_eq_none_of_created table
  · next hknows =>
    -- the placeholder is still as it was in the beginning
    have hbefore : before.slot? target = some slot :=
      hrecovers.eq_of_unknown (mt Journal.knows_iff.2 hknows)
    refine h.put_other hother (List.subset_append_left _ _) (List.Subset.refl _)
      (fun known hmem => ?_) (fun _ hmem => .inl hmem) ?_
    · rcases List.mem_append.1 hmem with hmem | hmem
      · exact .inl hmem
      · obtain rfl := List.mem_singleton.1 hmem
        exact .inr ⟨rfl, slot, hbefore, hplaceholder, rfl⟩
    · rw [Store.slot?_put, if_pos rfl, hslot, hbefore]
      exact .touched table hplaceholder ⟨_, List.mem_append_right _ List.mem_cons_self, rfl⟩

theorem ask (h : Recoverable before path store journal) (hrest : before.AtRest)
    (generate : Name.Generator) (target : Path) (className : String) :
    Recoverable before path (store.update target (Entry.remember generate target className))
      (journal.ask store target) := by
  have hensured := h.require target
  rw [← Store.put_entry_eq_ensure] at hensured
  -- first there is an entry at all, then it gets the name
  have hslot := (store.slot?_put target target (store.entry target)).trans (if_pos rfl)
  have hupdate : store.update target (Entry.remember generate target className)
      = (store.put target (store.entry target)).put target
          ((store.entry target).remember generate target className) := by
    rw [Store.put_put]
    rfl
  simp only [Journal.ask, hupdate]
  unfold Entry.remember
  by_cases hprocessed : (store.entry target).stage = .processed
  · rw [if_pos hprocessed, Store.put_put, if_neg (by simp [Entry.isPlaceholder, hprocessed])]
    exact hensured
  · rw [if_neg hprocessed]
    by_cases hplaceholder : (store.entry target).isPlaceholder
    · rw [if_pos hplaceholder]
      exact hensured.put_placeholder hslot hplaceholder _
    · rw [if_neg hplaceholder]
      have hstage : (store.entry target).stage = .processing := by
        revert hprocessed hplaceholder
        unfold Entry.isPlaceholder
        cases (store.entry target).stage <;> simp
      exact hensured.put_own (hensured.own_of_processing hrest hslot hstage) hstage

end Recoverable
end ScopedCss
