import ScopedCss.Proofs.Document.Names
import ScopedCss.Proofs.Document.References

/-!
# What a document leaves of other files

A document that is scoped leaves its own entry, and of every other file it leaves what was there, up
to names that it adds to files that are not processed. `Leaves` says this of one key; it holds of
each change that a step makes (`leaves_update`), and therefore of the whole document
(`leaves_process`).
-/

namespace ScopedCss

open Stylesheet (Document)

/-- What may be left under a key. A processed file is left as it is; any other file keeps how far it
has come, its text, and all of its names. A new file is a placeholder for one that was declared. -/
inductive Leaves (declared : Path → Prop) : List String → Option Slot → Option Slot → Prop
  | absent (k : List String) : Leaves declared k none none
  | created {k : List String} {target : Path} (h : declared target) (hk : target.components = k)
      (table : Table) : Leaves declared k none (some ⟨target, table, none, .placeholder⟩)
  | grown {k : List String} {slot : Slot} {table : Table} (hstage : slot.entry.stage ≠ .processed)
      (htable : slot.entry.table ≤ table) :
      Leaves declared k (some slot) (some { slot with entry := { slot.entry with table } })
  | frozen {k : List String} {slot : Slot} (hstage : slot.entry.stage = .processed) :
      Leaves declared k (some slot) (some slot)

namespace Leaves

variable {declared : Path → Prop} {k : List String} {was between is : Option Slot}

theorem refl (k : List String) (slot? : Option Slot) : Leaves declared k slot? slot? := by
  cases slot? with
  | none => exact .absent k
  | some slot =>
    by_cases hstage : slot.entry.stage = .processed
    · exact .frozen hstage
    · exact .grown hstage (le_refl slot.entry.table)

theorem trans (h : Leaves declared k was between) (h' : Leaves declared k between is) :
    Leaves declared k was is := by
  cases h with
  | absent => exact h'
  | frozen => exact h'
  | created htarget hk =>
    cases h' with
    | grown => exact .created htarget hk _
    | frozen hstage => cases hstage
  | grown hstage htable =>
    cases h' with
    | grown _ htable' => exact .grown hstage (le_trans htable htable')
    | frozen hprocessed => exact absurd hprocessed hstage

/-- A processed file is as it was. -/
theorem eq_of_processed {slot : Slot} (h : Leaves declared k (some slot) is)
    (hstage : slot.entry.stage = .processed) : is = some slot := by
  cases h with
  | grown hnot => exact absurd hstage hnot
  | frozen => rfl

end Leaves

variable {config : Config} {document : Document} {store : Store} {target : Path}

/-! ## Steps -/

/-- A change that keeps a name leaves a processed entry as it is, and of any other one all but its
table, which may grow. -/
theorem KeepsName.entry {change : Entry → Entry} (h : KeepsName config target change)
    (entry : Entry) :
    (entry.stage = .processed → change entry = entry) ∧
      ∃ table, entry.table ≤ table ∧ change entry = { entry with table } := by
  rcases h with rfl | ⟨className, rfl⟩
  · exact ⟨fun _ => rfl, entry.table, le_refl _, rfl⟩
  · unfold Entry.remember
    by_cases hstage : entry.stage = .processed
    · rw [if_pos hstage]
      exact ⟨fun _ => rfl, entry.table, le_refl _, rfl⟩
    · rw [if_neg hstage]
      exact ⟨fun h => absurd h hstage, _, Table.le_enter _ _ _, rfl⟩

theorem leaves_update {declared : Path → Prop} (htarget : declared target) {change : Entry → Entry}
    (h : KeepsName config target change) (store : Store) (k : List String) :
    Leaves declared k store.slots[k]? (store.update target change).slots[k]? := by
  rw [Store.actsAt_update]
  split
  · next hk =>
    subst hk
    cases hslot : store.slots[target.components]? with
    | none =>
      obtain ⟨-, table, -, hchange⟩ := h.entry .placeholder
      simp only [Option.map_none, Option.getD_none, hchange]
      exact .created htarget rfl table
    | some slot =>
      obtain ⟨hprocessed, table, htable, hchange⟩ := h.entry slot.entry
      simp only [Option.map_some, Option.getD_some]
      by_cases hstage : slot.entry.stage = .processed
      · rw [hprocessed hstage]
        exact .frozen hstage
      · rw [hchange]
        exact .grown hstage htable
  · exact .refl k _

theorem leaves_changes {declared : Path → Prop} {key : Path} {steps : List Step}
    (h : ∀ step ∈ steps, ∀ target, step.target? = some target → declared target) (store : Store)
    (k : List String) :
    Leaves declared k store.slots[k]? (changes config key steps store).slots[k]? := by
  induction steps generalizing store with
  | nil => exact .refl k _
  | cons step steps ih =>
    obtain ⟨hstep, hrest⟩ := List.forall_mem_cons.1 h
    refine Leaves.trans ?_ (ih hrest (step.change config key store))
    rcases change_eq config key step with hchange | ⟨target, change, htarget, -, hkeeps, hchange⟩
    · rw [hchange]
      exact .refl k _
    · rw [hchange]
      exact leaves_update (hstep target htarget) hkeeps store k

/-! ## Documents -/

theorem finished_of_performed {cx : Context} (h : document.performed config store = (.ok (), cx)) :
    document.finished config store = cx.table :=
  congrArg (fun performed => performed.2.table) h

/-- A document that is scoped leaves its finished table in its own entry. -/
theorem slot?_process {given : Table} (h : (process config document store).result = .ok given) :
    (process config document store).store.slot? document.key
      = some ⟨document.key, document.finished config store, some document.source, .processed⟩ := by
  obtain ⟨cx, hperformed⟩ := performed_of_ok h
  rw [finished_of_performed hperformed]
  exact slot?_process_of_done hperformed

theorem table?_process {given : Table} (h : (process config document store).result = .ok given) :
    (process config document store).store.table? document.key
      = some (document.finished config store) := by
  unfold Store.table? Store.get?
  rw [slot?_process h]
  rfl

/-- The table that is given out is the finished table, under camel case names if these are asked
for. -/
theorem given_eq {given : Table} (h : (process config document store).result = .ok given) :
    given = (givenTable config (document.finished config store)).1 := by
  obtain ⟨cx, hperformed⟩ := performed_of_ok h
  have hgiven := h.symm.trans (process_of_done hperformed).1
  rw [finished_of_performed hperformed]
  exact Except.ok.inj hgiven

theorem leaves_process {given : Table} (h : (process config document store).result = .ok given)
    {k : List String} (hk : document.key.components ≠ k) :
    Leaves (document.Declares config) k store.slots[k]?
      (process config document store).store.slots[k]? := by
  obtain ⟨cx, hperformed⟩ := performed_of_ok h
  rw [process_store_of_done hperformed, Store.actsAt_keep, if_neg hk]
  apply leaves_changes
  intro step hstep target htarget
  exact mem_references_iff_declares.1 (refersTo_of_mem_steps hstep htarget).1

/-- **A document changes nothing but itself and files that are not processed.** When it is scoped,
its own entry is a processed one. Under any other key a processed entry is as it was; a placeholder
is one still, and has every name that it had; and where there was no entry there is none, or a
placeholder for a file that a directive of the document declares. -/
theorem process_frame {given : Table} (h : (process config document store).result = .ok given) :
    (∃ slot, (process config document store).store.slot? document.key = some slot ∧
      slot.entry.stage = .processed) ∧
    ∀ k, document.key.components ≠ k → Leaves (document.Declares config) k store.slots[k]?
      (process config document store).store.slots[k]? :=
  ⟨⟨_, slot?_process h, rfl⟩, fun _ hk => leaves_process h hk⟩

/-- The document takes classes from a processed file, from a placeholder that has a name already,
from itself, and from a file without an entry. -/
theorem process_frame_shared :
    let config := Config.ofOptions { missing := .warn }
    let before := (process config ⟨⟨"/b.css"⟩, "", [.statement "use" "(.x) from './p.css'",
      .rule ".y" []]⟩ ∅).store
    let document : Document := ⟨⟨"/a.css"⟩, "", [.statement "use" "(.y) from './b.css'",
      .rule ".z" [.statement "use" "(.w) from './p.css'", .statement "use" "(.z) from './a.css'",
        .statement "use" "(.v) from './n.css'"]]⟩
    let after := (process config document before).store
    before.table? ⟨"/p.css"⟩ = some (Table.ofList [("x", "_x_i64lz_u3l1x")]) ∧
      after.table? ⟨"/p.css"⟩
        = some (Table.ofList [("x", "_x_i64lz_u3l1x"), ("w", "_w_i64lz_u3l22")]) ∧
      before.isResolved ⟨"/b.css"⟩ ∧ before.contains ⟨"/n.css"⟩ = false ∧
      (∃ slot, after.slot? document.key = some slot ∧ slot.entry.stage = .processed) ∧
      ∀ file ∈ [Path.mk "/b.css", ⟨"/p.css"⟩, ⟨"/n.css"⟩],
        Leaves (document.Declares config) file.components before.slots[file.components]?
          after.slots[file.components]? := by
  intro config before document after
  have hdone : (process config document before).result = .ok (Table.ofList [("y", "_y_i6491_tsq9y"),
      ("z", "_z_i649y_tthye"), ("w", "_w_i64lz_u3l22"), ("v", "_v_i645l_tptol")]) := by
    decide +kernel
  obtain ⟨hown, hothers⟩ := process_frame hdone
  refine ⟨by decide +kernel, by decide +kernel, by decide +kernel, by decide +kernel, hown, ?_⟩
  intro file hfile
  have hother : ∀ file ∈ [Path.mk "/b.css", ⟨"/p.css"⟩, ⟨"/n.css"⟩],
      document.key.components ≠ file.components := by
    decide +kernel
  exact hothers file.components (hother file hfile)

end ScopedCss
