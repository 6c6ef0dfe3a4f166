import ScopedCss.Proofs.Table.Growth
import ScopedCss.Store.Journal

/-!
# Stores that grow

All that a document does to the entries of other files is `Store.update`: a file without an entry
gets one as a placeholder, and the table of a file that is not processed may get another name.

* `Entry.remember` is the second of these changes, and `Entry.nameOf` the name it is made for.
* `≤` says what both of them keep: how far each file has come, and each name that it has.
* `Store.nameOf_eq_of_le`: a name that was asked for once is the name ever after.
-/

namespace ScopedCss

variable {generate : Name.Generator} {target : Path} {className : String}

/-! ## Entries -/

namespace Entry

/-- The name that the file has, or will have, for a class. -/
def nameOf (generate : Name.Generator) (target : Path) (className : String) (entry : Entry) :
    String :=
  (entry.table.get? className).getD (generate className ⟨target, entry.source.getD ""⟩)

/-- Keep the name of a class, unless the table does not change any more. -/
def remember (generate : Name.Generator) (target : Path) (className : String) (entry : Entry) :
    Entry :=
  if entry.stage = .processed then entry
  else
    { entry with
      table := entry.table.enter className (generate className ⟨target, entry.source.getD ""⟩) }

/-- The file has come as far, and has at least the names that it had; a processed file has no other
names. -/
structure Within (e e' : Entry) : Prop where
  stage : e'.stage = e.stage
  source : e'.source = e.source
  table : e.table ≤ e'.table
  frozen : e.stage = .processed → e'.table = e.table

instance : Preorder Entry where
  le := Within
  le_refl _ := ⟨rfl, rfl, le_refl _, fun _ => rfl⟩
  le_trans _ _ _ h h' :=
    ⟨h'.stage.trans h.stage, h'.source.trans h.source, le_trans h.table h'.table,
      fun hstage => (h'.frozen (h.stage.trans hstage)).trans (h.frozen hstage)⟩

/-- A processed entry does not grow. -/
theorem eq_of_processed {e e' : Entry} (h : e ≤ e') (hstage : e.stage = .processed) : e' = e := by
  obtain ⟨table, source, stage⟩ := e
  obtain ⟨table', source', stage'⟩ := e'
  obtain rfl : stage' = stage := h.stage
  obtain rfl : source' = source := h.source
  obtain rfl : table' = table := h.frozen hstage
  rfl

theorem isPlaceholder_eq_of_le {e e' : Entry} (h : e ≤ e') :
    e'.isPlaceholder = e.isPlaceholder := by
  rw [isPlaceholder, isPlaceholder, h.stage]

theorem le_remember (generate : Name.Generator) (target : Path) (className : String)
    (entry : Entry) : entry ≤ entry.remember generate target className := by
  unfold remember
  split
  · exact le_refl entry
  · next h => exact ⟨rfl, rfl, Table.le_enter _ _ _, fun hstage => absurd hstage h⟩

@[simp] theorem stage_remember (entry : Entry) :
    (entry.remember generate target className).stage = entry.stage :=
  (le_remember generate target className entry).stage

theorem nameOf_remember (generate : Name.Generator) (target : Path) (className className' : String)
    (entry : Entry) :
    (entry.remember generate target className).nameOf generate target className'
      = entry.nameOf generate target className' := by
  unfold nameOf remember
  split
  · rfl
  · simp only [Table.get?_enter]
    by_cases h : className = className' <;> simp [h]

theorem get?_remember {entry : Entry} (hstage : entry.stage ≠ .processed) :
    (entry.remember generate target className).table.get? className
      = some (entry.nameOf generate target className) := by
  simp [remember, nameOf, hstage, Table.get?_enter]

/-- A name that was kept stays. -/
theorem nameOf_eq_of_le {entry entry' : Entry}
    (h : entry.remember generate target className ≤ entry') :
    entry'.nameOf generate target className = entry.nameOf generate target className := by
  rw [← nameOf_remember generate target className className entry]
  have hsource := h.source
  by_cases hstage : entry.stage = .processed
  · have htable := h.frozen (by rwa [stage_remember])
    rw [nameOf, nameOf, hsource, htable]
  · have hname := @get?_remember generate target className entry hstage
    rw [nameOf, nameOf, hname, h.table _ _ hname]
    rfl

/-- Where a name was kept, to keep it again changes nothing. -/
theorem remember_eq_self_of_le {entry entry' : Entry}
    (h : entry.remember generate target className ≤ entry') :
    entry'.remember generate target className = entry' := by
  have hsame : entry'.stage = entry.stage := h.stage.trans (stage_remember entry)
  unfold remember
  split
  · rfl
  · next hstage =>
    rw [hsame] at hstage
    have hname := h.table _ _ (get?_remember hstage)
    simp only [Table.enter, hname]

/-- Names are kept in any order. -/
theorem remember_comm (entry : Entry) (className' : String) :
    (entry.remember generate target className).remember generate target className'
      = (entry.remember generate target className').remember generate target className := by
  by_cases hstage : entry.stage = .processed
  · simp [remember, hstage]
  · simp only [remember, hstage, if_false]
    rw [Table.enter_comm fun h => by rw [h]]

end Entry

/-! ## Stores -/

namespace Store

/-- Change the entry of a file. A file without an entry is one that is only referred to. -/
def update (store : Store) (path : Path) (change : Entry → Entry) : Store :=
  store.put path (change (store.entry path))

/-- The name that a file has, or will have, for a class. -/
def nameOf (store : Store) (generate : Name.Generator) (target : Path) (className : String) :
    String :=
  (store.entry target).nameOf generate target className

theorem ext {s t : Store} (h : ∀ k : List String, s.slots[k]? = t.slots[k]?) : s = t := by
  cases s
  cases t
  exact congrArg Store.mk (Std.ExtTreeMap.ext_getElem? fun {k} => h k)

theorem slots_put (store : Store) (path : Path) (entry : Entry) (k : List String) :
    (store.put path entry).slots[k]? =
      if path.components = k then some ⟨((store.slot? path).map Slot.path).getD path, entry⟩
      else store.slots[k]? := by
  simp only [put, Std.ExtTreeMap.getElem?_insert, Std.LawfulEqOrd.compare_eq_iff_eq]
  split
  · cases store.slot? path <;> simp
  · rfl

theorem slots_erase (store : Store) (path : Path) (k : List String) :
    (store.erase path).slots[k]? = if path.components = k then none else store.slots[k]? := by
  simp only [erase, Std.ExtTreeMap.getElem?_erase, Std.LawfulEqOrd.compare_eq_iff_eq]

@[simp] theorem slots_empty (k : List String) : (∅ : Store).slots[k]? = none :=
  Std.ExtTreeMap.getElem?_empty

theorem slots_commit (store : Store) (checkpoint : Checkpoint) (table : Table) (k : List String) :
    (store.commit checkpoint table).slots[k]? =
      if checkpoint.path.components = k then
        some ⟨checkpoint.path, table, (store.get? checkpoint.path).bind Entry.source, .processed⟩
      else store.slots[k]? := by
  rw [commit, slots_put, slot?_erase, if_pos rfl, slots_erase]
  split <;> rfl

theorem entry_put (store : Store) (path path' : Path) (entry : Entry) :
    (store.put path entry).entry path' =
      if path.SamePlace path' then entry else store.entry path' := by
  simp only [Store.entry, get?_put]
  split <;> rfl

theorem entry_congr (store : Store) {path path' : Path} (h : path.SamePlace path') :
    store.entry path = store.entry path' := by
  simp only [Store.entry, get?, slot?, h]

theorem entry_update (store : Store) (path path' : Path) (change : Entry → Entry) :
    (store.update path change).entry path' =
      if path.SamePlace path' then change (store.entry path') else store.entry path' := by
  rw [update, entry_put]
  split
  · next h => rw [store.entry_congr h]
  · rfl

theorem entry_erase (store : Store) (path path' : Path) :
    (store.erase path).entry path' =
      if path.SamePlace path' then .placeholder else store.entry path' := by
  simp only [Store.entry, get?_erase]
  split <;> rfl

theorem entry_commit (store : Store) (checkpoint : Checkpoint) (table : Table) (path : Path) :
    (store.commit checkpoint table).entry path =
      if checkpoint.path.SamePlace path then
        ⟨table, (store.get? checkpoint.path).bind Entry.source, .processed⟩
      else store.entry path := by
  rw [commit, entry_put, entry_erase]
  split <;> rfl

theorem put_put (store : Store) (path : Path) (entry entry' : Entry) :
    (store.put path entry).put path entry' = store.put path entry' := by
  apply ext
  intro k
  rw [slots_put, slots_put, slots_put, slot?_put, if_pos rfl]
  split <;> rfl

theorem put_entry_eq_ensure (store : Store) (path : Path) :
    store.put path (store.entry path) = store.ensure path := by
  unfold ensure contains
  cases h : store.slot? path with
  | none => simp [Store.entry, get?, h]
  | some slot =>
    apply ext
    intro k
    rw [slots_put, h]
    split
    · next hk =>
      subst hk
      rw [Store.entry, get?, h]
      exact h.symm
    · rfl

/-- A file that is only referred to is like one without an entry. -/
theorem entry_ensure (store : Store) (path path' : Path) :
    (store.ensure path).entry path' = store.entry path' := by
  rw [← put_entry_eq_ensure, entry_put]
  split
  · next h => exact store.entry_congr h
  · rfl

theorem setTable_ensure (store : Store) (path : Path) (table : Table) :
    (store.ensure path).setTable path table = store.update path ({ · with table }) := by
  apply ext
  intro k
  rw [← put_entry_eq_ensure, setTable, get?_put, if_pos rfl]
  simp only [update, slots_put, slot?_put]
  split
  · simp
  · rfl

theorem source_get? (store : Store) (path : Path) :
    (store.get? path).bind Entry.source = (store.entry path).source := by
  unfold Store.entry
  cases store.get? path <;> rfl

theorem isResolved_eq (store : Store) (path : Path) :
    store.isResolved path = !(store.entry path).isPlaceholder := by
  unfold isResolved Store.entry
  cases store.get? path <;> rfl

theorem contains_put (store : Store) (path path' : Path) (entry : Entry) :
    (store.put path entry).contains path' ↔ path.SamePlace path' ∨ store.contains path' := by
  unfold contains
  rw [slot?_put]
  split
  · next hsame => exact iff_of_true rfl (.inl hsame)
  · next hother => exact (or_iff_right hother).symm

theorem contains_of_not_isPlaceholder {store : Store} {path : Path}
    (h : (store.entry path).isPlaceholder = false) : store.contains path := by
  unfold Store.entry get? at h
  unfold contains
  cases hslot : store.slot? path with
  | none =>
    rw [hslot] at h
    cases h
  | some slot => rfl

/-- A change of an entry has no effect just where it leaves the entry that is there. -/
theorem update_eq_self_iff {store : Store} {path : Path} {change : Entry → Entry} :
    store.update path change = store ↔
      store.contains path ∧ change (store.entry path) = store.entry path := by
  constructor
  · intro h
    constructor
    · rw [← h, update, contains_put]
      exact .inl rfl
    · have hentry := store.entry_update path path change
      rw [h, if_pos rfl] at hentry
      exact hentry.symm
  · rintro ⟨hcontains, hchange⟩
    rw [update, hchange, put_entry_eq_ensure, ensure, if_pos hcontains]

/-! ### The order -/

instance : Preorder Store where
  le s t := ∀ path, s.entry path ≤ t.entry path
  le_refl s path := le_refl (s.entry path)
  le_trans _ _ _ h h' path := le_trans (h path) (h' path)

theorem le_update {change : Entry → Entry} (h : ∀ entry, entry ≤ change entry) (store : Store)
    (path : Path) : store ≤ store.update path change := by
  intro path'
  rw [entry_update]
  split
  · exact h _
  · exact le_refl _

theorem le_ensure (store : Store) (path : Path) : store ≤ store.ensure path :=
  fun path' => le_of_eq (store.entry_ensure path path').symm

/-- **A name that was asked for once is the name ever after.** -/
theorem nameOf_eq_of_le {s t : Store}
    (h : s.update target (Entry.remember generate target className) ≤ t) :
    t.nameOf generate target className = s.nameOf generate target className := by
  apply Entry.nameOf_eq_of_le
  have := h target
  rwa [entry_update, if_pos rfl] at this

end Store
end ScopedCss
