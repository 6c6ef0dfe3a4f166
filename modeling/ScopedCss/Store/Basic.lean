import ScopedCss.Table.Basic

/-!
# The store

The store keeps the tables of all files of one build. A file is found by the components of its path,
so that every spelling of a path finds it; the store keeps the spelling that it was given first.

* `Store.get?` looks at a store through a path; lemmas say what each operation does to it.
-/

namespace ScopedCss

/-- How far a file has come. -/
inductive Stage where
  /-- Only referred to, not processed. -/
  | placeholder
  /-- Being processed right now. -/
  | processing
  /-- Processed; its table does not change any more. -/
  | processed
  deriving DecidableEq, Inhabited

/-- What is known of a file. -/
structure Entry where
  table : Table
  /-- The text of the file, if it has been read. -/
  source : Option String
  stage : Stage
  deriving DecidableEq

namespace Entry

/-- The entry of a file that is only referred to. -/
def placeholder : Entry := ⟨∅, none, .placeholder⟩

/-- The file is only referred to. -/
def isPlaceholder (entry : Entry) : Bool := entry.stage == .placeholder

end Entry

/-- An entry with the spelling of the path it is kept under. -/
structure Slot where
  path : Path
  entry : Entry
  deriving DecidableEq

/-- The entries of all files, by the components of their paths. -/
structure Store where
  slots : Std.ExtTreeMap (List String) Slot
  deriving DecidableEq

namespace Store

instance : EmptyCollection Store := ⟨⟨∅⟩⟩

instance : Inhabited Store := ⟨∅⟩

/-- The entry of a file with the spelling of its path. -/
def slot? (store : Store) (path : Path) : Option Slot := store.slots[path.components]?

/-- The entry of a file. -/
def get? (store : Store) (path : Path) : Option Entry := (store.slot? path).map Slot.entry

/-- The file has an entry. -/
def contains (store : Store) (path : Path) : Bool := (store.slot? path).isSome

/-- The file has an entry and is more than referred to. -/
def isResolved (store : Store) (path : Path) : Bool :=
  (store.get? path).any (!·.isPlaceholder)

/-- The file has an entry and is only referred to. -/
def isPlaceholder (store : Store) (path : Path) : Bool :=
  (store.get? path).any Entry.isPlaceholder

/-- The table of a file. -/
def table? (store : Store) (path : Path) : Option Table := (store.get? path).map Entry.table

/-- The number of entries. -/
def size (store : Store) : Nat := store.slots.size

/-- There is no entry. -/
def isEmpty (store : Store) : Bool := store.slots.isEmpty

/-- All entries with the spellings of their paths, by the components of these. -/
def toList (store : Store) : List Slot := store.slots.toList.map Prod.snd

/-- Give a file an entry. A file that has one already keeps the spelling of its path. -/
def put (store : Store) (path : Path) (entry : Entry) : Store :=
  let slot := match store.slot? path with
    | some slot => { slot with entry }
    | none => ⟨path, entry⟩
  ⟨store.slots.insert path.components slot⟩

/-- Forget a file. -/
def erase (store : Store) (path : Path) : Store := ⟨store.slots.erase path.components⟩

/-- The entry of a file, or that of a file that is only referred to. -/
def entry (store : Store) (path : Path) : Entry := (store.get? path).getD .placeholder

/-- See to it that the file has an entry. -/
def ensure (store : Store) (path : Path) : Store :=
  if store.contains path then store else store.put path .placeholder

/-- Give a file that has an entry another table. -/
def setTable (store : Store) (path : Path) (table : Table) : Store :=
  match store.get? path with
  | some entry => store.put path { entry with table }
  | none => store

/-! ### What the operations do to `get?` -/

theorem slot?_put (store : Store) (path path' : Path) (entry : Entry) :
    (store.put path entry).slot? path' =
      if path.SamePlace path' then some ⟨((store.slot? path).map Slot.path).getD path, entry⟩
      else store.slot? path' := by
  simp only [put, slot?, Std.ExtTreeMap.getElem?_insert, Std.LawfulEqOrd.compare_eq_iff_eq]
  split
  · cases store.slots[path.components]? <;> simp [*]
  · simp [*]

theorem slot?_erase (store : Store) (path path' : Path) :
    (store.erase path).slot? path' =
      if path.SamePlace path' then none else store.slot? path' := by
  simp only [erase, slot?, Std.ExtTreeMap.getElem?_erase, Std.LawfulEqOrd.compare_eq_iff_eq]

@[simp] theorem get?_empty (path : Path) : (∅ : Store).get? path = none :=
  congrArg (Option.map Slot.entry) Std.ExtTreeMap.getElem?_empty

theorem get?_put (store : Store) (path path' : Path) (entry : Entry) :
    (store.put path entry).get? path' =
      if path.SamePlace path' then some entry else store.get? path' := by
  simp only [get?, slot?_put]
  split <;> rfl

theorem get?_erase (store : Store) (path path' : Path) :
    (store.erase path).get? path' =
      if path.SamePlace path' then none else store.get? path' := by
  simp only [get?, slot?_erase]
  split <;> rfl

end Store
end ScopedCss
