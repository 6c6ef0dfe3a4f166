import Mathlib.Logic.Function.Conjugate
import ScopedCss.Proofs.Store.Growth

/-!
# Changes of a store that commute

Two documents meet in the store only where both refer to a file that is not processed yet. All that
they do there is to keep names, and to keep names commutes (`Entry.remember_comm`); so do changes of
different files (`ActsAt.commute_of_ne`).
-/

namespace ScopedCss
namespace Store

/-- Give a file an entry under this spelling of its path, whatever it had. -/
def keep (path : Path) (entry : Entry) (store : Store) : Store :=
  (store.erase path).put path entry

/-- The operation changes what is under one key, and nothing else. -/
def ActsAt (operation : Store → Store) (key : List String) (act : Option Slot → Option Slot) :
    Prop :=
  ∀ (store : Store) (k : List String), (operation store).slots[k]?
    = if key = k then act store.slots[k]? else store.slots[k]?

namespace ActsAt

variable {operation operation' : Store → Store} {key key' : List String}
  {act act' : Option Slot → Option Slot}

theorem commute_of_ne (h : ActsAt operation key act) (h' : ActsAt operation' key' act')
    (hne : key ≠ key') : Function.Commute operation operation' := by
  intro store
  apply ext
  intro k
  rw [h, h', h', h]
  by_cases hk : key = k
  · have hk' : ¬ key' = k := fun hk' => hne (hk.trans hk'.symm)
    rw [if_pos hk, if_neg hk', if_neg hk', if_pos hk]
  · rw [if_neg hk, if_neg hk]

theorem commute_of_commute (h : ActsAt operation key act) (h' : ActsAt operation' key act')
    (hact : Function.Commute act act') : Function.Commute operation operation' := by
  intro store
  apply ext
  intro k
  rw [h, h', h', h]
  by_cases hk : key = k
  · simp only [if_pos hk]
    exact hact _
  · simp only [if_neg hk]

end ActsAt

theorem actsAt_update (path : Path) (change : Entry → Entry) :
    ActsAt (update · path change) path.components fun slot? =>
      some ⟨(slot?.map Slot.path).getD path,
        change ((slot?.map Slot.entry).getD .placeholder)⟩ := by
  intro store k
  show (store.put path _).slots[k]? = _
  rw [slots_put]
  by_cases hk : path.components = k
  · subst hk
    rfl
  · rw [if_neg hk, if_neg hk]

theorem actsAt_keep (path : Path) (entry : Entry) :
    ActsAt (keep path entry) path.components fun _ => some ⟨path, entry⟩ := by
  intro store k
  rw [keep, slots_put, slot?_erase, if_pos rfl, slots_erase]
  split <;> rfl

theorem entry_keep (path path' : Path) (entry : Entry) (store : Store) :
    (store.keep path entry).entry path'
      = if path.SamePlace path' then entry else store.entry path' := by
  rw [keep, entry_put, entry_erase]
  split <;> rfl

theorem keep_keep (path : Path) (entry : Entry) (store : Store) :
    (store.keep path entry).keep path entry = store.keep path entry := by
  apply ext
  intro k
  rw [actsAt_keep, actsAt_keep]
  split <;> rfl

theorem commute_update {path : Path} {change change' : Entry → Entry}
    (h : Function.Commute change change') :
    Function.Commute (update · path change) (update · path change') := by
  refine (actsAt_update path change).commute_of_commute (actsAt_update path change') ?_
  intro slot?
  exact congrArg (fun entry => some (Slot.mk ((slot?.map Slot.path).getD path) entry)) (h _)

end Store
end ScopedCss
