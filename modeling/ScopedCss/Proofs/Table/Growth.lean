import Mathlib.Order.Defs.PartialOrder
import ScopedCss.Table.Basic

/-!
# Tables that grow

While a document is scoped, a name is entered into a table only where the class has none. `enter` is
this operation, and `≤` says that a table has all names of another one: `le_enter` is why a name
stays once it is there.
-/

namespace ScopedCss
namespace Table

/-- Give a label a scoped name, unless it has one. -/
def enter (t : Table) (label name : String) : Table :=
  match t.get? label with
  | some _ => t
  | none => t.bind label name

theorem get?_enter (t : Table) (label name className : String) :
    (t.enter label name).get? className
      = if label = className then some ((t.get? className).getD name) else t.get? className := by
  unfold enter
  by_cases h : label = className
  · subst h
    cases ht : t.get? label <;> simp [ht, get?_bind]
  · cases t.get? label <;> simp [h, get?_bind]

theorem translate_eq (t : Table) (generate : Name.Generator) (seed : Name.Seed)
    (className : String) :
    t.translate generate seed className
      = ((t.get? className).getD (generate className seed),
          t.enter className (generate className seed)) := by
  unfold translate enter
  cases t.get? className <;> rfl

/-- Names are entered in any order, unless they are different names for one label. -/
theorem enter_comm {t : Table} {label label' name name' : String}
    (h : label = label' → name = name') :
    (t.enter label name).enter label' name' = (t.enter label' name').enter label name := by
  apply ext
  intro className
  simp only [get?_enter]
  by_cases h₁ : label = className
  · by_cases h₂ : label' = className
    · simp [h₁, h₂, h (h₁.trans h₂.symm)]
    · simp [h₁, h₂]
  · by_cases h₂ : label' = className <;> simp [h₁, h₂]

theorem contains_iff (t : Table) (className : String) :
    t.contains className ↔ ∃ name, t.get? className = some name := by
  rw [← Option.isSome_iff_exists, get?, Std.ExtTreeMap.isSome_getElem?_eq_contains, contains]

theorem contains_enter (t : Table) (label name className : String) :
    (t.enter label name).contains className ↔ label = className ∨ t.contains className := by
  rw [contains_iff, contains_iff, get?_enter]
  by_cases h : label = className <;> simp [h]

/-! ## The order -/

/-- A table is within another one that gives all its classes the same names. -/
instance : Preorder Table where
  le s t := ∀ className name, s.get? className = some name → t.get? className = some name
  le_refl _ _ _ h := h
  le_trans _ _ _ h h' className name hname := h' className name (h className name hname)

theorem le_enter (t : Table) (label name : String) : t ≤ t.enter label name := by
  intro className known h
  rw [get?_enter]
  split
  · rw [h]
    rfl
  · exact h

end Table
end ScopedCss
