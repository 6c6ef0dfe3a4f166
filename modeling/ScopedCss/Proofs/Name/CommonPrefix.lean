import Mathlib.Logic.Function.Basic
import ScopedCss.Name.Generator

/-!
# Common prefixes of hashed texts

A unit is mixed into a hash in a way that can be undone: 33 is odd, so that a product by it can be
divided again modulo 2³², and an exclusive or is its own inverse. As the hash of a text begins at
its end, what two texts have in common at their start tells nothing about whether their hashes are
equal.

* `mix_bijective`: mixing in a unit loses nothing of the hash before it.
* `hash_append`: the hash of a text goes on from that of its end.
* `hash_prefix_cancels`: a common prefix can be left out, so that the class in front of the path
  adds nothing to what the path says.
-/

namespace ScopedCss
namespace Name

open Text

/-! ## Undoing one unit -/

/-- The inverse of 33 modulo 2³². -/
def inverse33 : UInt32 := 1041204193

/-- Take one unit out of a hash again. -/
def unmix (unit : UInt16) (h : UInt32) : UInt32 := (h ^^^ unit.toUInt32) * inverse33

theorem mul_inverse33 : 33 * inverse33 = 1 := by decide

theorem xor_xor_unit (h unit : UInt32) : h ^^^ unit ^^^ unit = h := by
  rw [UInt32.xor_assoc, UInt32.xor_self, UInt32.xor_zero]

theorem unmix_mix (unit : UInt16) (h : UInt32) : unmix unit (mix unit h) = h := by
  rw [unmix, mix, xor_xor_unit, UInt32.mul_assoc, mul_inverse33, UInt32.mul_one]

theorem mix_unmix (unit : UInt16) (h : UInt32) : mix unit (unmix unit h) = h := by
  rw [mix, unmix, UInt32.mul_assoc, UInt32.mul_comm inverse33, mul_inverse33, UInt32.mul_one,
    xor_xor_unit]

/-- Mixing in a unit is a bijection of the 32-bit words. -/
theorem mix_bijective (unit : UInt16) : Function.Bijective (mix unit) :=
  ⟨Function.LeftInverse.injective (unmix_mix unit),
    Function.RightInverse.surjective (mix_unmix unit)⟩

/-- So is mixing in many units, the last one first. -/
theorem foldr_mix_bijective (units : List UInt16) : Function.Bijective (units.foldr mix) := by
  induction units with
  | nil => exact Function.bijective_id
  | cons unit units ih => exact (mix_bijective unit).comp ih

/-! ## Texts with a common prefix -/

/-- The hash of a text goes on from the hash of its end. -/
theorem hash_append (w p : String) : hash (w ++ p) = (utf16 w.toList).foldr mix (hash p) := by
  rw [hash, String.toList_append, utf16_append, List.foldr_append, hash]

theorem hash_append_eq_iff (w p q : String) : hash (w ++ p) = hash (w ++ q) ↔ hash p = hash q := by
  rw [hash_append, hash_append]
  exact (foldr_mix_bijective _).injective.eq_iff

variable {p q : Path}

/-- The class in front of the paths does not tell them apart. -/
theorem hash_class_eq (h : hash (slashed p) = hash (slashed q)) (className : String) :
    hash (className ++ ":" ++ slashed p) = hash (className ++ ":" ++ slashed q) :=
  (hash_append_eq_iff _ _ _).2 h

/-- Two paths whose texts have one hash give a class one name. -/
theorem pathName_eq_of_hash (h : hash (slashed p) = hash (slashed q)) (className : String) :
    pathName className p = pathName className q := by
  rw [pathName, pathName, h, hash_class_eq h]

/-- **A common prefix does not matter to the hash.** So the part of a name that is made from the
class and the path together never tells two files apart whose paths have one hash: their names for
any class are the same. -/
theorem hash_prefix_cancels :
    (∀ w p q : String, hash (w ++ p) = hash (w ++ q) ↔ hash p = hash q) ∧
    ∀ p q : Path, hash (slashed p) = hash (slashed q) → ∀ className source source' : String,
      segment (hash (className ++ ":" ++ slashed p))
        = segment (hash (className ++ ":" ++ slashed q)) ∧
      Naming.path.generate className ⟨p, source⟩ = Naming.path.generate className ⟨q, source'⟩ := by
  refine ⟨hash_append_eq_iff, fun p q h className source source' => ?_⟩
  exact ⟨congrArg segment (hash_class_eq h className), pathName_eq_of_hash h className⟩

/-- A prefix with a character outside the basic plane, and two files whose paths have one hash, one
of them with a backslash. -/
theorem hash_prefix_cancels_files :
    let p : Path := ⟨"/😀\\rc.css"⟩
    let q : Path := ⟨"/😀/0a.css"⟩
    slashed p ≠ slashed q ∧ hash (slashed p) = hash (slashed q) ∧
      Naming.path.generate "button" ⟨p, ".button {}"⟩ = Naming.path.generate "button" ⟨q, ""⟩ := by
  intro p q
  have hslashed : slashed p = "/😀" ++ "/rc.css" ∧ slashed q = "/😀" ++ "/0a.css" := by decide +kernel
  have hends : hash "/rc.css" = hash "/0a.css" := by decide +kernel
  have hpaths : hash (slashed p) = hash (slashed q) := by
    rw [hslashed.1, hslashed.2]
    exact (hash_prefix_cancels.1 _ _ _).2 hends
  exact ⟨by decide +kernel, hpaths, (hash_prefix_cancels.2 p q hpaths "button" _ _).2⟩

end Name
end ScopedCss
