import ScopedCss.Selector.Token
import ScopedCss.Text.ClassName

/-!
# Composition references in a selector

A reference is read where a class or a name ends: if `::` and another name follow, all of it is the
reference. One in parentheses is read only if it fills them.

* `composition?_eq_some`, `parenthesized?_eq_some`: a reference and the rest are the text they were
  read from.
-/

namespace ScopedCss
namespace Selector

open Text

/-- The class name after `::`, and the rest. -/
def remote? : List Char → Option (List Char × List Char)
  | ':' :: ':' :: rest =>
    match rest.takeWhile isNameChar with
    | [] => none
    | remote => some (remote, rest.dropWhile isNameChar)
  | _ => none

theorem remote?_eq_some {s remote rest : List Char} (h : remote? s = some (remote, rest)) :
    s = ':' :: ':' :: remote ++ rest := by
  unfold remote? at h
  split at h
  · next s' =>
    split at h
    · cases h
    · cases h
      simp
  · cases h

/-- The reference whose alias is given and which goes on with this text, and the rest. -/
def composition? (dotted : Bool) (aliasName : List Char) (s : List Char) :
    Option (Composition × List Char) :=
  (remote? s).map fun parts =>
    (⟨dotted, String.ofList aliasName, String.ofList parts.1, false⟩, parts.2)

/-- The reference after a `(`, if the next character after it is a `)`, and the rest. -/
def parenthesized? (s : List Char) : Option (Composition × List Char) :=
  let dotted := s.head? == some '.'
  let s := if dotted then s.tail else s
  match s.takeWhile isNameChar with
  | [] => none
  | aliasName =>
    match remote? (s.dropWhile isNameChar) with
    | some (remote, ')' :: rest) =>
      some (⟨dotted, String.ofList aliasName, String.ofList remote, true⟩, rest)
    | _ => none

theorem composition?_eq_some {dotted : Bool} {aliasName s rest : List Char} {c : Composition}
    (h : composition? dotted aliasName s = some (c, rest)) :
    c.source ++ rest = (if dotted then ['.'] else []) ++ aliasName ++ s := by
  obtain ⟨parts, hparts, heq⟩ := Option.map_eq_some_iff.1 h
  cases heq
  rw [remote?_eq_some hparts]
  simp [Composition.source]

theorem parenthesized?_eq_some {s rest : List Char} {c : Composition}
    (h : parenthesized? s = some (c, rest)) : c.source ++ rest = '(' :: s := by
  unfold parenthesized? at h
  extract_lets dotted s' at h
  have hs : (if dotted then ['.'] else []) ++ s' = s := by
    cases s with
    | nil => rfl
    | cons a s => by_cases ha : a = '.' <;> simp [dotted, s', ha]
  split at h
  · cases h
  · split at h
    · next hremote =>
      cases h
      have hs' := (List.takeWhile_append_dropWhile (p := isNameChar) (l := s')).symm
      rw [remote?_eq_some hremote] at hs'
      rw [← hs]
      conv => rhs; rw [hs']
      simp [Composition.source]
    · cases h

theorem Composition.source_ne_nil (c : Composition) : c.source ≠ [] := by
  simp [Composition.source]

end Selector
end ScopedCss
