import ScopedCss.Text.Quote

/-!
# Text in brackets

Where the square brackets of an attribute selector and the parentheses of a scope marker are closed.
Brackets in quotes do not count.

* `splitBracket_append`, `splitParens?_eq_some`: the parts are the text, cut in two.
-/

namespace ScopedCss
namespace Selector

open Text

/-- The text after a `[`, cut behind the `]` that closes it; brackets in quotes do not count. An
open bracket reaches to the end. -/
def splitBracket : Option Char → List Char → List Char × List Char
  | _, [] => ([], [])
  | some quote, c :: rest =>
    let parts := splitBracket (if c = quote then none else some quote) rest
    (c :: parts.1, parts.2)
  | none, c :: rest =>
    if c = ']' then ([c], rest)
    else
      let parts := splitBracket (if isQuote c then some c else none) rest
      (c :: parts.1, parts.2)

/-- The text after so many open parentheses, cut at the `)` that closes the first of them: what is
before it and what is after it. Parentheses in quotes do not count. -/
def splitParens? : Nat → Option Char → List Char → Option (List Char × List Char)
  | _, _, [] => none
  | depth, some quote, c :: rest =>
    (splitParens? depth (if c = quote then none else some quote) rest).map
      fun parts => (c :: parts.1, parts.2)
  | depth, none, c :: rest =>
    if c = ')' ∧ depth ≤ 1 then some ([], rest)
    else
      let depth := if c = '(' then depth + 1 else if c = ')' then depth - 1 else depth
      (splitParens? depth (if isQuote c then some c else none) rest).map
        fun parts => (c :: parts.1, parts.2)

theorem splitBracket_append (quote : Option Char) (s : List Char) :
    (splitBracket quote s).1 ++ (splitBracket quote s).2 = s := by
  induction s generalizing quote with
  | nil => cases quote <;> rfl
  | cons c s ih =>
    cases quote with
    | some q => simp [splitBracket, ih]
    | none =>
      rw [splitBracket]
      split
      · simp
      · simp [ih]

theorem splitParens?_eq_some {depth : Nat} {quote : Option Char} {s content rest : List Char}
    (h : splitParens? depth quote s = some (content, rest)) : s = content ++ ')' :: rest := by
  induction s generalizing depth quote content with
  | nil => cases quote <;> simp [splitParens?] at h
  | cons c s ih =>
    cases quote with
    | some q =>
      rw [splitParens?] at h
      obtain ⟨parts, hparts, heq⟩ := Option.map_eq_some_iff.1 h
      cases heq
      simp [ih hparts]
    | none =>
      rw [splitParens?] at h
      split at h
      · next hc => simp_all
      · obtain ⟨parts, hparts, heq⟩ := Option.map_eq_some_iff.1 h
        cases heq
        simp [ih hparts]

end Selector
end ScopedCss
