/-!
# Quoted text

Where a text between quotes has no escapes it ends at the next quote of the same kind.
-/

namespace ScopedCss
namespace Text

/-- A quotation mark, single or double. -/
def isQuote (c : Char) : Bool := c == '\'' || c == '"'

/-- The text after an opening quote, cut at the next quote of the same kind: what is before it and
what is after it. -/
def splitQuote? (quote : Char) : List Char → Option (List Char × List Char)
  | [] => none
  | c :: rest =>
    if c = quote then some ([], rest)
    else (splitQuote? quote rest).map fun parts => (c :: parts.1, parts.2)

/-- Cutting at a quote loses nothing but the quote. -/
theorem splitQuote?_eq_some {quote : Char} {s inside rest : List Char}
    (h : splitQuote? quote s = some (inside, rest)) : s = inside ++ quote :: rest := by
  induction s generalizing inside with
  | nil => simp [splitQuote?] at h
  | cons c s ih =>
    rw [splitQuote?] at h
    split at h
    · next hc => simp_all
    · obtain ⟨parts, hparts, heq⟩ := Option.map_eq_some_iff.1 h
      cases heq
      simp [ih hparts]

variable {mark : Char} {s rest : List Char}

theorem splitQuote?_append {inside : List Char} (h : mark ∉ inside) (rest : List Char) :
    splitQuote? mark (inside ++ mark :: rest) = some (inside, rest) := by
  induction inside with
  | nil => simp [splitQuote?]
  | cons c inside ih =>
    obtain ⟨hc, hinside⟩ := List.ne_and_not_mem_of_not_mem_cons h
    rw [List.cons_append, splitQuote?, if_neg (Ne.symm hc), ih hinside]
    rfl

theorem splitQuote?_eq_none_iff : splitQuote? mark s = none ↔ mark ∉ s := by
  induction s with
  | nil => simp [splitQuote?]
  | cons c s ih =>
    by_cases hc : c = mark
    · simp [splitQuote?, hc]
    · simp [splitQuote?, hc, ih, Ne.symm hc]

theorem not_mem_of_splitQuote? {inside : List Char}
    (h : splitQuote? mark s = some (inside, rest)) : mark ∉ inside := by
  induction s generalizing inside with
  | nil => cases h
  | cons c s ih =>
    rw [splitQuote?] at h
    split at h
    · cases h
      exact List.not_mem_nil
    · next hc =>
      obtain ⟨parts, hparts, heq⟩ := Option.map_eq_some_iff.1 h
      cases heq
      exact List.not_mem_cons_of_ne_of_not_mem (Ne.symm hc) (ih hparts)

end Text
end ScopedCss
