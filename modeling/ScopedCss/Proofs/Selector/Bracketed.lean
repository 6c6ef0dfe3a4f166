import ScopedCss.Selector.Bracketed

/-!
# Quotes and nested parentheses

The search for the end of a bracket and the search for the end of a parenthesis pass over quoted
text in the same way, so after every part of a text they agree on the quote that is open
(`openQuote`).

* `splitParens?_append`: behind a first part the search for the closing parenthesis goes on with the
  quote that this part leaves open.
* `splitParens?_isSome`: where the outer parentheses of a text are closed, the inner ones are closed
  before.
-/

namespace ScopedCss
namespace Selector

open Text

variable {quote : Option Char} {s t content rest : List Char} {depth outer : Nat}

/-! ## Quotes -/

/-- The quote that is open after one more character. -/
def nextQuote : Option Char → Char → Option Char
  | some quote, c => if c = quote then none else some quote
  | none, c => if isQuote c then some c else none

/-- The quote that is open after a text, where `quote` is open before it. -/
def openQuote (quote : Option Char) (s : List Char) : Option Char := s.foldl nextQuote quote

@[simp] theorem openQuote_nil (quote : Option Char) : openQuote quote [] = quote := rfl

@[simp] theorem openQuote_cons (quote : Option Char) (c : Char) (s : List Char) :
    openQuote quote (c :: s) = openQuote (nextQuote quote c) s := rfl

theorem openQuote_append (quote : Option Char) (s t : List Char) :
    openQuote quote (s ++ t) = openQuote (openQuote quote s) t := List.foldl_append

/-- A text without quotation marks opens no quote. -/
theorem openQuote_of_forall (h : ∀ c ∈ s, isQuote c = false) : openQuote none s = none := by
  induction s with
  | nil => rfl
  | cons c s ih =>
    obtain ⟨hc, hs⟩ := List.forall_mem_cons.1 h
    rw [openQuote_cons, nextQuote, if_neg (by simp [hc]), ih hs]

/-- A quote is open up to the next mark of its kind. -/
theorem openQuote_splitQuote? {mark : Char} {inside : List Char}
    (h : splitQuote? mark s = some (inside, rest)) :
    openQuote (some mark) (inside ++ [mark]) = none := by
  induction s generalizing inside with
  | nil => cases h
  | cons c s ih =>
    rw [splitQuote?] at h
    split at h
    · cases h
      simp [nextQuote]
    · next hc =>
      obtain ⟨parts, hparts, heq⟩ := Option.map_eq_some_iff.1 h
      cases heq
      rw [List.cons_append, openQuote_cons, nextQuote, if_neg hc, ih hparts]

/-! ## Brackets -/

theorem splitBracket_cons {c : Char} (h : ¬ (quote = none ∧ c = ']')) (s : List Char) :
    splitBracket quote (c :: s)
      = (c :: (splitBracket (nextQuote quote c) s).1, (splitBracket (nextQuote quote c) s).2) := by
  cases quote with
  | some mark => rfl
  | none =>
    rw [splitBracket, if_neg fun hc => h ⟨rfl, hc⟩]
    rfl

/-- The search for the end of a bracket takes at least one character. -/
theorem splitBracket_fst_ne_nil (quote : Option Char) (c : Char) (s : List Char) :
    (splitBracket quote (c :: s)).1 ≠ [] := by
  by_cases hc : quote = none ∧ c = ']'
  · obtain ⟨rfl, rfl⟩ := hc
    exact List.cons_ne_nil _ _
  · rw [splitBracket_cons hc]
    exact List.cons_ne_nil _ _

/-- A bracket that is closed ends with its `]`, where no quote is open. -/
theorem splitBracket_closed (quote : Option Char) (s : List Char) :
    (splitBracket quote s).2 = [] ∨
      (splitBracket quote s).1.getLast? = some ']' ∧
      openQuote quote (splitBracket quote s).1 = none := by
  induction s generalizing quote with
  | nil => cases quote <;> exact .inl rfl
  | cons c s ih =>
    by_cases hc : quote = none ∧ c = ']'
    · obtain ⟨rfl, rfl⟩ := hc
      exact .inr ⟨rfl, rfl⟩
    · rw [splitBracket_cons hc]
      obtain hnone | ⟨hlast, hquote⟩ := ih (nextQuote quote c)
      · exact .inl hnone
      · exact .inr ⟨by rw [List.getLast?_cons, hlast]; rfl, hquote⟩

/-- The text leaves no quote open, where `quote` is open before it, and no `]` stands outside its
quotes. -/
def isSealed : Option Char → List Char → Bool
  | quote, [] => quote.isNone
  | quote, c :: s => !decide (quote = none ∧ c = ']') && isSealed (nextQuote quote c) s

/-- A bracket around such a text ends with its own `]`. -/
theorem splitBracket_of_isSealed (h : isSealed quote s) (rest : List Char) :
    splitBracket quote (s ++ ']' :: rest) = (s ++ [']'], rest) := by
  induction s generalizing quote with
  | nil =>
    obtain rfl : quote = none := by simpa [isSealed] using h
    rfl
  | cons c s ih =>
    rw [isSealed, Bool.and_eq_true, Bool.not_eq_true', decide_eq_false_iff_not] at h
    obtain ⟨hc, hs⟩ := h
    rw [List.cons_append, splitBracket_cons hc, ih hs, List.cons_append]

/-- Only around such a text a bracket ends with the `]` behind it. -/
theorem isSealed_of_splitBracket (hne : rest ≠ [])
    (h : splitBracket quote (s ++ ']' :: rest) = (s ++ [']'], rest)) : isSealed quote s := by
  induction s generalizing quote with
  | nil =>
    cases quote with
    | none => rfl
    | some mark =>
      -- the search goes on behind the `]` and takes at least one more character
      obtain ⟨c, rest, rfl⟩ := List.exists_cons_of_ne_nil hne
      exact absurd (List.cons.inj (Prod.mk.inj h).1).2 (splitBracket_fst_ne_nil _ c rest)
  | cons c s ih =>
    by_cases hc : quote = none ∧ c = ']'
    · obtain ⟨rfl, rfl⟩ := hc
      have hs : [] = s ++ [']'] := (List.cons.inj (Prod.mk.inj h).1).2
      cases s <;> cases hs
    · rw [List.cons_append, splitBracket_cons hc] at h
      obtain ⟨hinside, hrest⟩ := Prod.mk.inj h
      rw [isSealed, Bool.and_eq_true, Bool.not_eq_true', decide_eq_false_iff_not]
      exact ⟨hc, ih (Prod.ext (List.cons.inj hinside).2 hrest)⟩

/-! ## Parentheses -/

/-- How many parentheses are open after one more character. -/
def nextDepth (depth : Nat) (quote : Option Char) (c : Char) : Nat :=
  if quote.isSome then depth
  else if c = '(' then depth + 1
  else if c = ')' then depth - 1
  else depth

/-- The character that closes the first parenthesis. -/
def closesAll (depth : Nat) (quote : Option Char) (c : Char) : Prop :=
  quote = none ∧ c = ')' ∧ depth ≤ 1

theorem splitParens?_of_closesAll {c : Char} (h : closesAll depth quote c) (s : List Char) :
    splitParens? depth quote (c :: s) = some ([], s) := by
  obtain ⟨rfl, hc, hdepth⟩ := h
  rw [splitParens?, if_pos ⟨hc, hdepth⟩]

theorem splitParens?_cons {c : Char} (h : ¬ closesAll depth quote c) (s : List Char) :
    splitParens? depth quote (c :: s)
      = (splitParens? (nextDepth depth quote c) (nextQuote quote c) s).map
          fun parts => (c :: parts.1, parts.2) := by
  cases quote with
  | some mark => rfl
  | none =>
    rw [splitParens?, if_neg fun hc => h ⟨rfl, hc⟩]
    rfl

theorem splitParens?_cons_eq_some {c : Char}
    (h : splitParens? depth quote (c :: s) = some (c :: content, rest)) :
    ¬ closesAll depth quote c ∧
      splitParens? (nextDepth depth quote c) (nextQuote quote c) s = some (content, rest) := by
  by_cases hc : closesAll depth quote c
  · rw [splitParens?_of_closesAll hc] at h
    cases h
  · rw [splitParens?_cons hc] at h
    obtain ⟨parts, hparts, heq⟩ := Option.map_eq_some_iff.1 h
    cases heq
    exact ⟨hc, hparts⟩

theorem nextDepth_pos {c : Char} (hdepth : 0 < depth) (h : ¬ closesAll depth quote c) :
    0 < nextDepth depth quote c := by
  unfold nextDepth
  split
  · exact hdepth
  · next hquote =>
    split
    · omega
    · split
      · next hc =>
        have : ¬ depth ≤ 1 := fun hle => h ⟨by simpa using hquote, hc, hle⟩
        omega
      · exact hdepth

/-- Behind a first part of the text in the parentheses the search for their end goes on with the
quote that this part leaves open. -/
theorem splitParens?_append (hdepth : 0 < depth)
    (h : splitParens? depth quote (s ++ t) = some (s ++ content, rest)) :
    ∃ depth', 0 < depth' ∧ splitParens? depth' (openQuote quote s) t = some (content, rest) := by
  induction s generalizing depth quote with
  | nil => exact ⟨depth, hdepth, h⟩
  | cons c s ih =>
    obtain ⟨hc, hs⟩ := splitParens?_cons_eq_some h
    exact ih (nextDepth_pos hdepth hc) hs

/-- No quote is open where parentheses are closed. -/
theorem openQuote_splitParens? (h : splitParens? depth quote s = some (content, rest)) :
    openQuote quote content = none := by
  induction s generalizing depth quote content with
  | nil => cases quote <;> cases h
  | cons c s ih =>
    by_cases hc : closesAll depth quote c
    · rw [splitParens?_of_closesAll hc] at h
      cases h
      exact hc.1
    · rw [splitParens?_cons hc] at h
      obtain ⟨parts, hparts, heq⟩ := Option.map_eq_some_iff.1 h
      cases heq
      show openQuote (nextQuote quote c) parts.1 = none
      exact ih hparts

theorem nextDepth_add {c : Char} (hdepth : 0 < depth) :
    nextDepth (outer + depth) quote c = outer + nextDepth depth quote c := by
  unfold nextDepth
  repeat' split
  all_goals omega

/-- **Inner parentheses are closed first.** If a text reaches up to the end of the outer parentheses
that are open in it, it closes those that are open further in. -/
theorem splitParens?_isSome (houter : 0 < outer) (hdepth : 0 < depth)
    (h : splitParens? (outer + depth) quote (s ++ ')' :: rest) = some (s, rest)) :
    (splitParens? depth quote s).isSome := by
  induction s generalizing depth quote with
  | nil =>
    -- one more parenthesis is open than the one that follows can close
    have hopen : ¬ closesAll (outer + depth) quote ')' := fun hc => by
      have := hc.2.2
      omega
    rw [List.nil_append, splitParens?_cons hopen] at h
    obtain ⟨parts, -, heq⟩ := Option.map_eq_some_iff.1 h
    cases heq
  | cons c s ih =>
    by_cases hc : closesAll depth quote c
    · rw [splitParens?_of_closesAll hc]
      rfl
    · obtain ⟨-, hs⟩ := splitParens?_cons_eq_some h
      rw [nextDepth_add hdepth] at hs
      rw [splitParens?_cons hc, Option.isSome_map]
      exact ih (nextDepth_pos hdepth hc) hs

end Selector
end ScopedCss
