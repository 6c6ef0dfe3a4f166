import ScopedCss.Selector.Bracketed
import ScopedCss.Selector.Reference

/-!
# One piece of a selector

The first character of a text says what kind of piece it begins with; the piece then is as long as
it can be. `nextToken` fails only on a marker `:local(` or `:global(` whose parentheses are not
closed.

* `nextToken_source`: a piece and the rest are the text they were read from.
* `length_nextToken_lt`: a piece takes something.
-/

namespace ScopedCss
namespace Selector

open Text

/-- The piece that starts with a quote: up to the next quote of its kind, or to the end. -/
def quoteToken (quote : Char) (rest : List Char) : Token × List Char :=
  match splitQuote? quote rest with
  | some (inside, after) => (.raw (String.ofList (quote :: inside ++ [quote])), after)
  | none => (.raw (String.ofList (quote :: rest)), [])

/-- The piece that starts with a dot: a class or a reference. -/
def dotToken (rest : List Char) : Token × List Char :=
  match rest.takeWhile isNameChar with
  | [] => (.raw ".", rest)
  | name =>
    let after := rest.dropWhile isNameChar
    match composition? true name after with
    | some (reference, after) => (.composition reference, after)
    | none => (.className (String.ofList name), after)

/-- The piece that starts with a scope marker, given what follows the marker. The only fault is a
parenthesis that is not closed. -/
def markerToken (scope : Scope) (after : List Char) : Except Scope (Token × List Char) :=
  match after with
  | '(' :: inside =>
    match splitParens? 1 none inside with
    | some (content, after) => .ok (.within scope (String.ofList content), after)
    | none => .error scope
  | after => .ok (.marker scope, after)

/-- The piece that starts with a colon: a scope marker or a pseudo-class. -/
def colonToken (rest : List Char) : Except Scope (Token × List Char) :=
  match rest with
  | ':' :: after => .ok (.raw "::", after)
  | rest =>
    let name := String.ofList (rest.takeWhile isNameChar)
    let after := rest.dropWhile isNameChar
    match Scope.ofName? name with
    | some scope => markerToken scope after
    | none => .ok (.raw (":" ++ name), after)

/-- The piece that starts with an opening parenthesis. -/
def parenToken (rest : List Char) : Token × List Char :=
  match parenthesized? rest with
  | some (reference, after) => (.composition reference, after)
  | none => (.raw "(", rest)

/-- The piece that starts with a name. -/
def nameToken (c : Char) (rest : List Char) : Token × List Char :=
  let name := c :: rest.takeWhile isNameChar
  let after := rest.dropWhile isNameChar
  match composition? false name after with
  | some (reference, after) => (.composition reference, after)
  | none => (.raw (String.ofList name), after)

/-- The first piece of a text that starts with `c`, and the rest. The fault names the scope of a
marker whose parenthesis is not closed. -/
def nextToken (c : Char) (rest : List Char) : Except Scope (Token × List Char) :=
  if c = ',' then .ok (.comma, rest)
  else if isBlank c then
    .ok (.blank (String.ofList (c :: rest.takeWhile isBlank)), rest.dropWhile isBlank)
  else if c = '[' then
    .ok (.raw (String.ofList (c :: (splitBracket none rest).1)), (splitBracket none rest).2)
  else if isQuote c then .ok (quoteToken c rest)
  else if c = '.' then .ok (dotToken rest)
  else if c = ':' then colonToken rest
  else if c = '(' then .ok (parenToken rest)
  else if c = '#' then
    -- an id is taken whole, so that nothing in it is read as a name
    .ok (.raw (String.ofList (c :: rest.takeWhile isNameChar)), rest.dropWhile isNameChar)
  else if isNameChar c then .ok (nameToken c rest)
  else .ok (.raw (String.singleton c), rest)

/-! ### Nothing is lost -/

theorem Scope.name_of_ofName? {name : String} {scope : Scope}
    (h : Scope.ofName? name = some scope) : scope.name = name := by
  unfold Scope.ofName? at h
  split at h
  · next hn => cases h; exact hn.symm
  · split at h
    · next hn => cases h; exact hn.symm
    · cases h

theorem quoteToken_source (quote : Char) (rest : List Char) :
    (quoteToken quote rest).1.source ++ (quoteToken quote rest).2 = quote :: rest := by
  unfold quoteToken
  split
  · next h => simp [Token.source, splitQuote?_eq_some h]
  · simp [Token.source]

theorem dotToken_source (rest : List Char) :
    (dotToken rest).1.source ++ (dotToken rest).2 = '.' :: rest := by
  unfold dotToken
  split
  · simp [Token.source]
  · dsimp only
    split
    · next h => simpa [Token.source] using composition?_eq_some h
    · simp [Token.source]

theorem markerToken_source {scope : Scope} {after rest : List Char} {token : Token}
    (h : markerToken scope after = .ok (token, rest)) :
    token.source ++ rest = ':' :: scope.name.toList ++ after := by
  unfold markerToken at h
  split at h
  · split at h
    · next hparens =>
      cases h
      simp [Token.source, splitParens?_eq_some hparens]
    · cases h
  · cases h
    simp [Token.source]

theorem colonToken_source {s rest : List Char} {token : Token}
    (h : colonToken s = .ok (token, rest)) : token.source ++ rest = ':' :: s := by
  unfold colonToken at h
  split at h
  · cases h
    simp [Token.source]
  · dsimp only at h
    split at h
    · next hname =>
      rw [markerToken_source h, Scope.name_of_ofName? hname]
      simp
    · cases h
      simp [Token.source]

theorem parenToken_source (rest : List Char) :
    (parenToken rest).1.source ++ (parenToken rest).2 = '(' :: rest := by
  unfold parenToken
  split
  · next h => exact parenthesized?_eq_some h
  · simp [Token.source]

theorem nameToken_source (c : Char) (rest : List Char) :
    (nameToken c rest).1.source ++ (nameToken c rest).2 = c :: rest := by
  unfold nameToken
  dsimp only
  split
  · next h => simpa [Token.source] using composition?_eq_some h
  · simp [Token.source]

/-- A piece and the rest are the text they were read from. -/
theorem nextToken_source {c : Char} {s rest : List Char} {token : Token}
    (h : nextToken c s = .ok (token, rest)) : token.source ++ rest = c :: s := by
  unfold nextToken at h
  repeat' split at h
  · cases h; simp_all [Token.source]
  · cases h; simp [Token.source]
  · cases h; simp [Token.source, splitBracket_append]
  · simpa [Except.ok.inj h] using quoteToken_source c s
  · next hc => simpa [Except.ok.inj h, hc] using dotToken_source s
  · next hc => rw [colonToken_source h, hc]
  · next hc => simpa [Except.ok.inj h, hc] using parenToken_source s
  · cases h; simp [Token.source]
  · simpa [Except.ok.inj h] using nameToken_source c s
  · cases h; simp [Token.source]

/-! ### Each piece takes something -/

theorem quoteToken_source_ne_nil (quote : Char) (rest : List Char) :
    (quoteToken quote rest).1.source ≠ [] := by
  unfold quoteToken
  split <;> simp [Token.source]

theorem dotToken_source_ne_nil (rest : List Char) : (dotToken rest).1.source ≠ [] := by
  unfold dotToken
  dsimp only
  repeat' split
  all_goals simp [Token.source, Composition.source_ne_nil]

theorem markerToken_source_ne_nil {scope : Scope} {after rest : List Char} {token : Token}
    (h : markerToken scope after = .ok (token, rest)) : token.source ≠ [] := by
  unfold markerToken at h
  repeat' split at h
  all_goals cases h
  all_goals simp [Token.source]

theorem colonToken_source_ne_nil {s rest : List Char} {token : Token}
    (h : colonToken s = .ok (token, rest)) : token.source ≠ [] := by
  unfold colonToken at h
  split at h
  · cases h
    simp [Token.source]
  · dsimp only at h
    split at h
    · exact markerToken_source_ne_nil h
    · cases h
      simp [Token.source]

theorem parenToken_source_ne_nil (rest : List Char) : (parenToken rest).1.source ≠ [] := by
  unfold parenToken
  split <;> simp [Token.source, Composition.source_ne_nil]

theorem nameToken_source_ne_nil (c : Char) (rest : List Char) :
    (nameToken c rest).1.source ≠ [] := by
  unfold nameToken
  dsimp only
  split <;> simp [Token.source, Composition.source_ne_nil]

theorem nextToken_source_ne_nil {c : Char} {s rest : List Char} {token : Token}
    (h : nextToken c s = .ok (token, rest)) : token.source ≠ [] := by
  unfold nextToken at h
  repeat' split at h
  · cases h; simp [Token.source]
  · cases h; simp [Token.source]
  · cases h; simp [Token.source]
  · simpa [Except.ok.inj h] using quoteToken_source_ne_nil c s
  · simpa [Except.ok.inj h] using dotToken_source_ne_nil s
  · exact colonToken_source_ne_nil h
  · simpa [Except.ok.inj h] using parenToken_source_ne_nil s
  · cases h; simp [Token.source]
  · simpa [Except.ok.inj h] using nameToken_source_ne_nil c s
  · cases h; simp [Token.source]

theorem length_nextToken_lt {c : Char} {s rest : List Char} {token : Token}
    (h : nextToken c s = .ok (token, rest)) : rest.length < (c :: s).length := by
  have := List.length_pos_iff.2 (nextToken_source_ne_nil h)
  rw [← nextToken_source h, List.length_append]
  omega

end Selector
end ScopedCss
