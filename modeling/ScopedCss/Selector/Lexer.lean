import ScopedCss.Selector.Piece

/-!
# Cutting a selector into its pieces

`tokenize` reads a selector piece by piece from left to right.

* `tokenize_source`: the pieces of a selector, one after the other, are the selector.
* `length_content_lt`: the text in a marker's parentheses is shorter than the selector.
-/

namespace ScopedCss
namespace Selector

/-- A selector that cannot be cut into pieces: the parenthesis of a marker of this scope is not
closed. -/
structure OpenMarker where
  selector : String
  scope : Scope
  deriving DecidableEq

/-- The pieces of a text, which is the end of the selector `whole`. -/
def tokensFrom (whole : String) : List Char → Except OpenMarker (List Token)
  | [] => .ok []
  | c :: rest =>
    match _h : nextToken c rest with
    | .error scope => .error ⟨whole, scope⟩
    | .ok (token, rest') => (tokensFrom whole rest').map (token :: ·)
termination_by s => s.length
decreasing_by exact length_nextToken_lt _h

/-- The pieces of a selector. -/
def tokenize (selector : String) : Except OpenMarker (List Token) :=
  tokensFrom selector selector.toList

theorem tokensFrom_source {whole : String} {s : List Char} {tokens : List Token}
    (h : tokensFrom whole s = .ok tokens) : tokens.flatMap Token.source = s := by
  fun_induction tokensFrom whole s generalizing tokens with
  | case1 => cases h; rfl
  | case2 => cases h
  | case3 c rest token rest' hnext ih =>
    cases hmore : tokensFrom whole rest' with
    | error fault => rw [hmore] at h; cases h
    | ok more =>
      rw [hmore] at h
      cases h
      simp [ih hmore, nextToken_source hnext]

/-- The pieces of a selector, one after the other, are the selector. -/
theorem tokenize_source {selector : String} {tokens : List Token}
    (h : tokenize selector = .ok tokens) : tokens.flatMap Token.source = selector.toList :=
  tokensFrom_source h

/-- The text in a marker's parentheses is shorter than the selector it stands in. -/
theorem length_content_lt {selector content : String} {tokens : List Token} {scope : Scope}
    (h : tokenize selector = .ok tokens) (hmem : .within scope content ∈ tokens) :
    content.length < selector.length := by
  have hsub : (Token.within scope content).source.Sublist (tokens.flatMap Token.source) := by
    simpa [List.flatMap] using List.sublist_flatten_of_mem (List.mem_map_of_mem hmem)
  have := hsub.length_le
  rw [tokenize_source h] at this
  simp only [Token.source, List.length_cons, List.length_append, String.length_toList] at this
  omega

example : (tokenize ".a :local(.b, .c)").toOption
    = some [.className "a", .blank " ", .within .localScope ".b, .c"] := by decide +kernel

end Selector
end ScopedCss
