import ScopedCss.Stylesheet.Block

/-!
# Taking tokens one by one

A cursor stands between two tokens of a text. If the token before it has opened a block, the next
token is the one after this block: what stands in the block is passed over, unless it is read on its
own.

* `Cursor.drain` takes tokens as long as there are any, and `next?_drain` says that it leaves none.
-/

namespace ScopedCss
namespace Stylesheet

/-- The block that a token opens. -/
def Token.opened? : Token → Option Bracket
  | .opening bracket => some bracket
  | _ => none

/-- A place between two tokens: the text after it, and the block that the token before it has
opened, if it is still to be passed over. -/
structure Cursor where
  rest : List Char
  opened : Option Bracket := none

namespace Cursor

/-- The text from the next token on. -/
def upcoming (cursor : Cursor) : List Char :=
  skipBlanks <| match cursor.opened with
    | some bracket => (untilClose [bracket] cursor.rest).tail
    | none => cursor.rest

/-- The next token, and the place after it. -/
def next? (cursor : Cursor) : Option (Token × Cursor) :=
  match cursor.upcoming with
  | [] => none
  | c :: rest => some ((token c rest).1, ⟨(token c rest).2, (token c rest).1.opened?⟩)

theorem upcoming_suffix (cursor : Cursor) : cursor.upcoming <:+ cursor.rest := by
  unfold upcoming
  split
  · exact (skipBlanks_suffix _).trans ((List.tail_suffix _).trans (untilClose_suffix _ _))
  · exact skipBlanks_suffix _

/-- Each token takes some of the text with it. -/
theorem length_rest_lt {cursor next : Cursor} {token : Token}
    (h : cursor.next? = some (token, next)) :
    next.rest.length < cursor.rest.length := by
  have hupcoming := (upcoming_suffix cursor).length_le
  unfold next? at h
  split at h
  · cases h
  · next c rest heq =>
    cases h
    rw [heq] at hupcoming
    exact Nat.lt_of_lt_of_le (length_token_lt c rest) hupcoming

/-- Take all tokens. -/
def drain (cursor : Cursor) : Cursor :=
  match _h : cursor.next? with
  | some (_, next) => next.drain
  | none => cursor
termination_by cursor.rest.length
decreasing_by exact length_rest_lt _h

/-- **No token is left when all of them are taken.** -/
theorem next?_drain (cursor : Cursor) : cursor.drain.next? = none := by
  fun_induction drain cursor with
  | case1 _ _ _ _ ih => exact ih
  | case2 _ hnone => exact hnone

end Cursor
end Stylesheet
end ScopedCss
