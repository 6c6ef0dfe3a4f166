import ScopedCss.Stylesheet.Token.Name

/-!
# Strings, comments and urls

Inside these no brace, bracket or semicolon of a stylesheet counts. Each function takes the text
after the opening mark and gives what comes after the closing one; all of them may be left open to
the end of the text.
-/

namespace ScopedCss
namespace Stylesheet

/-- After a string. A backslash takes the next character with it, or the end of a line; an end of a
line without a backslash breaks the string off. -/
def afterString (quote : Char) : List Char → List Char
  | [] => []
  | c :: rest =>
    if c = quote then rest
    else if isNewline c then c :: rest
    else if c = '\\' then
      if startsNewline rest then afterString quote (dropSpace rest)
      else afterString quote (escape rest).2
    else afterString quote rest
termination_by s => s.length
decreasing_by
  · exact Nat.lt_succ_of_le (dropSpace_suffix rest).length_le
  · exact Nat.lt_succ_of_le (escape_suffix rest).length_le
  · simp

theorem afterString_suffix (quote : Char) (s : List Char) : afterString quote s <:+ s := by
  fun_induction afterString quote s with
  | case1 => exact List.suffix_refl _
  | case2 => exact List.suffix_cons _ _
  | case3 => exact List.suffix_refl _
  | case4 rest _ _ _ ih =>
    exact (ih.trans (dropSpace_suffix rest)).trans (List.suffix_cons _ _)
  | case5 rest _ _ _ ih =>
    exact (ih.trans (escape_suffix rest)).trans (List.suffix_cons _ _)
  | case6 c rest _ _ _ ih => exact ih.trans (List.suffix_cons _ _)

/-- After a comment. -/
def afterComment : List Char → List Char
  | '*' :: '/' :: rest => rest
  | _ :: rest => afterComment rest
  | [] => []

theorem afterComment_suffix (s : List Char) : afterComment s <:+ s := by
  fun_induction afterComment s with
  | case1 rest => exact ⟨['*', '/'], rfl⟩
  | case2 _ rest _ ih => exact ih.trans (List.suffix_cons _ _)
  | case3 => exact List.suffix_refl _

/-! ### Urls -/

/-- A control character, which breaks an unquoted url. -/
def isNonPrintable (c : Char) : Bool :=
  let n := c.toNat
  (0x01 ≤ n && n ≤ 0x08) || n == 0x0B || (0x0E ≤ n && n ≤ 0x1F) || n == 0x7F

/-- After a broken url: behind the next parenthesis without a backslash. -/
def afterBadUrl : List Char → List Char
  | ')' :: rest => rest
  | '\\' :: ')' :: rest => afterBadUrl rest
  | '\\' :: '\\' :: rest => afterBadUrl rest
  | _ :: rest => afterBadUrl rest
  | [] => []

/-- After a url whose text is followed by blanks: only more blanks and the parenthesis may come. -/
def afterUrlEnd : List Char → List Char
  | [] => []
  | c :: rest =>
    if isSpace c then afterUrlEnd rest
    else if c = ')' then rest
    else afterBadUrl rest

/-- After an unquoted url. -/
def afterUrl : List Char → List Char
  | [] => []
  | c :: rest =>
    if isSpace c then afterUrlEnd rest
    else if c = ')' then rest
    else if isNonPrintable c || c == '"' || c == '\'' || c == '(' then afterBadUrl rest
    else if c = '\\' then
      if startsNewline rest then afterBadUrl rest else afterUrl (escape rest).2
    else afterUrl rest
termination_by s => s.length
decreasing_by
  · exact Nat.lt_succ_of_le (escape_suffix rest).length_le
  · simp

theorem afterBadUrl_suffix (s : List Char) : afterBadUrl s <:+ s := by
  fun_induction afterBadUrl s with
  | case1 => exact List.suffix_cons _ _
  | case2 rest ih => exact ih.trans ⟨['\\', ')'], rfl⟩
  | case3 rest ih => exact ih.trans ⟨['\\', '\\'], rfl⟩
  | case4 _ rest _ _ _ ih => exact ih.trans (List.suffix_cons _ _)
  | case5 => exact List.suffix_refl _

theorem afterUrlEnd_suffix (s : List Char) : afterUrlEnd s <:+ s := by
  fun_induction afterUrlEnd s with
  | case1 => exact List.suffix_refl _
  | case2 c rest _ ih => exact ih.trans (List.suffix_cons _ _)
  | case3 => exact List.suffix_cons _ _
  | case4 c rest => exact (afterBadUrl_suffix rest).trans (List.suffix_cons _ _)

theorem afterUrl_suffix (s : List Char) : afterUrl s <:+ s := by
  fun_induction afterUrl s with
  | case1 => exact List.suffix_refl _
  | case2 c rest => exact (afterUrlEnd_suffix rest).trans (List.suffix_cons _ _)
  | case3 => exact List.suffix_cons _ _
  | case4 c rest => exact (afterBadUrl_suffix rest).trans (List.suffix_cons _ _)
  | case5 rest => exact (afterBadUrl_suffix rest).trans (List.suffix_cons _ _)
  | case6 rest _ _ _ _ ih =>
    exact (ih.trans (escape_suffix rest)).trans (List.suffix_cons _ _)
  | case7 c rest _ _ _ _ ih => exact ih.trans (List.suffix_cons _ _)

end Stylesheet
end ScopedCss
