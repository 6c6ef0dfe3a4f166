import ScopedCss.Proofs.Stylesheet.Ending

/-!
# Tokens that others follow

The tokens of a part of a stylesheet are the same when the text after it follows, unless the last of
them is not *whole*: a string, a comment or a url that is not closed would go on, and so would a
backslash.

* `isWhole` says that a token is whole.
* `token_append`: a whole token is the same when other text follows.
-/

namespace ScopedCss
namespace Stylesheet

/-! ## Whole tokens -/

/-- The string that this text is the rest of is closed by its quote. -/
def closesString (quote : Char) : List Char → Bool
  | [] => false
  | c :: rest =>
    if c = quote then true
    else if isNewline c then false
    else if c = '\\' then
      if startsNewline rest then closesString quote (dropSpace rest)
      else closesString quote (escape rest).2
    else closesString quote rest
termination_by s => s.length
decreasing_by
  · exact Nat.lt_succ_of_le (dropSpace_suffix rest).length_le
  · exact Nat.lt_succ_of_le (escape_suffix rest).length_le
  · simp

/-- The comment that this text is the rest of is closed. -/
def closesComment : List Char → Bool
  | '*' :: '/' :: _ => true
  | _ :: rest => closesComment rest
  | [] => false

/-- Only blanks come before the parenthesis that closes a url. -/
def closesUrlEnd : List Char → Bool
  | [] => false
  | c :: rest => if isSpace c then closesUrlEnd rest else c == ')'

/-- The url that this text is the rest of is closed, and is not broken. -/
def closesUrl : List Char → Bool
  | [] => false
  | c :: rest =>
    if isSpace c then closesUrlEnd rest
    else if c = ')' then true
    else if isNonPrintable c || c == '"' || c == '\'' || c == '(' then false
    else if c = '\\' then !startsNewline rest && closesUrl (escape rest).2
    else closesUrl rest
termination_by s => s.length
decreasing_by
  · exact Nat.lt_succ_of_le (escape_suffix rest).length_le
  · simp

/-- The token of a name and its parenthesis is whole: it is no url, or one that is closed. -/
def parenIsWhole (identifier inside : List Char) : Bool :=
  !(isUrlName identifier && !startsQuotedUrl inside) || closesUrl (inside.dropWhile isSpace)

/-- The token that ends with an identifier, or with what its parenthesis opens, is whole. -/
def nameIsWhole (s : List Char) : Bool :=
  match name s with
  | (identifier, '(' :: inside) => parenIsWhole identifier inside
  | _ => true

/-- The token that is made of signs is whole. -/
def signIsWhole (c : Char) (rest : List Char) : Bool :=
  match c, rest with
  | '/', '*' :: after => closesComment after
  | _, _ => true

/-- The token that begins with `c` is whole. -/
def isWhole (c : Char) (rest : List Char) : Bool :=
  if c = '"' ∨ c = '\'' then closesString c rest
  else if startsNumber (c :: rest) then true
  else if startsName (c :: rest) then nameIsWhole (c :: rest)
  else signIsWhole c rest

variable {c : Char} {s rest more : List Char}

/-! ## Strings, comments and urls -/

theorem afterString_append (hmore : Ending more) {quote : Char} (h : closesString quote s) :
    afterString quote (s ++ more) = afterString quote s ++ more := by
  fun_induction closesString quote s with
  | case1 => cases h
  | case2 rest => rw [List.cons_append, afterString, afterString, if_pos rfl, if_pos rfl]
  | case3 => cases h
  | case4 rest hescaped hquote hnewline ih =>
    have hleft : dropSpace (rest ++ more) = dropSpace rest ++ more := by
      refine (dropSpace_append hmore rest).eq_append fun hnone => ?_
      rw [hnone, closesString] at h
      cases h
    simp only [List.cons_append, afterString, hquote, hnewline, Bool.false_eq_true, if_false,
      if_true, startsNewline_append hmore, hescaped, hleft, ih h]
  | case5 rest hescaped hquote hnewline ih =>
    have hrest : rest ≠ [] := by
      rintro rfl
      rw [escape, closesString] at h
      cases h
    have hleft : (escape (rest ++ more)).2 = (escape rest).2 ++ more := by
      refine (escape_append hmore hrest).2.eq_append fun hnone => ?_
      rw [hnone, closesString] at h
      cases h
    simp only [List.cons_append, afterString, hquote, hnewline, Bool.false_eq_true, if_false,
      if_true, startsNewline_append hmore, hescaped, hleft, ih h]
  | case6 c rest hquote hnewline hescape ih =>
    simp only [List.cons_append, afterString, hquote, hnewline, hescape, Bool.false_eq_true,
      if_false, ih h]

theorem afterComment_append (h : closesComment s) (more : List Char) :
    afterComment (s ++ more) = afterComment s ++ more := by
  fun_induction closesComment s with
  | case1 rest => rfl
  | case2 c rest hother ih =>
    have hopen : ∀ rest', c = '*' → rest ++ more ≠ '/' :: rest' := by
      rintro rest' rfl hslash
      cases rest with
      | nil => cases h
      | cons d rest =>
        obtain ⟨rfl, -⟩ := List.cons.inj hslash
        exact hother rest rfl rfl
    rw [List.cons_append, afterComment, afterComment, ih h]
    · exact hother
    · exact hopen
  | case3 => cases h

theorem afterUrlEnd_append (h : closesUrlEnd s) (more : List Char) :
    afterUrlEnd (s ++ more) = afterUrlEnd s ++ more := by
  fun_induction closesUrlEnd s with
  | case1 => cases h
  | case2 c rest hspace ih => simp only [List.cons_append, afterUrlEnd, hspace, if_true, ih h]
  | case3 c rest hspace =>
    obtain rfl : c = ')' := by simpa using h
    rfl

theorem afterUrl_append (hmore : Ending more) (h : closesUrl s) :
    afterUrl (s ++ more) = afterUrl s ++ more := by
  fun_induction closesUrl s with
  | case1 => cases h
  | case2 c rest hspace =>
    simp only [List.cons_append, afterUrl, hspace, if_true, afterUrlEnd_append h]
  | case3 rest hspace =>
    simp only [List.cons_append, afterUrl, hspace, Bool.false_eq_true, if_false, if_true]
  | case4 => cases h
  | case5 rest hspace hparen hbroken ih =>
    obtain ⟨hnewline, hrest⟩ : startsNewline rest = false ∧ closesUrl (escape rest).2 = true := by
      simpa using h
    have hrest' : rest ≠ [] := by
      rintro rfl
      rw [escape, closesUrl] at hrest
      cases hrest
    have hleft : (escape (rest ++ more)).2 = (escape rest).2 ++ more := by
      refine (escape_append hmore hrest').2.eq_append fun hnone => ?_
      rw [hnone, closesUrl] at hrest
      cases hrest
    simp only [List.cons_append, afterUrl, hspace, hparen, hbroken, Bool.false_eq_true, if_false,
      if_true, startsNewline_append hmore, hnewline, hleft, ih hrest]
  | case6 c rest hspace hparen hbroken hescape ih =>
    simp only [List.cons_append, afterUrl, hspace, hparen, hbroken, hescape, Bool.false_eq_true,
      if_false, ih h]

/-! ## Tokens -/

theorem dropSpaces_append (h : s.dropWhile isSpace ≠ []) (more : List Char) :
    (s ++ more).dropWhile isSpace = s.dropWhile isSpace ++ more := by
  rw [List.dropWhile_append, if_neg (by simpa using h)]

theorem startsQuotedUrl_append (h : s.dropWhile isSpace ≠ []) (more : List Char) :
    startsQuotedUrl (s ++ more) = startsQuotedUrl s := by
  rw [startsQuotedUrl, startsQuotedUrl, dropSpaces_append h]
  cases hcons : s.dropWhile isSpace with
  | nil => exact absurd hcons h
  | cons c rest => rfl

/-- The token of a name and its parenthesis, with what comes after it. -/
def parenToken (identifier inside : List Char) : Token × List Char :=
  if isUrlName identifier && !startsQuotedUrl inside then
    (.other, afterUrl (inside.dropWhile isSpace))
  else (.opening .round, inside)

theorem parenToken_append (hmore : Ending more) {identifier inside : List Char}
    (h : parenIsWhole identifier inside) :
    parenToken identifier (inside ++ more)
      = ((parenToken identifier inside).1, (parenToken identifier inside).2 ++ more) := by
  unfold parenToken
  unfold parenIsWhole at h
  cases hurl : isUrlName identifier with
  | false => rfl
  | true =>
    rw [hurl] at h
    -- an unquoted url of blanks alone would be open
    have hinside : inside.dropWhile isSpace ≠ [] := by
      intro hnone
      rw [startsQuotedUrl, hnone, closesUrl] at h
      cases h
    rw [startsQuotedUrl_append hinside, dropSpaces_append hinside]
    cases hquote : startsQuotedUrl inside with
    | true => rfl
    | false =>
      rw [hquote] at h
      rw [afterUrl_append hmore h]
      rfl

theorem nameToken_of_paren {identifier inside : List Char}
    (h : name s = (identifier, '(' :: inside)) :
    nameToken s = parenToken identifier inside := by
  rw [nameToken, h]
  rfl

theorem nameToken_of_ne {identifier after : List Char} (h : name s = (identifier, after))
    (hafter : after.head? ≠ some '(') : nameToken s = (.other, after) := by
  unfold nameToken
  split
  · next heq =>
    cases h.symm.trans heq
    exact absurd rfl hafter
  · next heq =>
    cases h.symm.trans heq
    rfl

theorem nameToken_append (hmore : Ending more) (hplain : EndsPlain s) (h : nameIsWhole s) :
    (nameToken (s ++ more)).1 = (nameToken s).1 ∧
      Joins more (nameToken s).2 (nameToken (s ++ more)).2 := by
  obtain ⟨hspelled, hjoins⟩ := name_append hmore hplain
  match hname : name s, hname' : name (s ++ more) with
  | (identifier, after), (identifier', after') =>
    rw [hname, hname'] at hspelled hjoins
    obtain rfl : identifier = identifier' := hspelled.symm
    rw [nameIsWhole, hname] at h
    by_cases hafter : after.head? = some '('
    · obtain ⟨inside, rfl⟩ := List.head?_eq_some_iff.1 hafter
      obtain rfl : after' = '(' :: (inside ++ more) := hjoins.eq_append (List.cons_ne_nil _ _)
      rw [nameToken_of_paren hname, nameToken_of_paren hname', parenToken_append hmore h]
      exact ⟨rfl, .append _ _⟩
    · have hafter' : after'.head? ≠ some '(' := by
        rcases hjoins with rfl | ⟨rfl, rfl⟩
        · cases after with
          | nil => cases hmore <;> nofun
          | cons c after => exact hafter
        · cases hmore
          nofun
      rw [nameToken_of_ne hname hafter, nameToken_of_ne hname' hafter']
      exact ⟨rfl, hjoins⟩

theorem hashToken_append (hmore : Ending more) (hplain : EndsPlain s) :
    (hashToken (s ++ more)).1 = (hashToken s).1 ∧
      Joins more (hashToken s).2 (hashToken (s ++ more)).2 := by
  have hdash : ((s ++ more).head? == some '-') = (s.head? == some '-') := by
    cases s with
    | nil => cases hmore <;> rfl
    | cons c s => rfl
  unfold hashToken
  rw [startsName_append hmore, startsDigit_append hmore, hdash]
  split
  · exact ⟨rfl, (name_append hmore hplain).2⟩
  · exact ⟨rfl, .append _ s⟩

theorem atToken_append (hmore : Ending more) (hplain : EndsPlain s) :
    (atToken (s ++ more)).1 = (atToken s).1 ∧
      Joins more (atToken s).2 (atToken (s ++ more)).2 := by
  obtain ⟨hspelled, hjoins⟩ := name_append hmore hplain
  unfold atToken
  rw [startsName_append hmore, hspelled]
  split
  · exact ⟨rfl, hjoins⟩
  · exact ⟨rfl, .append _ s⟩

/-- The marks that are made of several signs. -/
theorem signToken_eq (c : Char) (rest : List Char) :
    signToken c rest =
      if c = '-' ∧ ['-', '>'].isPrefixOf rest then (.other, rest.drop 2)
      else if c = '<' ∧ ['!', '-', '-'].isPrefixOf rest then (.other, rest.drop 3)
      else if c = '/' ∧ ['*'].isPrefixOf rest then (.blank, afterComment (rest.drop 1))
      else (.other, rest) := by
  unfold signToken
  split
  · simp
  · simp
  · simp
  · next harrow hopening hcomment =>
    rw [if_neg, if_neg, if_neg]
    · rintro ⟨rfl, hprefix⟩
      obtain ⟨after, rfl⟩ := List.isPrefixOf_iff_prefix.1 hprefix
      exact hcomment after rfl rfl
    · rintro ⟨rfl, hprefix⟩
      obtain ⟨after, rfl⟩ := List.isPrefixOf_iff_prefix.1 hprefix
      exact hopening after rfl rfl
    · rintro ⟨rfl, hprefix⟩
      obtain ⟨after, rfl⟩ := List.isPrefixOf_iff_prefix.1 hprefix
      exact harrow after rfl rfl

theorem signToken_append (hmore : Ending more) (h : signIsWhole c rest) :
    signToken c (rest ++ more) = ((signToken c rest).1, (signToken c rest).2 ++ more) := by
  have harrow := hmore.isPrefixOf_append (p := ['-', '>']) (by simp) rest
  have hopening := hmore.isPrefixOf_append (p := ['!', '-', '-']) (by simp) rest
  have hcomment := hmore.isPrefixOf_append (p := ['*']) (by simp) rest
  rw [signToken_eq, signToken_eq, harrow, hopening, hcomment]
  by_cases hfirst : c = '-' ∧ ['-', '>'].isPrefixOf rest
  · simp only [if_pos hfirst]
    obtain ⟨after, rfl⟩ := List.isPrefixOf_iff_prefix.1 hfirst.2
    rfl
  by_cases hsecond : c = '<' ∧ ['!', '-', '-'].isPrefixOf rest
  · simp only [if_neg hfirst, if_pos hsecond]
    obtain ⟨after, rfl⟩ := List.isPrefixOf_iff_prefix.1 hsecond.2
    rfl
  by_cases hthird : c = '/' ∧ ['*'].isPrefixOf rest
  · simp only [if_neg hfirst, if_neg hsecond, if_pos hthird]
    obtain ⟨after, rfl⟩ := List.isPrefixOf_iff_prefix.1 hthird.2
    obtain rfl := hthird.1
    exact congrArg _ (afterComment_append h more)
  · simp only [if_neg hfirst, if_neg hsecond, if_neg hthird]

theorem wordToken_append (hmore : Ending more) (hplain : EndsPlain (c :: rest))
    (h : isWhole c rest) (hquote : ¬ (c = '"' ∨ c = '\'')) :
    (wordToken c (rest ++ more)).1 = (wordToken c rest).1 ∧
      Joins more (wordToken c rest).2 (wordToken c (rest ++ more)).2 := by
  have hnumber := startsNumber_append hmore (c :: rest)
  have hname := startsName_append hmore (c :: rest)
  have harrow := hmore.isPrefixOf_append (p := ['-', '>']) (by simp) rest
  rw [List.cons_append] at hnumber hname
  unfold wordToken
  rw [isWhole, if_neg hquote] at h
  rw [hnumber, hname, harrow]
  by_cases hdigit : startsNumber (c :: rest)
  · simp only [if_pos hdigit]
    exact ⟨trivial, afterNumber_append hmore hplain⟩
  rw [if_neg hdigit] at h
  by_cases hsign : c = '-' ∧ ['-', '>'].isPrefixOf rest
  · simp only [if_neg hdigit, if_pos hsign]
    obtain rfl := hsign.1
    rw [signToken_append hmore rfl]
    exact ⟨rfl, .append _ _⟩
  by_cases hletter : startsName (c :: rest)
  · simp only [if_neg hdigit, if_neg hsign, if_pos hletter]
    rw [if_pos hletter] at h
    exact nameToken_append hmore hplain h
  · simp only [if_neg hdigit, if_neg hsign, if_neg hletter]
    rw [if_neg hletter] at h
    rw [signToken_append hmore h]
    exact ⟨rfl, .append _ _⟩

/-- **A whole token is the same when other text follows.** -/
theorem token_append (hmore : Ending more) (hplain : EndsPlain (c :: rest)) (h : isWhole c rest) :
    (token c (rest ++ more)).1 = (token c rest).1 ∧
      Joins more (token c rest).2 (token c (rest ++ more)).2 := by
  have hrest : EndsPlain rest := hplain.of_suffix (List.suffix_cons _ _)
  unfold token
  by_cases hspace : isSpace c
  · simp only [if_pos hspace]
    exact ⟨trivial, .append _ rest⟩
  simp only [if_neg hspace]
  split
  · exact ⟨rfl, .append _ rest⟩
  · exact ⟨rfl, .append _ rest⟩
  · exact ⟨rfl, .append _ rest⟩
  · exact ⟨rfl, .append _ rest⟩
  · exact ⟨rfl, .append _ rest⟩
  · exact ⟨rfl, .append _ rest⟩
  · exact ⟨rfl, .append _ rest⟩
  · rw [isWhole, if_pos (.inl rfl)] at h
    rw [afterString_append hmore h]
    exact ⟨rfl, .append _ _⟩
  · rw [isWhole, if_pos (.inr rfl)] at h
    rw [afterString_append hmore h]
    exact ⟨rfl, .append _ _⟩
  · exact hashToken_append hmore hrest
  · exact atToken_append hmore hrest
  · refine wordToken_append hmore hplain h ?_
    rintro (rfl | rfl) <;> contradiction

end Stylesheet
end ScopedCss
