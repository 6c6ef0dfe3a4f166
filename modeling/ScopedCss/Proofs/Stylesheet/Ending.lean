import ScopedCss.Stylesheet.Token

/-!
# What follows a part of a stylesheet

A selector, a property or a value is followed by a semicolon, by a colon, or by a blank and an
opening brace. None of these characters goes on with an identifier or a number that the part ends
with; only the blank after an escape is taken along.

* `Ending` says what can follow a part.
* `Joins` says what a reader leaves of the two texts together: what it leaves of the first, and then
  the second, unless the blank after an escape is taken along.
* `name_append`, `afterNumber_append`: identifiers and numbers end where they end without the text
  that follows.
-/

namespace ScopedCss
namespace Stylesheet

/-! ## What follows -/

/-- Text that can follow at the end of a part of a stylesheet. -/
inductive Ending : List Char → Prop
  | semicolon (rest : List Char) : Ending (';' :: rest)
  | colon (rest : List Char) : Ending (':' :: rest)
  | body (rest : List Char) : Ending (' ' :: '{' :: rest)

/-- What is left of a text that `more` follows, where this is left of the text alone. The blank
after an escape at the end of the text is taken along. -/
def Joins (more left left' : List Char) : Prop :=
  left' = left ++ more ∨ left = [] ∧ more = ' ' :: left'

variable {c : Char} {s rest more left left' : List Char}

theorem Joins.append (more left : List Char) : Joins more left (left ++ more) := .inl rfl

theorem Joins.eq_append (h : Joins more left left') (hleft : left ≠ []) : left' = left ++ more :=
  h.resolve_right fun hblank => hleft hblank.1

namespace Ending

/-- None of the characters that may follow is of this kind. -/
theorem head?_any (h : Ending more) {p : Char → Bool} (hp : (p ';' || p ':' || p ' ') = false) :
    more.head?.any p = false := by
  simp only [Bool.or_eq_false_iff] at hp
  cases h with
  | semicolon => exact hp.1.1
  | colon => exact hp.1.2
  | body => exact hp.2

theorem head?_any_append (h : Ending more) {p : Char → Bool}
    (hp : (p ';' || p ':' || p ' ') = false) (s : List Char) :
    (s ++ more).head?.any p = s.head?.any p := by
  cases s with
  | nil => exact h.head?_any hp
  | cons c s => rfl

theorem takeWhile_take_append (h : Ending more) {p : Char → Bool}
    (hp : (p ';' || p ':' || p ' ') = false) (n : Nat) (s : List Char) :
    ((s ++ more).take n).takeWhile p = (s.take n).takeWhile p := by
  induction s generalizing n with
  | nil =>
    have hhead := h.head?_any hp
    cases n with
    | zero => rfl
    | succ n => cases h <;> simp_all
  | cons c s ih =>
    cases n with
    | zero => rfl
    | succ n => simp only [List.cons_append, List.take_succ_cons, List.takeWhile_cons, ih]

theorem dropWhile_append (h : Ending more) {p : Char → Bool}
    (hp : (p ';' || p ':' || p ' ') = false) (s : List Char) :
    (s ++ more).dropWhile p = s.dropWhile p ++ more := by
  induction s with
  | nil =>
    have hhead := h.head?_any hp
    cases h <;> simp_all
  | cons c s ih =>
    rw [List.cons_append, List.dropWhile_cons, List.dropWhile_cons, ih]
    split <;> rfl

theorem isPrefixOf_append (h : Ending more) {p : List Char} (hp : ∀ c ∈ p, c ∉ [';', ':', ' '])
    (s : List Char) : p.isPrefixOf (s ++ more) = p.isPrefixOf s := by
  induction s generalizing p with
  | nil =>
    cases p with
    | nil => rfl
    | cons c p =>
      have hc := hp c List.mem_cons_self
      cases h <;> simp_all [List.isPrefixOf]
  | cons d s ih =>
    cases p with
    | nil => rfl
    | cons c p =>
      rw [List.cons_append, List.isPrefixOf, List.isPrefixOf,
        ih fun c hc => hp c (List.mem_cons_of_mem _ hc)]

end Ending

/-- The text does not end with a backslash. -/
def EndsPlain (s : List Char) : Prop := s.getLast? ≠ some '\\'

theorem EndsPlain.of_suffix (h : EndsPlain s) (hleft : left <:+ s) : EndsPlain left := by
  obtain ⟨taken, rfl⟩ := hleft
  intro hlast
  apply h
  rw [List.getLast?_append, hlast]
  rfl

theorem EndsPlain.ne_nil (h : EndsPlain ('\\' :: rest)) : rest ≠ [] := by
  rintro rfl
  exact h rfl

/-! ## Characters -/

theorem startsNewline_append (hmore : Ending more) (s : List Char) :
    startsNewline (s ++ more) = startsNewline s :=
  hmore.head?_any_append (by decide) s

theorem startsDigit_append (hmore : Ending more) (s : List Char) :
    startsDigit (s ++ more) = startsDigit s :=
  hmore.head?_any_append (by decide) s

theorem dropSpace_cons (h : c = '\r' → rest.head? ≠ some '\n') :
    dropSpace (c :: rest) = if isSpace c then rest else c :: rest := by
  unfold dropSpace
  split
  · next heq =>
    cases heq
    exact absurd rfl (h rfl)
  · next heq =>
    cases heq
    rfl
  · next heq => cases heq

theorem dropSpace_cons_append (hmore : Ending more) (c : Char) (rest : List Char) :
    dropSpace (c :: (rest ++ more)) = dropSpace (c :: rest) ++ more := by
  by_cases hpair : c = '\r' ∧ rest.head? = some '\n'
  · obtain ⟨rfl, hrest⟩ := hpair
    cases rest with
    | nil => cases hrest
    | cons d rest =>
      cases hrest
      rfl
  · -- the text that follows begins with no line feed
    have hsingle : c = '\r' → (rest ++ more).head? ≠ some '\n' := by
      intro hc hfeed
      cases rest with
      | nil => cases hmore <;> cases hfeed
      | cons d rest => exact hpair ⟨hc, hfeed⟩
    rw [dropSpace_cons hsingle, dropSpace_cons fun hc hrest => hpair ⟨hc, hrest⟩]
    split <;> rfl

theorem dropSpace_append (hmore : Ending more) (s : List Char) :
    Joins more (dropSpace s) (dropSpace (s ++ more)) := by
  cases s with
  | nil =>
    cases hmore with
    | semicolon => exact .append _ []
    | colon => exact .append _ []
    | body => exact .inr ⟨rfl, rfl⟩
  | cons c rest =>
    rw [List.cons_append, dropSpace_cons_append hmore]
    exact .append _ _

theorem escape_append (hmore : Ending more) (h : s ≠ []) :
    (escape (s ++ more)).1 = (escape s).1 ∧ Joins more (escape s).2 (escape (s ++ more)).2 := by
  cases s with
  | nil => exact absurd rfl h
  | cons c rest =>
    by_cases hc : isHexDigit c
    · have hdigits := hmore.takeWhile_take_append (p := isHexDigit) (by decide) 6 (c :: rest)
      have hlength : (((c :: rest).take 6).takeWhile isHexDigit).length ≤ (c :: rest).length :=
        ((List.takeWhile_sublist _).trans (List.take_sublist _ _)).length_le
      simp only [List.cons_append] at hdigits
      simp only [List.cons_append, escape, hc, if_true, hdigits]
      refine ⟨trivial, ?_⟩
      rw [← List.cons_append, List.drop_append_of_le_length hlength]
      exact dropSpace_append hmore _
    · simp only [List.cons_append, escape, hc]
      exact ⟨rfl, .append _ rest⟩

/-! ## Names -/

theorem name_of_ending (hmore : Ending more) : name more = ([], more) := by
  cases hmore <;> rw [name] <;> rfl

theorem startsEscape_append (hmore : Ending more) (s : List Char) :
    startsEscape (s ++ more) = startsEscape s := by
  cases s with
  | nil => cases hmore <;> rfl
  | cons c rest =>
    unfold startsEscape
    split
    · next heq =>
      cases heq
      exact congrArg (!·) (startsNewline_append hmore rest)
    · next hother =>
      split
      · next heq =>
        cases heq
        exact absurd rfl (hother _)
      · rfl

theorem startsName_cons (hc : c ≠ '-') :
    startsName (c :: rest) = (startsEscape (c :: rest) || isNameStart c) := by
  unfold startsName
  split
  · next heq => exact absurd (List.cons.inj heq).1 hc
  · rfl

theorem startsName_append (hmore : Ending more) (s : List Char) :
    startsName (s ++ more) = startsName s := by
  cases s with
  | nil => cases hmore <;> rfl
  | cons c rest =>
    by_cases hc : c = '-'
    · subst hc
      exact hmore.head?_any_append (by decide) rest
    · rw [List.cons_append, startsName_cons hc, startsName_cons hc, ← List.cons_append,
        startsEscape_append hmore]

theorem name_append (hmore : Ending more) (hplain : EndsPlain s) :
    (name (s ++ more)).1 = (name s).1 ∧ Joins more (name s).2 (name (s ++ more)).2 := by
  fun_induction name s with
  | case1 =>
    rw [List.nil_append, name_of_ending hmore]
    exact ⟨rfl, .append _ []⟩
  | case2 c rest hc after ih =>
    obtain ⟨hspelled, hleft⟩ := ih (hplain.of_suffix (List.suffix_cons _ _))
    rw [List.cons_append, name, if_pos hc]
    exact ⟨congrArg (orReplacement c :: ·) hspelled, hleft⟩
  | case3 c rest hc hescape after ih =>
    obtain ⟨rfl, hnewline⟩ := hescape
    obtain ⟨hspelled, hescaped⟩ := escape_append hmore hplain.ne_nil
    have hnewline' := (startsNewline_append hmore rest).trans hnewline
    rw [List.cons_append, name, if_neg hc, if_pos ⟨rfl, hnewline'⟩]
    rcases hescaped with hleft | ⟨hnone, hblank⟩
    · obtain ⟨hrest, hjoins⟩ :=
        ih (hplain.of_suffix ((escape_suffix rest).trans (List.suffix_cons _ _)))
      rw [hspelled, hleft]
      exact ⟨congrArg ((escape rest).1 :: ·) hrest, hjoins⟩
    · -- the blank is taken along; the brace after it ends the name
      have hbrace : name (escape (rest ++ more)).2 = ([], (escape (rest ++ more)).2) := by
        cases hmore with
        | semicolon => cases hblank
        | colon => cases hblank
        | body =>
          obtain ⟨-, hbody⟩ := List.cons.inj hblank
          rw [← hbody, name]
          rfl
      have hafter : after = ([], []) := by
        rw [show after = name (escape rest).2 from rfl, hnone, name]
      rw [hspelled, hbrace, hafter]
      exact ⟨rfl, .inr ⟨rfl, hblank⟩⟩
  | case4 c rest hc hescape =>
    rw [List.cons_append, name, if_neg hc, startsNewline_append hmore, if_neg hescape]
    exact ⟨rfl, .append _ (c :: rest)⟩

/-! ## Names that spell themselves -/

theorem length_name_le (s : List Char) : (name s).1.length ≤ s.length := by
  fun_induction name s with
  | case1 => exact Nat.le_refl _
  | case2 c rest hc after ih => exact Nat.succ_le_succ ih
  | case3 c rest hc hescape after ih =>
    exact Nat.succ_le_succ (Nat.le_trans ih (escape_suffix rest).length_le)
  | case4 => exact Nat.zero_le _

theorem length_escape_lt (h : s ≠ []) : (escape s).2.length < s.length := by
  cases s with
  | nil => exact absurd rfl h
  | cons c rest =>
    unfold escape
    by_cases hc : isHexDigit c
    · simp only [hc, if_true, List.take_succ_cons, List.takeWhile_cons, List.length_cons,
        List.drop_succ_cons]
      exact Nat.lt_succ_of_le ((dropSpace_suffix _).trans (List.drop_suffix _ _)).length_le
    · simp [hc]

/-- A name that spells itself has neither an escape nor a NUL in it. -/
theorem forall_of_name_eq (h : name s = (s, [])) :
    ∀ c ∈ s, isNamePoint c ∧ orReplacement c = c := by
  fun_induction name s with
  | case1 => exact List.forall_mem_nil _
  | case2 c rest hc after ih =>
    obtain ⟨⟨hsame, hspelled⟩, hleft⟩ : (orReplacement c = c ∧ after.1 = rest) ∧ after.2 = [] := by
      simpa using h
    exact List.forall_mem_cons.2 ⟨⟨hc, hsame⟩, ih (Prod.ext hspelled hleft)⟩
  | case3 c rest hc hescape after ih =>
    -- an escape is longer than what it spells
    obtain ⟨⟨hsame, hspelled⟩, -⟩ : ((escape rest).1 = c ∧ after.1 = rest) ∧ after.2 = [] := by
      simpa using h
    by_cases hrest : rest = []
    · subst hrest
      rw [hescape.1] at hsame
      exact absurd hsame (by decide)
    · have hlength := length_name_le (escape rest).2
      have hshorter := length_escape_lt hrest
      rw [show (name (escape rest).2).1 = rest from hspelled] at hlength
      omega
  | case4 => cases h

theorem name_append_of_forall (h : ∀ c ∈ s, isNamePoint c ∧ orReplacement c = c)
    (hmore : name more = ([], more)) : name (s ++ more) = (s, more) := by
  induction s with
  | nil => exact hmore
  | cons c s ih =>
    obtain ⟨⟨hpoint, hsame⟩, hs⟩ := List.forall_mem_cons.1 h
    rw [List.cons_append, name, if_pos hpoint, ih hs, hsame]

theorem startsName_append_of_forall (h : ∀ c ∈ s, isNamePoint c) (hstarts : startsName s)
    (more : List Char) : startsName (s ++ more) := by
  cases s with
  | nil => cases hstarts
  | cons c rest =>
    by_cases hc : c = '-'
    · subst hc
      cases rest with
      | nil => cases hstarts
      | cons d rest => exact hstarts
    · have hescape (rest : List Char) : startsEscape (c :: rest) = false := by
        unfold startsEscape
        split
        · next heq =>
          cases heq
          exact absurd (h _ List.mem_cons_self) (by decide)
        · rfl
      rw [startsName_cons hc, hescape] at hstarts
      rw [List.cons_append, startsName_cons hc, hescape]
      exact hstarts

/-! ## Numbers -/

theorem startsUnsigned_append (hmore : Ending more) (s : List Char) :
    startsUnsigned (s ++ more) = startsUnsigned s := by
  cases s with
  | nil => cases hmore <;> rfl
  | cons c rest =>
    have hrest := startsDigit_append hmore rest
    have hall := startsDigit_append hmore (c :: rest)
    rw [List.cons_append] at hall ⊢
    unfold startsUnsigned
    split <;> simp_all

theorem startsNumber_append (hmore : Ending more) (s : List Char) :
    startsNumber (s ++ more) = startsNumber s := by
  cases s with
  | nil => cases hmore <;> rfl
  | cons c rest =>
    have hrest := startsUnsigned_append hmore rest
    have hall := startsUnsigned_append hmore (c :: rest)
    rw [List.cons_append] at hall ⊢
    unfold startsNumber
    split <;> simp_all

theorem dropSign_append (hmore : Ending more) (s : List Char) :
    dropSign (s ++ more) = dropSign s ++ more := by
  cases s with
  | nil => cases hmore <;> rfl
  | cons c rest =>
    rw [List.cons_append]
    unfold dropSign
    split <;> simp_all

theorem dropDigits_append (hmore : Ending more) (s : List Char) :
    dropDigits (s ++ more) = dropDigits s ++ more :=
  hmore.dropWhile_append (by decide) s

theorem dropFraction_append (hmore : Ending more) (s : List Char) :
    dropFraction (s ++ more) = dropFraction s ++ more := by
  cases s with
  | nil => cases hmore <;> rfl
  | cons c rest =>
    by_cases hc : c = '.'
    · subst hc
      simp only [List.cons_append, dropFraction, startsDigit_append hmore, dropDigits_append hmore]
      split <;> rfl
    · have hother (rest : List Char) : dropFraction (c :: rest) = c :: rest := by
        unfold dropFraction
        split
        · next heq => exact absurd (List.cons.inj heq).1 hc
        · rfl
      rw [List.cons_append, hother, hother, List.cons_append]

theorem dropExponent_append (hmore : Ending more) (s : List Char) :
    dropExponent (s ++ more) = dropExponent s ++ more := by
  cases s with
  | nil => cases hmore <;> rfl
  | cons c rest =>
    have hsign := dropSign_append hmore rest
    have hdigit := startsDigit_append hmore (dropSign rest)
    have hdrop := dropDigits_append hmore (dropSign rest)
    simp only [List.cons_append, dropExponent, hsign, hdigit, hdrop]
    split <;> rfl

theorem dropUnit_append (hmore : Ending more) (hplain : EndsPlain s) :
    Joins more (dropUnit s) (dropUnit (s ++ more)) := by
  have hunit : Joins more (if startsName s then (name s).2 else s)
      (if startsName (s ++ more) then (name (s ++ more)).2 else s ++ more) := by
    rw [startsName_append hmore]
    split
    · exact (name_append hmore hplain).2
    · exact .append _ s
  cases s with
  | nil => cases hmore <;> exact .append _ []
  | cons c rest =>
    by_cases hc : c = '%'
    · subst hc
      exact .append _ rest
    · have hother (rest : List Char) : dropUnit (c :: rest)
          = if startsName (c :: rest) then (name (c :: rest)).2 else c :: rest := by
        unfold dropUnit
        split
        · next heq => exact absurd (List.cons.inj heq).1 hc
        · rfl
      rw [List.cons_append, hother, hother]
      exact hunit

theorem afterNumber_append (hmore : Ending more) (hplain : EndsPlain s) :
    Joins more (afterNumber s) (afterNumber (s ++ more)) := by
  unfold afterNumber
  rw [dropSign_append hmore, dropDigits_append hmore, dropFraction_append hmore,
    dropExponent_append hmore]
  refine dropUnit_append hmore (hplain.of_suffix ?_)
  exact (dropExponent_suffix _).trans <| (dropFraction_suffix _).trans <|
    (dropDigits_suffix _).trans (dropSign_suffix s)

end Stylesheet
end ScopedCss
