import ScopedCss.Proofs.Selector.Comments
import ScopedCss.Proofs.Selector.Renaming
import ScopedCss.Stylesheet.Token.Number

/-!
# The selectors of keyframes

In the block of `@keyframes` a rule stands for moments of an animation: its selector is a list of
`from`, `to` and percentages, with commas between them. The rewriting knows nothing of this. It
takes such a selector for any other, and the fraction of a percentage for a class, since a class
name may have digits and percent signs in it.

* `isKeyframeSelector` says that a selector is such a list.
* `tokenize_keyframes`: the pieces of such a selector, where no branch is blank.
* `requests_keyframes`: it asks for its fractions, and for nothing else.
* `text_keyframes`: where it asks for nothing it comes out as it is.
-/

namespace ScopedCss
namespace Selector

open Text
open Stylesheet (startsDigit startsNumber dropSign dropDigits dropFraction dropExponent)

variable {c : Char} {s t rest : List Char} {selector : String} {token : Token} {tokens : List Token}
  {known : String → Bool} {initial : Scope}

/-! ## Moments of an animation -/

/-- The text is a percentage of a stylesheet: a number, and a percent sign right behind it. -/
def isPercentage (s : List Char) : Bool :=
  startsNumber s && dropExponent (dropFraction (dropDigits (dropSign s))) == ['%']

/-- The text names a moment of an animation. -/
def isMoment (s : List Char) : Bool := s == "from".toList || s == "to".toList || isPercentage s

/-- The selector is trimmed, and a list of moments with commas between them. -/
def isKeyframeSelector (selector : String) : Bool :=
  trimText selector == selector && (selector.toList.splitOn ',').all fun part =>
    isMoment (trim part)

/-! ## The characters of moments -/

/-- A character of the list of moments that is no dot. -/
def isPlain (c : Char) : Bool := isNameChar c || isBlank c || c == ',' || c == '+'

/-- The text is made of plain characters and of dots that begin a fraction. -/
def isPlainText : List Char → Bool
  | [] => true
  | c :: s => (if c = '.' then startsDigit s else isPlain c) && isPlainText s

theorem ne_dot_of_isPlain (h : isPlain c) : c ≠ '.' := by
  rintro rfl
  cases h

theorem isNameChar_of_isDigit (h : c.isDigit) : isNameChar c := by
  have hdigits : ∀ n < 58, (Char.ofNat n).isDigit → isNameChar (Char.ofNat n) := by decide
  have hc : c.toNat < 58 := by
    rw [Char.isDigit, Bool.and_eq_true, decide_eq_true_iff, decide_eq_true_iff] at h
    exact Nat.lt_succ_of_le h.2
  have hname := hdigits c.toNat hc
  rw [Char.ofNat_toNat] at hname
  exact hname h

theorem isPlain_of_isNameChar (h : isNameChar c) : isPlain c := by simp [isPlain, h]

theorem isPlain_of_isBlank (h : isBlank c) : isPlain c := by simp [isPlain, h]

/-- A digit is a character of names. -/
theorem startsDigit_eq_false (h : s.head?.any isNameChar = false) : startsDigit s = false := by
  cases s with
  | nil => rfl
  | cons c s =>
    by_contra hdigit
    cases h.symm.trans (isNameChar_of_isDigit (by simpa [startsDigit] using hdigit))

theorem isPlainText_cons (hc : isPlain c) (s : List Char) :
    isPlainText (c :: s) = isPlainText s := by
  rw [isPlainText, if_neg (ne_dot_of_isPlain hc), hc, Bool.true_and]

theorem isPlainText_append_of_forall (h : ∀ c ∈ s, isPlain c) (t : List Char) :
    isPlainText (s ++ t) = isPlainText t := by
  induction s with
  | nil => rfl
  | cons c s ih =>
    obtain ⟨hc, hs⟩ := List.forall_mem_cons.1 h
    rw [List.cons_append, isPlainText_cons hc, ih hs]

theorem isPlainText_append (ht : startsDigit t = false) :
    isPlainText (s ++ t) = (isPlainText s && isPlainText t) := by
  induction s with
  | nil => rfl
  | cons c s ih =>
    have hnext : startsDigit (s ++ t) = startsDigit s := by
      cases s with
      | nil => exact ht
      | cons => rfl
    rw [List.cons_append, isPlainText, isPlainText, hnext, ih, Bool.and_assoc]

theorem isPlainText_of_append (h : isPlainText (s ++ t)) : isPlainText t := by
  induction s with
  | nil => exact h
  | cons c s ih =>
    rw [List.cons_append, isPlainText, Bool.and_eq_true] at h
    exact ih h.2

theorem isPlain_of_mem (h : isPlainText s) (hc : c ∈ s) : c = '.' ∨ isPlain c := by
  obtain ⟨front, back, rfl⟩ := List.append_of_mem hc
  have hback := isPlainText_of_append h
  rw [isPlainText, Bool.and_eq_true] at hback
  by_cases hdot : c = '.'
  · exact .inl hdot
  · exact .inr (by simpa [hdot] using hback.1)

/-! ### Percentages -/

theorem isPlainText_dropSign (h : isPlainText (dropSign s)) : isPlainText s := by
  unfold dropSign at h
  split at h
  · rwa [isPlainText_cons rfl]
  · rwa [isPlainText_cons rfl]
  · exact h

theorem isPlainText_dropDigits (h : isPlainText (dropDigits s)) : isPlainText s := by
  rw [← List.takeWhile_append_dropWhile (p := Char.isDigit) (l := s), isPlainText_append_of_forall]
  · exact h
  · exact fun c hc => isPlain_of_isNameChar (isNameChar_of_isDigit (List.mem_takeWhile_imp hc))

theorem isPlainText_dropFraction (h : isPlainText (dropFraction s)) : isPlainText s := by
  unfold dropFraction at h
  split at h
  · next rest =>
    split at h
    · next hdigit =>
      rw [isPlainText, if_pos rfl, hdigit, Bool.true_and]
      exact isPlainText_dropDigits h
    · exact h
  · exact h

theorem isPlainText_dropExponent (h : isPlainText (dropExponent s)) : isPlainText s := by
  unfold dropExponent at h
  split at h
  · next c rest =>
    split at h
    · next hexponent =>
      have hc : isPlain c := by rcases hexponent.1 with rfl | rfl <;> rfl
      rw [isPlainText_cons hc]
      exact isPlainText_dropSign (isPlainText_dropDigits h)
    · exact h
  · rfl

theorem isPlainText_of_isPercentage (h : isPercentage s) : isPlainText s := by
  have hsign := eq_of_beq (Bool.and_eq_true_iff.1 h).2
  apply isPlainText_dropSign
  apply isPlainText_dropDigits
  apply isPlainText_dropFraction
  apply isPlainText_dropExponent
  rw [hsign]
  rfl

/-! ### Lists of moments -/

theorem isPlainText_of_trim (h : isPlainText (trim s)) : isPlainText s := by
  obtain ⟨left, right, hleft, hright, hs⟩ := exists_trim s
  have hplain (blanks : List Char) (hblanks : isBlankText blanks) : ∀ c ∈ blanks, isPlain c :=
    fun c hc => isPlain_of_isBlank (List.all_eq_true.1 hblanks c hc)
  have hrest : isPlainText right := by
    have happend := isPlainText_append_of_forall (hplain right hright) []
    rwa [List.append_nil] at happend
  have hdigit : startsDigit right = false := by
    refine startsDigit_eq_false ?_
    cases right with
    | nil => rfl
    | cons c right =>
      rw [isBlankText_cons] at hright
      simp [isNameChar, hright.1]
  rw [hs, isPlainText_append_of_forall (hplain left hleft), isPlainText_append hdigit, h, hrest]
  rfl

theorem isPlainText_of_isMoment (h : isMoment s) : isPlainText s := by
  rw [isMoment, Bool.or_eq_true, Bool.or_eq_true, beq_iff_eq, beq_iff_eq] at h
  rcases h with (rfl | rfl) | h
  · decide
  · decide
  · exact isPlainText_of_isPercentage h

theorem isPlainText_intercalate {parts : List (List Char)} (h : ∀ part ∈ parts, isPlainText part) :
    isPlainText ([','].intercalate parts) := by
  induction parts with
  | nil => rfl
  | cons part parts ih =>
    obtain ⟨hpart, hparts⟩ := List.forall_mem_cons.1 h
    cases parts with
    | nil => simpa using hpart
    | cons next parts =>
      rw [List.intercalate_cons_cons, List.append_assoc, isPlainText_append rfl, hpart,
        List.singleton_append, isPlainText_cons rfl, ih hparts]
      rfl

theorem isPlainText_of_isKeyframeSelector (h : isKeyframeSelector selector) :
    isPlainText selector.toList := by
  have hparts := List.all_eq_true.1 (Bool.and_eq_true_iff.1 h).2
  have hjoined : [','].intercalate (selector.toList.splitOn ',') = selector.toList :=
    List.intercalate_splitOn ','
  rw [← hjoined]
  exact isPlainText_intercalate fun part hmem =>
    isPlainText_of_trim (isPlainText_of_isMoment (hparts part hmem))

/-! ## Pieces -/

/-- A piece of a list of moments. -/
inductive Token.IsOfMoments : Token → Prop where
  | comma : IsOfMoments .comma
  /-- The fraction of a percentage. -/
  | className {name : String} (hname : isClassName name) (hdigit : startsDigit name.toList) :
    IsOfMoments (.className name)
  | blank {text : String} (hblank : isBlankText text.toList) : IsOfMoments (.blank text)
  | raw {text : String} (hcomma : ',' ∉ text.toList) (hdot : '.' ∉ text.toList) :
      IsOfMoments (.raw text)

/-- The pieces of a text of plain characters and fractions. -/
theorem Stands.isOfMoments (h : Stands token rest) (hplain : isPlainText (token.source ++ rest)) :
    token.IsOfMoments := by
  have hsource (c : Char) (hc : c ∈ token.source) : c = '.' ∨ isPlain c :=
    isPlain_of_mem hplain (List.mem_append_left rest hc)
  have hnone (c : Char) (hc : c ∈ token.source) (hdot : c ≠ '.') (hother : isPlain c = false) :
      False := by
    rcases hsource c hc with rfl | hplain
    · exact hdot rfl
    · cases hplain.symm.trans hother
  cases h with
  | comma => exact .comma
  | blank _ hall => exact .blank hall
  | @className name _ hname =>
    obtain ⟨c, chars, hchars, -⟩ := exists_of_isClassName hname
    rw [Token.source, List.cons_append, isPlainText, Bool.and_eq_true, if_pos rfl] at hplain
    refine .className hname ?_
    rw [hchars] at hplain ⊢
    exact hplain.1
  | marker | within | composition =>
    exact (hnone ':' (by simp [Token.source, Composition.source]) (by decide) rfl).elim
  | quoted _ hmark | openQuote hmark =>
    rw [isQuote, Bool.or_eq_true, beq_iff_eq, beq_iff_eq] at hmark
    rcases hmark with rfl | rfl
    · exact (hnone '\'' (by simp [Token.source]) (by decide) rfl).elim
    · exact (hnone '"' (by simp [Token.source]) (by decide) rfl).elim
  | bracket => exact (hnone '[' (by simp [Token.source]) (by decide) rfl).elim
  | dot hstop =>
    have hdigit : startsDigit rest := (Bool.and_eq_true_iff.1 hplain).1
    cases (startsDigit_eq_false hstop).symm.trans hdigit
  | colons | pseudo => exact (hnone ':' (by simp [Token.source]) (by decide) rfl).elim
  | paren => exact (hnone '(' (by simp [Token.source]) (by decide) rfl).elim
  | hash => exact (hnone '#' (by simp [Token.source]) (by decide) rfl).elim
  | name hname =>
    have hall := List.all_eq_true.1 (Bool.and_eq_true_iff.1 hname).2
    exact .raw (fun hcomma => absurd (hall _ hcomma) (by decide)) fun hdot =>
      absurd (hall _ hdot) (by decide)
  | @sign c _ hc =>
    obtain rfl : c = '+' := by
      have hplain := hsource c (by simp [Token.source])
      simp only [isSign, Bool.and_eq_true, Bool.not_eq_true'] at hc
      simp_all [isPlain]
    exact .raw (by decide) (by decide)

theorem isOfMoments_of_allStand (h : AllStand [] tokens)
    (hplain : isPlainText (tokens.flatMap Token.source)) :
    ∀ token ∈ tokens, token.IsOfMoments := by
  induction tokens with
  | nil => exact nofun
  | cons token tokens ih =>
    obtain ⟨hfirst, hrest⟩ := h
    rw [List.append_nil] at hfirst
    rw [List.flatMap_cons] at hplain
    exact List.forall_mem_cons.2
      ⟨hfirst.isOfMoments hplain, ih hrest (isPlainText_of_append hplain)⟩

theorem Token.IsOfMoments.eq_comma (h : token.IsOfMoments) (hcomma : ',' ∈ token.source) :
    token = .comma := by
  cases h with
  | comma => rfl
  | @className name hname =>
    have hmem : ',' ∈ name.toList := by simpa [Token.source] using hcomma
    exact absurd (List.all_eq_true.1 (Bool.and_eq_true_iff.1 hname).2 _ hmem) (by decide)
  | blank hblank => exact absurd (List.all_eq_true.1 hblank _ hcomma) (by decide)
  | raw hnone => exact absurd hcomma hnone

theorem flatMap_source_intercalate (branches : List (List Token)) :
    ([Token.comma].intercalate branches).flatMap Token.source
      = [','].intercalate (branches.map (·.flatMap Token.source)) := by
  have h := congrArg String.toList (intercalate_sourceText branches)
  rw [String.toList_intercalate, List.map_map, sourceText, String.toList_ofList] at h
  simpa [sourceText, Function.comp_def] using h.symm

/-- The branches of a list of moments are what stands between its commas. -/
theorem splitOn_source (h : ∀ token ∈ tokens, token.IsOfMoments) :
    (tokens.splitOn .comma).map (·.flatMap Token.source)
      = (tokens.flatMap Token.source).splitOn ',' := by
  have hsource : tokens.flatMap Token.source
      = [','].intercalate ((tokens.splitOn .comma).map (·.flatMap Token.source)) := by
    rw [← flatMap_source_intercalate, List.intercalate_splitOn]
  rw [hsource, List.splitOn_intercalate]
  · intro text htext hcomma
    obtain ⟨branch, hbranch, rfl⟩ := List.mem_map.1 htext
    obtain ⟨token, htoken, hmem⟩ := List.mem_flatMap.1 hcomma
    obtain ⟨hoccurs, hnone⟩ := infix_of_mem_splitOn hbranch
    exact hnone ((h token (hoccurs.subset htoken)).eq_comma hmem ▸ htoken)
  · simp

theorem not_isBlankText_of_isMoment (h : isMoment (trim s)) : ¬ isBlankText s := by
  intro hblank
  have hnil : trim s = [] := by
    rw [trim, trimStart, List.dropWhile_eq_nil_iff.2 (List.all_eq_true.1 hblank)]
    rfl
  rw [hnil] at h
  cases h

/-- **The pieces of a list of moments** are its commas and blanks, its fractions, and what is no
class; no branch is blank. -/
theorem tokenize_keyframes (h : isKeyframeSelector selector) :
    ∃ tokens, tokenize selector = .ok tokens ∧ (∀ token ∈ tokens, token.IsOfMoments) ∧
      ∀ branch ∈ tokens.splitOn .comma, ¬ isBlankText (branch.flatMap Token.source) := by
  have hplain := isPlainText_of_isKeyframeSelector h
  have hcolon : ':' ∉ selector.toList := fun hmem => by
    rcases isPlain_of_mem hplain hmem with hdot | hcolon
    · cases hdot
    · cases hcolon
  obtain ⟨tokens, htokens⟩ := tokensFrom_of_not_mem selector hcolon
  obtain ⟨hsource, hstand⟩ := tokensFrom_eq_ok_iff.1 htokens
  have hmoments := isOfMoments_of_allStand hstand (hsource ▸ hplain)
  refine ⟨tokens, htokens, hmoments, fun branch hbranch => not_isBlankText_of_isMoment ?_⟩
  have hpart := List.mem_map_of_mem (f := fun branch => branch.flatMap Token.source) hbranch
  rw [splitOn_source hmoments, hsource] at hpart
  exact List.all_eq_true.1 (Bool.and_eq_true_iff.1 h).2 _ hpart

/-! ## Rewriting -/

/-- The fraction of a percentage that a piece is. -/
def Token.fraction? : Token → Option String
  | .className name => some name
  | _ => none

theorem mem_fractions_iff {name : String} :
    name ∈ tokens.filterMap Token.fraction? ↔ .className name ∈ tokens := by
  rw [List.mem_filterMap]
  constructor
  · rintro ⟨token, htoken, heq⟩
    cases token <;> cases heq
    exact htoken
  · exact fun htoken => ⟨_, htoken, rfl⟩

/-- Where there is a dot, there is a fraction. -/
theorem fractions_eq_nil_iff (h : ∀ token ∈ tokens, token.IsOfMoments) :
    tokens.filterMap Token.fraction? = [] ↔ '.' ∉ tokens.flatMap Token.source := by
  rw [List.eq_nil_iff_forall_not_mem]
  constructor
  · intro hnone hdot
    obtain ⟨token, htoken, hdot⟩ := List.mem_flatMap.1 hdot
    cases h token htoken with
    | comma => simp [Token.source] at hdot
    | className => exact hnone _ (mem_fractions_iff.2 htoken)
    | blank hblank => exact absurd (List.all_eq_true.1 hblank _ hdot) (by decide)
    | raw _ hnone => exact hnone hdot
  · intro hdot fraction hfraction
    exact hdot (List.mem_flatMap.2 ⟨_, mem_fractions_iff.1 hfraction, List.mem_cons_self⟩)

theorem requestsOf_moments (h : ∀ token ∈ tokens, token.IsOfMoments) :
    requestsOf known initial initial tokens
      = (tokens.filterMap Token.fraction?).flatMap initial.requests := by
  induction tokens with
  | nil => rfl
  | cons token tokens ih =>
    obtain ⟨htoken, hmore⟩ := List.forall_mem_cons.1 h
    rw [requestsOf_cons]
    cases htoken with
    | className => exact congrArg (initial.requests _ ++ ·) (ih hmore)
    | comma | blank | raw => exact ih hmore

/-- **A list of moments asks for its fractions**, as if they were classes, and for nothing else. It
has a fraction where it has a dot. -/
theorem requests_keyframes (h : isKeyframeSelector selector) :
    ∃ fractions : List String,
      (∀ known initial, requests known initial selector = fractions.flatMap initial.requests) ∧
      (∀ fraction ∈ fractions,
        startsDigit fraction.toList ∧ '.' :: fraction.toList <:+: selector.toList) ∧
      (fractions = [] ↔ '.' ∉ selector.toList) := by
  obtain ⟨tokens, htokens, hmoments, -⟩ := tokenize_keyframes h
  have hsource := tokenize_source htokens
  refine ⟨tokens.filterMap Token.fraction?, fun known initial => ?_,
    fun fraction hfraction => ?_, ?_⟩
  · rw [requests_eq, htokens]
    exact requestsOf_moments hmoments
  · have hmem := mem_fractions_iff.1 hfraction
    rw [← hsource]
    cases hmoments _ hmem with
    | className _ hdigit => exact ⟨hdigit, List.infix_of_mem_flatten (List.mem_map_of_mem hmem)⟩
  · rw [← hsource]
    exact fractions_eq_nil_iff hmoments

/-- A list of moments that asks for nothing comes out as it is. -/
theorem text_keyframes {answers : Answers} (h : isKeyframeSelector selector)
    (hnone : requests known initial selector = []) (hknows : answers.Knows known) :
    answers.text initial selector = selector := by
  obtain ⟨tokens, htokens, hmoments, hbranches⟩ := tokenize_keyframes h
  have htrim : trimText selector = selector := eq_of_beq (Bool.and_eq_true_iff.1 h).1
  have hmarker (scope : Scope) : .marker scope ∉ tokens := fun hmem => by cases hmoments _ hmem
  have hwithin (token : Token) (hmem : token ∈ tokens) : token.content? = none := by
    cases hmoments token hmem <;> rfl
  obtain ⟨result, s, hrun, hresult⟩ :=
    rewrite_verbatim htokens htrim hmarker hwithin (fun _ => hbranches) verbatim_verbatim initial ()
  have hasked : Asked .verbatim answers (requests known initial selector) () (.ok ()) () := by
    rw [hnone]
    exact .nil ()
  have hwritten := hrun.symm.trans (rewrite_run hknows hasked)
  exact (Except.ok.inj (congrArg Prod.fst hwritten)).symm.trans hresult

end Selector
end ScopedCss
