import Mathlib.Data.List.TakeWhile
import ScopedCss.Proofs.Stylesheet.Token

/-!
# Tokens before a boundary

A *boundary* is a separator, a semicolon or a brace. Where a token ends before a boundary, what
comes behind the boundary does not matter to it: no reader of a token looks beyond a boundary that
it leaves. There is one exception: whether `url(` begins an unquoted url depends on the first
character behind the blanks after it.

* `Sees` says of a test, and `Local` of a reader, that it does not look beyond a boundary.
* `local_of_step`: a recursive reader does not if no step of it does.
* `token_separated`: a token that ends before a boundary is the same whatever comes behind it.
-/

namespace ScopedCss
namespace Stylesheet

variable {α β γ : Type} {w c : Char} {p q s t : List Char} {test : List Char → Bool} {n : Nat}

/-! ## Boundaries -/

/-- A semicolon or a brace. -/
def isMark (c : Char) : Bool := c == ';' || c == '{' || c == '}'

/-- A character that no identifier and no number goes on with. -/
def isBoundary (c : Char) : Bool := isSpace c || isMark c

theorem isBoundary_iff : isBoundary w ↔ w = ' ' ∨ w = '\t' ∨ w = '\n' ∨ w = '\r' ∨ w = '\x0C' ∨
    w = ';' ∨ w = '{' ∨ w = '}' := by
  simp [isBoundary, isMark, isSpace, isNewline, or_assoc]

theorem isBoundary_of_isSpace (h : isSpace w) : isBoundary w := by simp [isBoundary, h]

theorem isBoundary_of_isMark (h : isMark w) : isBoundary w := by simp [isBoundary, h]

theorem isSpace_of_isMark (h : isMark w) : isSpace w = false := by
  obtain (rfl | rfl) | rfl : (w = ';' ∨ w = '{') ∨ w = '}' := by simpa [isMark] using h
  all_goals rfl

theorem isNamePoint_of_isBoundary (h : isBoundary w) : isNamePoint w = false := by
  rcases isBoundary_iff.1 h with rfl | rfl | rfl | rfl | rfl | rfl | rfl | rfl <;> rfl

theorem isHexDigit_of_isBoundary (h : isBoundary w) : isHexDigit w = false := by
  rcases isBoundary_iff.1 h with rfl | rfl | rfl | rfl | rfl | rfl | rfl | rfl <;> rfl

theorem isDigit_of_isBoundary (h : isBoundary w) : w.isDigit = false := by
  rcases isBoundary_iff.1 h with rfl | rfl | rfl | rfl | rfl | rfl | rfl | rfl <;> rfl

theorem ne_of_isBoundary (h : isBoundary w) (hc : isBoundary c = false) : w ≠ c := by
  rintro rfl
  cases h.symm.trans hc

/-- No part of the text behind a boundary ends with the boundary and this text. -/
theorem not_suffix_of_suffix (h : w :: t <:+ s) (hs : s <:+ t) : False := by
  have hlength := (h.trans hs).length_le
  rw [List.length_cons] at hlength
  omega

/-! ## Readers that do not look beyond a boundary -/

/-- A test that does not look beyond a boundary. -/
def Sees (test : List Char → Bool) : Prop :=
  ∀ ⦃w⦄, isBoundary w → ∀ p t t', test (p ++ w :: t') = test (p ++ w :: t)

theorem sees_head (test : Option Char → Bool) : Sees fun s => test s.head? := by
  intro w _ p t t'
  cases p <;> rfl

/-- A reader gives something and the rest of the text. If it leaves a boundary that comes after at
most `n` characters, then it does not look beyond it. -/
def LocalUpTo (n : Nat) (f : List Char → α × List Char) : Prop :=
  ∀ ⦃w⦄, isBoundary w → ∀ ⦃p t⦄, p.length ≤ n → w :: t <:+ (f (p ++ w :: t)).2 →
    ∃ a q, ∀ t', f (p ++ w :: t') = (a, q ++ w :: t')

/-- A reader that never looks beyond a boundary that it leaves. -/
def Local (f : List Char → α × List Char) : Prop := ∀ n, LocalUpTo n f

theorem Local.separated {f : List Char → α × List Char} (h : Local f) (hw : isBoundary w)
    (hleft : w :: t <:+ (f (p ++ w :: t)).2) : ∃ a q, ∀ t', f (p ++ w :: t') = (a, q ++ w :: t') :=
  h p.length hw (Nat.le_refl _) hleft

namespace LocalUpTo

variable {f f' : List Char → α × List Char}

theorem congr (h : LocalUpTo n f) (heq : ∀ s, f' s = f s) : LocalUpTo n f' := funext heq ▸ h

/-- Nothing is read, and something is put back. -/
theorem keep (a : α) (front : List Char) : LocalUpTo n fun s => (a, front ++ s) :=
  fun _ _ p _ _ _ => ⟨a, front ++ p, fun _ => by rw [List.append_assoc]⟩

/-- One character is passed over. -/
theorem tail (a : α) : LocalUpTo n fun s => (a, s.tail) := by
  intro w _ p t _ hleft
  cases p with
  | nil => exact (not_suffix_of_suffix hleft (List.suffix_refl t)).elim
  | cons c p => exact ⟨a, p, fun _ => rfl⟩

theorem map (h : LocalUpTo n f) (g : α → β) : LocalUpTo n fun s => (g (f s).1, (f s).2) := by
  intro w hw p t hn hleft
  obtain ⟨a, q, hq⟩ := h hw hn hleft
  exact ⟨g a, q, fun t' => by simp only [hq]⟩

/-- One reader after another. -/
theorem andThen {g : List Char → β × List Char} (hg : LocalUpTo n g) (hf : LocalUpTo n f)
    (join : β → α → γ) (hg' : ∀ s, (g s).2 <:+ s) (hf' : ∀ s, (f s).2 <:+ s) :
    LocalUpTo n fun s => (join (g s).1 (f (g s).2).1, (f (g s).2).2) := by
  intro w hw p t hn hleft
  obtain ⟨b, q, hq⟩ := hg hw hn (hleft.trans (hf' _))
  have hshorter : q.length ≤ n := by
    have hlength := (hg' (p ++ w :: t)).length_le
    simp only [hq, List.length_append] at hlength
    omega
  simp only [hq] at hleft ⊢
  obtain ⟨a, q, hq⟩ := hf hw hshorter hleft
  exact ⟨join b a, q, fun t' => by rw [hq]⟩

theorem ite (htest : Sees test) (hf : LocalUpTo n f) (hf' : LocalUpTo n f') :
    LocalUpTo n fun s => if test s then f s else f' s := by
  intro w hw p t hn h
  simp only [htest hw p t] at h ⊢
  by_cases hsame : test (p ++ w :: t)
  · simp only [hsame, if_true] at h ⊢
    exact hf hw hn h
  · simp only [hsame, Bool.false_eq_true, if_false] at h ⊢
    exact hf' hw hn h

end LocalUpTo

/-- A reader does not look beyond a boundary if it stops before one or goes on behind it, and if
after its first character it looks no further than on the shorter texts. -/
theorem local_of_step {f : List Char → α × List Char}
    (atBoundary : ∀ ⦃w⦄, isBoundary w → ∀ t,
      (∃ a, ∀ t', f (w :: t') = (a, w :: t')) ∨ (f (w :: t)).2 <:+ t)
    (step : ∀ c n, LocalUpTo n f → LocalUpTo n fun rest => f (c :: rest)) :
    Local f := by
  have hnil {w : Char} {t : List Char} (hw : isBoundary w) (hleft : w :: t <:+ (f (w :: t)).2) :
      ∃ a q, ∀ t', f (w :: t') = (a, q ++ w :: t') := by
    rcases atBoundary hw t with ⟨a, ha⟩ | hbehind
    · exact ⟨a, [], ha⟩
    · exact (not_suffix_of_suffix hleft hbehind).elim
  intro n
  induction n with
  | zero =>
    rintro w hw p t hn hleft
    obtain rfl := List.length_eq_zero_iff.1 (Nat.le_zero.1 hn)
    exact hnil hw hleft
  | succ n ih =>
    intro w hw p t hn hleft
    cases p with
    | nil => exact hnil hw hleft
    | cons c p => exact step c n ih hw (Nat.le_of_succ_le_succ hn) hleft

theorem local_dropWhile (a : α) (test : Char → Bool) : Local fun s => (a, s.dropWhile test) := by
  refine local_of_step (fun w _ t => ?_) fun c n ih => ?_
  · by_cases hw : test w
    · refine .inr ?_
      rw [List.dropWhile_cons_of_pos hw]
      exact List.dropWhile_suffix test
    · exact .inl ⟨a, fun t' => by rw [List.dropWhile_cons_of_neg hw]⟩
  · by_cases hc : test c
    · exact ih.congr fun rest => by rw [List.dropWhile_cons_of_pos hc]
    · exact (LocalUpTo.keep a [c]).congr fun rest => by rw [List.dropWhile_cons_of_neg hc]; rfl

/-! ## Escapes and names -/

theorem dropSpace_eq (c : Char) (rest : List Char) : dropSpace (c :: rest)
    = if c == '\r' && rest.head? == some '\n' then rest.tail
      else if isSpace c then rest
      else c :: rest := by
  split
  · next h =>
    obtain ⟨hc, hrest⟩ := Bool.and_eq_true_iff.1 h
    cases eq_of_beq hc
    obtain ⟨rest, rfl⟩ := List.head?_eq_some_iff.1 (eq_of_beq hrest)
    rfl
  · next h => exact dropSpace_cons fun hc hrest => h (by rw [hc, hrest]; rfl)

theorem local_dropSpace (a : α) : Local fun s => (a, dropSpace s) := by
  refine local_of_step (fun w hw t => ?_) fun c n ih => ?_
  · by_cases hspace : isSpace w
    · refine .inr ?_
      rw [dropSpace_eq, if_pos hspace]
      split
      · exact List.tail_suffix t
      · exact List.suffix_refl t
    · refine .inl ⟨a, fun t' => ?_⟩
      rw [dropSpace_cons (by rintro rfl; exact absurd rfl hspace), if_neg hspace]
  · have hsingle : LocalUpTo n fun rest => (a, if isSpace c then rest else c :: rest) := by
      by_cases hc : isSpace c
      · exact (LocalUpTo.keep a []).congr fun rest => by rw [if_pos hc, List.nil_append]
      · exact (LocalUpTo.keep a [c]).congr fun rest => by rw [if_neg hc, List.singleton_append]
    have hpair :=
      (LocalUpTo.tail a).ite (sees_head fun first => c == '\r' && first == some '\n') hsingle
    exact hpair.congr fun rest => by rw [dropSpace_eq, apply_ite (Prod.mk a)]

theorem takeWhile_take (hw : isBoundary w) (n : Nat) (p t : List Char) :
    ((p ++ w :: t).take n).takeWhile isHexDigit = (p.take n).takeWhile isHexDigit := by
  induction p generalizing n with
  | nil => cases n <;> simp [isHexDigit_of_isBoundary hw]
  | cons c p ih =>
    cases n with
    | zero => rfl
    | succ n => simp only [List.cons_append, List.take_succ_cons, List.takeWhile_cons, ih]

theorem local_escape : Local escape := by
  intro n w hw p t _ h
  cases p with
  | nil =>
    refine (not_suffix_of_suffix h ?_).elim
    simp [escape, isHexDigit_of_isBoundary hw]
  | cons c p =>
    by_cases hc : isHexDigit c
    · have hdigits (t' : List Char) := takeWhile_take hw 6 (c :: p) t'
      have hlength : (((c :: p).take 6).takeWhile isHexDigit).length ≤ (c :: p).length :=
        ((List.takeWhile_sublist _).trans (List.take_sublist _ _)).length_le
      have hescape (t' : List Char) : escape (c :: p ++ w :: t')
          = (ofCodePoint (hexValue (((c :: p).take 6).takeWhile isHexDigit)), dropSpace
            ((c :: p).drop (((c :: p).take 6).takeWhile isHexDigit).length ++ w :: t')) := by
        rw [← List.drop_append_of_le_length hlength, ← hdigits t']
        simp only [List.cons_append, escape, hc, if_true]
      simp only [hescape] at h ⊢
      exact (local_dropSpace _).separated hw h
    · refine ⟨orReplacement c, p, fun t' => ?_⟩
      simp only [List.cons_append, escape, hc]
      rfl

theorem sees_startsNewline : Sees startsNewline := sees_head fun first => first.any isNewline

theorem local_name : Local name := by
  refine local_of_step (fun w hw t => .inl ⟨[], fun t' => ?_⟩) fun c n ih => ?_
  · rw [name, if_neg (by simp [isNamePoint_of_isBoundary hw]),
      if_neg (by rintro ⟨rfl, -⟩; cases hw)]
  · by_cases hc : isNamePoint c
    · exact (ih.map fun spelled => orReplacement c :: spelled).congr fun rest => by
        rw [name, if_pos hc]
    by_cases hescape : c = '\\'
    · have hnone : LocalUpTo n fun rest => (([] : List Char), [c] ++ rest) := .keep _ _
      have hsome := (local_escape n).andThen ih List.cons escape_suffix name_suffix
      refine (hnone.ite sees_startsNewline hsome).congr fun rest => ?_
      rw [name, if_neg hc]
      by_cases hnewline : startsNewline rest <;> simp [hescape, hnewline]
    · exact (LocalUpTo.keep [] [c]).congr fun rest => by
        rw [name, if_neg hc, if_neg fun h => hescape h.1, List.singleton_append]

theorem sees_startsEscape : Sees startsEscape := by
  intro w hw p t t'
  cases p with
  | nil => rcases isBoundary_iff.1 hw with rfl | rfl | rfl | rfl | rfl | rfl | rfl | rfl <;> rfl
  | cons c p =>
    by_cases hc : c = '\\'
    · subst hc
      exact congrArg (!·) (sees_startsNewline hw p t t')
    · simp [startsEscape, hc]

theorem sees_startsName : Sees startsName := by
  intro w hw p t t'
  cases p with
  | nil => rcases isBoundary_iff.1 hw with rfl | rfl | rfl | rfl | rfl | rfl | rfl | rfl <;> rfl
  | cons c p =>
    by_cases hc : c = '-'
    · subst hc
      exact sees_head
        (fun first => first.any fun c => isNameStart c || c == '-' || c == '\\') hw p t t'
    · rw [List.cons_append, List.cons_append, startsName_cons hc, startsName_cons hc,
        ← List.cons_append, ← List.cons_append, sees_startsEscape hw (c :: p) t t']

/-! ## Strings, comments and urls -/

theorem local_afterString (a : α) {quote : Char} (hquote : isBoundary quote = false) :
    Local fun s => (a, afterString quote s) := by
  refine local_of_step (fun w hw t => ?_) fun c n ih => ?_
  · have hclose := ne_of_isBoundary hw hquote
    have hescape := ne_of_isBoundary hw (show isBoundary '\\' = false from rfl)
    by_cases hnewline : isNewline w
    · exact .inl ⟨a, fun t' => by rw [afterString, if_neg hclose, if_pos hnewline]⟩
    · refine .inr ?_
      rw [afterString, if_neg hclose, if_neg hnewline, if_neg hescape]
      exact afterString_suffix quote t
  · by_cases hclose : c = quote
    · exact (LocalUpTo.keep a []).congr fun rest => by
        rw [afterString, if_pos hclose, List.nil_append]
    by_cases hnewline : isNewline c
    · exact (LocalUpTo.keep a [c]).congr fun rest => by
        rw [afterString, if_neg hclose, if_pos hnewline, List.singleton_append]
    by_cases hescape : c = '\\'
    · have hrest := afterString_suffix quote
      have hspace := (local_dropSpace a n).andThen ih (fun _ a => a) dropSpace_suffix hrest
      have hchar := (local_escape n).andThen ih (fun _ a => a) escape_suffix hrest
      refine (hspace.ite sees_startsNewline hchar).congr fun rest => ?_
      rw [afterString, if_neg hclose, if_neg hnewline, if_pos hescape, apply_ite (Prod.mk a)]
    · exact ih.congr fun rest => by rw [afterString, if_neg hclose, if_neg hnewline, if_neg hescape]

theorem afterComment_cons (c : Char) (rest : List Char) : afterComment (c :: rest)
    = if c == '*' && rest.head? == some '/' then rest.tail else afterComment rest := by
  split
  · next h =>
    obtain ⟨hc, hrest⟩ := Bool.and_eq_true_iff.1 h
    cases eq_of_beq hc
    obtain ⟨rest, rfl⟩ := List.head?_eq_some_iff.1 (eq_of_beq hrest)
    rfl
  · next h =>
    rw [afterComment]
    rintro after rfl rfl
    exact h rfl

theorem local_afterComment (a : α) : Local fun s => (a, afterComment s) := by
  refine local_of_step (fun w hw t => .inr ?_) fun c n ih => ?_
  · have hstar : (w == '*') = false := beq_eq_false_iff_ne.2 (ne_of_isBoundary hw rfl)
    rw [afterComment_cons, hstar]
    exact afterComment_suffix t
  · have hclose := sees_head fun first => c == '*' && first == some '/'
    exact ((LocalUpTo.tail a).ite hclose ih).congr fun rest => by
      rw [afterComment_cons, apply_ite (Prod.mk a)]

theorem afterBadUrl_cons (c : Char) (rest : List Char) : afterBadUrl (c :: rest)
    = if c == ')' then rest
      else if c == '\\' && rest.head?.any (fun d => d == ')' || d == '\\') then
        afterBadUrl rest.tail
      else afterBadUrl rest := by
  split
  · next h =>
    cases eq_of_beq h
    rfl
  · next hc =>
    split
    · next h =>
      obtain ⟨hc, hrest⟩ := Bool.and_eq_true_iff.1 h
      cases eq_of_beq hc
      cases rest with
      | nil => cases hrest
      | cons d rest =>
        rcases Bool.or_eq_true_iff.1 hrest with hd | hd <;> cases eq_of_beq hd <;> rfl
    · next h =>
      rw [afterBadUrl]
      · rintro rfl
        exact hc rfl
      · rintro after rfl rfl
        exact h rfl
      · rintro after rfl rfl
        exact h rfl

theorem local_afterBadUrl (a : α) : Local fun s => (a, afterBadUrl s) := by
  refine local_of_step (fun w hw t => .inr ?_) fun c n ih => ?_
  · have hescape : (w == '\\') = false := beq_eq_false_iff_ne.2 (ne_of_isBoundary hw rfl)
    have hclose : (w == ')') = false := beq_eq_false_iff_ne.2 (ne_of_isBoundary hw rfl)
    rw [afterBadUrl_cons, hescape, hclose]
    exact afterBadUrl_suffix t
  · by_cases hclose : c == ')'
    · exact (LocalUpTo.keep a []).congr fun rest => by
        rw [afterBadUrl_cons, if_pos hclose, List.nil_append]
    · have hpair := (LocalUpTo.tail a).andThen ih (fun _ a => a) List.tail_suffix afterBadUrl_suffix
      have hescape := sees_head fun first => c == '\\' && first.any fun d => d == ')' || d == '\\'
      exact (hpair.ite hescape ih).congr fun rest => by
        rw [afterBadUrl_cons, if_neg hclose, apply_ite (Prod.mk a)]

/-- After the text of a url at least one character is passed over. -/
theorem afterUrlEnd_suffix_tail (c : Char) (rest : List Char) :
    afterUrlEnd (c :: rest) <:+ rest := by
  rw [afterUrlEnd]
  split
  · exact afterUrlEnd_suffix rest
  · split
    · exact List.suffix_refl rest
    · exact afterBadUrl_suffix rest

theorem local_afterUrlEnd (a : α) : Local fun s => (a, afterUrlEnd s) := by
  refine local_of_step (fun w _ t => .inr (afterUrlEnd_suffix_tail w t)) fun c n ih => ?_
  · by_cases hc : isSpace c
    · exact ih.congr fun rest => by rw [afterUrlEnd, if_pos hc]
    by_cases hclose : c = ')'
    · exact (LocalUpTo.keep a []).congr fun rest => by
        rw [afterUrlEnd, if_neg hc, if_pos hclose, List.nil_append]
    · exact (local_afterBadUrl a n).congr fun rest => by rw [afterUrlEnd, if_neg hc, if_neg hclose]

/-- Of a url at least one character is passed over. -/
theorem afterUrl_suffix_tail (c : Char) (rest : List Char) : afterUrl (c :: rest) <:+ rest := by
  rw [afterUrl]
  repeat' split
  · exact afterUrlEnd_suffix rest
  · exact List.suffix_refl rest
  · exact afterBadUrl_suffix rest
  · exact afterBadUrl_suffix rest
  · exact (afterUrl_suffix _).trans (escape_suffix rest)
  · exact afterUrl_suffix rest

theorem local_afterUrl (a : α) : Local fun s => (a, afterUrl s) := by
  refine local_of_step (fun w _ t => .inr (afterUrl_suffix_tail w t)) fun c n ih => ?_
  · by_cases hc : isSpace c
    · exact (local_afterUrlEnd a n).congr fun rest => by rw [afterUrl, if_pos hc]
    by_cases hclose : c = ')'
    · exact (LocalUpTo.keep a []).congr fun rest => by
        rw [afterUrl, if_neg hc, if_pos hclose, List.nil_append]
    by_cases hbad : isNonPrintable c || c == '"' || c == '\'' || c == '('
    · exact (local_afterBadUrl a n).congr fun rest => by
        rw [afterUrl, if_neg hc, if_neg hclose, if_pos hbad]
    by_cases hescape : c = '\\'
    · have hchar := (local_escape n).andThen ih (fun _ a => a) escape_suffix afterUrl_suffix
      refine ((local_afterBadUrl a n).ite sees_startsNewline hchar).congr fun rest => ?_
      rw [afterUrl, if_neg hc, if_neg hclose, if_neg hbad, if_pos hescape, apply_ite (Prod.mk a)]
    · exact ih.congr fun rest => by
        rw [afterUrl, if_neg hc, if_neg hclose, if_neg hbad, if_neg hescape]

/-! ## Numbers -/

theorem sees_startsDigit : Sees startsDigit := sees_head fun first => first.any Char.isDigit

theorem sees_startsUnsigned : Sees startsUnsigned := by
  intro w hw p t t'
  cases p with
  | nil => rcases isBoundary_iff.1 hw with rfl | rfl | rfl | rfl | rfl | rfl | rfl | rfl <;> rfl
  | cons c p =>
    by_cases hc : c = '.'
    · subst hc
      exact sees_startsDigit hw p t t'
    · simp [startsUnsigned, startsDigit, hc]

theorem sees_startsNumber : Sees startsNumber := by
  intro w hw p t t'
  cases p with
  | nil => rcases isBoundary_iff.1 hw with rfl | rfl | rfl | rfl | rfl | rfl | rfl | rfl <;> rfl
  | cons c p =>
    by_cases hplus : c = '+'
    · subst hplus
      exact sees_startsUnsigned hw p t t'
    · by_cases hminus : c = '-'
      · subst hminus
        exact sees_startsUnsigned hw p t t'
      · simpa [startsNumber, hplus, hminus] using sees_startsUnsigned hw (c :: p) t t'

theorem dropSign_separated (hw : isBoundary w) (p t : List Char) :
    dropSign (p ++ w :: t) = dropSign p ++ w :: t := by
  cases p with
  | nil => rcases isBoundary_iff.1 hw with rfl | rfl | rfl | rfl | rfl | rfl | rfl | rfl <;> rfl
  | cons c p =>
    rw [List.cons_append]
    unfold dropSign
    split <;> simp_all

theorem dropDigits_separated (hw : isBoundary w) (p t : List Char) :
    dropDigits (p ++ w :: t) = dropDigits p ++ w :: t := by
  induction p with
  | nil => exact List.dropWhile_cons_of_neg (by simp [isDigit_of_isBoundary hw])
  | cons c p ih =>
    rw [dropDigits, dropDigits, List.cons_append, List.dropWhile_cons, List.dropWhile_cons]
    split
    · exact ih
    · rfl

theorem startsDigit_separated (hw : isBoundary w) (p t : List Char) :
    startsDigit (p ++ w :: t) = startsDigit p := by
  cases p with
  | nil => exact isDigit_of_isBoundary hw
  | cons => rfl

theorem dropFraction_separated (hw : isBoundary w) (p t : List Char) :
    dropFraction (p ++ w :: t) = dropFraction p ++ w :: t := by
  cases p with
  | nil => rcases isBoundary_iff.1 hw with rfl | rfl | rfl | rfl | rfl | rfl | rfl | rfl <;> rfl
  | cons c p =>
    by_cases hc : c = '.'
    · subst hc
      simp only [List.cons_append, dropFraction, startsDigit_separated hw, dropDigits_separated hw]
      split <;> rfl
    · simp [dropFraction, hc]

theorem dropExponent_separated (hw : isBoundary w) (p t : List Char) :
    dropExponent (p ++ w :: t) = dropExponent p ++ w :: t := by
  cases p with
  | nil => rcases isBoundary_iff.1 hw with rfl | rfl | rfl | rfl | rfl | rfl | rfl | rfl <;> rfl
  | cons c p =>
    simp only [List.cons_append, dropExponent, dropSign_separated hw, startsDigit_separated hw,
      dropDigits_separated hw]
    split <;> rfl

theorem dropUnit_eq (s : List Char) : dropUnit s
    = if s.head? == some '%' then s.tail else if startsName s then (name s).2 else s := by
  unfold dropUnit
  split
  · rfl
  · next hpercent =>
    cases s with
    | nil => rfl
    | cons c s =>
      have hc : ((c :: s).head? == some '%') = false := by
        simp only [List.head?_cons, beq_eq_false_iff_ne, ne_eq, Option.some.injEq]
        exact fun hc => hpercent s (by rw [hc])
      rw [hc]
      rfl

theorem local_dropUnit (a : α) : Local fun s => (a, dropUnit s) := by
  intro n
  have hname := ((local_name n).map fun _ => a).ite sees_startsName (LocalUpTo.keep a [])
  refine ((LocalUpTo.tail a).ite (sees_head (· == some '%')) hname).congr fun s => ?_
  rw [dropUnit_eq, apply_ite (Prod.mk a), apply_ite (Prod.mk a), List.nil_append]

theorem local_afterNumber (a : α) : Local fun s => (a, afterNumber s) := by
  intro n w hw p t _ h
  simp only [afterNumber, dropSign_separated hw, dropDigits_separated hw, dropFraction_separated hw,
    dropExponent_separated hw] at h ⊢
  exact (local_dropUnit a).separated hw h

/-! ## Tokens -/

theorem local_hashToken : Local hashToken := by
  have htest : Sees fun s => startsName s || startsDigit s || s.head? == some '-' := by
    intro w hw p t t'
    have hdash : ((p ++ w :: t').head? == some '-') = ((p ++ w :: t).head? == some '-') := by
      cases p <;> rfl
    simp only [sees_startsName hw p t t', sees_startsDigit hw p t t', hdash]
  exact fun n => ((local_name n).map fun _ => Token.other).ite htest (.keep _ [])

theorem local_atToken : Local atToken :=
  fun n => ((local_name n).map fun spelled => Token.atKeyword (String.ofList spelled)).ite
    sees_startsName (.keep _ [])

theorem isPrefixOf_separated (hw : isBoundary w) (start : List Char)
    (hstart : start.all (!isBoundary ·)) (p t : List Char) :
    start.isPrefixOf (p ++ w :: t) = start.isPrefixOf p := by
  induction p generalizing start with
  | nil =>
    cases start with
    | nil => rfl
    | cons c start =>
      have hne : w ≠ c := ne_of_isBoundary hw (by simp_all)
      simp [List.isPrefixOf, hne.symm]
  | cons d p ih =>
    cases start with
    | nil => rfl
    | cons c start =>
      rw [List.all_cons, Bool.and_eq_true] at hstart
      rw [List.cons_append, List.isPrefixOf, List.isPrefixOf, ih start hstart.2]

theorem local_signToken (c : Char) : Local (signToken c) := by
  intro n w hw p t _ h
  have harrow (t : List Char) := isPrefixOf_separated hw ['-', '>'] rfl p t
  have hopening (t : List Char) := isPrefixOf_separated hw ['!', '-', '-'] rfl p t
  have hcomment (t : List Char) := isPrefixOf_separated hw ['*'] rfl p t
  simp only [signToken_eq, harrow, hopening, hcomment] at h ⊢
  by_cases hfirst : c = '-' ∧ ['-', '>'].isPrefixOf p
  · obtain ⟨p, rfl⟩ := List.isPrefixOf_iff_prefix.1 hfirst.2
    exact ⟨.other, p, fun t' => if_pos hfirst⟩
  by_cases hsecond : c = '<' ∧ ['!', '-', '-'].isPrefixOf p
  · obtain ⟨p, rfl⟩ := List.isPrefixOf_iff_prefix.1 hsecond.2
    exact ⟨.other, p, fun t' => by rw [if_neg hfirst, if_pos hsecond]; rfl⟩
  by_cases hthird : c = '/' ∧ ['*'].isPrefixOf p
  · simp only [if_neg hfirst, if_neg hsecond, if_pos hthird] at h ⊢
    obtain ⟨p, rfl⟩ := List.isPrefixOf_iff_prefix.1 hthird.2
    exact (local_afterComment _).separated hw h
  · exact ⟨.other, p, fun t' => by rw [if_neg hfirst, if_neg hsecond, if_neg hthird]⟩

/-- What stands in a parenthesis is looked at only if it may be a url. -/
theorem parenToken_separated (hw : isBoundary w) {identifier : List Char}
    (hleft : w :: t <:+ (parenToken identifier (p ++ w :: t)).2)
    (hurl : isSpace w → ∀ q, parenToken identifier (p ++ w :: t) = (.opening .round, q ++ w :: t) →
      ¬ q.all isSpace) :
    ∃ kind q, ∀ t', parenToken identifier (p ++ w :: t') = (kind, q ++ w :: t') := by
  unfold parenToken at *
  cases hname : isUrlName identifier with
  | false => exact ⟨.opening .round, p, fun t' => rfl⟩
  | true =>
    simp only [hname, Bool.true_and] at hleft hurl ⊢
    by_cases hblank : p.all isSpace
    · have hdrop : (p ++ w :: t).dropWhile isSpace = (w :: t).dropWhile isSpace :=
        List.dropWhile_append_of_pos (List.all_eq_true.1 hblank)
      cases hquoted : startsQuotedUrl (p ++ w :: t) with
      | true =>
        by_cases hspace : isSpace w
        · exact absurd hblank (hurl hspace p (by rw [hquoted]; rfl))
        · rw [startsQuotedUrl, hdrop, List.dropWhile_cons_of_neg hspace] at hquoted
          simp [ne_of_isBoundary hw (show isBoundary '"' = false from rfl),
            ne_of_isBoundary hw (show isBoundary '\'' = false from rfl)] at hquoted
      | false =>
        simp only [hquoted] at hleft
        refine (not_suffix_of_suffix hleft ?_).elim
        by_cases hspace : isSpace w
        · rw [hdrop, List.dropWhile_cons_of_pos hspace]
          exact (afterUrl_suffix _).trans (List.dropWhile_suffix _)
        · rw [hdrop, List.dropWhile_cons_of_neg hspace]
          exact afterUrl_suffix_tail w t
    · have hinside : p.dropWhile isSpace ≠ [] :=
        fun hnone => hblank (List.all_eq_true.2 (List.dropWhile_eq_nil_iff.1 hnone))
      simp only [startsQuotedUrl_append hinside] at hleft ⊢
      cases hquoted : startsQuotedUrl p with
      | true => exact ⟨.opening .round, p, fun t' => rfl⟩
      | false =>
        simp only [hquoted] at hleft
        exact (local_dropWhile Token.other isSpace p.length).andThen
          (local_afterUrl Token.other p.length) (fun _ kind => kind)
          (fun _ => List.dropWhile_suffix _) afterUrl_suffix hw (Nat.le_refl _) hleft

theorem parenToken_suffix (identifier inside : List Char) :
    (parenToken identifier inside).2 <:+ inside := by
  unfold parenToken
  split
  · exact (afterUrl_suffix _).trans (List.dropWhile_suffix _)
  · exact List.suffix_refl _

theorem nameToken_suffix_name (s : List Char) : (nameToken s).2 <:+ (name s).2 := by
  match hname : name s with
  | (identifier, after) =>
    by_cases hparen : after.head? = some '('
    · obtain ⟨inside, rfl⟩ := List.head?_eq_some_iff.1 hparen
      rw [nameToken_of_paren hname]
      exact (parenToken_suffix identifier inside).trans (List.suffix_cons _ _)
    · have htoken : (nameToken s).2 = after := congrArg Prod.snd (nameToken_of_ne hname hparen)
      exact htoken.symm ▸ List.suffix_refl after

theorem nameToken_separated (hw : isBoundary w) (hleft : w :: t <:+ (nameToken (p ++ w :: t)).2)
    (hurl : isSpace w → ∀ q, nameToken (p ++ w :: t) = (.opening .round, q ++ w :: t) →
      ¬ q.all isSpace) :
    ∃ kind q, ∀ t', nameToken (p ++ w :: t') = (kind, q ++ w :: t') := by
  obtain ⟨identifier, q, hname⟩ := local_name.separated hw (hleft.trans (nameToken_suffix_name _))
  by_cases hparen : q.head? = some '('
  · obtain ⟨q, rfl⟩ := List.head?_eq_some_iff.1 hparen
    have htoken (t' : List Char) := nameToken_of_paren (hname t')
    simp only [htoken] at hleft hurl ⊢
    exact parenToken_separated hw hleft hurl
  · refine ⟨.other, q, fun t' => nameToken_of_ne (hname t') ?_⟩
    cases q with
    | nil => exact fun heq => absurd (Option.some.inj heq) (ne_of_isBoundary hw rfl)
    | cons c q => exact hparen

theorem wordToken_separated (hw : isBoundary w) (hleft : w :: t <:+ (wordToken c (p ++ w :: t)).2)
    (hurl : isSpace w → ∀ q, wordToken c (p ++ w :: t) = (.opening .round, q ++ w :: t) →
      ¬ q.all isSpace) :
    ∃ kind q, ∀ t', wordToken c (p ++ w :: t') = (kind, q ++ w :: t') := by
  have harrow (t : List Char) := isPrefixOf_separated hw ['-', '>'] rfl p t
  simp only [wordToken, harrow, ← List.cons_append, sees_startsNumber hw (c :: p) t,
    sees_startsName hw (c :: p) t] at hleft hurl ⊢
  by_cases hnumber : startsNumber (c :: p ++ w :: t)
  · simp only [hnumber, if_true] at hleft ⊢
    exact (local_afterNumber _).separated hw hleft
  by_cases hsign : c = '-' ∧ ['-', '>'].isPrefixOf p
  · simp only [if_neg hnumber, if_pos hsign] at hleft ⊢
    exact (local_signToken c).separated hw hleft
  by_cases hletter : startsName (c :: p ++ w :: t)
  · simp only [if_neg hnumber, if_neg hsign, if_pos hletter] at hleft hurl ⊢
    exact nameToken_separated hw hleft hurl
  · simp only [if_neg hnumber, if_neg hsign, if_neg hletter] at hleft ⊢
    exact (local_signToken c).separated hw hleft

/-- The first character of a token says what else is read of it. -/
theorem token_cases (c : Char) :
    (∃ kind, ∀ rest, token c rest = (kind, rest)) ∨
      (∃ quote, isBoundary quote = false ∧
        ∀ rest, token c rest = (.other, afterString quote rest)) ∨
      (∀ rest, token c rest = hashToken rest) ∨ (∀ rest, token c rest = atToken rest) ∨
      ∀ rest, token c rest = wordToken c rest := by
  unfold token
  by_cases hspace : isSpace c
  · exact .inl ⟨.blank, fun rest => if_pos hspace⟩
  simp only [if_neg hspace]
  split
  iterate 7 exact .inl ⟨_, fun _ => rfl⟩
  · exact .inr (.inl ⟨'"', rfl, fun _ => rfl⟩)
  · exact .inr (.inl ⟨'\'', rfl, fun _ => rfl⟩)
  · exact .inr (.inr (.inl fun _ => rfl))
  · exact .inr (.inr (.inr (.inl fun _ => rfl)))
  · exact .inr (.inr (.inr (.inr fun _ => rfl)))

/-- **A token that ends before a boundary** is the same whatever comes behind the boundary. The only
exception is `url(` when there are nothing but blanks up to a separator. -/
theorem token_separated (hw : isBoundary w) (hleft : w :: t <:+ (token c (p ++ w :: t)).2)
    (hurl : isSpace w → ∀ q, token c (p ++ w :: t) = (.opening .round, q ++ w :: t) →
      ¬ q.all isSpace) :
    ∃ kind q, ∀ t', token c (p ++ w :: t') = (kind, q ++ w :: t') := by
  rcases token_cases c with ⟨kind, h⟩ | ⟨quote, hquote, h⟩ | h | h | h <;>
    simp only [h] at hleft hurl ⊢
  · exact ⟨kind, p, fun _ => rfl⟩
  · exact (local_afterString _ hquote).separated hw hleft
  · exact local_hashToken.separated hw hleft
  · exact local_atToken.separated hw hleft
  · exact wordToken_separated hw hleft hurl

end Stylesheet
end ScopedCss
