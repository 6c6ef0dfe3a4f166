import ScopedCss.Proofs.Stylesheet.Items
import ScopedCss.Proofs.Stylesheet.Closed
import ScopedCss.Proofs.Stylesheet.Separator

/-!
# Items before a separator

A reader of items goes over tokens up to some character and stops there. If this is before a
separator, then every token on the way ends before the separator too, so that neither the tokens nor
the place where the reader stops depend on what comes behind the separator.

* `StopsShort` says this of a reader. It holds of `skipBlanks`, of `untilClose` and of `untilBody`.
* `Splits` says of a text that it is cut into tokens up to the separator after it. Such a text
  leaves the same blocks open whatever comes behind the separator (`Splits.untilClose_eq`).
* `InPrelude` says of a place that it stands in a prelude, outside all brackets.
-/

namespace ScopedCss
namespace Stylesheet

variable {w c d : Char} {p q r s t x rest : List Char} {f : List Char → List Char} {kind : Token}
  {blocks : List Bracket}

/-- Up to the separator after it, a text is cut into tokens that do not depend on what comes behind
the separator. -/
inductive Splits (w : Char) : List Char → Prop
  | nil : Splits w []
  | cons {c : Char} {kind : Token} {p q : List Char}
      (first : ∀ t, token c (p ++ w :: t) = (kind, q ++ w :: t)) (rest : Splits w q) :
      Splits w (c :: p)

/-- A reader that stops at a character before a separator. What comes behind the separator does not
matter to it, and up to where it stops the text is cut into tokens. -/
def StopsShort (f : List Char → List Char) : Prop :=
  ∀ ⦃w⦄, isSpace w → ∀ ⦃p c x t⦄, isSpace c = false → f (p ++ w :: t) = c :: x ++ w :: t →
    (∀ t', f (p ++ w :: t') = c :: x ++ w :: t') ∧ (Splits w (c :: x) → Splits w p)

/-! ## Kinds of tokens -/

theorem wordToken_kind (c : Char) (rest : List Char) : (wordToken c rest).1 = .other ∨
    (wordToken c rest).1 = .opening .round ∨
    (wordToken c rest).1 = .blank ∧ c = '/' ∧ rest.head? = some '*' := by
  have hsign : (signToken c rest).1 = .other ∨
      (signToken c rest).1 = .blank ∧ c = '/' ∧ rest.head? = some '*' := by
    unfold signToken
    split
    · exact .inl rfl
    · exact .inl rfl
    · exact .inr ⟨rfl, rfl, rfl⟩
    · exact .inl rfl
  unfold wordToken
  split
  · exact .inl rfl
  · split
    · exact hsign.imp id .inr
    · split
      · unfold nameToken
        split
        · split
          · exact .inl rfl
          · exact .inr (.inl rfl)
        · exact .inl rfl
      · exact hsign.imp id .inr

theorem token_comment (rest : List Char) :
    token '/' ('*' :: rest) = (.blank, afterComment rest) := rfl

/-- Only separators and comments are blank. -/
theorem token_eq_blank (h : (token c rest).1 = .blank) :
    isSpace c ∨ c = '/' ∧ rest.head? = some '*' := by
  by_cases hspace : isSpace c
  · exact .inl hspace
  unfold token at h
  rw [if_neg hspace] at h
  split at h
  iterate 9 cases h
  · unfold hashToken at h
    split at h <;> cases h
  · unfold atToken at h
    split at h <;> cases h
  · rcases wordToken_kind c rest with hkind | hkind | ⟨-, hcomment⟩
    · cases hkind.symm.trans h
    · cases hkind.symm.trans h
    · exact .inr hcomment

theorem token_eq_atKeyword {keyword : String} (h : (token c rest).1 = .atKeyword keyword) :
    c = '@' ∧ startsName rest := by
  unfold token at h
  split at h
  · cases h
  split at h
  iterate 9 cases h
  · unfold hashToken at h
    split at h <;> cases h
  · unfold atToken at h
    split at h
    · next hname => exact ⟨rfl, hname⟩
    · cases h
  · rcases wordToken_kind c rest with hkind | hkind | ⟨hkind, -⟩ <;> cases hkind.symm.trans h

/-! ## Single tokens -/

/-- A token before the character at which a reader stops short. -/
theorem token_stopsShort (hw : isSpace w) (hc : isSpace c = false)
    (h : c :: x ++ w :: t <:+ (token d (p ++ w :: t)).2) :
    ∃ kind q, q <:+ p ∧ ∀ t', token d (p ++ w :: t') = (kind, q ++ w :: t') := by
  have hleft : w :: t <:+ (token d (p ++ w :: t)).2 := (List.suffix_append _ _).trans h
  obtain ⟨kind, q, hq⟩ := token_separated (isBoundary_of_isSpace hw) hleft fun _ q hq hblank => by
    rw [hq, List.suffix_append_self_iff] at h
    cases hc.symm.trans (List.all_eq_true.1 hblank c (h.subset List.mem_cons_self))
  refine ⟨kind, q, ?_, hq⟩
  have hsuffix := token_suffix d (p ++ w :: t)
  rwa [hq, List.suffix_append_self_iff] at hsuffix

/-- A reader that stops short does not stop at the separator. -/
theorem ne_nil_of_stopsShort (hsuffix : ∀ s, f s <:+ s) (h : f (p ++ w :: t) = c :: x ++ w :: t) :
    ∃ d q, p = d :: q := by
  cases p with
  | nil =>
    have hlength := (h ▸ hsuffix ([] ++ w :: t)).length_le
    simp at hlength
    omega
  | cons d q => exact ⟨d, q, rfl⟩

/-! ## Blanks and blocks -/

theorem skipBlanks_stopsShort : StopsShort skipBlanks := by
  intro w hw p c x t hc h
  generalize hn : p.length = n
  induction n using Nat.strongRecOn generalizing p with
  | ind n ih =>
    subst hn
    obtain ⟨d, p, rfl⟩ := ne_nil_of_stopsShort skipBlanks_suffix h
    rw [List.cons_append, skipBlanks] at h
    split at h
    · next hblank =>
      obtain ⟨kind, q, hqp, hq⟩ := token_stopsShort hw hc (h ▸ skipBlanks_suffix _)
      rw [hq] at h hblank
      obtain ⟨hsame, hsplits⟩ := ih q.length (Nat.lt_succ_of_le hqp.length_le) h rfl
      refine ⟨fun t' => ?_, fun hsplit => .cons hq (hsplits hsplit)⟩
      rw [List.cons_append, skipBlanks, hq, if_pos hblank, hsame]
    · next hblank =>
      obtain ⟨rfl, hp⟩ := List.cons.inj h
      obtain rfl := List.append_cancel_right hp
      refine ⟨fun t' => ?_, id⟩
      rw [List.cons_append, skipBlanks, if_neg]
      intro hblank'
      apply hblank
      rcases token_eq_blank hblank' with hspace | ⟨rfl, hstar⟩
      · cases hc.symm.trans hspace
      · cases p with
        | nil =>
          obtain rfl : w = '*' := Option.some.inj hstar
          cases hw
        | cons e p =>
          cases hstar
          rfl

/-- The open blocks after a token. -/
def blocksAfter (blocks : List Bracket) : Token → List Bracket
  | .opening bracket => bracket :: blocks
  | .closing bracket => if blocks.head? = some bracket then blocks.tail else blocks
  | _ => blocks

/-- The token closes the outermost of the open blocks. -/
def closesOutermost (blocks : List Bracket) : Token → Bool
  | .closing bracket => blocks = [bracket]
  | _ => false

theorem closing_of_closesOutermost (h : closesOutermost blocks kind) :
    ∃ bracket, kind = .closing bracket := by
  unfold closesOutermost at h
  split at h
  · exact ⟨_, rfl⟩
  · cases h

theorem untilClose_cons (blocks : List Bracket) (c : Char) (rest : List Char) :
    untilClose blocks (c :: rest) =
      if closesOutermost blocks (token c rest).1 then c :: rest
      else untilClose (blocksAfter blocks (token c rest).1) (token c rest).2 := by
  cases hkind : (token c rest).1 with
  | opening bracket => exact untilClose_of_opening hkind
  | closing bracket =>
    rw [untilClose_of_closing hkind]
    simp only [closesOutermost, blocksAfter, decide_eq_true_eq]
    split
    · rfl
    · split <;> rfl
  | blank | semicolon | other | atKeyword => exact untilClose_of_other hkind (by simp) (by simp)

/-- A closing bracket is one, whatever comes after it. -/
theorem token_of_closing {bracket : Bracket} (h : (token c rest).1 = .closing bracket)
    (s : List Char) :
    token c s = (.closing bracket, s) := by
  cases bracket <;> obtain ⟨rfl, -⟩ := token_of_mark? (congrArg Token.mark? h) <;> rfl

/-- Where a block is closed, there is a closing bracket. -/
theorem untilClose_cases (blocks : List Bracket) (s : List Char) : untilClose blocks s = [] ∨
    ∃ c rest bracket, untilClose blocks s = c :: rest ∧ isSpace c = false ∧
      ∀ t, token c t = (.closing bracket, t) := by
  fun_induction untilClose blocks s with
  | case1 => exact .inl rfl
  | case3 c rest bracket hkind =>
    have htoken := token_of_closing hkind
    refine .inr ⟨c, rest, bracket, rfl, ?_, htoken⟩
    by_contra hspace
    cases (htoken []).symm.trans (token_space (by simpa using hspace) [])
  | case2 _ _ _ _ _ ih => exact ih
  | case4 _ _ _ _ _ _ _ ih => exact ih
  | case5 _ _ _ _ _ _ _ ih => exact ih
  | case6 _ _ _ _ _ ih => exact ih

theorem untilClose_stopsShort (blocks : List Bracket) : StopsShort (untilClose blocks) := by
  intro w hw p c x t hc h
  generalize hn : p.length = n
  induction n using Nat.strongRecOn generalizing p blocks with
  | ind n ih =>
    subst hn
    obtain ⟨d, p, rfl⟩ := ne_nil_of_stopsShort (untilClose_suffix blocks) h
    rw [List.cons_append, untilClose_cons] at h
    split at h
    · next hcloses =>
      obtain ⟨rfl, hp⟩ := List.cons.inj h
      obtain rfl := List.append_cancel_right hp
      refine ⟨fun t' => ?_, id⟩
      obtain ⟨bracket, hkind⟩ := closing_of_closesOutermost hcloses
      rw [hkind] at hcloses
      rw [List.cons_append, untilClose_cons, token_of_closing hkind, if_pos hcloses]
    · next hcloses =>
      obtain ⟨kind, q, hqp, hq⟩ := token_stopsShort hw hc (h ▸ untilClose_suffix _ _)
      rw [hq] at h hcloses
      obtain ⟨hsame, hsplits⟩ := ih q.length (Nat.lt_succ_of_le hqp.length_le) _ h rfl
      refine ⟨fun t' => ?_, fun hsplit => .cons hq (hsplits hsplit)⟩
      rw [List.cons_append, untilClose_cons, hq, if_neg hcloses, hsame]

/-! ## Preludes -/

/-- The text after a token, and after what it opens, if it opens something. -/
def afterGroup (c : Char) (rest : List Char) : List Char :=
  match (token c rest).1 with
  | .opening bracket => (untilClose [bracket] (token c rest).2).tail
  | _ => (token c rest).2

/-- The token ends a prelude. -/
def Token.endsPrelude : Token → Bool
  | .semicolon | .opening .curly => true
  | _ => false

/-- From the text `s`, which begins in a prelude, the text `t` is reached without leaving the
prelude: it stands in no bracket, and at the beginning of a token. -/
inductive InPrelude (t : List Char) : List Char → Prop
  | here : InPrelude t t
  | past {c : Char} {rest s : List Char} (inside : (token c rest).1.endsPrelude = false)
      (after : afterGroup c rest = s) (h : InPrelude t s) : InPrelude t (c :: rest)

theorem untilBody_cons (c : Char) (rest : List Char) : untilBody (c :: rest) =
    if (token c rest).1.endsPrelude then c :: rest else untilBody (afterGroup c rest) := by
  unfold afterGroup
  cases hkind : (token c rest).1 with
  | opening bracket =>
    cases bracket with
    | curly =>
      rw [untilBody, hkind]
      rfl
    | round | square => exact untilBody_of_opening hkind (by simp)
  | semicolon =>
    rw [untilBody, hkind]
    rfl
  | blank | closing | other | atKeyword => exact untilBody_of_other hkind (by simp) (by simp)

/-- What ends a prelude does so whatever comes after it. -/
theorem kind_of_endsPrelude (h : (token c rest).1.endsPrelude) (s : List Char) :
    (token c s).1 = (token c rest).1 := by
  unfold Token.endsPrelude at h
  split at h
  · next hkind =>
    obtain ⟨rfl, -⟩ := token_of_mark? (congrArg Token.mark? hkind)
    rfl
  · next hkind =>
    obtain ⟨rfl, -⟩ := token_of_mark? (congrArg Token.mark? hkind)
    rfl
  · cases h

theorem afterGroup_suffix (c : Char) (rest : List Char) : afterGroup c rest <:+ rest := by
  unfold afterGroup
  split
  · exact ((List.tail_suffix _).trans (untilClose_suffix _ _)).trans (token_suffix c rest)
  · exact token_suffix c rest

theorem InPrelude.suffix (h : InPrelude t s) : t <:+ s := by
  induction h with
  | here => exact List.suffix_refl _
  | past _ after _ ih =>
    exact (ih.trans (after ▸ afterGroup_suffix _ _)).trans (List.suffix_cons _ _)

theorem InPrelude.untilBody_eq (h : InPrelude t s) : untilBody s = untilBody t := by
  induction h with
  | here => rfl
  | past inside after _ ih => rw [untilBody_cons, inside, if_neg Bool.false_ne_true, after, ih]

/-- A token before a separator, together with what it opens. -/
theorem afterGroup_separated (hw : isSpace w) (h : afterGroup d (p ++ w :: t) = q ++ w :: t) :
    (∀ t', (token d (p ++ w :: t')).1 = (token d (p ++ w :: t)).1) ∧
      (∀ t', afterGroup d (p ++ w :: t') = q ++ w :: t') ∧ (Splits w q → Splits w (d :: p)) := by
  unfold afterGroup at h ⊢
  split at h
  · next bracket hkind =>
    rcases untilClose_cases [bracket] (token d (p ++ w :: t)).2 with
      hnone | ⟨c, rest, closing, hclose, hc, htoken⟩
    · rw [hnone] at h
      cases q <;> cases h
    · rw [hclose, List.tail_cons] at h
      subst h
      rw [← List.cons_append] at hclose
      obtain ⟨kind, x, hx, hq⟩ := token_stopsShort hw hc (hclose ▸ untilClose_suffix _ _)
      rw [hq] at hclose hkind
      obtain rfl : kind = .opening bracket := hkind
      obtain ⟨hsame, hsplits⟩ := untilClose_stopsShort _ hw hc hclose
      simp only [hq, hsame]
      exact ⟨fun _ => trivial, fun _ => rfl,
        fun hsplit => .cons hq (hsplits (.cons (fun t => htoken _) hsplit))⟩
  · next hkind =>
    obtain ⟨kind, x, hx⟩ := token_separated (isBoundary_of_isSpace hw) (h ▸ List.suffix_append _ _)
      fun _ x hx => (hkind .round (congrArg Prod.fst hx)).elim
    rw [hx] at h hkind
    obtain rfl := List.append_cancel_right h
    simp only [hx]
    exact ⟨fun _ => trivial, fun _ => trivial, fun hsplit => .cons hx hsplit⟩

theorem untilBody_stopsShort : StopsShort untilBody := by
  intro w hw p c x t hc h
  generalize hn : p.length = n
  induction n using Nat.strongRecOn generalizing p with
  | ind n ih =>
    subst hn
    obtain ⟨d, p, rfl⟩ := ne_nil_of_stopsShort untilBody_suffix h
    rw [List.cons_append, untilBody_cons] at h
    split at h
    · next hends =>
      obtain ⟨rfl, hp⟩ := List.cons.inj h
      obtain rfl := List.append_cancel_right hp
      refine ⟨fun t' => ?_, id⟩
      rw [List.cons_append, untilBody_cons, kind_of_endsPrelude hends, if_pos hends]
    · next hends =>
      have hsuffix := h ▸ untilBody_suffix _
      obtain ⟨q, hq⟩ : ∃ q, afterGroup d (p ++ w :: t) = q ++ w :: t := by
        obtain ⟨y, hy⟩ := (List.suffix_append _ _).trans hsuffix
        exact ⟨y, hy.symm⟩
      obtain ⟨hkind, hgroup, hsplits⟩ := afterGroup_separated hw hq
      have hshorter : q.length ≤ p.length := by
        have hle := (afterGroup_suffix d (p ++ w :: t)).length_le
        rw [hq] at hle
        simpa using hle
      rw [hq] at h
      obtain ⟨hsame, hsplits'⟩ := ih q.length (Nat.lt_succ_of_le hshorter) h rfl
      refine ⟨fun t' => ?_, fun hsplit => hsplits (hsplits' hsplit)⟩
      rw [List.cons_append, untilBody_cons, hkind, if_neg hends, hgroup, hsame]

/-- Whether a place before a separator is in the prelude shows before the separator. -/
theorem InPrelude.separated (hw : isSpace w) (h : InPrelude (w :: t) (p ++ w :: t)) :
    (∀ t', InPrelude (w :: t') (p ++ w :: t')) ∧ Splits w p := by
  generalize hs : p ++ w :: t = s at h
  induction h generalizing p with
  | here =>
    obtain rfl : p = [] := List.append_cancel_right (hs.trans (List.nil_append _).symm)
    exact ⟨fun _ => .here, .nil⟩
  | @past c rest s inside after h ih =>
    rcases List.append_eq_cons_iff.1 hs with ⟨rfl, heq⟩ | ⟨p, rfl, rfl⟩
    · cases heq
      exact (not_suffix_of_suffix h.suffix (after ▸ afterGroup_suffix w t)).elim
    · obtain ⟨q, hq⟩ := h.suffix
      obtain ⟨hkind, hgroup, hsplits⟩ := afterGroup_separated hw (after.trans hq.symm)
      obtain ⟨hsame, hsplit⟩ := ih hq
      exact ⟨fun t' => .past (hkind t' ▸ inside) (hgroup t') (hsame t'), hsplits hsplit⟩

theorem splitKeyword_of_atKeyword {keyword : String} (h : token c rest = (.atKeyword keyword, s)) :
    splitKeyword (c :: rest) = (some keyword, s) := by
  rw [splitKeyword, h]

theorem splitKeyword_of_ne (h : ∀ keyword, (token c rest).1 ≠ .atKeyword keyword) :
    splitKeyword (c :: rest) = (none, c :: rest) := by
  rw [splitKeyword]
  split
  · next heq => exact absurd (congrArg Prod.fst heq) (h _)
  · rfl

/-- An at-keyword that ends before a separator is the same whatever comes behind the separator. -/
theorem splitKeyword_separated (hw : isSpace w) (h : w :: t <:+ (splitKeyword (p ++ w :: t)).2) :
    ∃ keyword q, (∀ t', splitKeyword (p ++ w :: t') = (keyword, q ++ w :: t')) ∧
      (Splits w q → Splits w p) := by
  cases p with
  | nil =>
    refine ⟨none, [], fun t' => splitKeyword_of_ne fun keyword => ?_, id⟩
    rw [token_space hw]
    nofun
  | cons c p =>
    by_cases hkeyword : ∃ keyword, (token c (p ++ w :: t)).1 = .atKeyword keyword
    · obtain ⟨keyword, hkind⟩ := hkeyword
      rw [List.cons_append, splitKeyword_of_atKeyword (Prod.ext hkind rfl)] at h
      obtain ⟨kind, q, hq⟩ := token_separated (isBoundary_of_isSpace hw) h fun _ q hq => by
        rw [hq] at hkind
        cases hkind
      rw [hq] at hkind
      obtain rfl : kind = .atKeyword keyword := hkind
      exact ⟨some keyword, q, fun t' => splitKeyword_of_atKeyword (hq t'), .cons hq⟩
    · refine ⟨none, c :: p, fun t' => splitKeyword_of_ne fun keyword hkind => hkeyword ?_, id⟩
      -- whether a name follows the at sign shows before the separator
      obtain ⟨rfl, hname⟩ := token_eq_atKeyword hkind
      have hname' : startsName (p ++ w :: t) :=
        (sees_startsName (isBoundary_of_isSpace hw) p t' t).trans hname
      exact ⟨_, congrArg Prod.fst (if_pos hname' : atToken (p ++ w :: t) = _)⟩

/-! ## Blocks around a separator -/

/-- Where a text is cut into tokens up to a separator, a block is either closed before it, or it
goes on behind it with the same open blocks. -/
theorem Splits.untilClose_eq (hw : isSpace w) (h : Splits w p) (blocks : List Bracket) :
    (∃ q, ∀ t, untilClose blocks (p ++ w :: t) = q ++ w :: t) ∨
      ∃ blocks', ∀ t, untilClose blocks (p ++ w :: t) = untilClose blocks' t := by
  induction h generalizing blocks with
  | nil => exact .inr ⟨blocks, untilClose_space hw blocks⟩
  | @cons c kind p q first _ ih =>
    simp only [List.cons_append, untilClose_cons, first]
    by_cases hcloses : closesOutermost blocks kind
    · exact .inl ⟨c :: p, fun t => if_pos hcloses⟩
    · simp only [if_neg hcloses]
      exact ih (blocksAfter blocks kind)

end Stylesheet
end ScopedCss
