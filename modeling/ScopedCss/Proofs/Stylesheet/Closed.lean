import ScopedCss.Proofs.Stylesheet.Token
import ScopedCss.Stylesheet.Block

/-!
# Closed texts

A text is *closed* if it leaves nothing open when it is read on its own, and has no semicolon and no
brace outside of the blocks in it. Whatever reads a stylesheet passes over a closed text as a whole
and goes on with the text that follows.

* `isClosed` says that a text is closed.
* `untilBody_cases` says where a prelude ends.
* `untilBody_append`, `untilClose_append`: the end of a prelude, and of a block, is not found before
  the end of a closed text.
-/

namespace ScopedCss
namespace Stylesheet

/-- Read inside these open blocks, which are listed from the inside, the text closes all of them and
has whole tokens only; outside of all blocks there is neither a semicolon nor a brace. -/
def closesAll : List Bracket → List Char → Bool
  | blocks, [] => blocks.isEmpty
  | blocks, c :: rest =>
    if isWhole c rest then
      match (token c rest).1 with
      | .opening bracket =>
        (!blocks.isEmpty || bracket != .curly) && closesAll (bracket :: blocks) (token c rest).2
      | .closing bracket =>
        if blocks.head? = some bracket then closesAll blocks.tail (token c rest).2
        else (!blocks.isEmpty || bracket != .curly) && closesAll blocks (token c rest).2
      | .semicolon => !blocks.isEmpty && closesAll blocks (token c rest).2
      | _ => closesAll blocks (token c rest).2
    else false
termination_by _ s => s.length
decreasing_by all_goals exact length_token_lt c rest

/-- The text leaves nothing open, a backslash at its end included, and has neither a semicolon nor a
brace outside of the blocks in it. -/
def isClosed (s : List Char) : Bool := closesAll [] s && s.getLast? != some '\\'

variable {c : Char} {s rest more left left' : List Char} {blocks outer : List Bracket}

theorem isClosed_iff : isClosed s ↔ closesAll [] s ∧ EndsPlain s := by
  simp [isClosed, EndsPlain]

/-! ## Marks -/

/-- The character that is a token of this kind on its own. -/
def Token.mark? : Token → Option Char
  | .semicolon => some ';'
  | .opening .square => some '['
  | .opening .curly => some '{'
  | .closing .round => some ')'
  | .closing .square => some ']'
  | .closing .curly => some '}'
  | _ => none

theorem signToken_mark? (c : Char) (rest : List Char) : (signToken c rest).1.mark? = none := by
  unfold signToken
  split <;> rfl

theorem nameToken_mark? (s : List Char) : (nameToken s).1.mark? = none := by
  unfold nameToken
  split
  · split <;> rfl
  · rfl

theorem wordToken_mark? (c : Char) (rest : List Char) : (wordToken c rest).1.mark? = none := by
  unfold wordToken
  split
  · rfl
  · split
    · exact signToken_mark? c rest
    · split
      · exact nameToken_mark? _
      · exact signToken_mark? c rest

theorem hashToken_mark? (rest : List Char) : (hashToken rest).1.mark? = none := by
  unfold hashToken
  split <;> rfl

theorem atToken_mark? (rest : List Char) : (atToken rest).1.mark? = none := by
  unfold atToken
  split <;> rfl

/-- A mark is one character. -/
theorem token_of_mark? {mark : Char} (h : (token c rest).1.mark? = some mark) :
    c = mark ∧ (token c rest).2 = rest := by
  unfold token at h ⊢
  by_cases hspace : isSpace c
  · rw [if_pos hspace] at h
    cases h
  · rw [if_neg hspace] at h ⊢
    split at h
    · exact ⟨Option.some.inj h, rfl⟩
    · cases h
    · exact ⟨Option.some.inj h, rfl⟩
    · exact ⟨Option.some.inj h, rfl⟩
    · exact ⟨Option.some.inj h, rfl⟩
    · exact ⟨Option.some.inj h, rfl⟩
    · exact ⟨Option.some.inj h, rfl⟩
    · cases h
    · cases h
    · cases (hashToken_mark? rest).symm.trans h
    · cases (atToken_mark? rest).symm.trans h
    · cases (wordToken_mark? _ rest).symm.trans h

/-- A prelude ends with a semicolon, with an opening brace, or with the text. -/
theorem untilBody_cases (s : List Char) :
    untilBody s = [] ∨ (∃ rest, untilBody s = ';' :: rest) ∨ ∃ rest, untilBody s = '{' :: rest := by
  fun_induction untilBody s with
  | case1 => exact .inl rfl
  | case2 c rest hkind =>
    have hmark : (token c rest).1.mark? = some ';' := congrArg Token.mark? hkind
    obtain ⟨rfl, -⟩ := token_of_mark? hmark
    exact .inr (.inl ⟨rest, rfl⟩)
  | case3 c rest hkind =>
    obtain ⟨rfl, -⟩ := token_of_mark? (congrArg Token.mark? hkind)
    exact .inr (.inr ⟨rest, rfl⟩)
  | case4 c rest bracket _ _ ih => exact ih
  | case5 c rest _ _ _ ih => exact ih

/-! ## Steps through a text -/

theorem untilClose_of_opening {bracket : Bracket} (h : (token c rest).1 = .opening bracket) :
    untilClose blocks (c :: rest) = untilClose (bracket :: blocks) (token c rest).2 := by
  rw [untilClose, h]

theorem untilClose_of_closing {bracket : Bracket} (h : (token c rest).1 = .closing bracket) :
    untilClose blocks (c :: rest) =
      if blocks = [bracket] then c :: rest
      else if blocks.head? = some bracket then untilClose blocks.tail (token c rest).2
      else untilClose blocks (token c rest).2 := by
  rw [untilClose, h]

theorem untilClose_of_other {kind : Token} (h : (token c rest).1 = kind)
    (hopening : ∀ bracket, kind ≠ .opening bracket)
    (hclosing : ∀ bracket, kind ≠ .closing bracket) :
    untilClose blocks (c :: rest) = untilClose blocks (token c rest).2 := by
  rw [untilClose]
  split
  · next hkind => exact absurd (h.symm.trans hkind) (hopening _)
  · next hkind => exact absurd (h.symm.trans hkind) (hclosing _)
  · rfl

theorem untilBody_of_other {kind : Token} (h : (token c rest).1 = kind)
    (hsemicolon : kind ≠ .semicolon) (hopening : ∀ bracket, kind ≠ .opening bracket) :
    untilBody (c :: rest) = untilBody (token c rest).2 := by
  rw [untilBody]
  split
  · next hkind => exact absurd (h.symm.trans hkind) hsemicolon
  · next hkind => exact absurd (h.symm.trans hkind) (hopening _)
  · next hkind => exact absurd (h.symm.trans hkind) (hopening _)
  · rfl

theorem untilBody_of_opening {bracket : Bracket} (h : (token c rest).1 = .opening bracket)
    (hcurly : bracket ≠ .curly) :
    untilBody (c :: rest) = untilBody (untilClose [bracket] (token c rest).2).tail := by
  rw [untilBody, h]
  cases bracket with
  | round => rfl
  | square => rfl
  | curly => exact absurd rfl hcurly

theorem token_space (hc : isSpace c) (rest : List Char) : token c rest = (.blank, rest) := by
  unfold token
  rw [if_pos hc]

theorem skipBlanks_space (hc : isSpace c) (rest : List Char) :
    skipBlanks (c :: rest) = skipBlanks rest := by
  rw [skipBlanks, token_space hc, if_pos rfl]

theorem untilClose_space (hc : isSpace c) (blocks : List Bracket) (rest : List Char) :
    untilClose blocks (c :: rest) = untilClose blocks rest := by
  have hkind : (token c rest).1 = .blank := congrArg Prod.fst (token_space hc rest)
  rw [untilClose_of_other hkind nofun nofun, token_space hc]

theorem untilBody_space (hc : isSpace c) (rest : List Char) :
    untilBody (c :: rest) = untilBody rest := by
  have hkind : (token c rest).1 = .blank := congrArg Prod.fst (token_space hc rest)
  rw [untilBody_of_other hkind nofun nofun, token_space hc]

theorem EndsPlain.token (h : EndsPlain (c :: rest)) : EndsPlain (token c rest).2 :=
  h.of_suffix ((token_suffix c rest).trans (List.suffix_cons _ _))

/-! ## Closed texts in a block -/

theorem closesAll_nil : closesAll blocks [] ↔ blocks = [] := by
  rw [closesAll, List.isEmpty_iff]

/-- Where the blank after an escape is taken along, nothing of the closed text is left. -/
theorem untilClose_of_joins (hjoins : Joins more left left') (hclosed : closesAll blocks left)
    (h : untilClose (blocks ++ outer) (left ++ more) = untilClose outer more) :
    untilClose (blocks ++ outer) left' = untilClose outer more := by
  rcases hjoins with rfl | ⟨rfl, hblank⟩
  · exact h
  · obtain rfl := closesAll_nil.1 hclosed
    rw [hblank, untilClose_space rfl]
    rfl

/-- A block in braces is not left inside a closed text. -/
theorem untilClose_append (hmore : Ending more) (houter : outer.head? = some .curly)
    (hclosed : closesAll blocks s) (hplain : EndsPlain s) :
    untilClose (blocks ++ outer) (s ++ more) = untilClose outer more := by
  fun_induction closesAll blocks s with
  | case1 blocks =>
    rw [List.isEmpty_iff.1 hclosed]
    rfl
  | case2 blocks c rest hwhole bracket hkind ih =>
    obtain ⟨hsame, hjoins⟩ := token_append hmore hplain hwhole
    simp only [Bool.and_eq_true] at hclosed
    rw [List.cons_append, untilClose_of_opening (hsame.trans hkind)]
    exact untilClose_of_joins hjoins hclosed.2 (ih hclosed.2 hplain.token)
  | case3 blocks c rest hwhole bracket hkind hhead ih =>
    obtain ⟨hsame, hjoins⟩ := token_append hmore hplain hwhole
    obtain ⟨inner, rfl⟩ := List.head?_eq_some_iff.1 hhead
    have hdeeper : bracket :: inner ++ outer ≠ [bracket] := by
      rintro hsingle
      obtain ⟨-, rfl⟩ := List.append_eq_nil_iff.1 (List.cons.inj hsingle).2
      cases houter
    have htop : (bracket :: inner ++ outer).head? = some bracket := rfl
    show untilClose (bracket :: inner ++ outer) (c :: (rest ++ more)) = _
    rw [untilClose_of_closing (hsame.trans hkind), if_neg hdeeper, if_pos htop]
    exact untilClose_of_joins hjoins hclosed (ih hclosed hplain.token)
  | case4 blocks c rest hwhole bracket hkind hhead ih =>
    obtain ⟨hsame, hjoins⟩ := token_append hmore hplain hwhole
    simp only [Bool.and_eq_true] at hclosed
    -- the bracket closes neither a block in the text nor the one around it
    have hother : (blocks ++ outer).head? ≠ some bracket := by
      cases blocks with
      | nil =>
        rintro heq
        cases houter.symm.trans heq
        exact absurd hclosed.1 (by decide)
      | cons => exact hhead
    rw [List.cons_append, untilClose_of_closing (hsame.trans hkind),
      if_neg fun hsingle => hother (congrArg List.head? hsingle), if_neg hother]
    exact untilClose_of_joins hjoins hclosed.2 (ih hclosed.2 hplain.token)
  | case5 blocks c rest hwhole hkind ih =>
    obtain ⟨hsame, hjoins⟩ := token_append hmore hplain hwhole
    simp only [Bool.and_eq_true] at hclosed
    rw [List.cons_append, untilClose_of_other (hsame.trans hkind) nofun nofun]
    exact untilClose_of_joins hjoins hclosed.2 (ih hclosed.2 hplain.token)
  | case6 blocks c rest hwhole hopening hclosing hsemicolon ih =>
    obtain ⟨hsame, hjoins⟩ := token_append hmore hplain hwhole
    rw [List.cons_append, untilClose_of_other hsame hopening hclosing]
    exact untilClose_of_joins hjoins hclosed (ih hclosed hplain.token)
  | case7 => cases hclosed

/-! ## Closed texts in a prelude -/

theorem ne_nil_of_closesAll (hclosed : closesAll blocks s) (hblocks : blocks ≠ []) : s ≠ [] := by
  rintro rfl
  exact hblocks (closesAll_nil.1 hclosed)

/-- The block that a closed text is inside of ends in the text, and what comes after it is
closed. -/
theorem untilClose_of_closesAll (hmore : Ending more) (hblocks : blocks ≠ [])
    (hclosed : closesAll blocks s) (hplain : EndsPlain s) :
    untilClose blocks (s ++ more) = untilClose blocks s ++ more ∧ untilClose blocks s ≠ [] ∧
      closesAll [] (untilClose blocks s).tail := by
  fun_induction closesAll blocks s with
  | case1 blocks => exact absurd (List.isEmpty_iff.1 hclosed) hblocks
  | case2 blocks c rest hwhole bracket hkind ih =>
    obtain ⟨hsame, hjoins⟩ := token_append hmore hplain hwhole
    simp only [Bool.and_eq_true] at hclosed
    have hopened : bracket :: blocks ≠ [] := List.cons_ne_nil _ _
    rw [List.cons_append, untilClose_of_opening (hsame.trans hkind), untilClose_of_opening hkind,
      hjoins.eq_append (ne_nil_of_closesAll hclosed.2 hopened)]
    exact ih hopened hclosed.2 hplain.token
  | case3 blocks c rest hwhole bracket hkind hhead ih =>
    obtain ⟨hsame, hjoins⟩ := token_append hmore hplain hwhole
    obtain ⟨inner, rfl⟩ := List.head?_eq_some_iff.1 hhead
    rw [List.cons_append, untilClose_of_closing (hsame.trans hkind), untilClose_of_closing hkind]
    by_cases hinner : inner = []
    · subst hinner
      have hmark : ∃ mark, (token c rest).1.mark? = some mark := by
        rw [hkind]
        cases bracket <;> exact ⟨_, rfl⟩
      obtain ⟨mark, hmark⟩ := hmark
      rw [(token_of_mark? hmark).2] at hclosed
      rw [if_pos rfl, if_pos rfl]
      exact ⟨rfl, List.cons_ne_nil _ _, hclosed⟩
    · have hdeeper : bracket :: inner ≠ [bracket] := by simpa using hinner
      simp only [if_neg hdeeper, if_pos hhead, List.tail_cons]
      rw [hjoins.eq_append (ne_nil_of_closesAll hclosed hinner)]
      exact ih hinner hclosed hplain.token
  | case4 blocks c rest hwhole bracket hkind hhead ih =>
    obtain ⟨hsame, hjoins⟩ := token_append hmore hplain hwhole
    simp only [Bool.and_eq_true] at hclosed
    have hsingle : blocks ≠ [bracket] := fun hsingle => hhead (congrArg List.head? hsingle)
    rw [List.cons_append, untilClose_of_closing (hsame.trans hkind), untilClose_of_closing hkind,
      if_neg hsingle, if_neg hhead, if_neg hsingle, if_neg hhead,
      hjoins.eq_append (ne_nil_of_closesAll hclosed.2 hblocks)]
    exact ih hblocks hclosed.2 hplain.token
  | case5 blocks c rest hwhole hkind ih =>
    obtain ⟨hsame, hjoins⟩ := token_append hmore hplain hwhole
    simp only [Bool.and_eq_true] at hclosed
    rw [List.cons_append, untilClose_of_other (hsame.trans hkind) nofun nofun,
      untilClose_of_other hkind nofun nofun,
      hjoins.eq_append (ne_nil_of_closesAll hclosed.2 hblocks)]
    exact ih hblocks hclosed.2 hplain.token
  | case6 blocks c rest hwhole hopening hclosing hsemicolon ih =>
    obtain ⟨hsame, hjoins⟩ := token_append hmore hplain hwhole
    rw [List.cons_append, untilClose_of_other hsame hopening hclosing,
      untilClose_of_other rfl hopening hclosing,
      hjoins.eq_append (ne_nil_of_closesAll hclosed hblocks)]
    exact ih hblocks hclosed hplain.token
  | case7 => cases hclosed

/-- A prelude does not end inside a closed text. -/
theorem untilBody_append (hmore : Ending more) (hclosed : closesAll [] s) (hplain : EndsPlain s) :
    untilBody (s ++ more) = untilBody more := by
  fun_induction untilBody s with
  | case1 => rfl
  | case2 c rest hkind =>
    rw [closesAll, hkind] at hclosed
    split at hclosed <;> cases hclosed
  | case3 c rest hkind =>
    rw [closesAll, hkind] at hclosed
    split at hclosed <;> cases hclosed
  | case4 c rest bracket hcurly hkind ih =>
    rw [closesAll] at hclosed
    split at hclosed
    · next hwhole =>
      obtain ⟨hsame, hjoins⟩ := token_append hmore hplain hwhole
      rw [hkind] at hclosed
      simp only [Bool.and_eq_true] at hclosed
      have hopened : [bracket] ≠ [] := List.cons_ne_nil _ _
      obtain ⟨hclose, hnonempty, hafter⟩ :=
        untilClose_of_closesAll hmore hopened hclosed.2 hplain.token
      rw [List.cons_append, untilBody_of_opening (hsame.trans hkind) hcurly,
        hjoins.eq_append (ne_nil_of_closesAll hclosed.2 hopened), hclose,
        List.tail_append_of_ne_nil hnonempty]
      refine ih hafter (hplain.token.of_suffix ?_)
      exact (List.tail_suffix _).trans (untilClose_suffix _ _)
    · cases hclosed
  | case5 c rest hsemicolon hcurly hopening ih =>
    obtain ⟨hwhole, hafter⟩ : isWhole c rest ∧ closesAll [] (token c rest).2 := by
      rw [closesAll] at hclosed
      split at hclosed
      · next hwhole =>
        split at hclosed <;> simp_all
      · cases hclosed
    obtain ⟨hsame, hjoins⟩ := token_append hmore hplain hwhole
    rw [List.cons_append, untilBody_of_other hsame hsemicolon hopening]
    rcases hjoins with hleft | ⟨-, hblank⟩
    · rw [hleft]
      exact ih hafter hplain.token
    · exact (untilBody_space rfl _).symm.trans (congrArg untilBody hblank.symm)

end Stylesheet
end ScopedCss
