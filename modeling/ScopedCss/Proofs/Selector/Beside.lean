import ScopedCss.Proofs.Selector.Comments

/-!
# Texts beside each other

What is written of a selector with a comment is compared with what is written of the selector alone,
piece by piece. Texts are compared by their words: the blank that is dropped behind a marker may
stand on the other side of the comment.

* `SameBut` says that a text is another one but for a comment in it.
* `Beside.advance` says what one piece preserves, and `Beside.advanceAll` what the pieces up to a
  comma do.
* `text_inserted`: a selector with a silent comment is written like the selector, but for the
  comment.
-/

namespace ScopedCss
namespace Selector

open Text

variable {initial : Scope} {c : Char} {s t rest : List Char} {token : Token}
  {tokens pieces after : List Token} {selector commented content : String}
  {answers : Answers} {d e : Draft}

/-! ## Words -/

/-- The words of a text, between its blanks. -/
def words (s : List Char) : List (List Char) := (s.splitOnP isBlank).filter (!·.isEmpty)

/-- The text ends with a blank, or there is none. -/
def endsApart (s : List Char) : Bool := s.getLast?.all isBlank

theorem words_nil : words [] = [] := rfl

/-- Words end at a blank. -/
theorem words_append_cons (hc : isBlank c) (s t : List Char) :
    words (s ++ c :: t) = words s ++ words t := by
  rw [words, List.splitOnP_append_cons s t hc, List.filter_append]
  rfl

theorem words_append_of_endsApart (hs : endsApart s) (t : List Char) :
    words (s ++ t) = words s ++ words t := by
  rcases s.eq_nil_or_concat' with rfl | ⟨s, c, rfl⟩
  · rfl
  · have hc : isBlank c := by simpa [endsApart] using hs
    have hs : words (s ++ [c]) = words s := by
      rw [words_append_cons hc, words_nil, List.append_nil]
    rw [hs, List.append_assoc]
    exact words_append_cons hc s t

theorem words_append_of_blank (hs : isBlankText s) (t : List Char) : words (s ++ t) = words t := by
  induction s with
  | nil => rfl
  | cons c s ih =>
    rw [isBlankText_cons] at hs
    exact (words_append_cons hs.1 [] (s ++ t)).trans (ih hs.2)

theorem words_append_blank (ht : isBlankText t) : words (s ++ t) = words s := by
  cases t with
  | nil => rw [List.append_nil]
  | cons c t =>
    rw [isBlankText_cons] at ht
    have hrest : words (t ++ []) = words [] := words_append_of_blank ht.2 []
    rw [words_append_cons ht.1, ← List.append_nil t, hrest, words_nil, List.append_nil]

/-- The texts have the same words, whatever comes after both, and both end with a blank or
neither. -/
structure SameWords (s t : List Char) : Prop where
  words : ∀ rest, words (s ++ rest) = Selector.words (t ++ rest)
  apart : endsApart s = endsApart t

theorem endsApart_append (s t : List Char) :
    endsApart (s ++ t) = if t = [] then endsApart s else endsApart t := by
  split
  · next h => rw [h, List.append_nil]
  · next h => rw [endsApart, endsApart, List.getLast?_append_of_ne_nil s h]

theorem endsApart_of_isBlankText (h : isBlankText s) : endsApart s := by
  rcases s.eq_nil_or_concat' with rfl | ⟨s, c, rfl⟩
  · rfl
  · have hc := List.all_eq_true.1 h c (by simp)
    simpa [endsApart] using hc

namespace SameWords

theorem refl (s : List Char) : SameWords s s := ⟨fun _ => rfl, rfl⟩

theorem trans {u : List Char} (h : SameWords s t) (h' : SameWords t u) : SameWords s u :=
  ⟨fun rest => (h.words rest).trans (h'.words rest), h.apart.trans h'.apart⟩

theorem append (h : SameWords s t) (rest : List Char) : SameWords (s ++ rest) (t ++ rest) := by
  constructor
  · intro more
    rw [List.append_assoc, List.append_assoc]
    exact h.words _
  · rw [endsApart_append, endsApart_append, h.apart]

theorem append_blank (hs : endsApart s) (hrest : isBlankText rest) : SameWords (s ++ rest) s := by
  constructor
  · intro more
    rw [List.append_assoc, words_append_of_endsApart hs, words_append_of_endsApart hs,
      words_append_of_blank hrest]
  · rw [endsApart_append, hs, endsApart_of_isBlankText hrest, ite_self]

end SameWords

/-! ## What is written -/

namespace Draft

theorem write_write (d : Draft) (text more : String) :
    (d.write text).write more = d.write (text ++ more) := by
  simp [write, String.append_assoc]

theorem writeBlank_eq (d : Draft) (text : String) : d.writeBlank text =
    { d with branch := d.branch ++ (if d.skipBlank then "" else text), skipBlank := false } := by
  unfold writeBlank
  split
  · rw [String.append_empty]
  · rfl

/-- A marker drops the blank after it where the branch ends with a blank, or has no text at all. -/
theorem skipBlank_switch (d : Draft) (scope : Scope) :
    (d.switch scope).skipBlank = endsApart d.branch.toList := by
  show (isBlankText d.branch.toList || d.branch.toList.getLast?.any Text.isBlank) = _
  cases hlast : d.branch.toList.getLast? with
  | none => simp [endsApart, List.getLast?_eq_none_iff.1 hlast, isBlankText]
  | some c =>
    have hmem := List.mem_of_getLast? hlast
    simp only [endsApart, hlast, Option.any_some, Option.all_some]
    cases hc : Text.isBlank c with
    | true => simp
    | false => simpa [isBlankText] using ⟨c, hmem, hc⟩

/-- Where the next blank is dropped, there is one already, or nothing at all. -/
def SkipsApart (d : Draft) : Prop := d.skipBlank → endsApart d.branch.toList

end Draft

theorem skipsApart_advance (inner : Scope → ∀ content, token.content? = some content → String) :
    (answers.advance initial d token inner).SkipsApart := by
  cases token with
  | blank text =>
    intro hskip
    simp only [Answers.advance, Draft.writeBlank] at hskip
    split at hskip <;> cases hskip
  | marker scope => exact fun hskip => (d.skipBlank_switch scope).symm.trans hskip
  | _ =>
    intro hskip
    cases hskip

theorem skipsApart_advanceAll (tokens : List Token) (h : d.SkipsApart) :
    (answers.advanceAll initial d tokens).SkipsApart := by
  induction tokens generalizing d with
  | nil => exact h
  | cons token tokens ih => exact ih (skipsApart_advance _)

theorem scope_advanceAll (answers : Answers) (initial : Scope) (d : Draft) (tokens : List Token) :
    (answers.advanceAll initial d tokens).scope
      = tokens.foldl (fun scope token => token.scopeAfter initial scope) d.scope := by
  induction tokens generalizing d with
  | nil => rfl
  | cons token tokens ih =>
    refine (ih _).trans ?_
    rw [scope_advance]
    rfl

theorem advanceAll_append (answers : Answers) (initial : Scope) (d : Draft)
    (tokens more : List Token) :
    answers.advanceAll initial d (tokens ++ more)
      = answers.advanceAll initial (answers.advanceAll initial d tokens) more :=
  List.foldl_append

/-- Pieces that mean nothing are written as they stand. -/
theorem advanceAll_inert (h : pieces.all (Token.isInert d.scope)) (hskip : d.skipBlank = false) :
    answers.advanceAll initial d pieces = d.write (sourceText pieces) := by
  induction pieces generalizing d with
  | nil =>
    obtain ⟨kept, branch, scope, skipBlank⟩ := d
    obtain rfl : skipBlank = false := hskip
    simp [Answers.advanceAll, sourceText, Draft.write]
  | cons token pieces ih =>
    rw [List.all_cons, Bool.and_eq_true] at h
    have hfirst (inner : Scope → ∀ content, token.content? = some content → String) :
        answers.advance initial d token inner = d.write (String.ofList token.source) := by
      cases token with
      | blank text => simp [Answers.advance, Draft.writeBlank, hskip, Token.source]
      | raw text => simp [Answers.advance, Token.source]
      | className name =>
        have hscope : d.scope = .globalScope := of_decide_eq_true h.1
        simp [Answers.advance, Answers.nameIn, hscope, Token.source, String.ofList_cons]
      | comma | marker | within | composition => cases h.1
    have hrest : answers.advanceAll initial (d.write (String.ofList token.source)) pieces = _ :=
      ih h.2 rfl
    rw [Answers.advanceAll, List.foldl_cons, hfirst, ← Answers.advanceAll, hrest, Draft.write_write]
    simp [sourceText]

theorem advanceAll_slashed (answers : Answers) (initial : Scope) (d : Draft) (tokens : List Token) :
    answers.advanceAll initial d (slashed tokens)
      = answers.advanceAll initial (d.write "/") tokens := by
  rcases slashed_cases tokens with ⟨hsame, -⟩ | ⟨name, more, rfl, -, hsame⟩
  · rw [hsame]
    rfl
  · rw [hsame]
    show answers.advanceAll initial (d.write ("/" ++ name)) more
      = answers.advanceAll initial ((d.write "/").write name) more
    rw [Draft.write_write]

/-- A draft, and one with another text in its branch: what is written before and after this text is
the branch of the first, up to the lengths of blanks. -/
structure Beside (text : String) (d e : Draft) : Prop where
  kept : e.kept = d.kept
  scope : e.scope = d.scope
  /-- The text may stand between a marker and the blank that is dropped behind it. -/
  skipBlank : e.skipBlank → d.skipBlank
  apart : d.SkipsApart
  branch : ∃ before after : String, e.branch = before ++ text ++ after ∧
    SameWords (before ++ after).toList d.branch.toList

namespace Beside

variable {text : String}

theorem write (h : Beside text d e) (more : String) :
    Beside text (d.write more) (e.write more) := by
  obtain ⟨before, after, hbranch, hwords⟩ := h.branch
  refine ⟨h.kept, h.scope, nofun, nofun, before, after ++ more, ?_, ?_⟩
  · show e.branch ++ more = _
    rw [hbranch, String.append_assoc]
  · show SameWords _ (d.branch ++ more).toList
    simpa only [String.toList_append, List.append_assoc] using hwords.append more.toList

theorem writeBlank (h : Beside text d e) {blank : String} (hblank : isBlankText blank.toList) :
    Beside text (d.writeBlank blank) (e.writeBlank blank) := by
  obtain ⟨before, after, hbranch, hwords⟩ := h.branch
  unfold Draft.writeBlank
  by_cases hskip : d.skipBlank
  · rw [if_pos hskip]
    by_cases hskip' : e.skipBlank
    · rw [if_pos hskip']
      exact ⟨h.kept, h.scope, nofun, nofun, before, after, hbranch, hwords⟩
    · -- behind the text the blank stays; before the text there is another one
      rw [if_neg hskip']
      refine ⟨h.kept, h.scope, nofun, nofun, before, after ++ blank, ?_, ?_⟩
      · show e.branch ++ blank = _
        rw [hbranch, String.append_assoc]
      · have hmore := (hwords.append blank.toList).trans (.append_blank (h.apart hskip) hblank)
        simpa only [String.toList_append, List.append_assoc] using hmore
  · rw [if_neg hskip, if_neg fun hskip' => hskip (h.skipBlank hskip')]
    exact h.write blank

theorem switch (h : Beside text d e) (htext : endsApart text.toList = false) (scope : Scope) :
    Beside text (d.switch scope) (e.switch scope) := by
  obtain ⟨before, after, hbranch, hwords⟩ := h.branch
  refine ⟨h.kept, rfl, ?_, fun hskip => (d.skipBlank_switch scope).symm.trans hskip,
    before, after, hbranch, hwords⟩
  rw [Draft.skipBlank_switch, Draft.skipBlank_switch, ← hwords.apart, hbranch]
  simp only [String.toList_append, endsApart_append]
  split
  · split
    · next hnone =>
      rw [hnone] at htext
      cases htext
    · rw [htext]
      nofun
  · exact id

/-- A comma apart, the same piece is written into both drafts. -/
theorem advance (h : Beside text d e) (htext : endsApart text.toList = false)
    (hcomma : token ≠ .comma) (hblank : ∀ blank, token = .blank blank → isBlankText blank.toList)
    (inner : Scope → ∀ content, token.content? = some content → String) :
    Beside text (answers.advance initial d token inner)
      (answers.advance initial e token inner) := by
  cases token with
  | comma => exact absurd rfl hcomma
  | blank blank => exact h.writeBlank (hblank blank rfl)
  | marker scope => exact h.switch htext scope
  | raw | within => exact h.write _
  | className | composition =>
    simp only [Answers.advance, h.scope]
    exact h.write _

theorem advanceAll (h : Beside text d e) (htext : endsApart text.toList = false)
    (hcomma : .comma ∉ tokens)
    (hblank : ∀ blank, .blank blank ∈ tokens → isBlankText blank.toList) :
    Beside text (answers.advanceAll initial d tokens) (answers.advanceAll initial e tokens) := by
  induction tokens generalizing d e with
  | nil => exact h
  | cons token tokens ih =>
    have hfirst :
        Beside text (answers.advance initial d token _) (answers.advance initial e token _) :=
      h.advance htext (fun heq => hcomma (heq ▸ List.mem_cons_self))
        (fun blank heq => hblank blank (heq ▸ List.mem_cons_self)) fun scope content _ =>
          answers.textIn scope content
    exact ih hfirst (fun hmem => hcomma (List.mem_cons_of_mem _ hmem))
      fun blank hmem => hblank blank (List.mem_cons_of_mem _ hmem)

end Beside

/-! ## The whole selector -/

/-- A text, and one with a comment in one of its branches. Without the comment, the branch has the
words that it has in the first text, where it may be left out because it has none. -/
def SameBut (text plain commented : String) : Prop :=
  ∃ (front back : List String) (branch before after : String),
    plain = trimText (",".intercalate (front ++ [branch].filter (!isBlankText ·.toList) ++ back)) ∧
    commented = trimText (",".intercalate (front ++ (before ++ text ++ after) :: back)) ∧
    words (before ++ after).toList = words branch.toList

theorem keptBranches_eq (d : Draft) :
    d.keptBranches = d.kept ++ [d.branch].filter (!isBlankText ·.toList) :=
  d.keptBranches_withKept d.kept

theorem advance_withKept (hcomma : token ≠ .comma) (d : Draft) (kept : List String)
    (inner : Scope → ∀ content, token.content? = some content → String) :
    answers.advance initial (d.withKept kept) token inner
      = (answers.advance initial d token inner).withKept kept := by
  cases token with
  | comma => exact absurd rfl hcomma
  | blank text => exact d.writeBlank_withKept kept text
  | _ => rfl

/-- What is done with the pieces does not depend on the branches that are kept already. -/
theorem advanceAll_withKept (answers : Answers) (initial : Scope) (tokens : List Token)
    (d : Draft) :
    ∃ more last, ∀ kept, answers.advanceAll initial (d.withKept kept) tokens
      = Draft.withKept last (kept ++ more) := by
  induction tokens generalizing d with
  | nil => exact ⟨[], d, fun kept => by rw [List.append_nil]; rfl⟩
  | cons token tokens ih =>
    by_cases hcomma : token = .comma
    · subst hcomma
      obtain ⟨more, last, hrest⟩ := ih (.start initial)
      refine ⟨[d.branch].filter (!isBlankText ·.toList) ++ more, last, fun kept => ?_⟩
      show answers.advanceAll initial ((d.withKept kept).nextBranch initial) tokens = _
      rw [Draft.nextBranch_eq, Draft.keptBranches_withKept, hrest, List.append_assoc]
    · obtain ⟨more, last, hrest⟩ := ih (answers.advance initial d token fun scope content _ =>
        answers.textIn scope content)
      refine ⟨more, last, fun kept => ?_⟩
      rw [Answers.advanceAll, List.foldl_cons, advance_withKept hcomma]
      exact hrest kept

theorem Beside.keptBranches {text : String} (h : Beside text d e)
    (htext : endsApart text.toList = false) :
    ∃ before after : String, e.keptBranches = d.kept ++ [before ++ text ++ after] ∧
      words (before ++ after).toList = words d.branch.toList := by
  obtain ⟨before, after, hbranch, hwords⟩ := h.branch
  have hsolid : isBlankText text.toList = false := by
    by_contra hblank
    rw [endsApart_of_isBlankText (by simpa using hblank)] at htext
    cases htext
  refine ⟨before, after, ?_, by simpa using hwords.words []⟩
  rw [keptBranches_eq, h.kept, hbranch]
  simp_all [isBlankText]

/-- Whatever pieces come next, they are written beside one another. -/
theorem Beside.sameBut {text : String} (h : Beside text d e) (htext : endsApart text.toList = false)
    (hblank : ∀ blank, .blank blank ∈ tokens → isBlankText blank.toList) :
    SameBut text (trimText (answers.advanceAll initial d tokens).text)
      (trimText (answers.advanceAll initial e tokens).text) := by
  by_cases hcomma : .comma ∈ tokens
  · -- after the comma nothing but the branches that are kept is different
    obtain ⟨part, rest, rfl, hpart⟩ := List.eq_append_cons_of_mem hcomma
    have hend : Beside text (answers.advanceAll initial d part)
        (answers.advanceAll initial e part) :=
      h.advanceAll htext hpart fun blank hmem => hblank blank (List.mem_append_left _ hmem)
    obtain ⟨before, after, hkept, hwords⟩ := hend.keptBranches htext
    obtain ⟨more, last, hrest⟩ := advanceAll_withKept answers initial rest (.start initial)
    have htext (d : Draft) : trimText (answers.advanceAll initial d (part ++ .comma :: rest)).text
        = trimText (",".intercalate ((answers.advanceAll initial d part).keptBranches ++ more
          ++ [last.branch].filter (!isBlankText ·.toList))) := by
      rw [advanceAll_append]
      show trimText (answers.advanceAll initial
        ((answers.advanceAll initial d part).nextBranch initial) rest).text = _
      rw [Draft.nextBranch_eq, hrest, Draft.trimText_text, Draft.keptBranches_withKept]
    refine ⟨(answers.advanceAll initial d part).kept,
      more ++ [last.branch].filter (!isBlankText ·.toList),
      (answers.advanceAll initial d part).branch, before, after, ?_, ?_, hwords⟩
    · rw [htext, keptBranches_eq, List.append_assoc]
    · rw [htext, hkept, List.append_assoc, List.append_assoc, List.singleton_append]
  · have hend : Beside text (answers.advanceAll initial d tokens)
        (answers.advanceAll initial e tokens) :=
      h.advanceAll htext hcomma hblank
    obtain ⟨before, after, hkept, hwords⟩ := hend.keptBranches htext
    refine ⟨(answers.advanceAll initial d tokens).kept, [], _, before, after, ?_, ?_, hwords⟩
    · rw [Draft.trimText_text, keptBranches_eq, List.append_nil]
    · rw [Draft.trimText_text, hkept]

theorem text_of_tokenize (answers : Answers) (initial : Scope)
    (h : tokenize selector = .ok tokens) :
    answers.text initial selector
      = trimText (answers.advanceAll initial (.start initial) tokens).text := by
  rw [Answers.text, Answers.textIn_eq, h]

theorem endsApart_comment (content : String) : endsApart (comment content).toList = false := by
  have hlast : (comment content).toList = ('/' :: '*' :: content.toList ++ ['*']) ++ ['/'] := by
    simp [comment]
  rw [hlast, endsApart_append]
  rfl

/-- Behind a blank, a silent comment is written as it stands. -/
theorem advanceAll_commented
    (hcomment : (pieces ++ [Token.raw "/"]).flatMap Token.source = (comment content).toList)
    (hinert : pieces.all (Token.isInert d.scope)) (left : String) :
    answers.advanceAll initial d (.blank left :: (pieces ++ slashed after))
      = answers.advanceAll initial ((d.writeBlank left).write (comment content)) after := by
  have hinert : pieces.all (Token.isInert (d.writeBlank left).scope) := by
    rwa [Draft.writeBlank_eq]
  have hskip : (d.writeBlank left).skipBlank = false := by
    rw [Draft.writeBlank_eq]
  have htext : sourceText pieces ++ "/" = comment content := by
    rw [← String.toList_inj, ← hcomment]
    simp [sourceText, Token.source]
  show answers.advanceAll initial (d.writeBlank left) (pieces ++ slashed after) = _
  rw [advanceAll_append, advanceAll_inert hinert hskip, advanceAll_slashed,
    Draft.write_write, htext]

theorem advanceAll_gap (hskip : d.skipBlank = false) (right : String) (back : List Token) :
    answers.advanceAll initial d (gap right ++ back)
      = answers.advanceAll initial (d.write right) back := by
  rw [advanceAll_append]
  congr 1
  obtain ⟨kept, branch, scope, skipBlank⟩ := d
  obtain rfl : skipBlank = false := hskip
  unfold gap
  split
  · next h => simp [Answers.advanceAll, Draft.write, h]
  · rfl

/-- Where a blank is written, a text may be put in. -/
theorem beside_of_blank (h : d.SkipsApart) {right : String} (hright : isBlankText right.toList)
    (left text : String) :
    Beside text (d.writeBlank (left ++ right)) (((d.writeBlank left).write text).write right) := by
  rw [Draft.writeBlank_eq, Draft.writeBlank_eq]
  refine ⟨rfl, rfl, nofun, nofun, d.branch ++ (if d.skipBlank then "" else left), right, rfl, ?_⟩
  by_cases hskip : d.skipBlank
  · simpa [hskip] using SameWords.append_blank (h hskip) hright
  · simpa [hskip] using SameWords.refl _

/-- **A selector with a silent comment** is written like the selector, but for the comment and the
lengths of blanks. -/
theorem text_inserted (h : Inserted initial content selector commented) (answers : Answers) :
    SameBut (comment content) (answers.text initial selector) (answers.text initial commented) := by
  obtain ⟨front, left, old, pieces, after, hselector, hcommented, hcomment, hinert, hleft, hold⟩ :=
    h.pieces_eq
  have hscope := scope_advanceAll answers initial (.start initial) front
  have hskips : (answers.advanceAll initial (.start initial) front).SkipsApart :=
    skipsApart_advanceAll front nofun
  have hsolid := endsApart_comment content
  rw [text_of_tokenize answers initial hselector, text_of_tokenize answers initial hcommented,
    advanceAll_append, advanceAll_append]
  generalize answers.advanceAll initial (.start initial) front = d at hscope hskips ⊢
  have hinert : pieces.all (Token.isInert d.scope) := by
    rw [hscope]
    exact hinert
  rw [advanceAll_commented hcomment hinert]
  rcases hold with ⟨right, back, hright, rfl, rfl⟩ | ⟨rfl, rfl⟩
  · rw [advanceAll_gap rfl]
    refine (beside_of_blank hskips hright left _).sameBut hsolid fun blank hmem => ?_
    exact (tokenize_allFit hselector).isBlankText_of_mem
      (List.mem_append_right _ (List.mem_cons_of_mem _ hmem))
  · have hempty : isBlankText "".toList := rfl
    have hbeside := beside_of_blank hskips hempty left (comment content)
    rw [Draft.write_write, String.append_empty, String.append_empty] at hbeside
    obtain ⟨before, after, hkept, hwords⟩ := hbeside.keptBranches hsolid
    rw [Draft.writeBlank_eq] at hkept
    have hnil (d : Draft) : answers.advanceAll initial d [] = d := rfl
    refine ⟨d.kept, [], d.branch, before, after, ?_, ?_, ?_⟩
    · rw [hnil, Draft.trimText_text, keptBranches_eq, List.append_nil]
    · rw [hnil, Draft.trimText_text, Draft.writeBlank_eq, hkept]
    · rw [hwords, Draft.writeBlank_eq]
      split
      · simp
      · simp [words_append_blank hleft]

end Selector
end ScopedCss
