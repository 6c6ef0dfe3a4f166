import ScopedCss.Proofs.Selector.Markers
import ScopedCss.Proofs.Selector.Standing

/-!
# Comments in a selector

The pieces of a selector know of no comments: a comment is cut into pieces like everything else, and
its classes, references, markers and commas count. It does no harm if none of its pieces means
anything in the scope in force (`IsSilent`), and if it stands behind a blank and does not run into
the piece after it (`Inserted`).

* `isSilent_of_forall`: in particular, a comment without dots, colons, commas, quotes and brackets.
* `tokenize_commented`: the pieces of a selector with such a comment.
* `requests_inserted`: the selector with the comment asks for what the selector asks for.
-/

namespace ScopedCss
namespace Selector

open Text

variable {initial scope : Scope} {c : Char} {s t rest : List Char} {token : Token}
  {tokens front back pieces after : List Token}
  {selector commented name left right content : String} {known : String → Bool} {answers : Answers}
  {d e : Draft}

/-! ## Comments that mean nothing -/

/-- A comment, as it is written. -/
def comment (content : String) : String := "/*" ++ content ++ "*/"

/-- In this scope, the piece is written as it stands and means nothing for the pieces after it. -/
def Token.isInert (scope : Scope) : Token → Bool
  | .blank _ | .raw _ => true
  | .className _ => scope = .globalScope
  | _ => false

/-- In this scope, no piece of a comment with this content means anything. Commas and references
count as pieces that do, although a comma changes no scope where the initial one is in force, and a
reference is written as it stands where its alias is unknown. -/
def IsSilent (scope : Scope) (content : String) : Prop :=
  ∃ pieces, tokenize (comment content) = .ok (pieces ++ [.raw "/"]) ∧
    pieces.all (Token.isInert scope)

/-- The scope in force after these pieces. -/
def scopeAt (initial : Scope) (tokens : List Token) : Scope :=
  tokens.foldl (fun scope token => token.scopeAfter initial scope) initial

/-- The piece does not run into a comment that ends right before it. The last character of a comment
may stand in a name, so it would be taken for the alias of `::name`, and for a part of another
alias. -/
def Token.mayFollow : Token → Bool
  | .composition reference => reference.dotted || reference.parenthesized
  | .raw text => text != "::"
  | _ => true

/-- A selector, and the selector with a silent comment put in: in a blank or right behind it, or at
the end with a blank before it. The place right in front of a blank is left out, since a name that
stands there goes on with the first slash; behind a sign the comment would do no harm there. -/
inductive Inserted (initial : Scope) (content : String) : String → String → Prop
  | between {selector : String} {front back : List Token} {left right : String}
      (pieces : tokenize selector = .ok (front ++ .blank (left ++ right) :: back))
      (behind : left ≠ "")
      (next : right = "" → ∀ token ∈ back.head?, token.mayFollow)
      (silent : IsSilent (scopeAt initial front) content) :
      Inserted initial content selector
        (sourceText front ++ left ++ comment content ++ right ++ sourceText back)
  | atEnd {selector : String} {front : List Token} {left : String}
      (pieces : tokenize (selector ++ left) = .ok (front ++ [.blank left]))
      (silent : IsSilent (scopeAt initial front) content) :
      Inserted initial content selector (selector ++ left ++ comment content)

/-! ## Pieces after a slash -/

/-- The pieces of a text with a slash in front. A name goes on from the slash. -/
def slashed : List Token → List Token
  | .raw name :: tokens =>
    if isClassName name then .raw ("/" ++ name) :: tokens else .raw "/" :: .raw name :: tokens
  | tokens => .raw "/" :: tokens

theorem slashed_cases (tokens : List Token) :
    slashed tokens = .raw "/" :: tokens ∧
        (∀ token ∈ tokens.head?, ∀ text, token = .raw text → ¬ isClassName text) ∨
      ∃ name more, tokens = .raw name :: more ∧ isClassName name ∧
        slashed tokens = .raw ("/" ++ name) :: more := by
  unfold slashed
  split
  · next name more =>
    split
    · next h => exact .inr ⟨name, more, rfl, h, rfl⟩
    · next h =>
      refine .inl ⟨rfl, ?_⟩
      rintro _ ⟨⟩ _ ⟨⟩
      exact h
  · next hother =>
    refine .inl ⟨rfl, fun token htoken text heq => ?_⟩
    obtain ⟨more, rfl⟩ := List.head?_eq_some_iff.1 htoken
    exact absurd (congrArg (· :: more) heq) (hother text more)

theorem slash_stands (hname : isNameChar c = false) (hcolon : c ≠ ':') :
    Stands (.raw "/") (c :: s) :=
  .name (by decide) hname (remote?_of_head (by simpa using hcolon))

/-- A slash is a piece by itself before every piece that it does not run into. -/
theorem Stands.slash (h : Stands token rest) (hfollow : token.mayFollow)
    (hname : ∀ name, token = .raw name → ¬ isClassName name) :
    Stands (.raw "/") (token.source ++ rest) := by
  obtain ⟨c, s, hs, hread⟩ := h.nextToken
  rw [hs]
  by_cases hc : isNameChar c
  · -- the piece would be a name, or a reference without a dot and parentheses
    rw [nextToken_of_isNameChar hc, nameToken] at hread
    split at hread
    · next hcomposition =>
      cases hread
      obtain ⟨parts, -, heq⟩ := Option.map_eq_some_iff.1 hcomposition
      cases heq
      cases hfollow
    · cases hread
      exact absurd (isClassName_ofList (List.cons_ne_nil _ _) (by simp [hc])) (hname _ rfl)
  · by_cases hcolon : c = ':'
    · subst hcolon
      refine .name (by decide) rfl (remote?_of_tail fun hhead => ?_)
      obtain ⟨after, rfl⟩ := List.head?_eq_some_iff.1 hhead
      cases hread
      cases hfollow
    · exact slash_stands (by simpa using hc) hcolon

theorem isClassName_slash (h : isClassName name) : isClassName ("/" ++ name) := by
  simp_all [isClassName, isNameChar, isBlank]

theorem allStand_slashed (h : AllStand [] tokens)
    (hfollow : ∀ token ∈ tokens.head?, token.mayFollow) :
    AllStand [] (slashed tokens) := by
  rcases slashed_cases tokens with ⟨hsame, hother⟩ | ⟨name, more, rfl, hname, hsame⟩
  · rw [hsame]
    refine ⟨?_, h⟩
    rw [List.append_nil]
    cases tokens with
    | nil => exact .name (by decide) rfl rfl
    | cons token tokens =>
      have hfirst := h.1.slash (hfollow token rfl) (hother token rfl)
      rwa [List.append_nil] at hfirst
  · rw [hsame]
    obtain ⟨hstop, hremote⟩ := h.1.of_isClassName hname
    exact ⟨.name (isClassName_slash hname) hstop hremote, h.2⟩

theorem slashed_source (tokens : List Token) :
    (slashed tokens).flatMap Token.source = '/' :: tokens.flatMap Token.source := by
  rcases slashed_cases tokens with ⟨hsame, -⟩ | ⟨name, more, rfl, -, hsame⟩ <;>
    rw [hsame] <;> simp [Token.source]

/-- With a slash in front, a text begins with a name that stands in no parentheses. -/
theorem parenthesized?_slashed (h : AllStand [] (slashed tokens)) :
    parenthesized? ((slashed tokens).flatMap Token.source) = none := by
  obtain ⟨name, more, hsame, hname⟩ : ∃ name more,
      slashed tokens = .raw name :: more ∧ isClassName name := by
    rcases slashed_cases tokens with ⟨hsame, -⟩ | ⟨name, more, -, hname, hsame⟩
    · exact ⟨_, _, hsame, by decide⟩
    · exact ⟨_, _, hsame, isClassName_slash hname⟩
  rw [hsame] at h ⊢
  obtain ⟨hstop, hremote⟩ := h.1.of_isClassName hname
  rw [List.append_nil] at hstop hremote
  exact parenthesized?_of_name hname hstop hremote

/-! ## The pieces of a selector with a comment -/

/-- The blank that is left of a text, if anything is. -/
def gap (text : String) : List Token := if text = "" then [] else [.blank text]

theorem gap_source (text : String) : (gap text).flatMap Token.source = text.toList := by
  unfold gap
  split
  · next h => simp [h]
  · simp [Token.source]

/-- A silent comment between two parts of a selector, behind a blank, is a number of pieces more. -/
theorem tokenize_commented (hcomment : tokenize (comment content) = .ok (pieces ++ [.raw "/"]))
    (hfront : AllStand left.toList front) (hleft : left ≠ "") (hblank : isBlankText left.toList)
    (hafter : AllStand [] after) (hfollow : ∀ token ∈ after.head?, token.mayFollow)
    (hcommented : commented.toList = front.flatMap Token.source ++ left.toList
      ++ (comment content).toList ++ after.flatMap Token.source) :
    tokenize commented = .ok (front ++ .blank left :: (pieces ++ slashed after)) := by
  obtain ⟨hsource, hpieces⟩ := tokensFrom_eq_ok_iff.1 hcomment
  have hslashed := allStand_slashed hafter hfollow
  have hsources : (pieces ++ slashed after).flatMap Token.source
      = (comment content).toList ++ after.flatMap Token.source := by
    rw [← hsource]
    simp [slashed_source, Token.source]
  have hinside : AllStand [] (pieces ++ slashed after) := by
    refine allStand_append.2 ⟨(allStand_append.1 hpieces).1.of_head ?_ (List.cons_ne_nil '/' _)
      (by simp [Token.source]) ?_, hslashed⟩
    · rw [slashed_source]
      rfl
    · rw [List.append_nil]
      exact parenthesized?_slashed hslashed
  have hbehind : Stands (.blank left) ((pieces ++ slashed after).flatMap Token.source ++ []) := by
    refine .blank hleft hblank ?_
    rw [hsources, comment]
    simp [isBlank]
  refine tokensFrom_eq_ok_iff.2 ⟨?_, allStand_append.2 ⟨?_, hbehind, hinside⟩⟩
  · rw [hcommented, List.flatMap_append, List.flatMap_cons, hsources]
    simp [Token.source]
  · obtain ⟨c, s, hchars⟩ := List.exists_cons_of_ne_nil (l := left.toList) (by simpa using hleft)
    rw [isBlankText, hchars, List.all_cons, Bool.and_eq_true] at hblank
    rw [hchars] at hfront
    rw [List.flatMap_cons, Token.source, hchars, List.append_assoc]
    exact hfront.of_blank hblank.1 _

theorem allStand_gap (h : AllStand [] back) (hblank : isBlankText right.toList)
    (hstop : (back.flatMap Token.source).head?.any isBlank = false) :
    AllStand [] (gap right ++ back) := by
  unfold gap
  split
  · exact h
  · next hright => exact ⟨.blank hright hblank (by rwa [List.append_nil]), h⟩

/-- The pieces of a selector with and without a comment: they are the same up to a blank, which
begins with `left`, and `after` are those that are left behind the comment. -/
theorem Inserted.pieces_eq (h : Inserted initial content selector commented) :
    ∃ front left old pieces after, tokenize selector = .ok (front ++ old) ∧
      tokenize commented = .ok (front ++ .blank left :: (pieces ++ slashed after)) ∧
      (pieces ++ [.raw "/"]).flatMap Token.source = (comment content).toList ∧
      pieces.all (Token.isInert (scopeAt initial front)) ∧ isBlankText left.toList ∧
      ((∃ right back, isBlankText right.toList ∧ old = .blank (left ++ right) :: back ∧
        after = gap right ++ back) ∨ old = [] ∧ after = []) := by
  cases h with
  | @between front back left right hpieces hleft hnext hsilent =>
    obtain ⟨pieces, hcomment, hinert⟩ := hsilent
    obtain ⟨hfront, hstands, hback⟩ := allStand_append.1 (tokensFrom_eq_ok_iff.1 hpieces).2
    rw [List.append_nil] at hstands
    obtain ⟨hblank, hstop⟩ : isBlankText (left ++ right).toList ∧
        (back.flatMap Token.source).head?.any isBlank = false := by
      cases hstands with
      | blank _ hall hstop => exact ⟨hall, hstop⟩
    rw [isBlankText, String.toList_append, List.all_append, Bool.and_eq_true] at hblank
    refine ⟨front, left, _, pieces, gap right ++ back, hpieces, ?_,
      (tokensFrom_eq_ok_iff.1 hcomment).1, hinert, hblank.1, .inl ⟨right, back, hblank.2, rfl, rfl⟩⟩
    refine tokenize_commented hcomment ?_ hleft hblank.1 (allStand_gap hback hblank.2 hstop) ?_ ?_
    · obtain ⟨c, s, hchars⟩ := List.exists_cons_of_ne_nil (l := left.toList) (by simpa using hleft)
      rw [hchars, List.all_cons, Bool.and_eq_true] at hblank
      rw [List.append_nil, List.flatMap_cons, Token.source, String.toList_append, hchars] at hfront
      rw [hchars]
      exact hfront.of_blank hblank.1.1 s
    · unfold gap
      split
      · next hright => exact hnext hright
      · rintro _ ⟨⟩
        rfl
    · simp [sourceText, gap_source]
  | @atEnd front left hpieces hsilent =>
    obtain ⟨pieces, hcomment, hinert⟩ := hsilent
    obtain ⟨hsource, hstand⟩ := tokensFrom_eq_ok_iff.1 hpieces
    obtain ⟨hfront, hstands, -⟩ := allStand_append.1 hstand
    have hselector : front.flatMap Token.source = selector.toList := by
      simpa [Token.source] using hsource
    simp only [List.flatMap_cons, List.flatMap_nil, List.append_nil, Token.source] at hfront
    obtain ⟨hleft, hblank⟩ : left ≠ "" ∧ isBlankText left.toList := by
      cases hstands with
      | blank hne hall => exact ⟨hne, hall⟩
    refine ⟨front, left, [], pieces, [], ?_, ?_, (tokensFrom_eq_ok_iff.1 hcomment).1, hinert,
      hblank, .inr ⟨rfl, rfl⟩⟩
    · have hend : Alike left.toList [] := .of_stop rfl rfl (by simp) (by simp)
      have hstand : AllStand [] front :=
        hfront.of_alike hend (absurd · (by simpa using hleft)) (by simp) rfl
      exact tokensFrom_eq_ok_iff.2 ⟨by simp [hselector], by simpa using hstand⟩
    · exact tokenize_commented hcomment hfront hleft hblank trivial (by simp) (by simp [hselector])

/-! ## What is asked for -/

theorem requestsOf_append (known : String → Bool) (initial scope : Scope)
    (tokens more : List Token) :
    requestsOf known initial scope (tokens ++ more) = requestsOf known initial scope tokens
      ++ requestsOf known initial
        (tokens.foldl (fun scope token => token.scopeAfter initial scope) scope) more := by
  induction tokens generalizing scope with
  | nil => rfl
  | cons token tokens ih =>
    rw [List.cons_append, requestsOf_cons, ih, requestsOf_cons, List.append_assoc]
    rfl

theorem requestsOf_inert (h : pieces.all (Token.isInert scope)) (tokens : List Token) :
    requestsOf known initial scope (pieces ++ tokens) = requestsOf known initial scope tokens := by
  induction pieces with
  | nil => rfl
  | cons token pieces ih =>
    rw [List.all_cons, Bool.and_eq_true] at h
    rw [List.cons_append, requestsOf_cons]
    cases token with
    | blank | raw => exact ih h.2
    | className name =>
      obtain rfl : scope = .globalScope := of_decide_eq_true h.1
      exact ih h.2
    | comma | marker | within | composition => cases h.1

theorem requestsOf_slashed (tokens : List Token) :
    requestsOf known initial scope (slashed tokens) = requestsOf known initial scope tokens := by
  rcases slashed_cases tokens with ⟨hsame, -⟩ | ⟨name, more, rfl, -, hsame⟩ <;> (rw [hsame]; rfl)

/-- **A selector with a silent comment** asks for what the selector asks for. -/
theorem requests_inserted (h : Inserted initial content selector commented) :
    requests known initial commented = requests known initial selector := by
  obtain ⟨front, left, old, pieces, after, hselector, hcommented, -, hinert, -, hold⟩ := h.pieces_eq
  have hblank (text : String) (tokens : List Token) (scope : Scope) :
      requestsOf known initial scope (.blank text :: tokens)
        = requestsOf known initial scope tokens := rfl
  have hafter (scope : Scope) :
      requestsOf known initial scope after = requestsOf known initial scope old := by
    rcases hold with ⟨right, back, -, rfl, rfl⟩ | ⟨rfl, rfl⟩
    · unfold gap
      split <;> rfl
    · rfl
  rw [requests_eq, requests_eq, hselector, hcommented]
  dsimp only
  rw [requestsOf_append, requestsOf_append, hblank, ← scopeAt, requestsOf_inert hinert,
    requestsOf_slashed, hafter]

/-! ## Comments of harmless characters -/

/-- A character that begins nothing but names, blanks and signs. -/
def isHarmless (c : Char) : Bool := !(['.', ',', ':', '\'', '"', '['].contains c)

theorem tokensFrom_of_not_mem (whole : String) (h : ':' ∉ s) :
    ∃ tokens, tokensFrom whole s = .ok tokens := by
  fun_induction tokensFrom whole s with
  | case1 => exact ⟨[], rfl⟩
  | case2 c rest scope hnext =>
    obtain ⟨rfl, -⟩ := nextToken_error hnext
    exact absurd List.mem_cons_self h
  | case3 c rest token rest' hnext ih =>
    rw [← nextToken_source hnext] at h
    obtain ⟨tokens, htokens⟩ := ih fun hmem => h (List.mem_append_right _ hmem)
    rw [htokens]
    exact ⟨token :: tokens, rfl⟩

/-- A text of harmless characters has pieces that mean nothing. -/
theorem exists_inert (h : s.all isHarmless) (scope : Scope) :
    ∃ pieces, pieces.flatMap Token.source = s ∧ AllStand [] pieces ∧
      pieces.all (Token.isInert scope) := by
  have hchar (c : Char) (hc : c ∈ s) : isHarmless c := List.all_eq_true.1 h c hc
  have hcolon : ':' ∉ s := fun hmem => absurd (hchar _ hmem) (by decide)
  obtain ⟨tokens, htokens⟩ := tokensFrom_of_not_mem (String.ofList s) hcolon
  obtain ⟨hsource, hstand⟩ := tokensFrom_eq_ok_iff.1 htokens
  refine ⟨tokens, hsource, hstand, List.all_eq_true.2 fun token hmem => ?_⟩
  have htoken (c : Char) (hc : c ∈ token.source) : isHarmless c :=
    hchar c (hsource ▸ List.mem_flatMap_of_mem hmem hc)
  cases token with
  | blank | raw => rfl
  | comma => exact absurd (htoken ',' (by simp [Token.source])) (by decide)
  | className => exact absurd (htoken '.' (by simp [Token.source])) (by decide)
  | marker | within | composition =>
    exact absurd (htoken ':' (by simp [Token.source, Composition.source])) (by decide)

/-- **A comment without dots, colons, commas, quotes and brackets** means nothing in any scope. -/
theorem isSilent_of_forall (h : content.toList.all isHarmless) (scope : Scope) :
    IsSilent scope content := by
  have hopened : ('/' :: '*' :: content.toList).all isHarmless := h
  obtain ⟨pieces, hsource, hstand, hinert⟩ := exists_inert hopened scope
  refine ⟨pieces ++ [.raw "*"], tokensFrom_eq_ok_iff.2 ⟨?_, ?_⟩, by simp [hinert, Token.isInert]⟩
  · simp [hsource, comment, Token.source]
  · have hend : Alike [] ['*', '/'] := .of_stop rfl rfl (by simp) (by simp)
    have hstar : Stands (.raw "*") ['/'] := .sign (c := '*') _ (by decide)
    rw [List.append_assoc]
    refine allStand_append.2 ⟨hstand.of_alike hend ?_ (by simp [Token.source]) rfl,
      hstar, ?_, trivial⟩
    · -- no quote and no bracket is open at the end of the text
      refine fun _ token hmem => isOpen_of_plain fun c hc => ?_
      have hc := List.all_eq_true.1 hopened c (hsource ▸ List.mem_flatMap_of_mem hmem hc)
      simp_all [isHarmless, isQuote]
    · exact .name (by decide) rfl rfl

end Selector
end ScopedCss
