import Mathlib.Data.List.Basic
import Mathlib.Data.List.TakeWhile
import ScopedCss.Selector.Lexer
import ScopedCss.Proofs.Selector.Bracketed

/-!
# Pieces are maximal

A piece of a selector is as long as it can be: no character of a name follows a name, and no blank
stands next to a run of blanks.

* `Fits` says what is known of a piece from its having been read in front of a text;
  `nextToken_fits` is all that is used of the reading of one piece.
* `tokenize_maximal`: the pieces are the selector, with whole names and whole runs of blanks.
-/

namespace ScopedCss
namespace Selector

open Text

variable {c : Char} {s rest : List Char} {token : Token} {tokens : List Token}

/-! ## What fits in front of a text -/

/-- What is known of a piece that was read in front of the text `rest`. -/
inductive Fits : Token → List Char → Prop
  | comma (rest : List Char) : Fits .comma rest
  | blank {text : String} {rest : List Char} (hne : text ≠ "") (hall : text.toList.all isBlank)
      (hstop : rest.head?.any isBlank = false) : Fits (.blank text) rest
  | className {name : String} {rest : List Char} (hname : isClassName name)
      (hstop : rest.head?.any isNameChar = false) : Fits (.className name) rest
  | marker (scope : Scope) (rest : List Char) : Fits (.marker scope) rest
  | within {scope : Scope} {content : String} {rest : List Char}
      (hclosed : splitParens? 1 none (content.toList ++ ')' :: rest)
        = some (content.toList, rest)) :
      Fits (.within scope content) rest
  | composition {reference : Composition} {rest : List Char}
      (halias : isClassName reference.aliasName) (hremote : isClassName reference.remote)
      (hstop : reference.parenthesized = false → rest.head?.any isNameChar = false) :
      Fits (.composition reference) rest
  /-- A raw text at whose end something is open takes all that is left. -/
  | raw {text : String} {rest : List Char} (hstart : text.toList.head?.any (!isBlank ·))
      (hend : rest = [] ∨
        text.toList.getLast?.any isBlank = false ∧ openQuote none text.toList = none) :
      Fits (.raw text) rest

theorem Fits.of_blank {text : String} (h : Fits (.blank text) rest) :
    text ≠ "" ∧ text.toList.all isBlank ∧ rest.head?.any isBlank = false := by
  cases h with
  | blank hne hall hstop => exact ⟨hne, hall, hstop⟩

theorem Fits.of_within {scope : Scope} {content : String} (h : Fits (.within scope content) rest) :
    splitParens? 1 none (content.toList ++ ')' :: rest) = some (content.toList, rest) := by
  cases h with
  | within hclosed => exact hclosed

/-- A raw text without blanks and quotes fits in front of anything. -/
theorem Fits.plain (text : List Char) (hne : text ≠ [])
    (hall : ∀ c ∈ text, isBlank c = false ∧ isQuote c = false) (rest : List Char) :
    Fits (.raw (String.ofList text)) rest := by
  refine .raw ?_ (.inr ⟨?_, ?_⟩) <;> rw [String.toList_ofList]
  · obtain ⟨c, text, rfl⟩ := List.exists_cons_of_ne_nil hne
    simpa using (hall c List.mem_cons_self).1
  · exact getLast?_any_of_forall fun c hc => (hall c hc).1
  · exact openQuote_of_forall fun c hc => (hall c hc).2

/-- A raw text of one character and a name after it fits in front of anything. -/
theorem Fits.plain_cons (hblank : isBlank c = false) (hquote : isQuote c = false)
    (name rest : List Char) :
    Fits (.raw (String.ofList (c :: name.takeWhile isNameChar))) rest := by
  refine .plain _ (List.cons_ne_nil _ _) (fun d hd => ?_) rest
  rcases List.mem_cons.1 hd with rfl | hd
  · exact ⟨hblank, hquote⟩
  · have hname := List.mem_takeWhile_imp hd
    exact ⟨isBlank_of_isNameChar hname, isQuote_of_isNameChar hname⟩

/-! ## Reading one piece -/

theorem remote?_isClassName {remote : List Char} (h : remote? s = some (remote, rest)) :
    isClassName (String.ofList remote) ∧ rest.head?.any isNameChar = false := by
  unfold remote? at h
  split at h
  · next s' =>
    split at h
    · cases h
    · next hne =>
      cases h
      exact ⟨isClassName_ofList hne List.all_takeWhile, head?_any_dropWhile _ _⟩
  · cases h

theorem composition?_fits {dotted : Bool} {aliasName : List Char} {reference : Composition}
    (hne : aliasName ≠ []) (hall : aliasName.all isNameChar)
    (h : composition? dotted aliasName s = some (reference, rest)) :
    Fits (.composition reference) rest := by
  obtain ⟨parts, hparts, heq⟩ := Option.map_eq_some_iff.1 h
  cases heq
  obtain ⟨hremote, hstop⟩ := remote?_isClassName hparts
  exact .composition (isClassName_ofList hne hall) hremote fun _ => hstop

theorem parenthesized?_fits {reference : Composition}
    (h : parenthesized? s = some (reference, rest)) :
    Fits (.composition reference) rest := by
  unfold parenthesized? at h
  extract_lets dotted s' at h
  split at h
  · cases h
  · next hne =>
    split at h
    · next hremote =>
      cases h
      exact .composition (isClassName_ofList hne List.all_takeWhile)
        (remote?_isClassName hremote).1 nofun
    · cases h

theorem quoteToken_fits (hc : isQuote c) (hblank : isBlank c = false) (s : List Char) :
    Fits (quoteToken c s).1 (quoteToken c s).2 := by
  unfold quoteToken
  split
  · next h =>
    refine .raw ?_ (.inr ⟨?_, ?_⟩) <;> rw [String.toList_ofList]
    · simpa using hblank
    · simpa [List.getLast?_cons] using hblank
    · rw [List.cons_append, openQuote_cons, nextQuote, if_pos hc, openQuote_splitQuote? h]
  · exact .raw (by simpa using hblank) (.inl rfl)

theorem dotToken_fits (s : List Char) : Fits (dotToken s).1 (dotToken s).2 := by
  unfold dotToken
  split
  · exact .plain ['.'] (by simp) (by simp [isBlank, isQuote]) s
  · next hne =>
    dsimp only
    split
    · next h => exact composition?_fits hne List.all_takeWhile h
    · exact .className (isClassName_ofList hne List.all_takeWhile) (head?_any_dropWhile _ _)

theorem markerToken_fits {scope : Scope} (h : markerToken scope s = .ok (token, rest)) :
    Fits token rest := by
  unfold markerToken at h
  split at h
  · split at h
    · next hparens =>
      cases h
      refine .within ?_
      rw [String.toList_ofList, ← splitParens?_eq_some hparens, hparens]
    · cases h
  · cases h
    exact .marker scope _

theorem colonToken_fits (h : colonToken s = .ok (token, rest)) : Fits token rest := by
  unfold colonToken at h
  split at h
  · cases h
    exact .plain [':', ':'] (by simp) (by simp [isBlank, isQuote]) _
  · dsimp only at h
    split at h
    · exact markerToken_fits h
    · cases h
      have hplain := Fits.plain_cons (c := ':') (by decide) (by decide) s (s.dropWhile isNameChar)
      rwa [← List.singleton_append, String.ofList_append] at hplain

theorem parenToken_fits (s : List Char) : Fits (parenToken s).1 (parenToken s).2 := by
  unfold parenToken
  split
  · next h => exact parenthesized?_fits h
  · exact .plain ['('] (by simp) (by simp [isBlank, isQuote]) s

theorem nameToken_fits (hc : isNameChar c) (s : List Char) :
    Fits (nameToken c s).1 (nameToken c s).2 := by
  unfold nameToken
  dsimp only
  split
  · next h => exact composition?_fits (List.cons_ne_nil _ _) (by simp [hc]) h
  · exact .plain_cons (isBlank_of_isNameChar hc) (isQuote_of_isNameChar hc) s _

theorem bracketToken_fits (s : List Char) :
    Fits (.raw (String.ofList ('[' :: (splitBracket none s).1))) (splitBracket none s).2 := by
  refine .raw ?_ ?_ <;> rw [String.toList_ofList]
  · rfl
  · refine (splitBracket_closed none s).imp_right fun ⟨hlast, hquote⟩ => ⟨?_, hquote⟩
    rw [List.getLast?_cons, hlast]
    rfl

/-- A piece fits in front of what is left of the text it was read from. -/
theorem nextToken_fits (h : nextToken c s = .ok (token, rest)) : Fits token rest := by
  unfold nextToken at h
  repeat' split at h
  · cases h; exact .comma _
  · next hc => cases h; exact .blank (by simp) (by simp [hc]) (head?_any_dropWhile _ _)
  · next hc => cases h; exact hc ▸ bracketToken_fits s
  · next hblank _ hc => simpa [Except.ok.inj h] using quoteToken_fits hc (by simpa using hblank) s
  · simpa [Except.ok.inj h] using dotToken_fits s
  · exact colonToken_fits h
  · simpa [Except.ok.inj h] using parenToken_fits s
  · next hc => cases h; exact hc ▸ .plain_cons (by decide) (by decide) s _
  · next hc => simpa [Except.ok.inj h] using nameToken_fits hc s
  · next hblank _ hquote _ _ _ _ _ =>
    cases h
    exact .plain [c] (by simp) (by simpa using And.intro hblank hquote) _

/-! ## The ends of a piece -/

/-- The characters of a reference are those of names, dots, colons and parentheses. -/
theorem Composition.forall_source {reference : Composition} {p : Char → Prop}
    (halias : isClassName reference.aliasName) (hremote : isClassName reference.remote)
    (hname : ∀ c, isNameChar c → p c) (hmarks : ∀ c ∈ ['(', '.', ':', ')'], p c) :
    ∀ c ∈ reference.source, p c := by
  intro c hc
  simp only [Composition.source, List.mem_append, List.mem_ite_nil_right, List.mem_cons,
    List.not_mem_nil, or_false] at hc
  obtain ((((⟨-, rfl⟩ | ⟨-, rfl⟩) | hc) | rfl | rfl) | hc) | ⟨-, rfl⟩ := hc
  case inl.inl.inl.inr => exact hname c (isNameChar_of_isClassName halias hc)
  case inl.inr => exact hname c (isNameChar_of_isClassName hremote hc)
  all_goals exact hmarks _ (by decide)

/-- Every other piece than blanks begins with something else than a blank, and ends so, unless it
takes all that is left. -/
theorem Fits.ends_source (h : Fits token rest) (hother : ∀ text, token ≠ .blank text) :
    token.source.head?.any (!isBlank ·) ∧
    (rest ≠ [] → token.source.getLast?.any isBlank = false) := by
  have hsolid (hne : token.source ≠ []) (hall : ∀ c ∈ token.source, isBlank c = false) :
      token.source.head?.any (!isBlank ·) ∧
        (rest ≠ [] → token.source.getLast?.any isBlank = false) := by
    refine ⟨?_, fun _ => getLast?_any_of_forall hall⟩
    obtain ⟨c, s, hs⟩ := List.exists_cons_of_ne_nil hne
    simpa [hs] using hall c (hs ▸ List.mem_cons_self)
  cases h with
  | blank => exact absurd rfl (hother _)
  | comma => exact hsolid (List.cons_ne_nil _ _) (by simp [Token.source, isBlank])
  | className hname =>
    exact hsolid (List.cons_ne_nil _ _)
      (List.forall_mem_cons.2
        ⟨rfl, fun c hc => isBlank_of_isNameChar (isNameChar_of_isClassName hname hc)⟩)
  | marker scope =>
    exact hsolid (List.cons_ne_nil _ _)
      (by cases scope <;> simp [Token.source, Scope.name, isBlank])
  | within => exact ⟨rfl, fun _ => by simp [Token.source, List.getLast?_cons]; decide⟩
  | @composition reference _ halias hremote =>
    exact hsolid reference.source_ne_nil
      (Composition.forall_source halias hremote (fun _ => isBlank_of_isNameChar)
        (by simp [isBlank]))
  | raw hstart hend => exact ⟨hstart, fun hrest => (hend.resolve_left hrest).1⟩

theorem Fits.source_ne_nil (h : Fits token rest) : token.source ≠ [] := by
  intro hnil
  by_cases hblank : ∃ text, token = .blank text
  · obtain ⟨text, rfl⟩ := hblank
    exact h.of_blank.1 (by simpa [Token.source] using hnil)
  · have hstart := (h.ends_source (by simpa using hblank)).1
    simp [hnil] at hstart

/-! ## All pieces -/

/-- Every piece fits in front of the ones after it. -/
def AllFit (tokens : List Token) : Prop :=
  ∀ before token after, tokens = before ++ token :: after → Fits token (after.flatMap Token.source)

theorem tokensFrom_allFit {whole : String} (h : tokensFrom whole s = .ok tokens) :
    AllFit tokens := by
  fun_induction tokensFrom whole s generalizing tokens with
  | case1 =>
    cases h
    intro before token after heq
    cases before <;> cases heq
  | case2 => cases h
  | case3 c rest token rest' hnext ih =>
    cases hmore : tokensFrom whole rest' with
    | error fault => rw [hmore] at h; cases h
    | ok more =>
      rw [hmore] at h
      cases h
      intro before other after heq
      cases before with
      | nil =>
        cases heq
        rw [tokensFrom_source hmore]
        exact nextToken_fits hnext
      | cons first before =>
        cases heq
        exact ih hmore before other after rfl

theorem tokenize_allFit {selector : String} (h : tokenize selector = .ok tokens) : AllFit tokens :=
  tokensFrom_allFit h

theorem AllFit.head (h : AllFit (token :: tokens)) : Fits token (tokens.flatMap Token.source) :=
  h [] token tokens rfl

theorem AllFit.of_append (front : List Token) (h : AllFit (front ++ tokens)) : AllFit tokens := by
  rintro before token after rfl
  exact h (front ++ before) token after (List.append_assoc _ _ _).symm

theorem AllFit.isBlankText_of_mem {text : String} (h : AllFit tokens)
    (hmem : .blank text ∈ tokens) :
    isBlankText text.toList := by
  obtain ⟨before, after, hsplit⟩ := List.append_of_mem hmem
  exact (h before _ after hsplit).of_blank.2.1

/-- No blank stands in front of a run of blanks. -/
theorem AllFit.getLast?_of_blank {before after : List Token} {text : String}
    (h : AllFit (before ++ .blank text :: after)) :
    (before.flatMap Token.source).getLast?.any isBlank = false := by
  rcases before.eq_nil_or_concat' with rfl | ⟨front, last, rfl⟩
  · rfl
  · obtain ⟨hne, hall, -⟩ := (h (front ++ [last]) (.blank text) after rfl).of_blank
    obtain ⟨c, blanks, htext⟩ := List.exists_cons_of_ne_nil (l := text.toList) (by simpa using hne)
    have hc : isBlank c := by
      rw [htext] at hall
      exact List.all_eq_true.1 hall c List.mem_cons_self
    have hlast := h front last (.blank text :: after) (by simp)
    -- two runs of blanks do not stand side by side
    have hother : ∀ text', last ≠ .blank text' := by
      rintro text' rfl
      have hstop := hlast.of_blank.2.2
      simp [Token.source, htext, hc] at hstop
    rw [List.flatMap_append, List.flatMap_singleton,
      List.getLast?_append_of_ne_nil _ hlast.source_ne_nil]
    exact (hlast.ends_source hother).2 (by simp [Token.source, htext])

/-! ## The names in a piece -/

/-- The names in a piece: what stands before the name in the piece, the name, and what stands behind
it. -/
def Token.names : Token → List (List Char × String × List Char)
  | .className name => [(['.'], name, [])]
  | .composition c =>
    let front := (if c.parenthesized then ['('] else []) ++ (if c.dotted then ['.'] else [])
    let close := if c.parenthesized then [')'] else []
    [(front, c.aliasName, ':' :: ':' :: c.remote.toList ++ close),
      (front ++ c.aliasName.toList ++ [':', ':'], c.remote, close)]
  | _ => []

theorem Token.source_of_mem_names {front behind : List Char} {name : String}
    (h : (front, name, behind) ∈ token.names) : token.source = front ++ name.toList ++ behind := by
  cases token with
  | className => simp_all [Token.names, Token.source]
  | composition reference =>
    simp only [Token.names, List.mem_cons, Prod.mk.injEq, List.not_mem_nil, or_false] at h
    obtain ⟨rfl, rfl, rfl⟩ | ⟨rfl, rfl, rfl⟩ := h <;> simp [Token.source, Composition.source]
  | _ => cases h

/-- A name is whole: no other character of a name follows it. -/
theorem Fits.names_whole {front behind : List Char} {name : String} (h : Fits token rest)
    (hname : (front, name, behind) ∈ token.names) :
    isClassName name ∧ (behind ++ rest).head?.any isNameChar = false := by
  cases h with
  | className hclass hstop =>
    obtain ⟨rfl, rfl, rfl⟩ := by simpa [Token.names] using hname
    exact ⟨hclass, hstop⟩
  | composition halias hremote hstop =>
    simp only [Token.names, List.mem_cons, Prod.mk.injEq, List.not_mem_nil, or_false] at hname
    obtain ⟨-, rfl, rfl⟩ | ⟨-, rfl, rfl⟩ := hname
    · exact ⟨halias, rfl⟩
    · refine ⟨hremote, ?_⟩
      split
      · rfl
      · next hopen => exact hstop (by simpa using hopen)
  | _ => cases hname

/-- **The pieces are the selector, and they are maximal.** Written one after the other they give the
selector again; every class, alias and remote class is a class name that no character of a name
follows; and every run of blanks has a blank in it, and none beside it. -/
theorem tokenize_maximal {selector : String} (h : tokenize selector = .ok tokens) :
    tokens.flatMap Token.source = selector.toList ∧
    ∀ before token after, tokens = before ++ token :: after →
      (∀ front name behind, (front, name, behind) ∈ token.names →
        token.source = front ++ name.toList ++ behind ∧ isClassName name ∧
          (behind ++ after.flatMap Token.source).head?.any isNameChar = false) ∧
      (∀ text, token = .blank text → text ≠ "" ∧ text.toList.all isBlank ∧
        (before.flatMap Token.source).getLast?.any isBlank = false ∧
        (after.flatMap Token.source).head?.any isBlank = false) := by
  have hfit := tokenize_allFit h
  refine ⟨tokenize_source h, fun before token after heq => ⟨fun front name behind hname => ?_, ?_⟩⟩
  · exact ⟨Token.source_of_mem_names hname, (hfit before token after heq).names_whole hname⟩
  · rintro text rfl
    obtain ⟨hne, hall, hstop⟩ := (hfit before _ after heq).of_blank
    exact ⟨hne, hall, (heq ▸ hfit).getLast?_of_blank, hstop⟩

/-- A class, two blanks, a reference in parentheses, and a bracket that is not closed. -/
theorem tokenize_maximal_parenthesized :
    let selector := ".ab  (.c::d)['e"
    let tokens : List Token :=
      [.className "ab", .blank "  ", .composition ⟨true, "c", "d", true⟩, .raw "['e"]
    tokenize selector = .ok tokens ∧ tokens.flatMap Token.source = selector.toList ∧
      isClassName "ab" ∧ isClassName "c" ∧ isClassName "d" ∧
      (Token.source (.className "ab")).getLast?.any isBlank = false := by
  intro selector tokens
  have h : tokenize selector = .ok tokens := by decide +kernel
  obtain ⟨hsource, hpieces⟩ := tokenize_maximal h
  obtain ⟨hab, -⟩ := hpieces [] (.className "ab") _ rfl
  obtain ⟨-, hblank⟩ := hpieces [.className "ab"] (.blank "  ") _ rfl
  obtain ⟨hnames, -⟩ :=
    hpieces [.className "ab", .blank "  "] (.composition ⟨true, "c", "d", true⟩) _ rfl
  exact ⟨h, hsource, (hab _ _ _ (.head _)).2.1, (hnames _ _ _ (.head _)).2.1,
    (hnames _ _ _ (.tail _ (.head _))).2.1, (hblank _ rfl).2.2.1⟩

end Selector
end ScopedCss
