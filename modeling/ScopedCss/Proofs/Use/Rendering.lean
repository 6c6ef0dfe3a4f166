import ScopedCss.Proofs.Use.Grammar

/-!
# Written `@use` directives

The words of a directive can be written in many ways: the blanks around them are free, as long as
two words that would run together have a blank between them. However a directive is written, it
reads back.

* `Renders`: the texts of words, with any blanks around these.
* `tokensOf?_of_renders`: cutting such a text gives the words, so that blanks mean nothing.
* `parse_of_renders`: a written directive gives its references, in their order, and its path.
-/

namespace ScopedCss
namespace Use

open Text

/-- The token is a run of word characters. -/
def Token.isWord : Token → Bool
  | .className _ | .fromWord | .asWord | .word _ => true
  | .comma | .openParen | .closeParen | .quoted _ => false

/-- The text of a token, where a quoted text stands in these quotes. -/
def Token.written (quote : Char) : Token → List Char
  | .quoted text => quote :: (text.toList ++ [quote])
  | token => token.text.toList

/-- The token can be told from its text: its class name is one, and its quoted text has no such
quote in it. Words that no directive has are left out. -/
def Token.Legible (quote : Char) : Token → Prop
  | .className name => isClassName name
  | .quoted text => quote ∉ text.toList
  | .word _ => False
  | .fromWord | .asWord | .comma | .openParen | .closeParen => True

/-- The text is that of the tokens, with any blanks before, between and behind them, but at least
one between two words. -/
inductive Renders (quote : Char) : List Token → List Char → Prop where
  | nil {blanks : List Char} (hblanks : isBlankText blanks) : Renders quote [] blanks
  | cons {blanks rest : List Char} {token : Token} {tokens : List Token}
      (hblanks : isBlankText blanks)
    (hapart : token.isWord → tokens.head?.any Token.isWord → rest.head?.any isBlank)
    (hrest : Renders quote tokens rest) :
    Renders quote (token :: tokens) (blanks ++ (token.written quote ++ rest))

variable {quote c : Char} {token : Token} {tokens : List Token} {text rest : List Char}

/-! ## The characters of words -/

theorem isWordChar_of_isNameChar (h : isNameChar c) : isWordChar c := by
  simp only [isNameChar, isWordChar, isQuote, List.contains_cons, Bool.and_eq_true,
    Bool.not_eq_true', Bool.or_eq_false_iff] at h ⊢
  grind

theorem isWordChar_of_isBlank (h : isBlank c) : isWordChar c = false := by
  simp [isWordChar, h]

theorem isWordChar_of_isQuote (h : isQuote c) : isWordChar c = false := by
  simp [isWordChar, h]

/-- A legible word is cut out as a whole, and is the token again. -/
theorem Token.Legible.ofWord (h : token.Legible quote) (hword : token.isWord) :
    token.written quote ≠ [] ∧ (token.written quote).all isWordChar ∧
      Token.ofWord (token.written quote) = token := by
  cases token with
  | className name =>
    have hclass : isClassName name := h
    have hwritten : (Token.className name).written quote = '.' :: name.toList := by
      simp [written, Token.text]
    have hall : name.toList.all isWordChar := by
      rw [List.all_eq_true]
      exact fun c hc => isWordChar_of_isNameChar (isNameChar_of_isClassName hclass hc)
    rw [hwritten, List.all_cons, hall]
    exact ⟨List.cons_ne_nil _ _, rfl, by simp [Token.ofWord, hclass]⟩
  | fromWord =>
    rw [show Token.fromWord.written quote = ['f', 'r', 'o', 'm'] from rfl]
    exact ⟨List.cons_ne_nil _ _, rfl, rfl⟩
  | asWord =>
    rw [show Token.asWord.written quote = ['a', 's'] from rfl]
    exact ⟨List.cons_ne_nil _ _, rfl, rfl⟩
  | word => cases h
  | comma | openParen | closeParen | quoted => cases hword

/-- Any other token begins with a character that no word has. -/
theorem head?_written (hquote : isQuote quote) (hword : token.isWord = false) (rest : List Char) :
    (token.written quote ++ rest).head?.any isWordChar = false := by
  cases token with
  | quoted => exact isWordChar_of_isQuote hquote
  | comma | openParen | closeParen => rfl
  | className | fromWord | asWord | word => cases hword

/-! ## Cutting a text -/

theorem tokensOf?_blanks {blanks : List Char} (hblanks : isBlankText blanks) (rest : List Char) :
    tokensOf? (blanks ++ rest) = tokensOf? rest := by
  induction blanks with
  | nil => rfl
  | cons c blanks ih =>
    obtain ⟨hc, hblanks⟩ := isBlankText_cons.1 hblanks
    have hother (d : Char) (hd : isBlank d = false) : c ≠ d := by
      rintro rfl
      cases hc.symm.trans hd
    have hquote : isQuote c = false := isQuote_of hc rfl rfl
    rw [List.cons_append, tokensOf?, hquote, if_neg Bool.false_ne_true, if_neg (hother _ rfl),
      if_neg (hother _ rfl), if_neg (hother _ rfl), if_pos hc]
    exact ih hblanks

theorem tokensOf?_quoted (hquote : isQuote quote) {inside : List Char} (hinside : quote ∉ inside)
    (rest : List Char) :
    tokensOf? (quote :: (inside ++ quote :: rest))
      = (tokensOf? rest).map (.quoted (String.ofList inside) :: ·) := by
  rw [tokensOf?, if_pos hquote]
  have hsplit := splitQuote?_append hinside rest
  split
  · next inside' after h =>
    obtain ⟨rfl, rfl⟩ := Prod.mk.inj (Option.some.inj (h.symm.trans hsplit))
    rfl
  · next h => cases h.symm.trans hsplit

theorem tokensOf?_word {word : List Char} (hne : word ≠ []) (hword : word.all isWordChar)
    (hstop : rest.head?.any isWordChar = false) :
    tokensOf? (word ++ rest) = (tokensOf? rest).map (Token.ofWord word :: ·) := by
  obtain ⟨c, word, rfl⟩ := List.exists_cons_of_ne_nil hne
  rw [List.all_cons, Bool.and_eq_true] at hword
  obtain ⟨hc, hword⟩ := hword
  obtain ⟨htake, hdrop⟩ := span_append hword hstop
  have hother (d : Char) (hd : isWordChar d = false) : c ≠ d := by
    rintro rfl
    cases hc.symm.trans hd
  have hquote : isQuote c = false := isQuote_of hc rfl rfl
  have hblank : isBlank c = false := by
    cases hblank : isBlank c with
    | true => cases hc.symm.trans (isWordChar_of_isBlank hblank)
    | false => rfl
  rw [List.cons_append, tokensOf?, hquote, if_neg Bool.false_ne_true, if_neg (hother _ rfl),
    if_neg (hother _ rfl), if_neg (hother _ rfl), hblank, if_neg Bool.false_ne_true, htake, hdrop]

/-- A token that what follows does not go on with is cut off. -/
theorem tokensOf?_written (hquote : isQuote quote) (h : token.Legible quote)
    (hstop : token.isWord → rest.head?.any isWordChar = false) :
    tokensOf? (token.written quote ++ rest) = (tokensOf? rest).map (token :: ·) := by
  cases hword : token.isWord with
  | true =>
    obtain ⟨hne, hall, hof⟩ := h.ofWord hword
    rw [tokensOf?_word hne hall (hstop hword), hof]
  | false =>
    cases token with
    | quoted text =>
      have hcut := tokensOf?_quoted hquote h rest
      rw [String.ofList_toList] at hcut
      simpa [Token.written] using hcut
    | comma | openParen | closeParen =>
      show tokensOf? (_ :: rest) = _
      rw [tokensOf?]
      rfl
    | className | fromWord | asWord | word => cases hword

/-! ## Reading a written directive -/

/-- What follows a word does not go on with it. -/
theorem Renders.stops (hquote : isQuote quote) (hlegible : ∀ token ∈ tokens, token.Legible quote)
    (h : Renders quote tokens text)
    (hapart : tokens.head?.any Token.isWord → text.head?.any isBlank) :
    text.head?.any isWordChar = false := by
  cases h with
  | nil hblanks =>
    cases text with
    | nil => rfl
    | cons c blanks => exact isWordChar_of_isBlank (isBlankText_cons.1 hblanks).1
  | @cons blanks rest token tokens hblanks hnext hrest =>
    cases blanks with
    | cons c blanks => exact isWordChar_of_isBlank (isBlankText_cons.1 hblanks).1
    | nil =>
      cases hword : token.isWord with
      | false => exact head?_written hquote hword rest
      | true =>
        -- the word would begin with a blank
        obtain ⟨hne, hall, -⟩ := (hlegible token List.mem_cons_self).ofWord hword
        obtain ⟨c, word, hwritten⟩ := List.exists_cons_of_ne_nil hne
        have hblank : isBlank c := by simpa [hwritten] using hapart hword
        rw [hwritten, List.all_cons, Bool.and_eq_true] at hall
        cases hall.1.symm.trans (isWordChar_of_isBlank hblank)

/-- **Cutting a written text gives its words.** -/
theorem tokensOf?_of_renders (hquote : isQuote quote)
    (hlegible : ∀ token ∈ tokens, token.Legible quote) (h : Renders quote tokens text) :
    tokensOf? text = some tokens := by
  induction h with
  | @nil blanks hblanks =>
    rw [← List.append_nil blanks, tokensOf?_blanks hblanks, tokensOf?]
  | @cons blanks rest token tokens hblanks hapart hrest ih =>
    obtain ⟨htoken, htokens⟩ := List.forall_mem_cons.1 hlegible
    have hstop (hword : token.isWord) : rest.head?.any isWordChar = false :=
      hrest.stops hquote htokens (hapart hword)
    rw [tokensOf?_blanks hblanks, tokensOf?_written hquote htoken hstop, ih htokens]
    rfl

theorem Clause.legible (clause : Clause)
    (hnames : isClassName clause.reference.className ∧ isClassName clause.reference.label) :
    ∀ token ∈ clause.tokens, token.Legible quote := by
  obtain ⟨name, _ | label⟩ := clause
  · simpa [tokens, Token.Legible, reference] using hnames
  · simpa [tokens, Token.Legible, reference] using hnames

/-- The words of references are legible if their classes and labels are class names. -/
theorem legible_of_spells {references : List Reference} (h : SpellsReferences tokens references)
    (hnames : ∀ r ∈ references, isClassName r.className ∧ isClassName r.label) :
    ∀ token ∈ tokens, token.Legible quote := by
  cases h with
  | single clause => exact clause.legible (hnames _ List.mem_cons_self)
  | listed first more =>
    obtain ⟨hfirst, hmore⟩ := List.forall_mem_cons.1 hnames
    have hclauses : ∀ token ∈ more.flatMap fun clause => Token.comma :: clause.tokens,
        token.Legible quote := by
      intro token htoken
      obtain ⟨clause, hclause, hmem⟩ := List.mem_flatMap.1 htoken
      rcases List.mem_cons.1 hmem with rfl | hmem
      · trivial
      · exact clause.legible (hmore _ (List.mem_map_of_mem hclause)) token hmem
    rw [List.forall_mem_cons, List.forall_mem_append, Clause.listed, List.forall_mem_append]
    exact ⟨trivial, ⟨first.legible hfirst, hclauses⟩, by simp [Token.Legible]⟩

/-- **A written `@use` directive reads back.** Its references stand alone or in parentheses, each as
`.class` or `.class as .label`, and the path in quotes that it does not have in it. -/
theorem parse_of_renders {references : List Reference} {path params : String}
    (hnames : ∀ r ∈ references, isClassName r.className ∧ isClassName r.label)
    (hquote : isQuote quote) (hpath : quote ∉ path.toList)
    (hspells : SpellsReferences tokens references)
    (hparams : Renders quote (tokens ++ [.fromWord, .quoted path]) params.toList) :
    Directive.parse params = .ok ⟨references, path⟩ := by
  have hlegible : ∀ token ∈ tokens ++ [.fromWord, .quoted path], token.Legible quote := by
    rw [List.forall_mem_append]
    exact ⟨legible_of_spells hspells hnames, by simpa [Token.Legible] using hpath⟩
  unfold Directive.parse tokenize?
  rw [tokensOf?_of_renders hquote hlegible hparams]
  exact ofTokens_eq_ok_iff.2 (.mk path hspells)

/-- Names that are words of the grammar, blanks that are no spaces, and a path that has the other
quote, a comma and parentheses in it. -/
theorem parse_of_renders_listed :
    let references : List Reference := [⟨"from", "as"⟩, ⟨"b", "b"⟩]
    let tokens :=
      Token.openParen :: (Clause.listed ⟨"from", some "as"⟩ [⟨"b", none⟩] ++ [.closeParen])
    let params := "( .from as\u3000.as , .b)from\t\"./it's, (b)\" "
    SpellsReferences tokens references ∧
      Renders '"' (tokens ++ [.fromWord, .quoted "./it's, (b)"]) params.toList ∧
      Directive.parse params = .ok ⟨references, "./it's, (b)"⟩ := by
  intro references tokens params
  have hspells : SpellsReferences tokens references := .listed ⟨"from", some "as"⟩ [⟨"b", none⟩]
  have hparams : Renders '"' (tokens ++ [.fromWord, .quoted "./it's, (b)"]) params.toList := by
    have hgaps : params.toList = [] ++ (['('] ++ ([' '] ++ (".from".toList ++ ([' '] ++
        ("as".toList ++ (['\u3000'] ++ (".as".toList ++ ([' '] ++ ([','] ++ ([' '] ++
        (".b".toList ++ ([] ++ ([')'] ++ ([] ++ ("from".toList ++ (['\t'] ++
        ("\"./it's, (b)\"".toList ++ [' ']))))))))))))))))) := by
      decide +kernel
    rw [hgaps]
    exact .cons rfl (by decide) <| .cons rfl (by decide) <| .cons rfl (by decide) <|
      .cons rfl (by decide) <| .cons rfl (by decide) <| .cons rfl (by decide) <|
      .cons rfl (by decide) <| .cons rfl (by decide) <| .cons rfl (by decide) <| .nil rfl
  exact ⟨hspells, hparams, parse_of_renders (by decide) (by decide) (by decide) hspells hparams⟩

end Use
end ScopedCss
