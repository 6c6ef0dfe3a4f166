import ScopedCss.Proofs.Selector.Maximal

/-!
# Where a piece may stand

Which piece a text begins with depends on little of what comes after the piece: on its first
character, and on whether it goes on as a reference. `Stands` says for every kind of piece what this
is.

* `nextToken_eq_ok_iff`: a piece is read from a text if and only if it stands in front of the rest.
* `tokensFrom_eq_ok_iff`: the pieces of a text are the only ones that stand in front of one another
  and make up the text.
-/

namespace ScopedCss
namespace Selector

open Text

variable {c : Char} {s rest rest' : List Char} {token : Token} {tokens more : List Token}

/-- A character that is a piece by itself, whatever comes after it. -/
def isSign (c : Char) : Bool :=
  !isNameChar c && !isBlank c && !isQuote c && !([',', '[', '.', ':', '(', '#'].contains c)

/-- The piece may be followed by the text `rest`: read from there on, the text begins with this
piece. -/
inductive Stands : Token → List Char → Prop
  | comma (rest : List Char) : Stands .comma rest
  | blank {text : String} {rest : List Char} (hne : text ≠ "") (hall : text.toList.all isBlank)
      (hstop : rest.head?.any isBlank = false) : Stands (.blank text) rest
  | className {name : String} {rest : List Char} (hname : isClassName name)
      (hstop : rest.head?.any isNameChar = false) (hremote : remote? rest = none) :
      Stands (.className name) rest
  | marker {scope : Scope} {rest : List Char} (hstop : rest.head?.any isNameChar = false)
      (hparen : rest.head? ≠ some '(') : Stands (.marker scope) rest
  | within {scope : Scope} {content : String} {rest : List Char}
      (hclosed : splitParens? 1 none (content.toList ++ ')' :: rest)
        = some (content.toList, rest)) :
      Stands (.within scope content) rest
  | composition {reference : Composition} {rest : List Char}
      (halias : isClassName reference.aliasName) (hremote : isClassName reference.remote)
      (hstop : reference.parenthesized = false → rest.head?.any isNameChar = false) :
      Stands (.composition reference) rest
  | quoted {mark : Char} {inside : List Char} (rest : List Char) (hmark : isQuote mark)
      (hinside : mark ∉ inside) : Stands (.raw (String.ofList (mark :: inside ++ [mark]))) rest
  /-- A quote that is not closed takes all that is left. -/
  | openQuote {mark : Char} {inside : List Char} (hmark : isQuote mark) (hinside : mark ∉ inside) :
      Stands (.raw (String.ofList (mark :: inside))) []
  | bracket {inside rest : List Char}
      (hsplit : splitBracket none (inside ++ rest) = (inside, rest)) :
      Stands (.raw (String.ofList ('[' :: inside))) rest
  | dot {rest : List Char} (hstop : rest.head?.any isNameChar = false) : Stands (.raw ".") rest
  | colons (rest : List Char) : Stands (.raw "::") rest
  | pseudo {name rest : List Char} (hall : name.all isNameChar)
      (hother : Scope.ofName? (String.ofList name) = none)
      (hstop : rest.head?.any isNameChar = false) (hcolon : name = [] → rest.head? ≠ some ':') :
      Stands (.raw (":" ++ String.ofList name)) rest
  | paren {rest : List Char} (hparens : parenthesized? rest = none) : Stands (.raw "(") rest
  | hash {name rest : List Char} (hall : name.all isNameChar)
      (hstop : rest.head?.any isNameChar = false) : Stands (.raw (String.ofList ('#' :: name))) rest
  | name {name : String} {rest : List Char} (hname : isClassName name)
      (hstop : rest.head?.any isNameChar = false) (hremote : remote? rest = none) :
      Stands (.raw name) rest
  | sign {c : Char} (rest : List Char) (hc : isSign c) : Stands (.raw (String.singleton c)) rest

/-! ## Reading a piece that stands -/

/-- A name ends in front of a colon. -/
theorem span_colon (hall : s.all isNameChar) (rest : List Char) :
    (s ++ ':' :: rest).takeWhile isNameChar = s ∧
    (s ++ ':' :: rest).dropWhile isNameChar = ':' :: rest :=
  span_append hall rfl

theorem nextToken_of_isNameChar (hc : isNameChar c) (s : List Char) :
    nextToken c s = .ok (nameToken c s) := by
  have hblank := isBlank_of_isNameChar hc
  have hquote := isQuote_of_isNameChar hc
  have hother (d : Char) (hd : isNameChar d = false) : c ≠ d := by
    rintro rfl
    cases hc.symm.trans hd
  simp [nextToken, hblank, hquote, hc, hother ',' (by decide), hother '[' (by decide),
    hother '.' (by decide), hother ':' (by decide), hother '(' (by decide), hother '#' (by decide)]

theorem nextToken_of_isQuote (hc : isQuote c) (s : List Char) :
    nextToken c s = .ok (quoteToken c s) := by
  simp only [isQuote, Bool.or_eq_true, beq_iff_eq] at hc
  rcases hc with rfl | rfl <;> rfl

theorem nextToken_of_isSign (hc : isSign c) (s : List Char) :
    nextToken c s = .ok (.raw (String.singleton c), s) := by
  simp only [isSign, Bool.and_eq_true, Bool.not_eq_true', List.contains_eq_mem, List.mem_cons,
    decide_eq_false_iff_not, not_or] at hc
  simp [nextToken, hc]

/-! ### References -/

theorem remote?_append {remote : String} (hremote : isClassName remote)
    (hstop : rest.head?.any isNameChar = false) :
    remote? (':' :: ':' :: (remote.toList ++ rest)) = some (remote.toList, rest) := by
  obtain ⟨c, s, hname, hc, hs⟩ := exists_of_isClassName hremote
  have hall : (c :: s).all isNameChar := by simp [hc, hs]
  obtain ⟨htake, hdrop⟩ := span_append hall hstop
  rw [hname, remote?, htake, hdrop]

theorem composition?_append {remote : String} (dotted : Bool) (aliasName : String)
    (hremote : isClassName remote) (hstop : rest.head?.any isNameChar = false) :
    composition? dotted aliasName.toList (':' :: ':' :: (remote.toList ++ rest))
      = some (⟨dotted, aliasName, remote, false⟩, rest) := by
  rw [composition?, remote?_append hremote hstop]
  simp

theorem parenthesized?_append {aliasName remote : String} (dotted : Bool)
    (halias : isClassName aliasName) (hremote : isClassName remote) (rest : List Char) :
    parenthesized? ((if dotted then ['.'] else [])
        ++ (aliasName.toList ++ ':' :: ':' :: (remote.toList ++ ')' :: rest)))
      = some (⟨dotted, aliasName, remote, true⟩, rest) := by
  obtain ⟨c, s, hname, hc, hs⟩ := exists_of_isClassName halias
  have hall : (c :: s).all isNameChar := by simp [hc, hs]
  obtain ⟨htake, hdrop⟩ := span_colon hall (':' :: (remote.toList ++ ')' :: rest))
  have hread : remote? (':' :: ':' :: (remote.toList ++ ')' :: rest))
      = some (remote.toList, ')' :: rest) :=
    remote?_append hremote rfl
  have halias : String.ofList (c :: s) = aliasName := by rw [← hname, String.ofList_toList]
  have hdot : c ≠ '.' := by
    rintro rfl
    cases hc
  rw [hname]
  cases dotted with
  | true =>
    show parenthesized? ('.' :: (c :: s ++ _)) = _
    simp only [parenthesized?, List.head?_cons, beq_self_eq_true, if_true, List.tail_cons, htake,
      hdrop, hread, halias, String.ofList_toList]
  | false =>
    have hhead : ((c :: s ++ ':' :: ':' :: (remote.toList ++ ')' :: rest)).head? == some '.')
        = false := by
      simpa using hdot
    show parenthesized? (c :: s ++ _) = _
    simp only [parenthesized?, hhead, Bool.false_eq_true, if_false, htake, hdrop, hread, halias,
      String.ofList_toList]

/-! ### Pieces -/

theorem dotToken_composition {aliasName remote : String} (halias : isClassName aliasName)
    (hremote : isClassName remote) (hstop : rest.head?.any isNameChar = false) :
    dotToken (aliasName.toList ++ ':' :: ':' :: (remote.toList ++ rest))
      = (.composition ⟨true, aliasName, remote, false⟩, rest) := by
  have hread := composition?_append true aliasName hremote hstop
  obtain ⟨c, s, hname, hc, hs⟩ := exists_of_isClassName halias
  have hall : (c :: s).all isNameChar := by simp [hc, hs]
  obtain ⟨htake, hdrop⟩ := span_colon hall (':' :: (remote.toList ++ rest))
  rw [hname] at hread ⊢
  simp only [dotToken, htake, hdrop, hread]

theorem dotToken_className {name : String} (hname : isClassName name)
    (hstop : rest.head?.any isNameChar = false) (hremote : remote? rest = none) :
    dotToken (name.toList ++ rest) = (.className name, rest) := by
  obtain ⟨c, s, hs, hc, hall⟩ := exists_of_isClassName hname
  have hall : (c :: s).all isNameChar := by simp [hc, hall]
  obtain ⟨htake, hdrop⟩ := span_append hall hstop
  have hread : composition? true (c :: s) rest = none := by
    rw [composition?, hremote, Option.map_none]
  have hback : String.ofList (c :: s) = name := by rw [← hs, String.ofList_toList]
  rw [hs]
  simp only [dotToken, htake, hdrop, hread, hback]

theorem nameToken_composition {aliasName remote : String} (halias : isClassName aliasName)
    (hremote : isClassName remote) (hstop : rest.head?.any isNameChar = false) :
    ∃ c s, aliasName.toList ++ ':' :: ':' :: (remote.toList ++ rest) = c :: s ∧ isNameChar c ∧
      nameToken c s = (.composition ⟨false, aliasName, remote, false⟩, rest) := by
  have hread := composition?_append false aliasName hremote hstop
  obtain ⟨c, s, hname, hc, hs⟩ := exists_of_isClassName halias
  obtain ⟨htake, hdrop⟩ := span_colon hs (':' :: (remote.toList ++ rest))
  rw [hname] at hread ⊢
  refine ⟨c, s ++ ':' :: ':' :: (remote.toList ++ rest), rfl, hc, ?_⟩
  simp only [nameToken, htake, hdrop, hread]

theorem nameToken_name {name : String} (hname : isClassName name)
    (hstop : rest.head?.any isNameChar = false) (hremote : remote? rest = none) :
    ∃ c s, name.toList ++ rest = c :: s ∧ isNameChar c ∧ nameToken c s = (.raw name, rest) := by
  obtain ⟨c, s, hs, hc, hall⟩ := exists_of_isClassName hname
  obtain ⟨htake, hdrop⟩ := span_append hall hstop
  have hread : composition? false (c :: s) rest = none := by
    rw [composition?, hremote, Option.map_none]
  have hback : String.ofList (c :: s) = name := by rw [← hs, String.ofList_toList]
  rw [hs]
  refine ⟨c, s ++ rest, rfl, hc, ?_⟩
  simp only [nameToken, htake, hdrop, hread, hback]

theorem colonToken_marker {scope : Scope} (hstop : rest.head?.any isNameChar = false) :
    colonToken (scope.name.toList ++ rest) = markerToken scope rest := by
  have hname : scope.name.toList.all isNameChar := by cases scope <;> decide
  have hscope : Scope.ofName? scope.name = some scope := by cases scope <;> rfl
  obtain ⟨htake, hdrop⟩ := span_append hname hstop
  have hcolon (after : List Char) : scope.name.toList ++ rest ≠ ':' :: after := by
    cases scope <;> exact nofun
  unfold colonToken
  split
  · next heq => exact absurd heq (hcolon _)
  · simp only [htake, hdrop, String.ofList_toList, hscope]

theorem colonToken_pseudo {name : List Char} (hall : name.all isNameChar)
    (hother : Scope.ofName? (String.ofList name) = none) (hstop : rest.head?.any isNameChar = false)
    (hcolon : name = [] → rest.head? ≠ some ':') :
    colonToken (name ++ rest) = .ok (.raw (":" ++ String.ofList name), rest) := by
  obtain ⟨htake, hdrop⟩ := span_append hall hstop
  have hcolons (after : List Char) : name ++ rest ≠ ':' :: after := by
    intro heq
    cases name with
    | nil => exact hcolon rfl (congrArg List.head? heq)
    | cons c name =>
      obtain ⟨rfl, -⟩ := List.cons.inj heq
      cases hall
  unfold colonToken
  split
  · next heq => exact absurd heq (hcolons _)
  · simp only [htake, hdrop, hother]

theorem nextToken_blank {text : String} (hne : text ≠ "") (hall : text.toList.all isBlank)
    (hstop : rest.head?.any isBlank = false) :
    ∃ c s, text.toList ++ rest = c :: s ∧ nextToken c s = .ok (.blank text, rest) := by
  obtain ⟨c, s, hs⟩ := List.exists_cons_of_ne_nil (l := text.toList) (by simpa using hne)
  have hback : String.ofList (c :: s) = text := by rw [← hs, String.ofList_toList]
  rw [hs, List.all_cons, Bool.and_eq_true] at hall
  obtain ⟨htake, hdrop⟩ := span_append hall.2 hstop
  have hcomma : c ≠ ',' := by
    rintro rfl
    cases hall.1
  refine ⟨c, s ++ rest, by rw [hs, List.cons_append], ?_⟩
  rw [nextToken, if_neg hcomma, if_pos hall.1, htake, hdrop, hback]

/-- Which reader comes to a reference depends on the character that it begins with: the parenthesis,
the dot, or the alias itself. -/
theorem nextToken_composition {reference : Composition} (halias : isClassName reference.aliasName)
    (hremote : isClassName reference.remote)
    (hstop : reference.parenthesized = false → rest.head?.any isNameChar = false) :
    ∃ c s, reference.source ++ rest = c :: s ∧
      nextToken c s = .ok (.composition reference, rest) := by
  obtain ⟨dotted, aliasName, remote, parenthesized⟩ := reference
  cases parenthesized with
  | true =>
    have hsource : Composition.source ⟨dotted, aliasName, remote, true⟩ ++ rest
        = '(' :: ((if dotted then ['.'] else [])
          ++ (aliasName.toList ++ ':' :: ':' :: (remote.toList ++ ')' :: rest))) := by
      simp [Composition.source]
    refine ⟨_, _, hsource, ?_⟩
    show Except.ok (parenToken _) = _
    rw [parenToken, parenthesized?_append dotted halias hremote]
  | false =>
    have hsource : Composition.source ⟨dotted, aliasName, remote, false⟩ ++ rest
        = (if dotted then ['.'] else [])
          ++ (aliasName.toList ++ ':' :: ':' :: (remote.toList ++ rest)) := by
      simp [Composition.source]
    rw [hsource]
    cases dotted with
    | true =>
      refine ⟨_, _, rfl, ?_⟩
      exact congrArg Except.ok (dotToken_composition halias hremote (hstop rfl))
    | false =>
      obtain ⟨c, s, hs, hc, hread⟩ := nameToken_composition halias hremote (hstop rfl)
      exact ⟨c, s, hs, (nextToken_of_isNameChar hc s).trans (congrArg Except.ok hread)⟩

/-- A piece that stands in front of a text is read from the two together. -/
theorem Stands.nextToken (h : Stands token rest) :
    ∃ c s, token.source ++ rest = c :: s ∧ Selector.nextToken c s = .ok (token, rest) := by
  cases h with
  | comma => exact ⟨_, _, rfl, rfl⟩
  | blank hne hall hstop => exact nextToken_blank hne hall hstop
  | className hname hstop hremote =>
    refine ⟨_, _, rfl, ?_⟩
    exact congrArg Except.ok (dotToken_className hname hstop hremote)
  | @marker scope _ hstop hparen =>
    refine ⟨_, _, rfl, (colonToken_marker hstop).trans ?_⟩
    unfold markerToken
    split
    · exact absurd rfl hparen
    · rfl
  | @within scope content _ hclosed =>
    have hsource : (Token.within scope content).source ++ rest
        = ':' :: (scope.name.toList ++ '(' :: (content.toList ++ ')' :: rest)) := by
      simp [Token.source]
    refine ⟨_, _, hsource, (colonToken_marker rfl).trans ?_⟩
    simp only [markerToken, hclosed, String.ofList_toList]
  | composition halias hremote hstop => exact nextToken_composition halias hremote hstop
  | @quoted mark inside _ hmark hinside =>
    refine ⟨mark, inside ++ mark :: rest, by simp [Token.source], ?_⟩
    rw [nextToken_of_isQuote hmark, quoteToken, splitQuote?_append hinside]
  | @openQuote mark inside hmark hinside =>
    refine ⟨mark, inside, by simp [Token.source], ?_⟩
    rw [nextToken_of_isQuote hmark, quoteToken, splitQuote?_eq_none_iff.2 hinside]
  | @bracket inside _ hsplit =>
    refine ⟨'[', inside ++ rest, by simp [Token.source], ?_⟩
    show Except.ok
      (Token.raw (String.ofList ('[' :: (splitBracket none (inside ++ rest)).1)), _) = _
    rw [hsplit]
  | @dot rest hstop =>
    have hspan := span_append (s := []) (p := isNameChar) rfl hstop
    refine ⟨_, _, rfl, ?_⟩
    show Except.ok (dotToken rest) = _
    simp only [dotToken, show rest.takeWhile isNameChar = [] from hspan.1]
  | colons => exact ⟨_, _, rfl, rfl⟩
  | @pseudo name _ hall hother hstop hcolon =>
    refine ⟨':', name ++ rest, by simp [Token.source], ?_⟩
    exact colonToken_pseudo hall hother hstop hcolon
  | paren hparens =>
    refine ⟨_, _, rfl, ?_⟩
    show Except.ok (parenToken rest) = _
    rw [parenToken, hparens]
  | @hash name _ hall hstop =>
    obtain ⟨htake, hdrop⟩ := span_append hall hstop
    refine ⟨'#', name ++ rest, by simp [Token.source], ?_⟩
    show Except.ok (Token.raw (String.ofList ('#' :: (name ++ rest).takeWhile isNameChar)), _) = _
    rw [htake, hdrop]
  | @name name _ hname hstop hremote =>
    obtain ⟨c, s, hs, hc, hread⟩ := nameToken_name hname hstop hremote
    exact ⟨c, s, hs, (nextToken_of_isNameChar hc s).trans (congrArg Except.ok hread)⟩
  | @sign c _ hc => exact ⟨c, rest, by simp [Token.source], nextToken_of_isSign hc rest⟩

/-! ## What is read stands -/

theorem stands_of_fits_composition {reference : Composition}
    (h : Fits (.composition reference) rest) :
    Stands (.composition reference) rest := by
  cases h with
  | composition halias hremote hstop => exact .composition halias hremote hstop

theorem quoteToken_stands (hc : isQuote c) (s : List Char) :
    Stands (quoteToken c s).1 (quoteToken c s).2 := by
  unfold quoteToken
  split
  · next h => exact .quoted _ hc (not_mem_of_splitQuote? h)
  · next h => exact .openQuote hc (splitQuote?_eq_none_iff.1 h)

theorem dotToken_stands (s : List Char) : Stands (dotToken s).1 (dotToken s).2 := by
  have hstop := head?_any_dropWhile isNameChar s
  unfold dotToken
  split
  · next hnone =>
    have hrest : s.dropWhile isNameChar = s := by
      conv => rhs; rw [← List.takeWhile_append_dropWhile (p := isNameChar) (l := s), hnone]
      rfl
    exact .dot (hrest ▸ hstop)
  · next hne =>
    dsimp only
    split
    · next h => exact stands_of_fits_composition (composition?_fits hne List.all_takeWhile h)
    · next h =>
      exact .className (isClassName_ofList hne List.all_takeWhile) hstop
        (Option.map_eq_none_iff.1 h)

theorem markerToken_stands {scope : Scope} (hstop : s.head?.any isNameChar = false)
    (h : markerToken scope s = .ok (token, rest)) : Stands token rest := by
  unfold markerToken at h
  split at h
  · split at h
    · next hparens =>
      cases h
      refine .within ?_
      rw [String.toList_ofList, ← splitParens?_eq_some hparens, hparens]
    · cases h
  · next hparen =>
    cases h
    refine .marker hstop fun hhead => ?_
    obtain ⟨inside, rfl⟩ := List.head?_eq_some_iff.1 hhead
    exact hparen inside rfl

theorem colonToken_stands (h : colonToken s = .ok (token, rest)) : Stands token rest := by
  have hstop := head?_any_dropWhile isNameChar s
  unfold colonToken at h
  split at h
  · cases h
    exact .colons _
  · next hcolon =>
    dsimp only at h
    split at h
    · exact markerToken_stands hstop h
    · next hother =>
      cases h
      refine .pseudo List.all_takeWhile hother hstop fun hnone hhead => ?_
      have hrest : s.dropWhile isNameChar = s := by
        conv => rhs; rw [← List.takeWhile_append_dropWhile (p := isNameChar) (l := s), hnone]
        rfl
      rw [hrest] at hhead
      obtain ⟨after, rfl⟩ := List.head?_eq_some_iff.1 hhead
      exact hcolon after rfl

theorem parenToken_stands (s : List Char) : Stands (parenToken s).1 (parenToken s).2 := by
  unfold parenToken
  split
  · next h => exact stands_of_fits_composition (parenthesized?_fits h)
  · next h => exact .paren h

theorem nameToken_stands (hc : isNameChar c) (s : List Char) :
    Stands (nameToken c s).1 (nameToken c s).2 := by
  have hall : (c :: s.takeWhile isNameChar).all isNameChar := by simp [hc]
  have hname := isClassName_ofList (List.cons_ne_nil c _) hall
  unfold nameToken
  dsimp only
  split
  · next h => exact stands_of_fits_composition (composition?_fits (List.cons_ne_nil _ _) hall h)
  · next h => exact .name hname (head?_any_dropWhile _ _) (Option.map_eq_none_iff.1 h)

theorem nextToken_stands (h : nextToken c s = .ok (token, rest)) : Stands token rest := by
  unfold nextToken at h
  repeat' split at h
  · cases h; exact .comma _
  · next hc => cases h; exact .blank (by simp) (by simp [hc]) (head?_any_dropWhile _ _)
  · next hc =>
    cases h
    refine hc ▸ .bracket ?_
    rw [splitBracket_append]
  · next hc => simpa [Except.ok.inj h] using quoteToken_stands hc s
  · simpa [Except.ok.inj h] using dotToken_stands s
  · exact colonToken_stands h
  · simpa [Except.ok.inj h] using parenToken_stands s
  · next hc => cases h; exact hc ▸ .hash List.all_takeWhile (head?_any_dropWhile _ _)
  · next hc => simpa [Except.ok.inj h] using nameToken_stands hc s
  · cases h
    exact .sign _ (by simp_all [isSign])

/-- **A piece is read from a text if and only if it stands in front of the rest.** -/
theorem nextToken_eq_ok_iff :
    nextToken c s = .ok (token, rest) ↔ token.source ++ rest = c :: s ∧ Stands token rest := by
  constructor
  · exact fun h => ⟨nextToken_source h, nextToken_stands h⟩
  · rintro ⟨hsource, hstands⟩
    obtain ⟨c', s', hsource', hread⟩ := hstands.nextToken
    obtain ⟨rfl, rfl⟩ := List.cons.inj (hsource.symm.trans hsource')
    exact hread

/-- A text begins with one piece only. -/
theorem Stands.unique {other : Token} (h : Stands token rest) (hother : Stands other rest')
    (hsource : token.source ++ rest = other.source ++ rest') : token = other ∧ rest = rest' := by
  obtain ⟨c, s, hs, hread⟩ := h.nextToken
  obtain ⟨c', s', hs', hread'⟩ := hother.nextToken
  rw [hsource, hs'] at hs
  cases hs
  cases hread.symm.trans hread'
  exact ⟨rfl, rfl⟩

theorem Stands.of_paren (h : Stands (.raw "(") rest) : parenthesized? rest = none := by
  obtain ⟨c, s, hs, hread⟩ := h.nextToken
  obtain ⟨rfl, rfl⟩ := List.cons.inj hs
  have hparen : parenToken rest = (.raw "(", rest) := Except.ok.inj hread
  unfold parenToken at hparen
  split at hparen
  · cases hparen
  · assumption

/-- A name is a piece if it is neither gone on with nor the alias of a reference. -/
theorem Stands.of_isClassName {name : String} (h : Stands (.raw name) rest)
    (hname : isClassName name) :
    rest.head?.any isNameChar = false ∧ remote? rest = none := by
  obtain ⟨c, s, hs, hread⟩ := h.nextToken
  obtain ⟨d, more, hchars, hd, -⟩ := exists_of_isClassName hname
  rw [Token.source, hchars] at hs
  obtain ⟨rfl, -⟩ := List.cons.inj hs
  have hpiece := Except.ok.inj ((nextToken_of_isNameChar hd s).symm.trans hread)
  unfold nameToken at hpiece
  dsimp only at hpiece
  split at hpiece
  · cases hpiece
  · next hnone =>
    obtain ⟨-, rfl⟩ := Prod.mk.inj hpiece
    exact ⟨head?_any_dropWhile _ _, Option.map_eq_none_iff.1 hnone⟩

/-- In parentheses stands what is a reference without them. -/
theorem stands_of_parenthesized? {reference : Composition}
    (h : parenthesized? s = some (reference, rest)) :
    Stands (.composition { reference with parenthesized := false }) (')' :: rest) ∧
      s = { reference with parenthesized := false }.source ++ ')' :: rest := by
  have hsource := parenthesized?_eq_some h
  have hparen : reference.parenthesized = true := by
    unfold parenthesized? at h
    extract_lets dotted s' at h
    repeat' split at h
    all_goals cases h
    rfl
  cases parenthesized?_fits h with
  | composition halias hremote =>
    refine ⟨.composition halias hremote fun _ => rfl, ?_⟩
    simpa [Composition.source, hparen] using hsource.symm

theorem parenthesized?_of_stands {reference : Composition} (hbare : reference.parenthesized = false)
    (h : Stands (.composition reference) (')' :: rest)) :
    parenthesized? (reference.source ++ ')' :: rest)
      = some ({ reference with parenthesized := true }, rest) := by
  cases h with
  | composition halias hremote =>
    rw [← parenthesized?_append reference.dotted halias hremote rest]
    simp [Composition.source, hbare]

/-! ## All pieces -/

/-- Each piece stands in front of the ones after it and the text `rest`. -/
def AllStand (rest : List Char) : List Token → Prop
  | [] => True
  | token :: tokens => Stands token (tokens.flatMap Token.source ++ rest) ∧ AllStand rest tokens

theorem allStand_append :
    AllStand rest (tokens ++ more)
      ↔ AllStand (more.flatMap Token.source ++ rest) tokens ∧ AllStand rest more := by
  induction tokens with
  | nil => exact (iff_of_eq (true_and _)).symm
  | cons token tokens ih =>
    rw [List.cons_append, AllStand, AllStand, ih, List.flatMap_append, List.append_assoc, and_assoc]

/-- A parenthesis begins a reference only in front of a reference without its own. -/
theorem AllStand.of_parenthesized? {reference : Composition} {after : List Char}
    (h : AllStand rest tokens) (hne : tokens ≠ [])
    (hread : parenthesized? (tokens.flatMap Token.source ++ rest) = some (reference, after)) :
    ∃ more, tokens = .composition { reference with parenthesized := false } :: more ∧
      more.flatMap Token.source ++ rest = ')' :: after := by
  obtain ⟨token, more, rfl⟩ := List.exists_cons_of_ne_nil hne
  obtain ⟨hstands, hsource⟩ := stands_of_parenthesized? hread
  rw [List.flatMap_cons, List.append_assoc] at hsource
  obtain ⟨rfl, hmore⟩ := h.1.unique hstands hsource
  exact ⟨more, rfl, hmore⟩

theorem tokensFrom_of_stands (whole : String) (h : Stands token rest) :
    tokensFrom whole (token.source ++ rest) = (tokensFrom whole rest).map (token :: ·) := by
  obtain ⟨c, s, hs, hread⟩ := h.nextToken
  rw [hs, tokensFrom]
  split
  · next hfault => cases hfault.symm.trans hread
  · next hnext =>
    cases hnext.symm.trans hread
    rfl

theorem tokensFrom_of_allStand (whole : String) (h : AllStand rest tokens) :
    tokensFrom whole (tokens.flatMap Token.source ++ rest)
      = (tokensFrom whole rest).map (tokens ++ ·) := by
  induction tokens with
  | nil => cases hrest : tokensFrom whole rest <;> simp [hrest, Except.map]
  | cons token tokens ih =>
    rw [List.flatMap_cons, List.append_assoc, tokensFrom_of_stands whole h.1, ih h.2]
    cases tokensFrom whole rest <;> rfl

theorem tokensFrom_allStand {whole : String} (h : tokensFrom whole s = .ok tokens) :
    AllStand [] tokens := by
  fun_induction tokensFrom whole s generalizing tokens with
  | case1 => cases h; trivial
  | case2 => cases h
  | case3 c rest token rest' hnext ih =>
    cases hmore : tokensFrom whole rest' with
    | error fault => rw [hmore] at h; cases h
    | ok more =>
      rw [hmore] at h
      cases h
      refine ⟨?_, ih hmore⟩
      rw [tokensFrom_source hmore, List.append_nil]
      exact nextToken_stands hnext

/-- **The pieces of a text are the only ones that make it up and stand in front of one another.** -/
theorem tokensFrom_eq_ok_iff {whole : String} :
    tokensFrom whole s = .ok tokens ↔ tokens.flatMap Token.source = s ∧ AllStand [] tokens := by
  constructor
  · exact fun h => ⟨tokensFrom_source h, tokensFrom_allStand h⟩
  · rintro ⟨rfl, h⟩
    have hread := tokensFrom_of_allStand whole h
    rw [List.append_nil, tokensFrom, Except.map, List.append_nil] at hread
    exact hread

/-! ## Texts that look alike -/

theorem remote?_of_head (h : s.head? ≠ some ':') : remote? s = none := by
  unfold remote?
  split
  · exact absurd rfl h
  · rfl

theorem remote?_of_tail (h : s.head? ≠ some ':') : remote? (':' :: s) = none := by
  unfold remote?
  split
  · next heq =>
    obtain rfl := (List.cons.inj heq).2
    exact absurd rfl h
  · rfl

theorem remote?_colons_eq_none_iff :
    remote? (':' :: ':' :: s) = none ↔ s.head?.any isNameChar = false := by
  cases s with
  | nil => exact ⟨fun _ => rfl, fun _ => rfl⟩
  | cons c s =>
    by_cases hc : isNameChar c
    · simp [remote?, hc]
    · simp [remote?, hc]

/-- What a piece needs to know of the text after it, but for a parenthesis that may begin a
reference, it finds in `rest'` if it finds it in `rest`. -/
structure Alike (rest rest' : List Char) : Prop where
  blank : rest.head?.any isBlank = false → rest'.head?.any isBlank = false
  name : rest.head?.any isNameChar = false → rest'.head?.any isNameChar = false
  colon : rest.head? ≠ some ':' → rest'.head? ≠ some ':'
  paren : rest.head? ≠ some '(' → rest'.head? ≠ some '('
  remote : remote? rest = none → remote? rest' = none

theorem Alike.of_head (hhead : rest'.head? = rest.head?) (hcolon : rest.head? ≠ some ':') :
    Alike rest rest' where
  blank h := by rwa [hhead]
  name h := by rwa [hhead]
  colon h := by rwa [hhead]
  paren h := by rwa [hhead]
  remote _ := remote?_of_head (by rwa [hhead])

/-- Any text may give way to one that begins with nothing that a piece could go on with. -/
theorem Alike.of_stop (hblank : rest'.head?.any isBlank = false)
    (hname : rest'.head?.any isNameChar = false) (hcolon : rest'.head? ≠ some ':')
    (hparen : rest'.head? ≠ some '(') : Alike rest rest' :=
  ⟨fun _ => hblank, fun _ => hname, fun _ => hcolon, fun _ => hparen,
    fun _ => remote?_of_head hcolon⟩

theorem Stands.source_ne_nil (h : Stands token rest) : token.source ≠ [] := by
  obtain ⟨c, s, -, hread⟩ := h.nextToken
  exact nextToken_source_ne_nil hread

/-- A piece that begins with a colon is two colons, or has no second colon behind the first. -/
theorem Stands.of_colon (h : Stands token rest) (hs : token.source = ':' :: s) :
    token = .raw "::" ∨ (s ++ rest).head? ≠ some ':' := by
  obtain ⟨c, s', hsource, hread⟩ := h.nextToken
  rw [hs, List.cons_append] at hsource
  obtain ⟨rfl, rfl⟩ := List.cons.inj hsource
  by_cases hhead : (s ++ rest).head? = some ':'
  · obtain ⟨after, hafter⟩ := List.head?_eq_some_iff.1 hhead
    rw [hafter] at hread
    cases hread
    exact .inl rfl
  · exact .inr hhead

/-- Texts go on to look alike with the same piece in front of both. -/
theorem Alike.append (hrest : Alike rest rest') (h : Stands token rest) :
    Alike (token.source ++ rest) (token.source ++ rest') := by
  obtain ⟨c, s, hs⟩ := List.exists_cons_of_ne_nil h.source_ne_nil
  have hhead (after : List Char) : (token.source ++ after).head? = some c := by rw [hs]; rfl
  have hsame : (token.source ++ rest').head? = (token.source ++ rest).head? :=
    (hhead rest').trans (hhead rest).symm
  by_cases hc : c = ':'
  · subst hc
    refine ⟨by rw [hsame]; exact id, by rw [hsame]; exact id, by rw [hsame]; exact id,
      by rw [hsame]; exact id, fun hnone => ?_⟩
    obtain rfl | hsecond := h.of_colon hs
    · exact remote?_colons_eq_none_iff.2 (hrest.name (remote?_colons_eq_none_iff.1 hnone))
    · rw [hs]
      refine remote?_of_tail ?_
      cases s with
      | nil => exact hrest.colon hsecond
      | cons => exact hsecond
  · exact .of_head hsame (by rw [hhead]; simpa using hc)

/-- A bracket that is closed ends where it does whatever comes after it. -/
theorem splitBracket_of_closed {quote : Option Char} {inside : List Char} (hne : rest ≠ [])
    (h : splitBracket quote (inside ++ rest) = (inside, rest)) (rest' : List Char) :
    splitBracket quote (inside ++ rest') = (inside, rest') := by
  induction inside generalizing quote with
  | nil =>
    obtain ⟨c, rest, rfl⟩ := List.exists_cons_of_ne_nil hne
    exact absurd (Prod.mk.inj h).1 (splitBracket_fst_ne_nil quote c rest)
  | cons c inside ih =>
    rw [List.cons_append] at h ⊢
    by_cases hc : quote = none ∧ c = ']'
    · obtain ⟨rfl, rfl⟩ := hc
      obtain rfl : [] = inside := (List.cons.inj (Prod.mk.inj h).1).2
      rfl
    · rw [splitBracket_cons hc] at h ⊢
      obtain ⟨hinside, hrest⟩ := Prod.mk.inj h
      rw [ih (Prod.ext (List.cons.inj hinside).2 hrest)]

/-- Parentheses that are closed end where they do whatever comes after them. -/
theorem splitParens?_of_closed {depth : Nat} {quote : Option Char} {content : List Char}
    (h : splitParens? depth quote (content ++ ')' :: rest) = some (content, rest))
    (rest' : List Char) :
    splitParens? depth quote (content ++ ')' :: rest') = some (content, rest') := by
  induction content generalizing depth quote with
  | nil =>
    by_cases hc : closesAll depth quote ')'
    · exact splitParens?_of_closesAll hc rest'
    · rw [List.nil_append, splitParens?_cons hc] at h
      obtain ⟨parts, -, heq⟩ := Option.map_eq_some_iff.1 h
      cases heq
  | cons c content ih =>
    obtain ⟨hc, hcontent⟩ := splitParens?_cons_eq_some h
    rw [List.cons_append, splitParens?_cons hc, ih hcontent]
    rfl

/-- The text begins with a quote or a bracket that is open at its end. -/
def isOpenText : List Char → Bool
  | '[' :: inside => inside.getLast? != some ']' || !isSealed none inside.dropLast
  | c :: inside => isQuote c && inside.getLast? != some c
  | [] => false

/-- The piece is a quote or a bracket that is not closed. -/
def Token.isOpen : Token → Bool
  | .raw text => isOpenText text.toList
  | _ => false

theorem isOpenText_of_plain (h : ∀ c ∈ s, isQuote c = false ∧ c ≠ '[') : isOpenText s = false := by
  unfold isOpenText
  split
  · exact absurd rfl (h '[' List.mem_cons_self).2
  · next c inside _ => rw [(h c List.mem_cons_self).1, Bool.false_and]
  · rfl

/-- A piece without quotes and brackets is not open. -/
theorem isOpen_of_plain (h : ∀ c ∈ token.source, isQuote c = false ∧ c ≠ '[') :
    token.isOpen = false := by
  cases token with
  | raw text => exact isOpenText_of_plain h
  | _ => rfl

/-- A piece stands in front of every text that looks like the one after it, with two exceptions: a
quote or a bracket may be open at the end of the text, and a parenthesis may begin a reference. -/
theorem Stands.of_alike (h : Stands token rest) (hrest : Alike rest rest')
    (hend : rest = [] → rest' = [] ∨ token.isOpen = false)
    (hparens : token = .raw "(" → parenthesized? rest' = none) : Stands token rest' := by
  cases h with
  | comma => exact .comma _
  | blank hne hall hstop => exact .blank hne hall (hrest.blank hstop)
  | className hname hstop hremote =>
    exact .className hname (hrest.name hstop) (hrest.remote hremote)
  | marker hstop hparen => exact .marker (hrest.name hstop) (hrest.paren hparen)
  | within hclosed => exact .within (splitParens?_of_closed hclosed rest')
  | composition halias hremote hstop =>
    exact .composition halias hremote fun hbare => hrest.name (hstop hbare)
  | quoted _ hmark hinside => exact .quoted _ hmark hinside
  | @openQuote mark inside hmark hinside =>
    obtain rfl | hclosed := hend rfl
    · exact .openQuote hmark hinside
    · refine absurd (List.mem_of_getLast? (?_ : inside.getLast? = some mark)) hinside
      simp only [isQuote, Bool.or_eq_true, beq_iff_eq] at hmark
      rcases hmark with rfl | rfl <;> simpa [Token.isOpen, isOpenText, isQuote] using hclosed
  | @bracket inside _ hsplit =>
    by_cases hnil : rest = []
    · obtain rfl | hclosed := hend hnil
      · exact .bracket (by rwa [hnil] at hsplit)
      · obtain ⟨hlast, hsealed⟩ : inside.getLast? = some ']' ∧ isSealed none inside.dropLast := by
          simpa [Token.isOpen, isOpenText] using hclosed
        obtain ⟨inner, rfl⟩ := List.getLast?_eq_some_iff.1 hlast
        rw [List.dropLast_concat] at hsealed
        exact .bracket (by simpa using splitBracket_of_isSealed hsealed rest')
    · exact .bracket (splitBracket_of_closed hnil hsplit rest')
  | dot hstop => exact .dot (hrest.name hstop)
  | colons => exact .colons _
  | pseudo hall hother hstop hcolon =>
    exact .pseudo hall hother (hrest.name hstop) fun hnil => hrest.colon (hcolon hnil)
  | paren => exact .paren (hparens rfl)
  | hash hall hstop => exact .hash hall (hrest.name hstop)
  | name hname hstop hremote => exact .name hname (hrest.name hstop) (hrest.remote hremote)
  | sign _ hc => exact .sign _ hc

theorem Alike.append_all (hrest : Alike rest rest') (h : AllStand rest tokens) :
    Alike (tokens.flatMap Token.source ++ rest) (tokens.flatMap Token.source ++ rest') := by
  induction tokens with
  | nil => exact hrest
  | cons token tokens ih =>
    rw [List.flatMap_cons, List.append_assoc, List.append_assoc]
    exact (ih h.2).append h.1

theorem parenthesized?_of_head (hname : s.head?.any isNameChar = false)
    (hdot : s.head? ≠ some '.') :
    parenthesized? s = none := by
  have hhead : (s.head? == some '.') = false := by simpa using hdot
  have hnone : s.takeWhile isNameChar = [] := (span_append (s := []) rfl hname).1
  simp [parenthesized?, hhead, hnone]

theorem parenthesized?_of_name {name : String} (hname : isClassName name)
    (hstop : rest.head?.any isNameChar = false) (hremote : remote? rest = none) :
    parenthesized? (name.toList ++ rest) = none := by
  obtain ⟨c, s, hchars, hc, hs⟩ := exists_of_isClassName hname
  have hall : (c :: s).all isNameChar := by simp [hc, hs]
  have hdot : (some c == some '.') = false := by
    rw [beq_eq_false_iff_ne]
    rintro ⟨⟩
    cases hc
  obtain ⟨htake, hdrop⟩ := span_append hall hstop
  rw [List.cons_append] at htake hdrop
  rw [hchars, List.cons_append]
  simp only [parenthesized?, List.head?_cons, hdot, Bool.false_eq_true, if_false, htake,
    hdrop, hremote]

/-- Pieces stand in front of every text that looks like the one after them and begins no reference,
unless a quote or a bracket is open at the end of the text. -/
theorem AllStand.of_alike (h : AllStand rest tokens) (hrest : Alike rest rest')
    (hend : rest = [] → ∀ token ∈ tokens, token.isOpen = false)
    (hclose : rest'.head? = some ')' → rest.head? = some ')')
    (hparens : parenthesized? rest' = none) :
    AllStand rest' tokens := by
  induction tokens with
  | nil => trivial
  | cons token tokens ih =>
    obtain ⟨hfirst, htokens⟩ := h
    have hmore := ih htokens fun hnil other hmem => hend hnil other (List.mem_cons_of_mem _ hmem)
    refine ⟨hfirst.of_alike (hrest.append_all htokens)
      (fun hnil => .inr (hend (List.append_eq_nil_iff.1 hnil).2 token List.mem_cons_self))
      fun hparen => ?_, hmore⟩
    subst hparen
    by_contra hsome
    obtain ⟨⟨reference, after⟩, hread⟩ := Option.ne_none_iff_exists'.1 hsome
    have hnil : tokens ≠ [] := by
      rintro rfl
      exact hsome hparens
    obtain ⟨more, rfl, hparen⟩ := hmore.of_parenthesized? hnil hread
    -- the parenthesis that ends the reference stands before the other text as well
    have hsame : (more.flatMap Token.source ++ rest).head? = some ')' := by
      have hhead := congrArg List.head? hparen
      cases hchars : more.flatMap Token.source with
      | nil => exact hclose (by rwa [hchars] at hhead)
      | cons c chars => rwa [hchars] at hhead
    obtain ⟨after', hafter'⟩ := List.head?_eq_some_iff.1 hsame
    have hstands := htokens.1
    rw [hafter'] at hstands
    have hnone := hfirst.of_paren
    rw [List.flatMap_cons, List.append_assoc, hafter'] at hnone
    cases (parenthesized?_of_stands rfl hstands).symm.trans hnone

/-- Of a text that follows them, pieces see the first character. -/
theorem AllStand.of_head (h : AllStand rest tokens) (hhead : rest'.head? = rest.head?)
    (hne : rest ≠ []) (hcolon : rest.head? ≠ some ':') (hparens : parenthesized? rest' = none) :
    AllStand rest' tokens :=
  h.of_alike (.of_head hhead hcolon) (absurd · hne) hhead.symm.trans hparens

/-- Behind a blank there may be any other text. -/
theorem AllStand.of_blank (h : AllStand (c :: s) tokens) (hc : isBlank c) (rest : List Char) :
    AllStand (c :: rest) tokens := by
  have hother (other : Char) (hother : isBlank other = false) : (c :: rest).head? ≠ some other := by
    rintro ⟨⟩
    cases hc.symm.trans hother
  refine h.of_head rfl (List.cons_ne_nil c s) (hother ':' rfl)
    (parenthesized?_of_head ?_ (hother '.' rfl))
  simp [isNameChar, hc]

end Selector
end ScopedCss
