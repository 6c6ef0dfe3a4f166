import ScopedCss.Proofs.Selector.Comments
import ScopedCss.Proofs.Stylesheet.Token

/-!
# Attribute selectors

An attribute selector compares an attribute with a quoted text. A stylesheet reads a backslash in
this text as an escape, so that `"\""` is a string with one character. The pieces of a selector know
no escapes: a quote is open up to the next mark of its kind.

* `isIdentifier`, `isStringToken`: a name and a string, as a stylesheet reads them.
* `tokensFrom_sealed`: a sealed text in brackets is one piece between the pieces around it.
* `tokenize_attribute`: an attribute selector is one piece, whatever stands around it, if and only
  if it is sealed; it is if its value does not escape the mark that it is quoted with.
* `attribute_swallows_class`: a value that does swallows the classes behind it.
-/

namespace ScopedCss
namespace Selector

open Text

variable {p q name value : String} {s t rest inside : List Char} {mark : Char}
  {before after : List Token}

/-! ## Attribute selectors -/

/-- The text is an identifier of a stylesheet. -/
def isIdentifier (s : List Char) : Bool := Stylesheet.startsName s && (Stylesheet.name s).2.isEmpty

/-- The text is a string of a stylesheet, which is closed by its quote. -/
def isStringToken : List Char → Bool
  | [] => false
  | mark :: rest =>
    isQuote mark && Stylesheet.closesString mark rest && (Stylesheet.afterString mark rest).isEmpty

/-- What stands in the brackets of an attribute selector. -/
def comparison (name value : String) : List Char := name.toList ++ '=' :: value.toList

/-- The selector of the elements whose attribute has this value, which is written with its
quotes. -/
def attributeSelector (name value : String) : String :=
  String.ofList ('[' :: (comparison name value ++ [']']))

/-! ## Sealed texts -/

/-- A text with neither quotes nor closing brackets goes before any text. -/
theorem isSealed_append (h : ∀ c ∈ s, isQuote c = false ∧ c ≠ ']') (t : List Char) :
    isSealed none (s ++ t) = isSealed none t := by
  induction s with
  | nil => rfl
  | cons c s ih =>
    obtain ⟨⟨hquote, hbracket⟩, hs⟩ := List.forall_mem_cons.1 h
    simp [isSealed, nextQuote, hquote, hbracket, ih hs]

/-- A quote is sealed if its mark does not stand in it. -/
theorem isSealed_quoted (hmark : isQuote mark) (h : mark ∉ inside) :
    isSealed none (mark :: (inside ++ [mark])) := by
  have hopen : isSealed (some mark) (inside ++ [mark]) := by
    induction inside with
    | nil => simp [isSealed, nextQuote]
    | cons c inside ih =>
      obtain ⟨hc, hinside⟩ := List.ne_and_not_mem_of_not_mem_cons h
      simp [isSealed, nextQuote, Ne.symm hc, ih hinside]
  have hbracket : mark ≠ ']' := by
    rintro rfl
    cases hmark
  simp [isSealed, nextQuote, hmark, hbracket, hopen]

/-- Without escapes, an identifier is made of the characters that a name goes on with. -/
theorem isNamePoint_of_name (h : (Stylesheet.name s).2 = []) (hplain : '\\' ∉ s) :
    ∀ c ∈ s, Stylesheet.isNamePoint c := by
  fun_induction Stylesheet.name s with
  | case1 => simp
  | case2 c rest hc more ih =>
    exact List.forall_mem_cons.2 ⟨hc, ih h fun hmem => hplain (List.mem_cons_of_mem _ hmem)⟩
  | case3 c rest hc hescape more ih => exact absurd (hescape.1 ▸ List.mem_cons_self) hplain
  | case4 => cases h

theorem isSealed_comparison (hname : isIdentifier name.toList) (hplain : '\\' ∉ name.toList)
    (hvalue : isStringToken value.toList) (hinside : value.toList = mark :: (inside ++ [mark]))
    (hmark : mark ∉ inside) : isSealed none (comparison name value) := by
  have hpoints := isNamePoint_of_name
    (by simpa using (Bool.and_eq_true_iff.1 hname).2 : (Stylesheet.name name.toList).2 = []) hplain
  have hquote : isQuote mark := by
    rw [hinside, isStringToken, Bool.and_eq_true, Bool.and_eq_true] at hvalue
    exact hvalue.1.1
  have hfront : ∀ c ∈ name.toList ++ ['='], isQuote c = false ∧ c ≠ ']' := by
    intro c hc
    rcases List.mem_append.1 hc with hc | hc
    · have hpoint := hpoints c hc
      refine ⟨?_, by rintro rfl; cases hpoint⟩
      by_contra hquote
      rw [Bool.not_eq_false, isQuote, Bool.or_eq_true, beq_iff_eq, beq_iff_eq] at hquote
      rcases hquote with rfl | rfl <;> cases hpoint
    · obtain rfl := List.mem_singleton.1 hc
      exact ⟨rfl, by decide⟩
  rw [comparison, ← List.singleton_append, ← List.append_assoc, isSealed_append hfront, hinside]
  exact isSealed_quoted hquote hmark

/-! ## Pieces around a bracket -/

/-- A bracket does not change the pieces in front of it, if none of them is open. -/
theorem allStand_bracket (h : AllStand [] before) (hclosed : ∀ token ∈ before, token.isOpen = false)
    (rest : List Char) : AllStand ('[' :: rest) before := by
  have halike : Alike [] ('[' :: rest) := .of_stop rfl rfl (by simp) (by simp)
  exact h.of_alike halike (fun _ => hclosed) (by simp) rfl

/-- **A sealed text in brackets** is one piece behind pieces of which none is open, and what follows
is cut into its own pieces. -/
theorem tokensFrom_sealed (whole : String) (h : AllStand [] before)
    (hclosed : ∀ token ∈ before, token.isOpen = false) (hsealed : isSealed none s)
    (rest : List Char) :
    tokensFrom whole (before.flatMap Token.source ++ '[' :: (s ++ ']' :: rest))
      = (tokensFrom whole rest).map
        (before ++ .raw (String.ofList ('[' :: (s ++ [']']))) :: ·) := by
  have hbracket : Stands (.raw (String.ofList ('[' :: (s ++ [']'])))) rest :=
    .bracket (by rw [List.append_assoc]; exact splitBracket_of_isSealed hsealed rest)
  have hsource : (Token.raw (String.ofList ('[' :: (s ++ [']'])))).source ++ rest
      = '[' :: (s ++ ']' :: rest) := by
    simp [Token.source]
  rw [tokensFrom_of_allStand whole (allStand_bracket h hclosed _), ← hsource,
    tokensFrom_of_stands whole hbracket]
  cases tokensFrom whole rest <;> rfl

/-- A bracket that is one piece in front of other text is sealed. -/
theorem isSealed_of_stands (hne : rest ≠ [])
    (h : Stands (.raw (String.ofList ('[' :: (s ++ [']'])))) rest) :
    isSealed none s := by
  obtain ⟨c, chars, hchars, hread⟩ := h.nextToken
  have hsource : c :: chars = '[' :: (s ++ ']' :: rest) := by
    rw [← hchars]
    simp [Token.source]
  cases hsource
  have hsplit : (Token.raw (String.ofList ('[' :: (splitBracket none (s ++ ']' :: rest)).1)),
      (splitBracket none (s ++ ']' :: rest)).2)
        = (.raw (String.ofList ('[' :: (s ++ [']']))), rest) :=
    Except.ok.inj hread
  obtain ⟨htext, hrest⟩ := Prod.mk.inj hsplit
  have hinside := congrArg String.toList (Token.raw.inj htext)
  rw [String.toList_ofList, String.toList_ofList] at hinside
  exact isSealed_of_splitBracket hne (Prod.ext (List.cons.inj hinside).2 hrest)

theorem toList_attributeSelector (name value : String) (s : List Char) :
    (attributeSelector name value).toList ++ s = '[' :: (comparison name value ++ ']' :: s) := by
  simp [attributeSelector]

/-- The pieces of a selector with a sealed attribute selector in it. -/
theorem tokenize_sealed (hp : tokenize p = .ok before)
    (hclosed : ∀ token ∈ before, token.isOpen = false)
    (hsealed : isSealed none (comparison name value)) (hq : tokenize q = .ok after) :
    tokenize (p ++ attributeSelector name value ++ q)
      = .ok (before ++ .raw (attributeSelector name value) :: after) := by
  obtain ⟨hsource, hstand⟩ := tokensFrom_eq_ok_iff.1 hp
  have hafter (whole : String) : tokensFrom whole q.toList = .ok after :=
    tokensFrom_eq_ok_iff.2 (tokensFrom_eq_ok_iff.1 hq)
  rw [tokenize, String.toList_append, String.toList_append, List.append_assoc,
    toList_attributeSelector, ← hsource, tokensFrom_sealed _ hstand hclosed hsealed, hafter]
  rfl

/-- **An attribute selector is one piece**, which ends at its own bracket, whatever pieces stand
around it, if and only if it is sealed, that is if its quotes are closed when backslashes do not
count. It is if there is no escape in its name and its value does not escape the mark that it is
quoted with. Then it does not matter for the classes around it. -/
theorem tokenize_attribute (hp : tokenize p = .ok before)
    (hclosed : ∀ token ∈ before, token.isOpen = false) (hname : isIdentifier name.toList)
    (hvalue : isStringToken value.toList) :
    ((∀ q after, tokenize q = .ok after → tokenize (p ++ attributeSelector name value ++ q)
        = .ok (before ++ .raw (attributeSelector name value) :: after)) ↔
      isSealed none (comparison name value)) ∧
    ('\\' ∉ name.toList →
      (∃ mark inside, value.toList = mark :: (inside ++ [mark]) ∧ mark ∉ inside) →
      isSealed none (comparison name value)) ∧
    (isSealed none (comparison name value) → ∀ q after, tokenize q = .ok after → ∀ known initial,
      requests known initial (p ++ attributeSelector name value ++ q)
        = requestsOf known initial initial (before ++ after)) := by
  refine ⟨⟨fun h => ?_, fun hsealed q after hq => tokenize_sealed hp hclosed hsealed hq⟩, ?_, ?_⟩
  · have hcomma := h "," [.comma] (by decide +kernel)
    obtain ⟨-, hstand⟩ := tokensFrom_eq_ok_iff.1 hcomma
    exact isSealed_of_stands (List.cons_ne_nil ',' []) (allStand_append.1 hstand).2.1
  · rintro hplain ⟨mark, inside, hinside, hmark⟩
    exact isSealed_comparison hname hplain hvalue hinside hmark
  · intro hsealed q after hq known initial
    rw [requests_eq, tokenize_sealed hp hclosed hsealed hq]
    show requestsOf known initial initial
      (before ++ .raw (attributeSelector name value) :: after) = _
    rw [requestsOf_append, requestsOf_append, requestsOf_cons]
    rfl

/-- Brackets, quotes of the other kind and other escapes in the value do not matter. -/
theorem tokenize_attribute_quoted :
    let value := "\"]'\\a .c\""
    tokenize ".a > b" = .ok [.className "a", .blank " ", .raw ">", .blank " ", .raw "b"] ∧
      isIdentifier "data-x".toList ∧ isStringToken value.toList ∧
      tokenize (".a > b" ++ attributeSelector "data-x" value ++ " .d")
        = .ok ([.className "a", .blank " ", .raw ">", .blank " ", .raw "b"]
          ++ .raw (attributeSelector "data-x" value) :: [.blank " ", .className "d"]) := by
  intro value
  have hp : tokenize ".a > b"
      = .ok [.className "a", .blank " ", .raw ">", .blank " ", .raw "b"] := by
    decide +kernel
  have hname : isIdentifier "data-x".toList := by decide +kernel
  have hvalue : isStringToken value.toList := by decide +kernel
  obtain ⟨hpiece, hplain, -⟩ := tokenize_attribute hp (by decide) hname hvalue
  have hsealed := hplain (by decide) ⟨'"', "]'\\a .c".toList, by decide, by decide⟩
  exact ⟨hp, hname, hvalue, hpiece.2 hsealed " .d" _ (by decide +kernel)⟩

/-- An escaped quote closes the quotes for the pieces of a selector, so that the next one opens them
again and takes the rest of the selector. The class behind it is not scoped. -/
theorem attribute_swallows_class :
    let value := "\"\\\"\""
    tokenize "" = .ok [] ∧ isIdentifier "a".toList ∧ isStringToken value.toList ∧
      tokenize " .b" = .ok [.blank " ", .className "b"] ∧
      tokenize ("" ++ attributeSelector "a" value ++ " .b")
        = .ok [.raw (attributeSelector "a" value ++ " .b")] ∧
      tokenize ("" ++ attributeSelector "a" value ++ " .b")
        ≠ .ok ([] ++ .raw (attributeSelector "a" value) :: [.blank " ", .className "b"]) ∧
      requests (fun _ => false) .localScope ("" ++ attributeSelector "a" value ++ " .b") = [] := by
  decide +kernel

end Selector
end ScopedCss
