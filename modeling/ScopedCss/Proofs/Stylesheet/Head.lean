import ScopedCss.Proofs.Stylesheet.Closed
import ScopedCss.Proofs.Stylesheet.Items
import ScopedCss.Stylesheet.Printer

/-!
# Heads

What is written of a node before its semicolon or its block is its *head*: a selector, the name and
the parameters of an at-rule, or a property and a value. The parts of a head are trimmed and closed.

* `IsHead` says how a text is read before a semicolon or a block, whatever comes after it.
* `isHead_selector`, `isHead_atHead`, `isHead_declaration`: the heads of the nodes are read as they
  were written.
-/

namespace ScopedCss
namespace Stylesheet

/-! ## Parts -/

/-- A part of a head: it has no blanks at its ends, and it is closed. -/
def isPart (text : String) : Bool := Text.trim text.toList == text.toList && isClosed text.toList

/-- The text begins with neither a blank nor a comment nor an at-keyword. -/
def startsPlain : List Char → Bool
  | [] => true
  | c :: rest =>
    match (token c rest).1 with
    | .blank => false
    | .atKeyword _ => false
    | _ => true

/-- The name of an at-rule: an identifier that spells itself. -/
def isAtName (name : String) : Bool := token '@' name.toList = (.atKeyword name, [])

/-- The property of a declaration. -/
def isProperty (property : String) : Bool :=
  isPart property && startsPlain property.toList && !property.isEmpty &&
    !property.toList.contains ':'

/-! ## What ends a head -/

/-- The text after a head, and the part of it from the semicolon or the block on that ends the
head. -/
inductive Stops : List Char → List Char → Prop
  | semicolon (rest : List Char) : Stops (';' :: rest) (';' :: rest)
  | body (rest : List Char) : Stops (' ' :: '{' :: rest) ('{' :: rest)

variable {c : Char} {s rest more body : List Char} {outer : List Bracket}
  {params selector property value : String}

theorem Stops.ending (h : Stops more body) : Ending more := by
  cases h with
  | semicolon rest => exact .semicolon rest
  | body rest => exact .body rest

theorem Stops.untilBody_eq (h : Stops more body) : untilBody more = body := by
  cases h with
  | semicolon rest => rw [untilBody]; rfl
  | body rest => rw [untilBody_space rfl, untilBody]; rfl

/-- The blank before a block does not count to the head. -/
theorem Stops.trim_before (h : Stops more body) (s : List Char) :
    Text.trim (before (s ++ more) body) = Text.trim s := by
  cases h with
  | semicolon rest => rw [before_append_right]
  | body rest =>
    rw [show s ++ ' ' :: '{' :: rest = (s ++ [' ']) ++ '{' :: rest by simp, before_append_right,
      Text.trim_append_blank rfl]

/-- The text is a head with this at-keyword and this prelude, wherever it is read. -/
structure IsHead (head : List Char) (keyword : Option String) (prelude : String) : Prop where
  /-- The block around it is not left inside it. -/
  stays : ∀ {more body outer}, Stops more body → outer.head? = some .curly →
    untilClose outer (head ++ more) = untilClose outer more
  /-- It is split into its at-keyword and its prelude. -/
  reads : ∀ {more body}, Stops more body → ∃ text,
    splitKeyword (skipBlanks (head ++ more)) = (keyword, text) ∧ untilBody text = body ∧
      Text.trim (before text body) = prelude.toList

namespace IsHead

variable {head : List Char} {keyword : Option String} {prelude : String}

theorem splitKeyword_eq (h : IsHead head keyword prelude) (hstops : Stops more body) :
    (splitKeyword (skipBlanks (head ++ more))).1 = keyword := by
  obtain ⟨text, hsplit, -⟩ := h.reads hstops
  rw [hsplit]

theorem afterPrelude_eq (h : IsHead head keyword prelude) (hstops : Stops more body) :
    afterPrelude (skipBlanks (head ++ more)) = body := by
  obtain ⟨text, hsplit, huntil, -⟩ := h.reads hstops
  rw [afterPrelude, hsplit, huntil]

theorem preludeOf_eq (h : IsHead head keyword prelude) (hstops : Stops more body) :
    preludeOf (skipBlanks (head ++ more)) = prelude := by
  obtain ⟨text, hsplit, huntil, htrim⟩ := h.reads hstops
  rw [preludeOf, afterPrelude, hsplit, huntil, htrim, String.ofList_toList]

end IsHead

/-! ## Selectors -/

theorem isPart_iff {text : String} : isPart text ↔
    Text.trim text.toList = text.toList ∧ closesAll [] text.toList ∧ EndsPlain text.toList := by
  simp [isPart, isClosed_iff]

theorem isWhole_of_closesAll (h : closesAll [] (c :: rest)) : isWhole c rest := by
  rw [closesAll] at h
  split at h
  · assumption
  · cases h

/-- A text that begins plainly is read from its beginning on. -/
theorem skipBlanks_of_startsPlain (hmore : Ending more) (hclosed : closesAll [] (c :: rest))
    (hends : EndsPlain (c :: rest)) (hplain : startsPlain (c :: rest)) :
    skipBlanks (c :: (rest ++ more)) = c :: (rest ++ more) ∧
      splitKeyword (c :: (rest ++ more)) = (none, c :: (rest ++ more)) := by
  obtain ⟨hsame, -⟩ := token_append hmore hends (isWhole_of_closesAll hclosed)
  rw [startsPlain, ← hsame] at hplain
  constructor
  · rw [skipBlanks, if_neg]
    intro hblank
    rw [hblank] at hplain
    cases hplain
  · rw [splitKeyword]
    split
    · next heq =>
      rw [heq] at hplain
      cases hplain
    · rfl

/-- A rule may have no selector at all. -/
theorem isHead_nil : IsHead [] none "" where
  stays _ _ := rfl
  reads {more body} hstops := by
    refine ⟨body, ?_, ?_, ?_⟩
    · cases hstops with
      | semicolon rest => rw [List.nil_append, skipBlanks]; rfl
      | body rest => rw [List.nil_append, skipBlanks_space rfl, skipBlanks]; rfl
    · cases hstops <;> (rw [untilBody]; rfl)
    · rw [before, Nat.sub_self]
      rfl

theorem isHead_selector (hpart : isPart selector) (hplain : startsPlain selector.toList) :
    IsHead selector.toList none selector := by
  obtain ⟨htrim, hclosed, hends⟩ := isPart_iff.1 hpart
  cases hchars : selector.toList with
  | nil =>
    obtain rfl := String.toList_eq_nil_iff.1 hchars
    exact isHead_nil
  | cons c rest =>
    rw [hchars] at hplain htrim hclosed hends
    constructor
    · exact fun hstops houter => untilClose_append hstops.ending houter hclosed hends
    · intro more body hstops
      obtain ⟨hstart, hkeyword⟩ := skipBlanks_of_startsPlain hstops.ending hclosed hends hplain
      refine ⟨c :: rest ++ more, ?_, ?_, ?_⟩
      · rw [List.cons_append, hstart, hkeyword]
      · rw [untilBody_append hstops.ending hclosed hends, hstops.untilBody_eq]
      · rw [hstops.trim_before, htrim, hchars]

/-! ## At-rules -/

/-- The text after the name of an at-rule ends it. -/
theorem token_atName {name : String} (h : isAtName name)
    (hmore : Stylesheet.name more = ([], more)) :
    token '@' (name.toList ++ more) = (.atKeyword name, more) := by
  have htoken : atToken name.toList = (.atKeyword name, []) := of_decide_eq_true h
  unfold atToken at htoken
  split at htoken
  · next hstarts =>
    obtain ⟨hspelled, hleft⟩ := Prod.mk.inj htoken
    have hself : Stylesheet.name name.toList = (name.toList, []) := by
      refine Prod.ext ?_ hleft
      simpa using congrArg String.toList (Token.atKeyword.inj hspelled)
    have hall := forall_of_name_eq hself
    have hstarts' := startsName_append_of_forall (fun c hc => (hall c hc).1) hstarts more
    show atToken (name.toList ++ more) = _
    rw [atToken, if_pos hstarts', name_append_of_forall hall hmore, String.ofList_toList]
  · cases htoken

/-- What is written between the name of an at-rule and the end of its head. -/
def paramsText (params : String) : List Char :=
  if params.isEmpty then [] else ' ' :: params.toList

theorem paramsText_cases (params : String) :
    paramsText params = [] ∧ params = "" ∨ paramsText params = ' ' :: params.toList := by
  unfold paramsText
  split
  · next hnone => exact .inl ⟨rfl, String.isEmpty_iff.1 hnone⟩
  · exact .inr rfl

theorem toList_atHead (name params : String) :
    (atHead name params).toList = '@' :: (name.toList ++ paramsText params) := by
  unfold atHead paramsText
  split <;> simp

theorem trim_paramsText (hpart : isPart params) :
    Text.trim (paramsText params) = params.toList := by
  rcases paramsText_cases params with ⟨htext, rfl⟩ | htext
  · rw [htext]
    rfl
  · rw [htext, Text.trim_cons_blank rfl, (isPart_iff.1 hpart).1]

theorem name_paramsText (hstops : Stops more body) :
    name (paramsText params ++ more) = ([], paramsText params ++ more) := by
  rcases paramsText_cases params with ⟨htext, -⟩ | htext
  · rw [htext]
    exact name_of_ending hstops.ending
  · rw [htext, List.cons_append, name]
    rfl

theorem untilBody_paramsText (hpart : isPart params) (hstops : Stops more body) :
    untilBody (paramsText params ++ more) = body := by
  obtain ⟨-, hclosed, hends⟩ := isPart_iff.1 hpart
  rcases paramsText_cases params with ⟨htext, -⟩ | htext
  · rw [htext]
    exact hstops.untilBody_eq
  · rw [htext, List.cons_append, untilBody_space rfl, untilBody_append hstops.ending hclosed hends,
      hstops.untilBody_eq]

theorem untilClose_paramsText (hpart : isPart params) (hstops : Stops more body)
    (houter : outer.head? = some .curly) :
    untilClose outer (paramsText params ++ more) = untilClose outer more := by
  obtain ⟨-, hclosed, hends⟩ := isPart_iff.1 hpart
  rcases paramsText_cases params with ⟨htext, -⟩ | htext
  · rw [htext]
    rfl
  · rw [htext, List.cons_append, untilClose_space rfl]
    exact untilClose_append hstops.ending houter hclosed hends

theorem isHead_atHead {name : String} (hname : isAtName name) (hpart : isPart params) :
    IsHead (atHead name params).toList (some name) params := by
  have htoken {more body : List Char} (hstops : Stops more body) :
      token '@' (name.toList ++ (paramsText params ++ more))
        = (.atKeyword name, paramsText params ++ more) :=
    token_atName hname (name_paramsText hstops)
  rw [toList_atHead]
  constructor
  · intro more body outer hstops houter
    have hkind := congrArg Prod.fst (htoken hstops)
    rw [List.cons_append, List.append_assoc, untilClose_of_other hkind nofun nofun, htoken hstops]
    exact untilClose_paramsText hpart hstops houter
  · intro more body hstops
    have hstart : skipBlanks ('@' :: (name.toList ++ (paramsText params ++ more)))
        = '@' :: (name.toList ++ (paramsText params ++ more)) := by
      rw [skipBlanks, htoken hstops]
      rfl
    refine ⟨paramsText params ++ more, ?_, untilBody_paramsText hpart hstops, ?_⟩
    · rw [List.cons_append, List.append_assoc, hstart, splitKeyword, htoken hstops]
    · rw [hstops.trim_before, trim_paramsText hpart]

/-! ## Declarations -/

theorem untilClose_colon (blocks : List Bracket) (rest : List Char) :
    untilClose blocks (':' :: rest) = untilClose blocks rest :=
  untilClose_of_other (show (token ':' rest).1 = .other from rfl) nofun nofun

theorem untilBody_colon (rest : List Char) : untilBody (':' :: rest) = untilBody rest :=
  untilBody_of_other (show (token ':' rest).1 = .other from rfl) nofun nofun

theorem isProperty_iff : isProperty property ↔
    isPart property ∧ startsPlain property.toList ∧ property ≠ "" ∧ ':' ∉ property.toList := by
  simp [isProperty, and_assoc]

theorem splitColon?_append (h : ':' ∉ s) (more : List Char) :
    splitColon? (s ++ ':' :: more) = some (s, more) := by
  induction s with
  | nil => rw [List.nil_append, splitColon?, if_pos rfl]
  | cons c s ih =>
    obtain ⟨hc, hs⟩ := not_or.1 (h ∘ List.mem_cons.2)
    rw [List.cons_append, splitColon?, if_neg (Ne.symm hc), ih hs]
    rfl

/-- The text of a declaration. -/
def declarationText (property value : String) : String := property ++ ": " ++ value

theorem toList_declarationText (property value : String) :
    (declarationText property value).toList = property.toList ++ ':' :: ' ' :: value.toList := by
  simp [declarationText]

theorem isHead_declaration (hproperty : isProperty property) (hvalue : isPart value) :
    IsHead (declarationText property value).toList none
      (Text.trimText (declarationText property value)) := by
  obtain ⟨hpart, hplain, hnonempty, -⟩ := isProperty_iff.1 hproperty
  obtain ⟨-, hclosed, hends⟩ := isPart_iff.1 hpart
  obtain ⟨-, hvalueClosed, hvalueEnds⟩ := isPart_iff.1 hvalue
  have hcolon (rest : List Char) : Ending (':' :: rest) := .colon rest
  constructor
  · intro more body outer hstops houter
    have hproperty : untilClose outer (property.toList ++ ':' :: ' ' :: (value.toList ++ more))
        = untilClose outer (':' :: ' ' :: (value.toList ++ more)) :=
      untilClose_append (hcolon _) houter hclosed hends
    rw [toList_declarationText, List.append_assoc, List.cons_append, List.cons_append, hproperty,
      untilClose_colon, untilClose_space rfl]
    exact untilClose_append hstops.ending houter hvalueClosed hvalueEnds
  · intro more body hstops
    refine ⟨(declarationText property value).toList ++ more, ?_, ?_, ?_⟩
    · rw [toList_declarationText]
      cases hchars : property.toList with
      | nil => exact absurd (String.toList_eq_nil_iff.1 hchars) hnonempty
      | cons c rest =>
        rw [hchars] at hplain hclosed hends
        obtain ⟨hstart, hkeyword⟩ :=
          skipBlanks_of_startsPlain (hcolon (' ' :: (value.toList ++ more))) hclosed hends hplain
        simp only [List.cons_append, List.append_assoc]
        rw [hstart, hkeyword]
    · rw [toList_declarationText, List.append_assoc, List.cons_append, List.cons_append,
        untilBody_append (hcolon _) hclosed hends, untilBody_colon, untilBody_space rfl,
        untilBody_append hstops.ending hvalueClosed hvalueEnds, hstops.untilBody_eq]
    · rw [hstops.trim_before, Text.trimText, String.toList_ofList]

/-- Trimming leaves the property and the colon, and the value after a blank. -/
theorem trim_declarationText (hproperty : isProperty property) (hvalue : isPart value) :
    ∃ rest, Text.trim (declarationText property value).toList = property.toList ++ ':' :: rest ∧
      Text.trim rest = value.toList := by
  obtain ⟨hpart, -, hnonempty, -⟩ := isProperty_iff.1 hproperty
  obtain ⟨hhead, -⟩ := Text.trim_eq_self_iff.1 (isPart_iff.1 hpart).1
  have htrim := (isPart_iff.1 hvalue).1
  have hstart (rest : List Char) : (property.toList ++ rest).head?.any Text.isBlank = false := by
    cases hchars : property.toList with
    | nil => exact absurd (String.toList_eq_nil_iff.1 hchars) hnonempty
    | cons c chars => rwa [hchars] at hhead
  rw [toList_declarationText]
  by_cases hnone : value.toList = []
  · refine ⟨[], ?_, hnone.symm⟩
    rw [hnone, show property.toList ++ [':', ' '] = (property.toList ++ [':']) ++ [' '] by simp,
      Text.trim_append_blank rfl, Text.trim_eq_self_iff]
    exact ⟨hstart _, by simp [Text.isBlank]⟩
  · refine ⟨' ' :: value.toList, ?_, ?_⟩
    · obtain ⟨-, hlast⟩ := Text.trim_eq_self_iff.1 htrim
      have hsame : (property.toList ++ ':' :: ' ' :: value.toList).getLast?
          = value.toList.getLast? := by
        cases hchars : value.toList with
        | nil => exact absurd hchars hnone
        | cons c rest => simp [List.getLast?_append, List.getLast?_cons]
      rw [Text.trim_eq_self_iff, hsame]
      exact ⟨hstart _, hlast⟩
    · rw [Text.trim_cons_blank rfl, htrim]

theorem declaration?_declarationText (hproperty : isProperty property) (hvalue : isPart value) :
    declaration? (Text.trimText (declarationText property value))
      = some (.declaration property value) := by
  obtain ⟨hpart, -, hnonempty, hcolon⟩ := isProperty_iff.1 hproperty
  obtain ⟨rest, htext, hrest⟩ := trim_declarationText hproperty hvalue
  have htrim := (isPart_iff.1 hpart).1
  have hne : property.toList.isEmpty = false := by simpa using hnonempty
  simp only [declaration?, Text.trimText, String.toList_ofList, htext, splitColon?_append hcolon,
    htrim, hne, Bool.false_eq_true, if_false, hrest, String.ofList_toList]

/-- In a block, this prelude is read as the declaration. -/
theorem readInside_declarationText (hproperty : isProperty property) (hvalue : isPart value)
    (place : Location) :
    (Item.mk place none (Text.trimText (declarationText property value)) none).readInside
      = ([], [.declaration property value]) := by
  obtain ⟨rest, htext, -⟩ := trim_declarationText hproperty hvalue
  have hne : (Text.trimText (declarationText property value)).isEmpty = false := by
    simp [Text.trimText, htext]
  simp only [Item.readInside, hne, Bool.false_eq_true, if_false, parseDeclaration,
    declaration?_declarationText hproperty hvalue]

end Stylesheet
end ScopedCss
