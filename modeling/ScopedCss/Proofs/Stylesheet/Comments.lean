import ScopedCss.Proofs.Stylesheet.Skipping

/-!
# Comments in the prelude of a rule

A comment right behind a separator is a token of its own, and nothing before the separator is read
in another way because of it. In the prelude of a rule it is kept, and it changes the selector of
this rule and nothing else.

* `InRule` says of a place in a text that it stands in the prelude of a rule, at any depth.
* `Rereads` compares what is read of two texts that are the same up to a separator. It goes from an
  item to the items around it and before it (`Rereads.inside`, `Rereads.later`).
* `InRule.rereads`: a comment in the prelude of a rule makes its selector another one.
* `Commented.read`: a stylesheet with such a comment can be read if the stylesheet can.
-/

namespace ScopedCss
namespace Stylesheet

variable {w c : Char} {p q r s t u content front back item close rest : List Char}
  {old new : String} {nodes nodes' : List Node} {keyword : Option String} {prelude : String}

/-! ## Comments -/

/-- A comment, character by character. -/
def commentText (content : List Char) : List Char := '/' :: '*' :: (content ++ ['*', '/'])

theorem afterComment_content (h : ¬ ['*', '/'] <:+: content) (rest : List Char) :
    afterComment (content ++ '*' :: '/' :: rest) = rest := by
  induction content with
  | nil => rfl
  | cons c content ih =>
    rw [List.cons_append, afterComment_cons, if_neg]
    · exact ih fun hinside => h (hinside.trans (List.suffix_cons c content).isInfix)
    · intro hclose
      obtain ⟨hstar, hslash⟩ := Bool.and_eq_true_iff.1 hclose
      cases eq_of_beq hstar
      cases content with
      | nil => cases hslash
      | cons d content =>
        cases eq_of_beq hslash
        exact h ⟨[], content, rfl⟩

/-- A comment is one token. -/
theorem token_commentText (h : ¬ ['*', '/'] <:+: content) (rest : List Char) :
    token '/' ('*' :: (content ++ ['*', '/']) ++ rest) = (.blank, rest) := by
  rw [List.cons_append, List.append_assoc, token_comment]
  exact congrArg (Token.blank, ·) (afterComment_content h rest)

theorem untilClose_commentText (h : ¬ ['*', '/'] <:+: content) (blocks : List Bracket)
    (rest : List Char) :
    untilClose blocks (commentText content ++ rest) = untilClose blocks rest := by
  have htoken := token_commentText h rest
  rw [commentText, List.cons_append,
    untilClose_of_other (congrArg Prod.fst htoken) nofun nofun, htoken]

theorem untilBody_commentText (h : ¬ ['*', '/'] <:+: content) (rest : List Char) :
    untilBody (commentText content ++ rest) = untilBody rest := by
  have htoken := token_commentText h rest
  rw [commentText, List.cons_append,
    untilBody_of_other (congrArg Prod.fst htoken) nofun nofun, htoken]

/-! ## Places in the prelude of a rule -/

/-- The text after the item that a text begins with, and after its block. -/
def afterItem (item : List Char) : List Char :=
  if (afterPrelude item).head? = some '{' then (untilClose [.curly] (afterPrelude item).tail).tail
  else (afterPrelude item).tail

/-- From the text `s` on, `t` begins in the prelude of a rule, at any depth: it stands in no
bracket, and at the beginning of a token. The prelude is `front` up to there and `back` from there
on. -/
inductive InRule (front back : List Char) : List Char → List Char → Prop
  | here {s body : List Char} (start : skipBlanks s = front ++ (back ++ body))
      (rule : (splitKeyword (front ++ (back ++ body))).1 = none)
      (ends : afterPrelude (front ++ (back ++ body)) = body) (block : body.head? = some '{')
      (place : InPrelude (back ++ body) (front ++ (back ++ body))) :
      InRule front back (back ++ body) s
  | inside {s item inner close t : List Char} (start : skipBlanks s = item)
      (block : afterPrelude item = '{' :: (inner ++ close))
      (closes : untilClose [.curly] (inner ++ close) = close) (h : InRule front back t inner) :
      InRule front back (t ++ close) s
  | later {s item t : List Char} (start : skipBlanks s = item)
      (h : InRule front back t (afterItem item)) :
      InRule front back t s

/-- Nodes that are the same but for the selector of one rule, at any depth. -/
inductive Reselected (old new : String) : List Node → List Node → Prop
  | here (nodes rest : List Node) :
      Reselected old new (.rule old nodes :: rest) (.rule new nodes :: rest)
  | inRule {nodes nodes' : List Node} (selector : String) (rest : List Node)
      (h : Reselected old new nodes nodes') :
      Reselected old new (.rule selector nodes :: rest) (.rule selector nodes' :: rest)
  | inBlock {nodes nodes' : List Node} (name params : String) (rest : List Node)
      (h : Reselected old new nodes nodes') :
      Reselected old new (.block name params nodes :: rest) (.block name params nodes' :: rest)
  | later {nodes nodes' : List Node} (node : Node) (h : Reselected old new nodes nodes') :
      Reselected old new (node :: nodes) (node :: nodes')

theorem Reselected.append (h : Reselected old new nodes nodes') (before : List Node) :
    Reselected old new (before ++ nodes) (before ++ nodes') := by
  induction before with
  | nil => exact h
  | cons node before ih => exact .later node ih

theorem Reselected.blockNode (h : Reselected old new nodes nodes') (keyword : Option String)
    (prelude : String) (rest : List Node) :
    Reselected old new (blockNode keyword prelude nodes :: rest)
      (blockNode keyword prelude nodes' :: rest) := by
  cases keyword with
  | none => exact .inRule prelude rest h
  | some name => exact .inBlock name prelude rest h

/-! ## Reading -/

theorem readInside_place (place place' : Location) (keyword : Option String) (prelude : String) :
    (Item.mk place keyword prelude none).readInside.2
      = (Item.mk place' keyword prelude none).readInside.2 := by
  cases keyword with
  | some name => simp only [Item.readInside]
  | none =>
    simp only [Item.readInside, parseDeclaration]
    split
    · rfl
    · cases declaration? prelude <;> rfl

theorem fault?_place (place place' : Location) (keyword : Option String) (prelude : String) :
    (Item.mk place keyword prelude none).fault? = none ↔
      (Item.mk place' keyword prelude none).fault? = none := by
  cases keyword with
  | some name => exact Iff.rfl
  | none => by_cases hempty : prelude.isEmpty <;> simp [Item.fault?, hempty]

/-- What is read does not depend on where it stands. -/
theorem readItems_place (place place' : Location) (s : List Char) :
    (readBlock (readItems place s)).2 = (readBlock (readItems place' s)).2 ∧
      ((∀ item ∈ readItems place s, item.fault? = none) ↔
        ∀ item ∈ readItems place' s, item.fault? = none) := by
  induction place, s using readItems.induct generalizing place' with
  | case1 place s hnil =>
    rw [readItems_of_nil hnil, readItems_of_nil hnil]
    exact ⟨rfl, Iff.rfl⟩
  | case2 place s c rest hcons item start body hblock close ihblock ihrest =>
    simp only [item, start, body, close] at hblock ihblock ihrest
    rw [readItems_of_cons hcons, readItems_of_cons hcons, if_pos hblock, if_pos hblock]
    simp only [readBlock, Item.readInside, List.forall_mem_cons, fault?_of_block, true_and]
    exact ⟨by rw [(ihblock _).1, (ihrest _).1], (ihrest _).2⟩
  | case3 place s c rest hcons item start body hblock ihrest =>
    simp only [item, start, body] at hblock ihrest
    rw [readItems_of_cons hcons, readItems_of_cons hcons, if_neg hblock, if_neg hblock]
    simp only [readBlock, List.forall_mem_cons]
    exact ⟨congrArg₂ (· ++ ·) (readInside_place ..) (ihrest _).1,
      and_congr (fault?_place ..) (ihrest _).2⟩

/-- The nodes of a text, if nothing is wrong with it. -/
def nodesIn (s : List Char) : List Node := (readBlock (readItems .start s)).2

/-- Nothing is wrong with a text that stands outside all blocks. -/
def IsSound (s : List Char) : Prop := ∀ item ∈ readItems .start s, item.fault? = none

theorem afterPrelude_nil : afterPrelude [] = [] := by rw [afterPrelude, splitKeyword, untilBody]

/-- The first item of the text `s` has this keyword and this prelude, and `body` comes behind
them. -/
structure Begins (keyword : Option String) (prelude : String) (s body : List Char) : Prop where
  keyword : (splitKeyword (skipBlanks s)).1 = keyword
  prelude : preludeOf (skipBlanks s) = prelude
  body : afterPrelude (skipBlanks s) = body

theorem Begins.skipBlanks_ne_nil (h : Begins keyword prelude s (c :: rest)) :
    ∃ d item, skipBlanks s = d :: item := by
  match hskip : skipBlanks s with
  | [] =>
    have hbody := h.body
    rw [hskip, afterPrelude_nil] at hbody
    cases hbody
  | d :: item => exact ⟨d, item, rfl⟩

/-- What is read of a text that begins with an item that has a block. -/
theorem reads_of_block {inner : List Char} (h : Begins keyword prelude s ('{' :: (inner ++ close)))
    (hclose : untilClose [.curly] (inner ++ close) = close) :
    nodesIn s = blockNode keyword prelude (nodesIn inner) :: nodesIn close.tail ∧
      (IsSound s ↔ IsSound close.tail) := by
  obtain ⟨d, item, hskip⟩ := h.skipBlanks_ne_nil
  obtain ⟨rfl, rfl, hbody⟩ := h
  rw [hskip] at hbody ⊢
  unfold nodesIn IsSound
  rw [readItems_of_cons hskip, hbody, if_pos List.head?_cons, List.tail_cons, hclose,
    before_append_right]
  simp only [readBlock, Item.readInside, List.forall_mem_cons, fault?_of_block, true_and]
  exact ⟨congrArg₂ (fun nodes more => blockNode _ _ nodes :: more) (readItems_place ..).1
    (readItems_place ..).1, (readItems_place ..).2⟩

/-- What is read of a text that begins with an item that a semicolon ends. -/
theorem reads_of_semicolon (h : Begins keyword prelude s (';' :: rest)) :
    nodesIn s = (Item.mk .start keyword prelude none).readInside.2 ++ nodesIn rest ∧
      (IsSound s ↔ (Item.mk .start keyword prelude none).fault? = none ∧ IsSound rest) := by
  obtain ⟨d, item, hskip⟩ := h.skipBlanks_ne_nil
  obtain ⟨rfl, rfl, hbody⟩ := h
  rw [hskip] at hbody ⊢
  unfold nodesIn IsSound
  rw [readItems_of_cons hskip, hbody, if_neg (by simp), List.tail_cons]
  simp only [readBlock, List.forall_mem_cons]
  exact ⟨congrArg₂ (· ++ ·) (readInside_place ..) (readItems_place ..).1,
    and_congr (fault?_place ..) (readItems_place ..).2⟩

/-! ## Reading around a separator -/

theorem isSpace_of_skipBlanks (h : skipBlanks s = c :: rest) : isSpace c = false := by
  fun_induction skipBlanks s with
  | case1 => cases h
  | case2 _ _ _ ih => exact ih h
  | case3 d rest hblank =>
    cases h
    by_contra hspace
    exact hblank (congrArg Prod.fst (token_space (by simpa using hspace) rest))

/-- An item that reaches to a separator begins before it, and it begins where it does whatever comes
behind the separator. -/
theorem skipBlanks_separated (hw : isSpace w) (hskip : skipBlanks (p ++ w :: t) = item)
    (h : w :: t <:+ item) :
    ∃ r, item = r ++ w :: t ∧ (∀ t', skipBlanks (p ++ w :: t') = r ++ w :: t') ∧
      (Splits w r → Splits w p) := by
  obtain ⟨r, rfl⟩ := h
  cases r with
  | nil => cases (isSpace_of_skipBlanks hskip).symm.trans hw
  | cons c x => exact ⟨c :: x, rfl, skipBlanks_stopsShort hw (isSpace_of_skipBlanks hskip) hskip⟩

theorem afterPrelude_separated (hw : isSpace w) (hc : isSpace c = false)
    (h : afterPrelude (p ++ w :: t) = c :: q ++ w :: t) :
    (∃ keyword prelude, ∀ v, (splitKeyword (p ++ w :: v)).1 = keyword ∧
      preludeOf (p ++ w :: v) = prelude ∧
      afterPrelude (p ++ w :: v) = c :: q ++ w :: v) ∧ (Splits w (c :: q) → Splits w p) := by
  unfold preludeOf
  have hsuffix : c :: q ++ w :: t <:+ (splitKeyword (p ++ w :: t)).2 := h ▸ untilBody_suffix _
  obtain ⟨keyword, x, hkeyword, hsplits⟩ :=
    splitKeyword_separated hw ((List.suffix_append _ _).trans hsuffix)
  simp only [afterPrelude, hkeyword] at h hsuffix ⊢
  obtain ⟨front, rfl⟩ := List.suffix_append_self_iff.1 hsuffix
  obtain ⟨hsame, hsplits'⟩ := untilBody_stopsShort hw hc h
  simp only [List.append_assoc front] at hsame ⊢
  simp only [hsame, before_append_right]
  exact ⟨⟨keyword, _, fun v => ⟨rfl, rfl, trivial⟩⟩, fun hsplit => hsplits (hsplits' hsplit)⟩

/-- An item whose prelude ends before a separator is the same up to there whatever comes behind the
separator. -/
theorem begins_separated (hw : isSpace w) (hc : isSpace c = false)
    (hskip : skipBlanks (p ++ w :: t) = item) (hbody : afterPrelude item = c :: q ++ w :: t) :
    ∃ keyword prelude, (∀ v, Begins keyword prelude (p ++ w :: v) (c :: q ++ w :: v)) ∧
      (Splits w (c :: q) → Splits w p) := by
  obtain ⟨front, rfl, hskips, hsplits⟩ := skipBlanks_separated hw hskip
    ((List.suffix_append _ _).trans (hbody ▸ afterPrelude_suffix item))
  obtain ⟨⟨keyword, prelude, hsame⟩, hsplits'⟩ := afterPrelude_separated hw hc hbody
  simp only [← hskips] at hsame
  exact ⟨keyword, prelude, fun v => ⟨(hsame v).1, (hsame v).2.1, (hsame v).2.2⟩,
    fun hsplit => hsplits (hsplits' hsplit)⟩

theorem afterItem_suffix (item : List Char) : afterItem item <:+ item := by
  unfold afterItem
  have hbody : (afterPrelude item).tail <:+ item :=
    (List.tail_suffix _).trans (afterPrelude_suffix item)
  split
  · exact ((List.tail_suffix _).trans (untilClose_suffix _ _)).trans hbody
  · exact hbody

theorem InRule.suffix (h : InRule front back t s) : t <:+ s := by
  induction h with
  | here start rule ends block place => exact place.suffix.trans (start ▸ skipBlanks_suffix _)
  | @inside s item inner close t start block closes h ih =>
    have hbody : t ++ close <:+ '{' :: (inner ++ close) :=
      (List.suffix_append_self_iff.2 ih).trans (List.suffix_cons _ _)
    exact (hbody.trans (block ▸ afterPrelude_suffix _)).trans (start ▸ skipBlanks_suffix _)
  | later start h ih => exact (ih.trans (afterItem_suffix _)).trans (start ▸ skipBlanks_suffix _)

theorem InRule.ne_nil (h : InRule front back t s) (hback : back ≠ []) : t ≠ [] := by
  induction h with
  | here => exact List.append_ne_nil_of_left_ne_nil hback _
  | inside start block closes h ih => exact List.append_ne_nil_of_left_ne_nil ih _
  | later start h ih => exact ih

theorem splitKeyword_of_none (h : (splitKeyword s).1 = none) : splitKeyword s = (none, s) := by
  cases s with
  | nil => rfl
  | cons c rest =>
    refine splitKeyword_of_ne fun keyword hkind => ?_
    rw [splitKeyword_of_atKeyword (Prod.ext hkind rfl)] at h
    cases h

/-- Whether an item begins with an at-keyword shows before a separator. -/
theorem splitKeyword_rule (hw : isSpace w) (h : (splitKeyword (p ++ w :: t)).1 = none)
    (t' : List Char) :
    splitKeyword (p ++ w :: t') = (none, p ++ w :: t') := by
  have hnone := splitKeyword_of_none h
  obtain ⟨keyword, q, hsame, -⟩ := splitKeyword_separated hw (p := p) (t := t)
    (hnone ▸ List.suffix_append p (w :: t))
  obtain ⟨rfl, hq⟩ := Prod.mk.inj ((hsame t).symm.trans hnone)
  obtain rfl := List.append_cancel_right hq
  exact hsame t'

/-- A rule begins with its selector. -/
theorem begins_rule (hskip : skipBlanks s = p ++ t) (hrule : splitKeyword (p ++ t) = (none, p ++ t))
    (hends : afterPrelude (p ++ t) = t) : Begins none (String.ofList (Text.trim p)) s t where
  keyword := by rw [hskip, hrule]
  prelude := by rw [hskip, preludeOf, hends, hrule, before_append_right]
  body := by rw [hskip, hends]

/-- Behind the separator that `p` is followed by, another text stands. Up to the separator the text
is cut into tokens, and what is read of it differs in the selector of one rule. -/
structure Rereads (old new : String) (w : Char) (p t u : List Char) : Prop where
  splits : Splits w p
  nodes : Reselected old new (nodesIn (p ++ w :: t)) (nodesIn (p ++ w :: u))
  sound : IsSound (p ++ w :: t) → IsSound (p ++ w :: u)

/-- A block in which the selector of a rule is another one. -/
theorem Rereads.inside (h : Rereads old new w r t u) (hw : isSpace w)
    (hskip : skipBlanks (p ++ w :: (t ++ close)) = item)
    (hblock : afterPrelude item = '{' :: ((r ++ w :: t) ++ close))
    (hclose : untilClose [.curly] ((r ++ w :: t) ++ close) = close)
    (hgoesOn : ∀ blocks, untilClose blocks (u ++ close) = untilClose blocks (t ++ close)) :
    Rereads old new w p (t ++ close) (u ++ close) := by
  have hassoc (v : List Char) : (r ++ w :: v) ++ close = r ++ w :: (v ++ close) := by simp
  obtain ⟨keyword, prelude, hbegins, hsplits⟩ :=
    begins_separated (q := r) hw rfl hskip (hassoc t ▸ hblock)
  have hbegins' (v : List Char) : Begins keyword prelude (p ++ w :: (v ++ close))
      ('{' :: ((r ++ w :: v) ++ close)) := by
    rw [hassoc]
    exact hbegins (v ++ close)
  have hclose' : untilClose [.curly] ((r ++ w :: u) ++ close) = close := by
    rw [hassoc] at hclose ⊢
    rcases h.splits.untilClose_eq hw [.curly] with ⟨q, hq⟩ | ⟨blocks, hq⟩
    · have hlength := congrArg List.length (hclose.symm.trans (hq _))
      simp at hlength
      omega
    · rw [hq, hgoesOn, ← hq, hclose]
  obtain ⟨hnodes, hsound⟩ := reads_of_block (hbegins' t) hclose
  obtain ⟨hnodes', hsound'⟩ := reads_of_block (hbegins' u) hclose'
  refine ⟨hsplits (.cons (fun _ => rfl) h.splits), ?_, fun hs => hsound'.2 (hsound.1 hs)⟩
  rw [hnodes, hnodes']
  exact h.nodes.blockNode keyword prelude _

/-- An item with a block before the separator. -/
theorem Rereads.afterBlock (h : Rereads old new w q t u) (hw : isSpace w) {body : List Char}
    (hskip : skipBlanks (p ++ w :: t) = item) (hblock : afterPrelude item = '{' :: body)
    (hafter : (untilClose [.curly] body).tail = q ++ w :: t) : Rereads old new w p t u := by
  have hclosed : untilClose [.curly] body ≠ [] := fun hnone => by
    rw [hnone] at hafter
    cases q <;> cases hafter
  obtain ⟨d, rest, closing, hclose, hd, htoken⟩ :=
    (untilClose_cases [.curly] body).resolve_left hclosed
  obtain rfl : rest = q ++ w :: t := by rwa [hclose] at hafter
  obtain ⟨inner, rfl⟩ := hclose ▸ untilClose_suffix [.curly] body
  have hassoc (v : List Char) : inner ++ d :: (q ++ w :: v) = (inner ++ d :: q) ++ w :: v := by simp
  obtain ⟨keyword, prelude, hbegins, hsplits⟩ :=
    begins_separated (q := inner ++ d :: q) hw rfl hskip (by rw [hblock, hassoc, List.cons_append])
  obtain ⟨hcloses, hsplits'⟩ := untilClose_stopsShort [.curly] hw hd (x := q) (hassoc t ▸ hclose)
  have hbegins' (v : List Char) :
      Begins keyword prelude (p ++ w :: v) ('{' :: (inner ++ d :: (q ++ w :: v))) := by
    rw [hassoc]
    exact hbegins v
  have hclose' (v : List Char) :
      untilClose [.curly] (inner ++ d :: (q ++ w :: v)) = d :: (q ++ w :: v) := by
    rw [hassoc]
    exact hcloses v
  have hread (v : List Char) := reads_of_block (hbegins' v) (hclose' v)
  have hsplit := hsplits' (.cons (fun _ => htoken _) h.splits)
  refine ⟨hsplits (.cons (fun _ => rfl) hsplit), ?_,
    fun hs => (hread u).2.2 (h.sound ((hread t).2.1 hs))⟩
  rw [(hread t).1, (hread u).1]
  exact .later _ h.nodes

/-- A prelude without a block before the separator. -/
theorem Rereads.afterSemicolon (h : Rereads old new w q t u) (hw : isSpace w)
    (hskip : skipBlanks (p ++ w :: t) = item) (hended : afterPrelude item = ';' :: (q ++ w :: t)) :
    Rereads old new w p t u := by
  obtain ⟨keyword, prelude, hbegins, hsplits⟩ := begins_separated (q := q) hw rfl hskip hended
  have hread (v : List Char) := reads_of_semicolon (hbegins v)
  refine ⟨hsplits (.cons (fun _ => rfl) h.splits), ?_,
    fun hs => (hread u).2.2 ((hread t).2.1 hs |>.imp_right h.sound)⟩
  rw [(hread t).1, (hread u).1]
  exact h.nodes.append _

/-- An item that ends before the separator. -/
theorem Rereads.later (h : Rereads old new w q t u) (hw : isSpace w)
    (hskip : skipBlanks (p ++ w :: t) = item) (hafter : afterItem item = q ++ w :: t) :
    Rereads old new w p t u := by
  rw [afterItem] at hafter
  rcases untilBody_cases (splitKeyword item).2 with hnone | ⟨rest, hended⟩ | ⟨body, hblock⟩
  · rw [afterPrelude, hnone] at hafter
    cases q <;> cases hafter
  · rw [afterPrelude, hended, if_neg (by simp), List.tail_cons] at hafter
    exact h.afterSemicolon hw hskip (hafter ▸ hended)
  · rw [afterPrelude, hblock, if_pos List.head?_cons, List.tail_cons] at hafter
    exact h.afterBlock hw hskip hblock hafter

/-- A comment in the prelude of a rule. -/
theorem rereads_here (hw : isSpace w) (hcontent : ¬ ['*', '/'] <:+: content) {body : List Char}
    (hskip : skipBlanks (p ++ w :: (back ++ body)) = front ++ w :: (back ++ body))
    (hrule : (splitKeyword (front ++ w :: (back ++ body))).1 = none)
    (hends : afterPrelude (front ++ w :: (back ++ body)) = body) (hblock : body.head? = some '{')
    (hplace : InPrelude (w :: (back ++ body)) (front ++ w :: (back ++ body))) :
    Rereads (String.ofList (Text.trim (front ++ w :: back)))
      (String.ofList (Text.trim (front ++ w :: (commentText content ++ back)))) w p (back ++ body)
      (commentText content ++ (back ++ body)) := by
  obtain ⟨hplaces, hsplits⟩ := hplace.separated hw
  obtain ⟨r, hr, hskips, hsplits'⟩ := skipBlanks_separated hw hskip (List.suffix_append _ _)
  obtain rfl := List.append_cancel_right hr
  have hrules := splitKeyword_rule hw hrule
  have hbody (v : List Char) : afterPrelude (front ++ w :: v) = untilBody v := by
    rw [afterPrelude, hrules, (hplaces v).untilBody_eq, untilBody_space hw]
  have hbegins (v : List Char) (hv : untilBody (v ++ body) = body) :
      Begins none (String.ofList (Text.trim (front ++ w :: v))) (p ++ w :: (v ++ body)) body :=
    begins_rule (by simpa using hskips (v ++ body)) (by simpa using hrules (v ++ body))
      (by simpa using (hbody (v ++ body)).trans hv)
  have hplain := hbegins back ((hbody _).symm.trans hends)
  have hcommented := hbegins (commentText content ++ back) (by
    rw [List.append_assoc, untilBody_commentText hcontent, ← hbody, hends])
  rw [List.append_assoc] at hcommented
  obtain ⟨inside, rfl⟩ := List.head?_eq_some_iff.1 hblock
  obtain ⟨inner, close, rfl, hclose⟩ : ∃ inner close, inside = inner ++ close ∧
      untilClose [.curly] (inner ++ close) = close := by
    obtain ⟨inner, hinner⟩ := untilClose_suffix [.curly] inside
    exact ⟨inner, _, hinner.symm, by rw [hinner]⟩
  obtain ⟨hnodes, hsound⟩ := reads_of_block hplain hclose
  obtain ⟨hnodes', hsound'⟩ := reads_of_block hcommented hclose
  refine ⟨hsplits' hsplits, ?_, fun hs => hsound'.2 (hsound.1 hs)⟩
  rw [hnodes, hnodes']
  exact .here _ _

/-- **A comment in the prelude of a rule**, right behind a separator and outside all brackets,
changes nothing but the selector of this rule, and it stands in the selector where it stands in the
text. -/
theorem InRule.rereads (hw : isSpace w) (hcontent : ¬ ['*', '/'] <:+: content)
    (h : InRule front (w :: back) (w :: t) (p ++ w :: t)) :
    Rereads (String.ofList (Text.trim (front ++ w :: back)))
      (String.ofList (Text.trim (front ++ w :: (commentText content ++ back)))) w p t
      (commentText content ++ t) := by
  generalize hu : w :: t = u at h
  generalize hs : p ++ u = s at h
  induction h generalizing p t with
  | @here s body start rule ends block place =>
    obtain rfl : t = back ++ body := (List.cons.inj hu).2
    subst hs
    exact rereads_here hw hcontent start rule ends block place
  | @inside s item inner close u start block closes h ih =>
    subst hs
    rcases List.append_eq_cons_iff.1 hu.symm with ⟨rfl, -⟩ | ⟨t₀, rfl, rfl⟩
    · exact absurd rfl (h.ne_nil (List.cons_ne_nil w back))
    · obtain ⟨r, rfl⟩ := h.suffix
      rw [← List.append_assoc]
      exact (ih rfl rfl).inside hw start block closes fun blocks => by
        rw [List.append_assoc, untilClose_commentText hcontent]
  | @later s item u start h ih =>
    subst hs hu
    obtain ⟨q, hq⟩ := h.suffix
    exact (ih rfl hq).later hw start hq.symm

/-! ## Stylesheets -/

theorem forall_of_readSheet {items : List Item} (h : (readSheet items).2 = .ok nodes) :
    ∀ item ∈ items, item.fault? = none := by
  induction items generalizing nodes with
  | nil => exact nofun
  | cons item items ih =>
    rw [readSheet] at h
    cases hfault : item.fault? with
    | some fault =>
      rw [hfault] at h
      cases h
    | none =>
      rw [hfault] at h
      replace h : (readSheet items).2.map (item.readInside.2 ++ ·) = .ok nodes := h
      cases hmore : (readSheet items).2 with
      | error fault =>
        rw [hmore] at h
        cases h
      | ok more => exact List.forall_mem_cons.2 ⟨hfault, ih hmore⟩

theorem read_eq_ok_iff {source : String} :
    (read source).2 = .ok nodes ↔ IsSound source.toList ∧ nodesIn source.toList = nodes := by
  rw [read_eq]
  constructor
  · intro h
    have hsound := forall_of_readSheet h
    rw [readSheet_of_forall hsound] at h
    exact ⟨hsound, Except.ok.inj h⟩
  · rintro ⟨hsound, rfl⟩
    rw [readSheet_of_forall hsound]
    rfl

/-- A stylesheet, and the stylesheet with a comment put into the prelude of a rule: right behind a
separator, where no string, no bracket and no other comment is open. This makes a selector another
one. -/
inductive Commented (content : String) : (source commented selector selector' : String) → Prop
  | behind {w : Char} {p t front back : List Char} (space : isSpace w)
      (place : InRule front (w :: back) (w :: t) (p ++ w :: t)) :
      Commented content (String.ofList (p ++ w :: t))
        (String.ofList (p ++ w :: (commentText content.toList ++ t)))
        (String.ofList (Text.trim (front ++ w :: back)))
        (String.ofList (Text.trim (front ++ w :: (commentText content.toList ++ back))))

/-- **A stylesheet with a comment in the prelude of a rule** can be read if the stylesheet can, and
its nodes are those of the stylesheet but for the selector of this rule. -/
theorem Commented.read {content source commented : String}
    (h : Commented content source commented old new) (hcontent : ¬ ['*', '/'] <:+: content.toList)
    (hread : (read source).2 = .ok nodes) :
    ∃ nodes', (Stylesheet.read commented).2 = .ok nodes' ∧ Reselected old new nodes nodes' := by
  cases h with
  | behind space place =>
    have h := place.rereads space hcontent
    obtain ⟨hsound, rfl⟩ := read_eq_ok_iff.1 hread
    refine ⟨_, read_eq_ok_iff.2 ⟨?_, rfl⟩, ?_⟩
    · simpa using h.sound (by simpa using hsound)
    · simpa using h.nodes

end Stylesheet
end ScopedCss
