import ScopedCss.Proofs.Stylesheet.Comments

/-!
# Stylesheets that others follow

Where a reader of a stylesheet leaves a semicolon or a brace, it has come to its end before the text
has, so that it does the same when other text follows. A stylesheet whose items all end with a mark
of their own, and which leaves no comment open behind them, is *complete*: what follows it is read
as if it stood alone.

* `token_joined`, `skipBlanks_joined`, `untilClose_joined`, `untilBody_joined`: what the readers do
  when other text follows.
* `isComplete` says that a text is complete.
* `readApart_of_isComplete`: what follows a complete text is read as if it stood alone.
* `read_append_of_isComplete`: so the nodes of two stylesheets in one are those of the one and of
  the other.
-/

namespace ScopedCss
namespace Stylesheet

variable {c : Char} {s t rest body : List Char} {keyword : Option String} {prelude : String}
  {nodes : List Node}

/-! ## Readers that leave a mark -/

/-- There is a semicolon or a brace in the text. -/
def hasMark (s : List Char) : Bool := s.any isMark

theorem hasMark_iff : hasMark s ↔ ∃ p w t, isMark w ∧ s = p ++ w :: t := by
  constructor
  · intro h
    obtain ⟨w, hw, hmark⟩ := List.any_eq_true.1 h
    obtain ⟨p, t, rfl⟩ := List.append_of_mem hw
    exact ⟨p, w, t, hmark, rfl⟩
  · rintro ⟨p, w, t, hmark, rfl⟩
    exact List.any_eq_true.2 ⟨w, by simp, hmark⟩

theorem hasMark_of_suffix (h : hasMark t) (hsuffix : t <:+ s) : hasMark s := by
  obtain ⟨m, hm, hmark⟩ := List.any_eq_true.1 h
  exact List.any_eq_true.2 ⟨m, hsuffix.subset hm, hmark⟩

/-- A token that ends before a mark is the same when other text follows. -/
theorem token_joined (h : hasMark (token c rest).2) (more : List Char) :
    token c (rest ++ more) = ((token c rest).1, (token c rest).2 ++ more) := by
  obtain ⟨q, w, t, hmark, hleft⟩ := hasMark_iff.1 h
  obtain ⟨p, hp⟩ := (List.suffix_append q (w :: t)).trans (hleft ▸ token_suffix c rest)
  obtain ⟨kind, r, hsame⟩ := token_separated (c := c) (p := p) (t := t) (isBoundary_of_isMark hmark)
    (by rw [hp, hleft]; exact List.suffix_append _ _)
    fun hspace => absurd hspace (by simp [isSpace_of_isMark hmark])
  have hrest : rest ++ more = p ++ w :: (t ++ more) := by
    rw [← hp, List.append_assoc, List.cons_append]
  rw [hrest, hsame, ← hp, hsame, List.append_assoc, List.cons_append]

theorem skipBlanks_joined (h : hasMark (skipBlanks s)) (more : List Char) :
    skipBlanks (s ++ more) = skipBlanks s ++ more := by
  fun_induction skipBlanks s with
  | case1 => cases h
  | case2 c rest hblank ih =>
    have htoken := token_joined (hasMark_of_suffix h (skipBlanks_suffix _)) more
    rw [List.cons_append, skipBlanks, htoken, if_pos hblank, ih h]
  | case3 c rest hblank =>
    rw [List.cons_append, skipBlanks, if_neg]
    intro hblank'
    apply hblank
    rcases token_eq_blank hblank' with hspace | ⟨rfl, hstar⟩
    · rw [token_space hspace]
    · cases rest with
      | nil => cases h
      | cons d rest =>
        cases hstar
        rfl

theorem untilClose_joined {blocks : List Bracket} (h : hasMark (untilClose blocks s))
    (more : List Char) :
    untilClose blocks (s ++ more) = untilClose blocks s ++ more := by
  generalize hn : s.length = n
  induction n using Nat.strongRecOn generalizing s blocks with
  | ind n ih =>
    subst hn
    cases s with
    | nil =>
      rw [untilClose] at h
      cases h
    | cons c rest =>
      rw [untilClose_cons] at h ⊢
      rw [List.cons_append, untilClose_cons]
      by_cases hcloses : closesOutermost blocks (token c rest).1
      · obtain ⟨bracket, hkind⟩ := closing_of_closesOutermost hcloses
        have hkind' := congrArg Prod.fst (token_of_closing hkind (rest ++ more))
        rw [if_pos hcloses, if_pos (by rwa [hkind', ← hkind]), List.cons_append]
      · rw [if_neg hcloses] at h ⊢
        have htoken := token_joined (hasMark_of_suffix h (untilClose_suffix _ _)) more
        rw [htoken, if_neg hcloses]
        exact ih _ (length_token_lt c rest) h rfl

/-- A token and what it opens, before a mark. -/
theorem afterGroup_joined (h : hasMark (afterGroup c rest)) (more : List Char) :
    (token c (rest ++ more)).1 = (token c rest).1 ∧
      afterGroup c (rest ++ more) = afterGroup c rest ++ more := by
  have hleft : hasMark (token c rest).2 := by
    refine hasMark_of_suffix h ?_
    unfold afterGroup
    split
    · exact (List.tail_suffix _).trans (untilClose_suffix _ _)
    · exact List.suffix_refl _
  have htoken := token_joined hleft more
  refine ⟨by rw [htoken], ?_⟩
  unfold afterGroup at h ⊢
  rw [htoken]
  split at h
  · next hkind =>
    rw [hkind]
    have hclose := hasMark_of_suffix h (List.tail_suffix _)
    have hne : untilClose _ (token c rest).2 ≠ [] := fun hnone => by
      rw [hnone] at hclose
      cases hclose
    exact (congrArg List.tail (untilClose_joined hclose more)).trans
      (List.tail_append_of_ne_nil hne)
  · rfl

theorem untilBody_joined (h : hasMark (untilBody s)) (more : List Char) :
    untilBody (s ++ more) = untilBody s ++ more := by
  generalize hn : s.length = n
  induction n using Nat.strongRecOn generalizing s with
  | ind n ih =>
    subst hn
    cases s with
    | nil =>
      rw [untilBody] at h
      cases h
    | cons c rest =>
      rw [untilBody_cons] at h ⊢
      rw [List.cons_append, untilBody_cons]
      by_cases hends : (token c rest).1.endsPrelude
      · rw [kind_of_endsPrelude hends, if_pos hends, if_pos hends, List.cons_append]
      · rw [if_neg hends] at h ⊢
        obtain ⟨hkind, hgroup⟩ := afterGroup_joined (hasMark_of_suffix h (untilBody_suffix _)) more
        rw [hkind, if_neg hends, hgroup]
        exact ih _ (Nat.lt_succ_of_le (afterGroup_suffix c rest).length_le) h rfl

/-- Whether a name comes next shows before a mark. -/
theorem startsName_joined (h : hasMark s) (more : List Char) :
    startsName (s ++ more) = startsName s := by
  obtain ⟨p, w, t, hmark, rfl⟩ := hasMark_iff.1 h
  rw [List.append_assoc]
  exact sees_startsName (isBoundary_of_isMark hmark) p t (t ++ more)

theorem splitKeyword_joined (h : hasMark (splitKeyword s).2) (more : List Char) :
    splitKeyword (s ++ more) = ((splitKeyword s).1, (splitKeyword s).2 ++ more) := by
  cases s with
  | nil => cases h
  | cons c rest =>
    rw [List.cons_append]
    by_cases hkeyword : ∃ keyword, (token c rest).1 = .atKeyword keyword
    · obtain ⟨keyword, hkind⟩ := hkeyword
      rw [splitKeyword_of_atKeyword (Prod.ext hkind rfl)] at h ⊢
      refine splitKeyword_of_atKeyword ?_
      rw [token_joined h, hkind]
    · rw [splitKeyword_of_ne (not_exists.1 hkeyword)] at h ⊢
      refine splitKeyword_of_ne fun keyword hkind => hkeyword ?_
      obtain ⟨rfl, hname⟩ := token_eq_atKeyword hkind
      have hrest : hasMark rest := h
      rw [startsName_joined hrest] at hname
      exact ⟨_, congrArg Prod.fst (if_pos hname : atToken rest = _)⟩

/-- An item that ends with a mark begins in the same way when other text follows. -/
theorem Begins.joined (h : Begins keyword prelude s body) (hbody : hasMark body)
    (more : List Char) :
    Begins keyword prelude (s ++ more) (body ++ more) := by
  obtain ⟨rfl, rfl, rfl⟩ := h
  have hkeyword := hasMark_of_suffix hbody (untilBody_suffix _)
  have hsplit := splitKeyword_joined hkeyword more
  have hskip := skipBlanks_joined (hasMark_of_suffix hkeyword (splitKeyword_suffix _)) more
  have hends : afterPrelude (skipBlanks s ++ more) = afterPrelude (skipBlanks s) ++ more := by
    rw [afterPrelude, hsplit]
    exact untilBody_joined hbody more
  refine ⟨by rw [hskip, hsplit], ?_, by rw [hskip, hends]⟩
  obtain ⟨front, hfront⟩ := untilBody_suffix (splitKeyword (skipBlanks s)).2
  rw [← afterPrelude] at hfront
  rw [hskip, preludeOf, preludeOf, hsplit, hends, ← hfront, List.append_assoc, before_append_right,
    before_append_right]

/-! ## Complete texts -/

/-- The item that a text begins with ends with a semicolon, or with the brace that closes its
block. -/
def endsItself (item : List Char) : Bool :=
  match afterPrelude item with
  | ';' :: _ => true
  | '{' :: body => (untilClose [.curly] body).head? == some '}'
  | _ => false

theorem length_afterItem_lt (c : Char) (rest : List Char) :
    (afterItem (c :: rest)).length < (c :: rest).length := by
  have hbody := (afterPrelude_suffix (c :: rest)).length_le
  have hclose := (untilClose_suffix [.curly] (afterPrelude (c :: rest)).tail).length_le
  unfold afterItem
  split <;> simp only [List.length_tail, List.length_cons] at * <;> omega

/-- Nothing is open at the end of the text: every item ends itself, and the comments between and
behind the items are closed. -/
def isComplete : List Char → Bool
  | [] => true
  | c :: rest =>
    if (token c rest).1 = .blank then isWhole c rest && isComplete (token c rest).2
    else endsItself (c :: rest) && isComplete (afterItem (c :: rest))
termination_by s => s.length
decreasing_by
  · exact length_token_lt c rest
  · exact length_afterItem_lt c rest

/-- A separator, or a closed comment, is the same when other text follows. -/
theorem token_blank_joined (hblank : (token c rest).1 = .blank) (hwhole : isWhole c rest)
    (more : List Char) : token c (rest ++ more) = (.blank, (token c rest).2 ++ more) := by
  rcases token_eq_blank hblank with hspace | ⟨rfl, hstar⟩
  · rw [token_space hspace, token_space hspace]
  · obtain ⟨rest, rfl⟩ := List.head?_eq_some_iff.1 hstar
    have hclosed : closesComment rest := hwhole
    rw [List.cons_append, token_comment, token_comment, afterComment_append hclosed]

/-- What is read of a text begins behind the blanks. -/
theorem reads_of_skipBlanks (h : skipBlanks s = skipBlanks t) :
    nodesIn s = nodesIn t ∧ (IsSound s ↔ IsSound t) := by
  unfold nodesIn IsSound
  match hskip : skipBlanks t with
  | [] =>
    rw [readItems_of_nil (h.trans hskip), readItems_of_nil hskip]
    exact ⟨rfl, Iff.rfl⟩
  | c :: rest =>
    rw [readItems_of_cons (h.trans hskip), readItems_of_cons hskip]
    by_cases hblock : (afterPrelude (c :: rest)).head? = some '{'
    · simp only [if_pos hblock, readBlock, Item.readInside, List.forall_mem_cons,
        fault?_of_block, true_and]
      exact ⟨congrArg₂ (fun nodes more => blockNode _ _ nodes :: more) (readItems_place ..).1
        (readItems_place ..).1, (readItems_place ..).2⟩
    · simp only [if_neg hblock, readBlock, List.forall_mem_cons]
      exact ⟨congrArg₂ (· ++ ·) (readInside_place ..) (readItems_place ..).1,
        and_congr (fault?_place ..) (readItems_place ..).2⟩

/-- Behind `s`, the text `more` is read as if it stood alone. -/
structure ReadApart (s more : List Char) : Prop where
  nodes : nodesIn (s ++ more) = nodesIn s ++ nodesIn more
  sound : IsSound (s ++ more) ↔ IsSound s ∧ IsSound more

theorem ReadApart.nil (more : List Char) : ReadApart [] more := by
  have hnil : readItems .start [] = [] := readItems_of_nil (by rw [skipBlanks])
  constructor <;> simp [nodesIn, IsSound, hnil, readBlock]

theorem ReadApart.of_skipBlanks {more : List Char} (h : skipBlanks s = skipBlanks t)
    (hmore : skipBlanks (s ++ more) = skipBlanks (t ++ more)) (hrest : ReadApart t more) :
    ReadApart s more := by
  obtain ⟨hnodes, hsound⟩ := reads_of_skipBlanks h
  obtain ⟨hnodes', hsound'⟩ := reads_of_skipBlanks hmore
  exact ⟨by rw [hnodes, hnodes', hrest.nodes], by rw [hsound, hsound', hrest.sound]⟩

/-- An item with a semicolon comes before. -/
theorem ReadApart.semicolon {more : List Char} (h : Begins keyword prelude s (';' :: rest))
    (hrest : ReadApart rest more) : ReadApart s more := by
  obtain ⟨hnodes, hsound⟩ := reads_of_semicolon h
  have h' : Begins keyword prelude (s ++ more) (';' :: (rest ++ more)) := h.joined rfl more
  obtain ⟨hnodes', hsound'⟩ := reads_of_semicolon h'
  constructor
  · rw [hnodes, hnodes', hrest.nodes, List.append_assoc]
  · rw [hsound, hsound', hrest.sound, and_assoc]

/-- An item with a block comes before. -/
theorem ReadApart.block {more : List Char} (h : Begins keyword prelude s ('{' :: body))
    (hclose : untilClose [.curly] body = '}' :: rest) (hrest : ReadApart rest more) :
    ReadApart s more := by
  have hclose' := untilClose_joined (by rw [hclose]; rfl) more
  obtain ⟨inner, rfl⟩ := hclose ▸ untilClose_suffix [.curly] body
  have h' := h.joined rfl more
  rw [hclose, List.append_assoc] at hclose'
  rw [List.cons_append, List.append_assoc] at h'
  obtain ⟨hnodes, hsound⟩ := reads_of_block h hclose
  obtain ⟨hnodes', hsound'⟩ := reads_of_block h' hclose'
  constructor
  · rw [hnodes, hnodes', List.cons_append, List.tail_cons, List.tail_cons, hrest.nodes,
      List.cons_append]
  · rw [hsound, hsound']
    exact hrest.sound

/-- **What follows a complete text is read as if it stood alone**, and the nodes of the complete
text come before it. -/
theorem readApart_of_isComplete (h : isComplete s) (more : List Char) : ReadApart s more := by
  fun_induction isComplete s with
  | case1 => exact .nil more
  | case2 c rest hblank ih =>
    obtain ⟨hwhole, hleft⟩ := Bool.and_eq_true_iff.1 h
    refine .of_skipBlanks ?_ ?_ (ih hleft)
    · rw [skipBlanks, if_pos hblank]
    · rw [List.cons_append, skipBlanks, token_blank_joined hblank hwhole, if_pos rfl]
  | case3 c rest hblank ih =>
    obtain ⟨hends, hleft⟩ := Bool.and_eq_true_iff.1 h
    have hskip : skipBlanks (c :: rest) = c :: rest := by rw [skipBlanks, if_neg hblank]
    have hbegins : Begins (splitKeyword (c :: rest)).1 (preludeOf (c :: rest)) (c :: rest)
        (afterPrelude (c :: rest)) := ⟨by rw [hskip], by rw [hskip], by rw [hskip]⟩
    have hrest := ih hleft
    unfold endsItself at hends
    unfold afterItem at hrest
    split at hends
    · next after hbody =>
      rw [hbody] at hbegins hrest
      exact hrest.semicolon hbegins
    · next body hbody =>
      obtain ⟨after, hclose⟩ := List.head?_eq_some_iff.1 (eq_of_beq hends)
      rw [hbody, if_pos List.head?_cons, List.tail_cons, hclose] at hrest
      rw [hbody] at hbegins
      exact hrest.block hbegins hclose
    · cases hends

/-! ## Stylesheets -/

/-- **Two stylesheets in one.** If the first can be read and is complete, both together can be read
if and only if the second can, and their nodes are those of the first and then those of the
second. -/
theorem read_append_of_isComplete {source : String} (hcomplete : isComplete source.toList)
    (hread : (read source).2 = .ok nodes) (more : String) (nodes' : List Node) :
    (read (source ++ more)).2 = .ok nodes' ↔
      ∃ added, (read more).2 = .ok added ∧ nodes' = nodes ++ added := by
  obtain ⟨hsound, rfl⟩ := read_eq_ok_iff.1 hread
  obtain ⟨hnodes, hsounds⟩ := readApart_of_isComplete hcomplete more.toList
  rw [read_eq_ok_iff, String.toList_append, hnodes, hsounds]
  constructor
  · rintro ⟨⟨-, hmore⟩, rfl⟩
    exact ⟨_, read_eq_ok_iff.2 ⟨hmore, rfl⟩, rfl⟩
  · rintro ⟨added, hadded, rfl⟩
    obtain ⟨hmore, rfl⟩ := read_eq_ok_iff.1 hadded
    exact ⟨⟨hsound, hmore⟩, rfl⟩

/-- Braces and semicolons in strings, urls and comments end no item, and the next item may come
without a blank. -/
theorem read_append_of_isComplete_nested :
    let source :=
      "@import url(a;b) \"\\\"\x7d\";@media p \x7b .a[b='\x7d'] \x7b c: url(\x7d); /* \x7d */ \x7d "
        ++ "\x7d/* ; */ @layer x;"
    let nodes : List Node := [.statement "import" "url(a;b) \"\\\"\x7d\"",
      .block "media" "p" [.rule ".a[b='\x7d']" [.declaration "c" "url(\x7d)"]],
      .statement "layer" "x"]
    isComplete source.toList ∧ (read source).2 = .ok nodes ∧
      (read (source ++ "a\x7bb\x7b\x7d")).2 = .ok (nodes ++ [.rule "a" [.rule "b" []]]) ∧
      ∀ nodes', (read (source ++ "a{}b")).2 ≠ .ok nodes' := by
  intro source nodes
  have hcomplete : isComplete source.toList := by decide +kernel
  have hread : (read source).2 = .ok nodes := by decide +kernel
  refine ⟨hcomplete, hread, ?_, fun nodes' h => ?_⟩
  · exact (read_append_of_isComplete hcomplete hread "a\x7bb\x7b\x7d" _).2
      ⟨[.rule "a" [.rule "b" []]], by decide +kernel, rfl⟩
  · obtain ⟨added, hadded, -⟩ := (read_append_of_isComplete hcomplete hread "a{}b" nodes').1 h
    have hnone : (read "a{}b").2.toOption = none := by decide +kernel
    rw [hadded] at hnone
    cases hnone

end Stylesheet
end ScopedCss
