import Mathlib.Data.List.Forall2
import ScopedCss.Proofs.Selector.Branches
import ScopedCss.Proofs.Selector.Nesting

/-!
# Markers and the blanks beside them

A blank between two pieces is a combinator, so a marker may be taken out of a selector together with
a blank only where another one stays. With a source of names that changes no name, the rewriting of
a selector without texts in parentheses is the selector without its markers, in which every two
pieces that had a blank between them still have one, and no others do.

* `settled` are the pieces that are written, given whether a blank would be one too many.
* `foldlM_returns`: they are what the rewriting of a branch writes.
* `rewrite_bare_markers`: what this says of a whole selector.
-/

namespace ScopedCss
namespace Selector

open Text

variable {σ : Type} {names : NameSource σ} {initial scope : Scope} {token : Token}
  {part after tokens : List Token}

/-! ## Pieces and the blanks between them -/

/-- The pieces that are not markers. -/
def unmarked (tokens : List Token) : List Token :=
  tokens.filter fun
    | .marker _ => false
    | _ => true

/-- The pieces that are not blanks, each with whether there is a blank before it; `apart` says so of
the first. -/
def spaced (apart : Bool) : List Token → List (Bool × Token)
  | [] => []
  | .blank _ :: tokens => spaced true tokens
  | token :: tokens => (apart, token) :: spaced false tokens

/-- The pieces that the rewriting of a branch writes. `apart` says that what is written ends with a
blank, or has no text yet, and `skip` that a blank that comes next is dropped. -/
def settled (apart skip : Bool) : List Token → List Token
  | [] => []
  | .marker _ :: tokens => settled apart apart tokens
  | .blank text :: tokens =>
    if skip then settled apart false tokens else .blank text :: settled true false tokens
  | token :: tokens => token :: settled false false tokens

/-- The text of some pieces. -/
def sourceText (tokens : List Token) : String := String.ofList (tokens.flatMap Token.source)

theorem settled_sublist (apart skip : Bool) (part : List Token) :
    (settled apart skip part).Sublist (unmarked part) := by
  induction part generalizing apart skip with
  | nil => exact .slnil
  | cons token part ih =>
    cases token with
    | marker => exact ih apart apart
    | blank text =>
      cases skip with
      | true => exact (ih apart false).cons _
      | false => exact (ih true false).cons_cons _
    | _ => exact (ih false false).cons_cons _

/-- The blank that is dropped stands beside another one. -/
theorem spaced_settled (apart skip : Bool) (part : List Token) (hskip : skip → apart) :
    spaced apart (settled apart skip part) = spaced apart (unmarked part) := by
  induction part generalizing apart skip with
  | nil => rfl
  | cons token part ih =>
    cases token with
    | marker => exact ih apart apart id
    | blank text =>
      cases skip with
      | true =>
        obtain rfl := hskip rfl
        exact ih true false nofun
      | false => exact ih true false nofun
    | _ => exact congrArg ((apart, _) :: ·) (ih false false nofun)

/-- No text is lost. -/
theorem isBlankText_settled (hblank : ∀ text, .blank text ∈ part → isBlankText text.toList)
    (apart skip : Bool) :
    isBlankText ((settled apart skip part).flatMap Token.source)
      = isBlankText ((unmarked part).flatMap Token.source) := by
  induction part generalizing apart skip with
  | nil => rfl
  | cons token part ih =>
    have hpart := ih fun text h => hblank text (List.mem_cons_of_mem _ h)
    have hcons (a b : List Token) (hab : isBlankText (a.flatMap Token.source)
        = isBlankText (b.flatMap Token.source)) :
        isBlankText ((token :: a).flatMap Token.source)
          = isBlankText ((token :: b).flatMap Token.source) := by
      simp only [isBlankText, List.flatMap_cons, List.all_append] at hab ⊢
      rw [hab]
    cases token with
    | marker => exact hpart apart apart
    | blank text =>
      cases skip with
      | false => exact hcons _ _ (hpart true false)
      | true =>
        have htext : isBlankText text.toList := hblank text List.mem_cons_self
        calc isBlankText ((settled apart false part).flatMap Token.source)
          _ = (isBlankText text.toList && isBlankText ((unmarked part).flatMap Token.source)) := by
              rw [hpart, htext, Bool.true_and]
          _ = _ := List.all_append.symm
    | _ => exact hcons _ _ (hpart false false)

/-! ## Names that stay as they are -/

/-- A source of names that leaves every class as it is and knows no import. -/
structure NameSource.Verbatim (names : NameSource σ) : Prop where
  localName : ∀ name s, ((names.localName name).run s).1 = name
  composed? : ∀ aliasName remote s, ((names.composed? aliasName remote).run s).1 = none

namespace NameSource.Verbatim

theorem nameIn (h : names.Verbatim) (scope : Scope) (name : String) (s : σ) :
    ((names.nameIn scope name).run s).1 = name := by
  cases scope with
  | localScope => exact h.localName name s
  | globalScope => rfl

theorem reference (h : names.Verbatim) (scope : Scope) (c : Composition) (s : σ) :
    ((names.reference scope c).run s).1 = String.ofList c.source := by
  have hnone := h.composed? c.aliasName c.remote s
  rw [NameSource.reference, StateT.run_bind]
  rcases hrun : (names.composed? c.aliasName c.remote).run s with ⟨answer, s'⟩
  obtain rfl : answer = none := by rwa [hrun] at hnone
  show ((if c.dotted then _ else _ : StateM σ String).run s').1 = _
  split
  · show String.ofList
      { c with aliasName := ((names.nameIn scope c.aliasName).run s').1 }.source = _
    rw [h.nameIn]
  · rfl

/-- Every piece writes what it was read from. -/
theorem written? (h : names.Verbatim) {program : Rewriting σ String}
    (hcontent : token.content? = none) (hwritten : token.written? names scope = some program) :
    Returns (· = String.ofList token.source) program := by
  cases token with
  | className name =>
    obtain rfl := Option.some.inj hwritten
    refine .map (.lift (p := (· = name)) (h.nameIn scope name)) ?_
    rintro _ rfl
    simp [Token.source]
  | composition reference =>
    obtain rfl := Option.some.inj hwritten
    exact .lift (h.reference scope reference)
  | raw text =>
    obtain rfl := Option.some.inj hwritten
    exact .pure String.ofList_toList.symm
  | within => cases hcontent
  | _ => cases hwritten

end NameSource.Verbatim

/-! ## Branches -/

/-- Whether a branch ends with a blank, or has no text yet. -/
def Draft.apart (d : Draft) : Bool := d.isBlank || d.endsBlank

theorem Draft.apart_write_of_blank (d : Draft) {text : String} (hne : text ≠ "")
    (hall : text.toList.all Text.isBlank) : (d.write text).apart := by
  have hlist : text.toList ≠ [] := by simpa using hne
  have hlast : (d.write text).endsBlank := by
    rw [endsBlank, write, String.toList_append, List.getLast?_append_of_ne_nil _ hlist,
      List.getLast?_eq_some_getLast hlist]
    exact List.all_eq_true.1 hall _ (List.getLast_mem hlist)
  rw [apart, hlast, Bool.or_true]

theorem Draft.apart_write_of_source (d : Draft) (hstart : token.source.head?.any (!Text.isBlank ·))
    (hend : token.source.getLast?.any Text.isBlank = false) :
    (d.write (String.ofList token.source)).apart = false := by
  obtain ⟨c, s, hs⟩ : ∃ c s, token.source = c :: s :=
    List.exists_cons_of_ne_nil fun hnil => by simp [hnil] at hstart
  rw [hs] at hstart hend
  have hlast : (d.branch.toList ++ c :: s).getLast? = (c :: s).getLast? :=
    List.getLast?_append_of_ne_nil _ (List.cons_ne_nil c s)
  simp_all [apart, isBlank, isBlankText, endsBlank, write]

/-- A piece that writes a text is kept, whatever stands before it. -/
theorem settled_of_written? {program : Rewriting σ String}
    (h : token.written? names scope = some program) (apart skip : Bool) (part : List Token) :
    settled apart skip (token :: part) = token :: settled false false part := by
  cases token <;> first | rfl | cases h

theorem not_blank_of_written? {program : Rewriting σ String}
    (h : token.written? names scope = some program) (text : String) : token ≠ .blank text := by
  rintro rfl
  cases h

/-- A blank behind a piece that has written its text is kept. -/
theorem settled_write {program : Rewriting σ String} (hfit : AllFit (token :: part ++ after))
    (hwritten : token.written? names scope = some program) (d : Draft) :
    settled (d.write (String.ofList token.source)).apart false part = settled false false part := by
  cases part with
  | nil => rfl
  | cons next part =>
    have htoken : Fits token _ := hfit.head
    have hnext := (hfit.of_append [token]).head.source_ne_nil
    obtain ⟨hstart, hend⟩ := htoken.ends_source (not_blank_of_written? hwritten)
    rw [d.apart_write_of_source hstart (hend (by simp [hnext]))]

/-- The rewriting of a branch writes the pieces that are settled. -/
theorem foldlM_returns (hnames : names.Verbatim) (hfit : AllFit (part ++ after))
    (hwithin : ∀ token ∈ part, token.content? = none) (hcomma : .comma ∉ part) (d : Draft) :
    Returns (·.branch = d.branch ++ sourceText (settled d.apart d.skipBlank part))
      (part.foldlM (Draft.step names initial) d) := by
  induction part generalizing d with
  | nil => exact .pure (by simp [settled, sourceText])
  | cons token part ih =>
    have ih := ih (hfit.of_append [token])
      (fun other h => hwithin other (List.mem_cons_of_mem _ h))
      (fun h => hcomma (List.mem_cons_of_mem _ h))
    have htoken : Fits token _ := hfit.head
    rw [List.foldlM_cons]
    cases hwritten : token.written? names d.scope with
    | none =>
      cases token with
      | marker scope => exact ih (d.switch scope)
      | blank text =>
        obtain ⟨hne, hall, -⟩ := htoken.of_blank
        show Returns _ (List.foldlM _ (d.writeBlank text) part)
        rw [Draft.writeBlank, settled]
        split
        · exact ih { d with skipBlank := false }
        · have hpart := ih (d.write text)
          rw [d.apart_write_of_blank hne hall] at hpart
          simpa [Draft.write, sourceText, Token.source, ← String.append_assoc] using hpart
      | comma => exact absurd List.mem_cons_self hcomma
      | _ => cases hwritten
    | some program =>
      rw [Draft.step_of_written? hwritten, bind_map_left]
      refine .bind (hnames.written? (hwithin token List.mem_cons_self) hwritten) ?_
      rintro _ rfl
      have hpart := ih (d.write (String.ofList token.source))
      rw [show (d.write _).skipBlank = false from rfl, settled_write hfit hwritten] at hpart
      rw [settled_of_written? hwritten]
      simpa [Draft.write, sourceText, ← String.append_assoc] using hpart

/-- A branch is rewritten to the pieces that are settled. -/
theorem rewriteTokens_returns (h : AllFit tokens) (hnames : names.Verbatim)
    (hwithin : ∀ token ∈ tokens, token.content? = none) (hpart : part ∈ tokens.splitOn .comma) :
    Returns (· = sourceText (settled true false part)) (rewriteTokens names initial part) := by
  obtain ⟨⟨before, after, rfl⟩, hcomma⟩ := infix_of_mem_splitOn hpart
  rw [List.append_assoc] at h
  rw [rewriteTokens_of_not_mem hcomma]
  refine (foldlM_returns hnames (h.of_append before) (fun token htoken => hwithin token ?_)
    hcomma _).map ?_
  · exact List.mem_append_left _ (List.mem_append_right _ htoken)
  · intro d hd
    rw [hd]
    exact String.empty_append

/-! ## The whole selector -/

/-- A selector is rewritten to the pieces that are settled in its branches, none of which is
dropped. -/
theorem rewrite_returns {selector : String} (h : tokenize selector = .ok tokens)
    (hwithin : ∀ token ∈ tokens, token.content? = none)
    (hbranches : ∀ branch ∈ tokens.splitOn .comma,
      ¬ isBlankText ((unmarked branch).flatMap Token.source))
    (hnames : names.Verbatim) (initial : Scope) :
    Returns
      (· = trimText (",".intercalate
        ((tokens.splitOn .comma).map fun branch => sourceText (settled true false branch))))
      (rewrite names initial selector) := by
  have hfit := tokenize_allFit h
  have hkeep : ∀ text ∈ (tokens.splitOn .comma).map
      fun branch => sourceText (settled true false branch), !isBlankText text.toList := by
    intro text htext
    obtain ⟨branch, hbranch, rfl⟩ := List.mem_map.1 htext
    have hblank (text : String) (hmem : .blank text ∈ branch) : isBlankText text.toList :=
      hfit.isBlankText_of_mem ((infix_of_mem_splitOn hbranch).1.subset hmem)
    rw [sourceText, String.toList_ofList, isBlankText_settled hblank]
    simpa using hbranches branch hbranch
  rw [rewrite_of_tokenize h]
  refine (Returns.mapM fun branch => rewriteTokens_returns hfit hnames hwithin).map ?_
  rintro _ rfl
  rw [List.filter_eq_self.2 hkeep]

/-- **Markers do not change which pieces have a blank between them.** Take a selector with no text
in a marker's parentheses whose branches all have a text besides their markers, and names that stay
as they are. Every branch is then rewritten to its own pieces without the markers and some of the
blanks: the other pieces follow one another as before, and two of them have a blank between them if
and only if they have one in the branch without its markers. -/
theorem rewrite_bare_markers {selector : String} (h : tokenize selector = .ok tokens)
    (hwithin : ∀ token ∈ tokens, token.content? = none)
    (hbranches : ∀ branch ∈ tokens.splitOn .comma,
      ¬ isBlankText ((unmarked branch).flatMap Token.source))
    (hnames : names.Verbatim) (initial : Scope) (s : σ) :
    ∃ outs : List (List Token),
      List.Forall₂ (fun out branch => out.Sublist (unmarked branch) ∧
        spaced true out = spaced true (unmarked branch)) outs (tokens.splitOn .comma) ∧
      ((rewrite names initial selector).run.run s).1
        = .ok (trimText (",".intercalate (outs.map sourceText))) := by
  refine ⟨(tokens.splitOn .comma).map (settled true false), ?_, ?_⟩
  · rw [List.forall₂_map_left_iff, List.forall₂_same]
    exact fun branch _ =>
      ⟨settled_sublist true false branch, spaced_settled true false branch nofun⟩
  · obtain ⟨_, s', hrun, rfl⟩ := rewrite_returns h hwithin hbranches hnames initial s
    rw [hrun, List.map_map]
    rfl

/-- Two markers one after the other, one right behind a class, and one at the start of a branch. -/
theorem rewrite_bare_markers_chained :
    let names : NameSource Unit := ⟨pure, fun _ _ => pure none⟩
    let selector := ".a :global :local .b:global > .c::d , :global .e"
    let branches : List (List Token) :=
      [[.className "a", .blank " ", .marker .globalScope, .blank " ", .marker .localScope,
          .blank " ", .className "b", .marker .globalScope, .blank " ", .raw ">", .blank " ",
          .composition ⟨true, "c", "d", false⟩, .blank " "],
        [.blank " ", .marker .globalScope, .blank " ", .className "e"]]
    tokenize selector = .ok ([Token.comma].intercalate branches) ∧
    ∃ outs : List (List Token),
      List.Forall₂ (fun out branch => out.Sublist (unmarked branch) ∧
        spaced true out = spaced true (unmarked branch)) outs branches ∧
      Id.run ((rewrite names .localScope selector).run.run ())
        = (.ok (trimText (",".intercalate (outs.map sourceText))), ()) := by
  intro names selector branches
  have h : tokenize selector = .ok ([Token.comma].intercalate branches) := by decide +kernel
  have hnames : names.Verbatim := ⟨fun _ _ => rfl, fun _ _ _ => rfl⟩
  obtain ⟨outs, houts, htext⟩ :=
    rewrite_bare_markers h (by decide +kernel) (by decide +kernel) hnames .localScope ()
  exact ⟨h, outs, houts, Prod.ext htext rfl⟩

end Selector
end ScopedCss
