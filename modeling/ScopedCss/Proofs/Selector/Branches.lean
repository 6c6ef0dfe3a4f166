import ScopedCss.Proofs.Selector.Buffer
import ScopedCss.Proofs.Selector.Maximal

/-!
# Branches are rewritten by themselves

A comma ends a branch and leaves nothing of it but its text: the scope and the pending blank begin
anew. So the branches of a selector can be rewritten one by one, with the source of names handed on
from each to the next.

* `keptBranches_foldlM`: the branches that a draft keeps are those whose own rewriting has a text.
* `rewrite_branches`: the rewritten selector is the rewritten branches that have a text, with commas
  between them.
-/

namespace ScopedCss
namespace Selector

open Text

variable {σ : Type} {names : NameSource σ} {initial : Scope} {token : Token}
  {part tokens : List Token}

/-! ## What a piece writes -/

/-- What a piece writes in a scope, if it writes a text. -/
def Token.written? (names : NameSource σ) (scope : Scope) : Token → Option (Rewriting σ String)
  | .className name => some (("." ++ ·) <$> liftM (names.nameIn scope name))
  | .within scope content => some (rewriteIn names scope content)
  | .composition reference => some (liftM (names.reference scope reference))
  | .raw text => some (pure text)
  | .comma | .blank _ | .marker _ => none

theorem Draft.step_of_written? {d : Draft} {program : Rewriting σ String}
    (h : token.written? names d.scope = some program) :
    d.step names initial token = d.write <$> program := by
  cases token with
  | className name =>
    obtain rfl := Option.some.inj h
    rw [Functor.map_map]
    rfl
  | comma | blank | marker => cases h
  | _ =>
    obtain rfl := Option.some.inj h
    rfl

/-! ## What a draft keeps -/

namespace Draft

/-- The draft with other branches before the one at hand. -/
def withKept (d : Draft) (kept : List String) : Draft := { d with kept }

/-- The branches that have a text, the one at hand included. -/
def keptBranches (d : Draft) : List String := if d.isBlank then d.kept else d.kept ++ [d.branch]

theorem nextBranch_eq (d : Draft) (initial : Scope) :
    d.nextBranch initial = (start initial).withKept d.keptBranches := rfl

theorem keptBranches_withKept (d : Draft) (kept : List String) :
    (d.withKept kept).keptBranches = kept ++ [d.branch].filter (!isBlankText ·.toList) := by
  show (if isBlankText d.branch.toList then kept else kept ++ [d.branch]) = _
  cases h : isBlankText d.branch.toList <;> simp [h]

theorem writeBlank_withKept (d : Draft) (kept : List String) (text : String) :
    (d.withKept kept).writeBlank text = (d.writeBlank text).withKept kept := by
  show (if d.skipBlank then _ else _) = (if d.skipBlank then _ else _ : Draft).withKept kept
  split <;> rfl

/-- A comma apart, a piece is taken in without regard to the branches before. -/
theorem step_withKept (hcomma : token ≠ .comma) (d : Draft) (kept : List String) :
    (d.withKept kept).step names initial token
      = (withKept · kept) <$> d.step names initial token := by
  cases hwritten : token.written? names d.scope with
  | some program =>
    rw [step_of_written? hwritten, step_of_written? (d := d.withKept kept) hwritten,
      Functor.map_map]
    rfl
  | none =>
    cases token with
    | comma => exact absurd rfl hcomma
    | blank text => exact congrArg pure (d.writeBlank_withKept kept text)
    | marker => rfl
    | _ => cases hwritten

theorem foldlM_withKept (names : NameSource σ) (initial : Scope) (hcomma : .comma ∉ part)
    (d : Draft) (kept : List String) :
    part.foldlM (step names initial) (d.withKept kept)
      = (withKept · kept) <$> part.foldlM (step names initial) d := by
  induction part generalizing d with
  | nil => simp
  | cons token part ih =>
    rw [List.foldlM_cons, List.foldlM_cons, step_withKept fun h => hcomma (h ▸ List.mem_cons_self),
      map_bind, bind_map_left]
    exact bind_congr fun d' => ih (fun h => hcomma (List.mem_cons_of_mem _ h)) d'

end Draft

theorem Draft.text_withKept_nil (d : Draft) : (d.withKept []).text = d.branch := by
  simp [text, branches, withKept]

/-- A branch by itself is rewritten without anything before it. -/
theorem rewriteTokens_of_not_mem (hcomma : .comma ∉ part) :
    rewriteTokens names initial part
      = Draft.branch <$> part.foldlM (Draft.step names initial) (Draft.start initial) := by
  have hkept := Draft.foldlM_withKept names initial hcomma (.start initial) []
  calc rewriteTokens names initial part
    _ = Draft.text <$> (Draft.withKept · [])
          <$> part.foldlM (Draft.step names initial) (.start initial) :=
        congrArg (Draft.text <$> ·) hkept
    _ = Draft.branch <$> part.foldlM (Draft.step names initial) (.start initial) := by
        rw [Functor.map_map]
        exact congrArg (· <$> _) (funext Draft.text_withKept_nil)

/-- **The branches that a draft keeps** are those whose own rewriting has a text. -/
theorem keptBranches_foldlM (names : NameSource σ) (initial : Scope) (tokens : List Token)
    (kept : List String) :
    Draft.keptBranches
        <$> tokens.foldlM (Draft.step names initial) ((Draft.start initial).withKept kept)
      = (fun texts => kept ++ texts.filter (!isBlankText ·.toList))
          <$> (tokens.splitOn .comma).mapM (rewriteTokens names initial) := by
  -- one comma after the other, each with the branch before it
  induction hparts : tokens.splitOn .comma generalizing tokens kept with
  | nil => exact absurd hparts (List.splitOn_ne_nil _ _)
  | cons part parts ih =>
    by_cases hcomma : .comma ∈ tokens
    · obtain ⟨first, rest, rfl, hfirst⟩ := List.eq_append_cons_of_mem hcomma
      rw [List.splitOn_append_cons_self_of_not_mem hfirst] at hparts
      obtain ⟨rfl, rfl⟩ := List.cons.inj hparts
      rw [List.foldlM_append, Draft.foldlM_withKept names initial hfirst, List.mapM_cons,
        rewriteTokens_of_not_mem hfirst]
      simp only [map_bind, bind_map_left, map_pure]
      refine bind_congr fun d => ?_
      rw [List.foldlM_cons]
      show Draft.keptBranches <$> (pure ((d.withKept kept).nextBranch initial) >>= _) = _
      rw [pure_bind, Draft.nextBranch_eq, ih _ _ rfl, Draft.keptBranches_withKept, map_eq_pure_bind]
      simp only [List.append_assoc, ← List.filter_append, List.singleton_append]
    · rw [List.splitOn_eq_singleton hcomma] at hparts
      obtain ⟨rfl, rfl⟩ := List.cons.inj hparts
      have hone : [tokens].mapM (rewriteTokens names initial)
          = (fun text => [text]) <$> rewriteTokens names initial tokens := by
        rw [List.mapM_cons, List.mapM_nil, ← bind_pure_comp]
        simp only [pure_bind]
      rw [hone, Functor.map_map, rewriteTokens_of_not_mem hcomma,
        Draft.foldlM_withKept names initial hcomma, Functor.map_map, Functor.map_map]
      exact congrArg (· <$> _) (funext fun d => d.keptBranches_withKept kept)

/-! ## The whole selector -/

/-- A last branch without a text is dropped, or is all there is and is trimmed. -/
theorem Draft.trimText_text (d : Draft) :
    trimText d.text = trimText (",".intercalate d.keptBranches) := by
  rw [text, branches, keptBranches]
  cases hblank : d.isBlank with
  | false => rfl
  | true =>
    cases hkept : d.kept with
    | nil => exact trimText_of_isBlankText hblank
    | cons first kept => rfl

theorem rewrite_of_tokenize {selector : String} (h : tokenize selector = .ok tokens)
    (names : NameSource σ) (initial : Scope) :
    rewrite names initial selector =
      (fun texts => trimText (",".intercalate (texts.filter (!isBlankText ·.toList))))
        <$> (tokens.splitOn .comma).mapM (rewriteTokens names initial) := by
  have hkept := keptBranches_foldlM names initial tokens []
  calc rewrite names initial selector
    _ = (fun d => trimText (",".intercalate d.keptBranches))
          <$> tokens.foldlM (Draft.step names initial) (.start initial) := by
        rw [rewrite, rewriteIn_of_tokenize h, rewriteTokens, Functor.map_map]
        exact congrArg (· <$> _) (funext Draft.trimText_text)
    _ = (fun kept => trimText (",".intercalate kept))
          <$> Draft.keptBranches <$> tokens.foldlM (Draft.step names initial) (.start initial) := by
        rw [Functor.map_map]
    _ = _ := by
        rw [show Draft.start initial = (Draft.start initial).withKept [] from rfl, hkept,
          Functor.map_map]
        rfl

/-- A branch is a part of the selector without a comma. -/
theorem infix_of_mem_splitOn (h : part ∈ tokens.splitOn .comma) :
    part <:+: tokens ∧ .comma ∉ part := by
  induction hparts : tokens.splitOn .comma generalizing tokens with
  | nil => exact absurd hparts (List.splitOn_ne_nil _ _)
  | cons first parts ih =>
    by_cases hcomma : .comma ∈ tokens
    · obtain ⟨first, rest, rfl, hfirst⟩ := List.eq_append_cons_of_mem hcomma
      rw [List.splitOn_append_cons_self_of_not_mem hfirst] at h hparts
      obtain ⟨rfl, rfl⟩ := List.cons.inj hparts
      cases h with
      | head => exact ⟨(List.prefix_append _ _).isInfix, hfirst⟩
      | tail _ h =>
        have hrest : rest <:+ first ++ .comma :: rest :=
          List.suffix_append_of_suffix (List.suffix_cons _ _)
        exact (ih h rfl).imp_left (·.trans hrest.isInfix)
    · rw [List.splitOn_eq_singleton hcomma] at h
      obtain rfl := List.mem_singleton.1 h
      exact ⟨List.infix_rfl, hcomma⟩

/-- A branch of markers and blanks has no text. -/
theorem foldlM_of_marks (names : NameSource σ) (initial : Scope) {d : Draft} (hblank : d.isBlank)
    (hmarks : ∀ token ∈ part, (∃ scope, token = .marker scope) ∨
      ∃ text, token = .blank text ∧ isBlankText text.toList) :
    ∃ d' : Draft, d'.isBlank ∧ part.foldlM (Draft.step names initial) d = pure d' := by
  induction part generalizing d with
  | nil => exact ⟨d, hblank, rfl⟩
  | cons token part ih =>
    obtain ⟨htoken, hpart⟩ := List.forall_mem_cons.1 hmarks
    rw [List.foldlM_cons]
    obtain ⟨scope, rfl⟩ | ⟨text, rfl, htext⟩ := htoken
    · exact ih (d := d.switch scope) hblank hpart
    · refine ih (d := d.writeBlank text) ?_ hpart
      unfold Draft.writeBlank
      split
      · exact hblank
      · simp_all [Draft.isBlank, Draft.write, isBlankText]

/-- **Branches are rewritten by themselves.** The rewritten selector, written into one text or not,
is the branches, each rewritten from the initial scope on, in their order and with the same source
of names; those that are left without a text are dropped, and there is a comma between any two
others. A branch of markers and blanks alone is left without a text. -/
theorem rewrite_branches {selector : String} (h : tokenize selector = .ok tokens)
    (names : NameSource σ) (initial : Scope) :
    trimText <$> rewriteInBuffer names initial selector = rewrite names initial selector ∧
    rewrite names initial selector =
      (fun texts => trimText (",".intercalate (texts.filter (!isBlankText ·.toList))))
        <$> (tokens.splitOn .comma).mapM (rewriteTokens names initial) ∧
    ∀ branch ∈ tokens.splitOn .comma,
      (∀ token ∈ branch, (∃ scope, token = .marker scope) ∨ ∃ text, token = .blank text) →
      ∃ text, isBlankText text.toList ∧ rewriteTokens names initial branch = pure text := by
  refine ⟨congrArg (trimText <$> ·) (rewriteInBuffer_eq names initial selector),
    rewrite_of_tokenize h names initial, ?_⟩
  intro branch hbranch hmarks
  obtain ⟨hpart, hcomma⟩ := infix_of_mem_splitOn hbranch
  have hblanks : ∀ token ∈ branch, (∃ scope, token = .marker scope) ∨
      ∃ text, token = .blank text ∧ isBlankText text.toList := by
    intro token htoken
    refine (hmarks token htoken).imp_right fun ⟨text, heq⟩ => ⟨text, heq, ?_⟩
    exact (tokenize_allFit h).isBlankText_of_mem (hpart.subset (heq ▸ htoken))
  obtain ⟨d, hd, hrun⟩ := foldlM_of_marks names initial (d := .start initial) rfl hblanks
  refine ⟨d.branch, hd, ?_⟩
  rw [rewriteTokens_of_not_mem hcomma, hrun, map_pure]

/-- Branches that have only markers are left out: the first one, the last one and one in between. -/
theorem rewrite_branches_emptied :
    let names : NameSource String :=
      ⟨fun name count => (name ++ count, count ++ "i"), fun _ _ => pure none⟩
    let selector := ":global, .a :global .b,:local , .c .d, :global"
    Id.run ((rewrite names .localScope selector).run.run "") = (.ok ".a .b, .ci .dii", "iii") := by
  intro names selector
  have h : tokenize selector = .ok
      [.marker .globalScope, .comma, .blank " ", .className "a", .blank " ", .marker .globalScope,
        .blank " ", .className "b", .comma, .marker .localScope, .blank " ", .comma, .blank " ",
        .className "c", .blank " ", .className "d", .comma, .blank " ", .marker .globalScope] := by
    decide +kernel
  rw [(rewrite_branches h names .localScope).2.1]
  decide +kernel

end Selector
end ScopedCss
