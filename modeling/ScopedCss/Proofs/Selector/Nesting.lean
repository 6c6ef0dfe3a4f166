import Mathlib.Logic.Relation
import ScopedCss.Proofs.Selector.Maximal
import ScopedCss.Proofs.Selector.Requests

/-!
# Nested markers

The text in a marker's parentheses is cut into pieces only when the rewriting comes to it. That
cannot fail: no piece of a text that stands in parentheses reaches beyond their end (`Enclosed`), so
a marker in it that opens a parenthesis finds its end in the same text.

* `tokenize_content`: the text in a marker's parentheses can be cut into pieces.
* `rewrite_error_iff`: a selector is rewritten as a whole, or fails before any name is asked for.
-/

namespace ScopedCss
namespace Selector

open Text

variable {c : Char} {s t rest : List Char} {scope : Scope} {token : Token} {tokens : List Token}

/-! ## Markers that are not closed -/

theorem markerToken_error {fault : Scope} (h : markerToken scope s = .error fault) :
    fault = scope ∧ ∃ inside, s = '(' :: inside ∧ splitParens? 1 none inside = none := by
  unfold markerToken at h
  split at h
  · split at h
    · cases h
    · next hopen =>
      cases h
      exact ⟨rfl, _, rfl, hopen⟩
  · cases h

theorem colonToken_error (h : colonToken s = .error scope) :
    ∃ inside, s = scope.name.toList ++ '(' :: inside ∧ splitParens? 1 none inside = none := by
  unfold colonToken at h
  split at h
  · cases h
  · dsimp only at h
    split at h
    · next hname =>
      obtain ⟨rfl, inside, hinside, hopen⟩ := markerToken_error h
      refine ⟨inside, ?_, hopen⟩
      rw [Scope.name_of_ofName? hname, String.toList_ofList, ← hinside,
        List.takeWhile_append_dropWhile]
    · cases h

/-- The only fault is a marker whose parenthesis is not closed. -/
theorem nextToken_error (h : nextToken c s = .error scope) :
    c = ':' ∧ ∃ inside, s = scope.name.toList ++ '(' :: inside ∧
      splitParens? 1 none inside = none := by
  by_cases hc : c = ':'
  · subst hc
    exact ⟨rfl, colonToken_error h⟩
  · simp only [nextToken, if_neg hc] at h
    repeat' split at h
    all_goals cases h

/-! ## Texts in parentheses -/

/-- A text in parentheses that reaches up to their end. -/
def Enclosed (s : List Char) : Prop :=
  ∃ depth rest, 0 < depth ∧ splitParens? depth none (s ++ ')' :: rest) = some (s, rest)

theorem Enclosed.of_append (h : Enclosed (s ++ t)) (hquote : openQuote none s = none) :
    Enclosed t := by
  obtain ⟨depth, rest, hdepth, hsplit⟩ := h
  rw [List.append_assoc] at hsplit
  obtain ⟨depth', hdepth', hsplit'⟩ := splitParens?_append hdepth hsplit
  exact ⟨depth', rest, hdepth', hquote ▸ hsplit'⟩

/-- A parenthesis in the text is closed in it. -/
theorem Enclosed.closes (h : Enclosed ('(' :: s)) : (splitParens? 1 none s).isSome := by
  obtain ⟨depth, rest, hdepth, hsplit⟩ := h
  exact splitParens?_isSome hdepth Nat.one_pos (splitParens?_cons_eq_some hsplit).2

theorem Enclosed.nextToken (h : Enclosed (c :: s)) :
    ∃ token rest, nextToken c s = .ok (token, rest) := by
  cases hnext : Selector.nextToken c s with
  | ok next => exact ⟨next.1, next.2, rfl⟩
  | error scope =>
    obtain ⟨rfl, inside, rfl, hopen⟩ := nextToken_error hnext
    have hname : openQuote none (':' :: scope.name.toList) = none := by cases scope <;> rfl
    have hclosed := Enclosed.closes (Enclosed.of_append (s := ':' :: scope.name.toList) h hname)
    rw [hopen] at hclosed
    cases hclosed

/-- A piece closes the quotes that it opens, unless it takes all that is left. -/
theorem Fits.openQuote_source (h : Fits token rest) :
    rest = [] ∨ openQuote none token.source = none := by
  cases h with
  | comma => exact .inr rfl
  | blank _ hall =>
    exact .inr (openQuote_of_forall fun c hc =>
      isQuote_of (List.all_eq_true.1 hall c hc) (by decide) (by decide))
  | className hname =>
    exact .inr (openQuote_of_forall (List.forall_mem_cons.2
      ⟨rfl, fun c hc => isQuote_of_isNameChar (isNameChar_of_isClassName hname hc)⟩))
  | marker scope => cases scope <;> exact .inr rfl
  | @within scope content rest hclosed =>
    have hname : openQuote none (':' :: scope.name.toList) = none := by cases scope <;> rfl
    refine .inr ?_
    rw [Token.source, openQuote_append, openQuote_append, hname]
    exact congrArg (openQuote · [')']) (openQuote_splitParens? hclosed)
  | composition halias hremote =>
    exact .inr (openQuote_of_forall
      (Composition.forall_source halias hremote (fun _ => isQuote_of_isNameChar)
        (by simp [isQuote])))
  | raw _ hend => exact hend.imp_right And.right

/-- A text in parentheses can be cut into pieces. -/
theorem tokensFrom_of_enclosed (whole : String) (h : s = [] ∨ Enclosed s) :
    ∃ tokens, tokensFrom whole s = .ok tokens := by
  fun_induction tokensFrom whole s with
  | case1 => exact ⟨[], rfl⟩
  | case2 c rest scope hnext =>
    obtain ⟨token, rest', hok⟩ := (h.resolve_left (List.cons_ne_nil _ _)).nextToken
    rw [hnext] at hok
    cases hok
  | case3 c rest token rest' hnext ih =>
    have hrest : rest' = [] ∨ Enclosed rest' :=
      (nextToken_fits hnext).openQuote_source.imp_right fun hquote =>
        Enclosed.of_append (s := token.source)
          (nextToken_source hnext ▸ h.resolve_left (List.cons_ne_nil _ _)) hquote
    obtain ⟨tokens, htokens⟩ := ih hrest
    rw [htokens]
    exact ⟨token :: tokens, rfl⟩

/-- The text in a marker's parentheses can be cut into pieces. -/
theorem tokenize_content {selector content : String} (h : tokenize selector = .ok tokens)
    (hmem : .within scope content ∈ tokens) : ∃ inner, tokenize content = .ok inner := by
  obtain ⟨before, after, rfl⟩ := List.append_of_mem hmem
  have hclosed := (tokenize_allFit h before _ after rfl).of_within
  exact tokensFrom_of_enclosed content (.inr ⟨1, _, Nat.one_pos, hclosed⟩)

/-- A text in the parentheses of a marker of the selector. -/
def MarkerText (selector content : String) : Prop :=
  ∃ tokens scope, tokenize selector = .ok tokens ∧ .within scope content ∈ tokens

/-- At every depth the text in a marker's parentheses can be cut into pieces. -/
theorem tokenize_of_markerText {selector content : String}
    (h : Relation.TransGen MarkerText selector content) :
    ∃ inner, tokenize content = .ok inner := by
  cases h with
  | single h =>
    obtain ⟨tokens, scope, htokens, hmem⟩ := h
    exact tokenize_content htokens hmem
  | tail _ h =>
    obtain ⟨tokens, scope, htokens, hmem⟩ := h
    exact tokenize_content htokens hmem

/-! ## Rewriting -/

variable {σ : Type} {names : NameSource σ} {initial : Scope}

/-- A program that comes to an end without a fault, in whatever state it is begun, and with such a
result. -/
def Returns {α : Type} (p : α → Prop) (program : Rewriting σ α) : Prop :=
  ∀ s, ∃ result s', program.run.run s = (.ok result, s') ∧ p result

namespace Returns

variable {α β : Type} {p : α → Prop} {q : β → Prop}

theorem pure {result : α} (h : p result) : Returns (σ := σ) p (Pure.pure result) :=
  fun s => ⟨result, s, rfl, h⟩

theorem lift {program : StateM σ α} (h : ∀ s, p (program.run s).1) :
    Returns p (liftM program : Rewriting σ α) :=
  fun s => ⟨(program.run s).1, (program.run s).2, rfl, h s⟩

theorem bind {program : Rewriting σ α} {next : α → Rewriting σ β} (h : Returns p program)
    (hnext : ∀ result, p result → Returns q (next result)) : Returns q (program >>= next) := by
  intro s
  obtain ⟨result, s₁, hrun, hresult⟩ := h s
  obtain ⟨result', s', hrun', hresult'⟩ := hnext result hresult s₁
  refine ⟨result', s', ?_, hresult'⟩
  rw [ExceptT.run_bind, StateT.run_bind, hrun]
  exact hrun'

theorem map {program : Rewriting σ α} {f : α → β} (h : Returns p program)
    (hf : ∀ result, p result → q (f result)) : Returns q (f <$> program) := by
  rw [map_eq_pure_bind]
  exact h.bind fun result hresult => .pure (hf result hresult)

/-- What every piece of work keeps holds in the end. -/
theorem foldlM {f : β → α → Rewriting σ β} {l : List α}
    (h : ∀ b, ∀ a ∈ l, q b → Returns q (f b a)) {b : β} (hb : q b) : Returns q (l.foldlM f b) := by
  induction l generalizing b with
  | nil => exact .pure hb
  | cons a l ih =>
    rw [List.foldlM_cons]
    exact (h b a List.mem_cons_self hb).bind fun b =>
      ih fun b a ha => h b a (List.mem_cons_of_mem _ ha)

theorem mapM {f : α → Rewriting σ β} {g : α → β} {l : List α}
    (h : ∀ a ∈ l, Returns (· = g a) (f a)) : Returns (· = l.map g) (l.mapM f) := by
  induction l with
  | nil => exact .pure rfl
  | cons a l ih =>
    rw [List.mapM_cons]
    refine (h a List.mem_cons_self).bind ?_
    rintro _ rfl
    refine (ih fun a ha => h a (List.mem_cons_of_mem _ ha)).bind ?_
    rintro _ rfl
    exact .pure rfl

end Returns

theorem step_returns (d : Draft)
    (hinner : ∀ scope content, token = .within scope content →
      Returns (fun _ => True) (rewriteIn names scope content)) :
    Returns (fun _ => True) (d.step names initial token) := by
  cases token with
  | within scope content => exact (hinner scope content rfl).map fun _ => id
  | className name =>
    have hname : Returns (fun _ => True) (liftM (names.nameIn d.scope name) : Rewriting σ String) :=
      .lift fun _ => trivial
    exact hname.map fun _ => id
  | composition => exact (Returns.lift fun _ => trivial).map fun _ => id
  | _ => exact .pure trivial

/-- A selector that can be cut into pieces is rewritten without a fault. -/
theorem rewriteIn_returns (names : NameSource σ) (initial : Scope) {selector : String}
    (h : tokenize selector = .ok tokens) :
    Returns (fun _ => True) (rewriteIn names initial selector) := by
  -- by the length of the selector, as the text in a marker's parentheses is shorter
  induction hn : selector.length using Nat.strongRecOn generalizing initial selector tokens with
  | ind n ih =>
    rw [rewriteIn_of_tokenize h, rewriteTokens]
    refine .map (.foldlM (fun d token hmem _ => step_returns d ?_) trivial) fun _ => id
    rintro scope content rfl
    obtain ⟨inner, hinner⟩ := tokenize_content h hmem
    exact ih content.length (hn ▸ length_content_lt h hmem) scope hinner rfl

/-- A source of names that also writes down what it is asked for. -/
def NameSource.recorded (names : NameSource σ) : NameSource (σ × List Request) where
  localName name := do
    let (s, asked) ← get
    let (answer, s') := (names.localName name).run s
    set (s', asked ++ [.ownName name])
    return answer
  composed? aliasName remote := do
    let (s, asked) ← get
    let (answer, s') := (names.composed? aliasName remote).run s
    set (s', asked ++ [.composition aliasName remote])
    return answer

theorem rewrite_run_eq_error_iff (names : NameSource σ) (initial : Scope) (selector : String)
    (s s' : σ) (fault : OpenMarker) :
    (rewrite names initial selector).run.run s = (.error fault, s') ↔
      tokenize selector = .error fault ∧ s' = s := by
  cases htokens : tokenize selector with
  | error marker =>
    have hrun : (rewrite names initial selector).run.run s = (.error marker, s) := by
      rw [rewrite, rewriteIn_eq, htokens]
      rfl
    rw [hrun, Prod.mk.injEq, Except.error.injEq, Except.error.injEq, eq_comm (a := s)]
  | ok tokens =>
    have hreturns : Returns (fun _ => True) (rewrite names initial selector) :=
      (rewriteIn_returns names initial htokens).map fun _ => id
    obtain ⟨result, s₁, hrun, -⟩ := hreturns s
    rw [hrun]
    constructor
    · rintro ⟨⟩
    · rintro ⟨⟨⟩, -⟩

/-- **A selector is rewritten as a whole or not at all.** The rewriting fails if and only if the
selector cannot be cut into pieces, and it then has changed nothing and asked for no name. The texts
in the parentheses of markers, at any depth, can always be cut into pieces. -/
theorem rewrite_error_iff (initial : Scope) (selector : String) :
    (∀ (σ : Type) (names : NameSource σ) (s s' : σ) (fault : OpenMarker),
      (rewrite names initial selector).run.run s = (.error fault, s') ↔
        tokenize selector = .error fault ∧ s' = s) ∧
    (∀ (σ : Type) (names : NameSource σ) (s s' : σ) (fault : OpenMarker) (asked : List Request),
      (rewrite names.recorded initial selector).run.run (s, []) = (.error fault, s', asked) ↔
        tokenize selector = .error fault ∧ s' = s ∧ asked = []) ∧
    ∀ content, Relation.TransGen MarkerText selector content →
      ∃ inner, tokenize content = .ok inner := by
  refine ⟨fun σ names => rewrite_run_eq_error_iff names initial selector,
    fun σ names s s' fault asked => ?_, fun content => tokenize_of_markerText⟩
  rw [rewrite_run_eq_error_iff, Prod.mk.injEq]

/-- A marker that is not closed fails before any name is asked for. The text in two markers, one
inside the other, can be read, and what looks like a marker in its quote is none. -/
theorem rewrite_error_iff_nested :
    let names : NameSource Unit := ⟨pure, fun _ _ => pure none⟩
    let fault : OpenMarker := ⟨".a .b :global(.c (.d)", .globalScope⟩
    (rewrite names.recorded .localScope ".a .b :global(.c (.d)").run.run ((), [])
      = (.error fault, (), []) ∧
    ∃ inner, tokenize ".b [':local('] (.c)" = .ok inner := by
  intro names fault
  obtain ⟨-, hfault, -⟩ := rewrite_error_iff .localScope ".a .b :global(.c (.d)"
  obtain ⟨-, -, hnested⟩ := rewrite_error_iff .localScope ":local(.a :global(.b [':local('] (.c)))"
  refine ⟨(hfault Unit names () () fault []).2 ⟨by decide +kernel, rfl, rfl⟩, hnested _ ?_⟩
  have houter :
      MarkerText ":local(.a :global(.b [':local('] (.c)))" ".a :global(.b [':local('] (.c))" :=
    ⟨[.within .localScope ".a :global(.b [':local('] (.c))"], .localScope,
      by decide +kernel, .head _⟩
  have hinner : MarkerText ".a :global(.b [':local('] (.c))" ".b [':local('] (.c)" :=
    ⟨[.className "a", .blank " ", .within .globalScope ".b [':local('] (.c)"], .globalScope,
      by decide +kernel, .tail _ (.tail _ (.head _))⟩
  exact .tail (.single houter) hinner

end Selector
end ScopedCss
