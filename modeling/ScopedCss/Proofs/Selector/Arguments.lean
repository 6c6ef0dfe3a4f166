import Mathlib.Data.List.Basic
import Mathlib.Data.List.Induction
import Mathlib.Logic.Relation
import ScopedCss.Proofs.Selector.Requests

/-!
# Commas in the arguments of a pseudo-class

A marker without parentheses is meant to set the scope up to the next selector of the rule. The
pieces of a selector do not say whether a comma stands between two selectors or between two
arguments, as in `:is(.a, .b)`, and every comma puts the scope back. So a comma in parentheses ends
the scope of a marker before it, and this is all that goes wrong.

* `ruleScope` is the scope in force if only the commas outside all parentheses put it back, and
  `Lapsed` says that another comma has done so.
* `ruledIn` rewrites a selector with these scopes.
* `rewriteIn_scopes`: the scope in which the rewriting takes in each piece, and when it is the
  rewriting with the scopes of the rule.
-/

namespace ScopedCss
namespace Selector

variable {σ : Type} {names : NameSource σ} {initial scope : Scope} {token : Token}
  {tokens before after : List Token}

/-! ## The scope by the rule -/

/-- How many parentheses are open after a piece. Those of a marker or of a reference are a part of
it. -/
def Token.depthAfter (depth : Nat) : Token → Nat
  | .raw text => if text = "(" then depth + 1 else if text = ")" then depth - 1 else depth
  | _ => depth

/-- How many parentheses these pieces leave open. -/
def openParens (tokens : List Token) : Nat := tokens.foldl Token.depthAfter 0

/-- The scope after a piece if only a comma outside all parentheses stands between two selectors. -/
def Token.ruleAfter (initial : Scope) (depth : Nat) (scope : Scope) (token : Token) : Scope :=
  if token = .comma ∧ 0 < depth then scope else token.scopeAfter initial scope

/-- The scope after these pieces by this rule. -/
def ruleScope (initial : Scope) (tokens : List Token) : Scope :=
  (tokens.foldl (fun state token =>
    (token.depthAfter state.1, token.ruleAfter initial state.1 state.2)) (0, initial)).2

/-- A comma in parentheses stands among the pieces, and neither a marker nor a comma outside
parentheses stands behind it. -/
def Lapsed (tokens : List Token) : Prop :=
  ∃ front back, tokens = front ++ .comma :: back ∧ 0 < openParens front ∧
    ∀ middle token after, back = middle ++ token :: after →
      (∀ scope, token ≠ .marker scope) ∧
        (token = .comma → 0 < openParens (front ++ .comma :: middle))

theorem openParens_concat (tokens : List Token) (token : Token) :
    openParens (tokens ++ [token]) = token.depthAfter (openParens tokens) := by
  rw [openParens, List.foldl_append]
  rfl

theorem ruleScope_concat (initial : Scope) (tokens : List Token) (token : Token) :
    ruleScope initial (tokens ++ [token])
      = token.ruleAfter initial (openParens tokens) (ruleScope initial tokens) := by
  have hdepth (state : Nat × Scope) : (tokens.foldl (fun state token =>
      (token.depthAfter state.1, token.ruleAfter initial state.1 state.2)) state).1
        = tokens.foldl Token.depthAfter state.1 := by
    induction tokens generalizing state with
    | nil => rfl
    | cons token tokens ih => exact ih _
  rw [ruleScope, List.foldl_append, openParens, ← hdepth (0, initial)]
  rfl

/-! ## Scopes that have lapsed -/

theorem not_lapsed_nil : ¬ Lapsed [] := by
  rintro ⟨front, back, heq, -⟩
  cases front <;> cases heq

theorem lapsed_concat_iff : Lapsed (tokens ++ [token]) ↔
    token = .comma ∧ 0 < openParens tokens ∨
      Lapsed tokens ∧ (∀ scope, token ≠ .marker scope) ∧
      (token = .comma → 0 < openParens tokens) := by
  constructor
  · rintro ⟨front, back, heq, hopen, hback⟩
    rcases back.eq_nil_or_concat' with rfl | ⟨back, last, rfl⟩
    · obtain ⟨rfl, hlast⟩ := List.append_inj' heq rfl
      exact .inl ⟨(List.cons.inj hlast).1, hopen⟩
    · rw [← List.cons_append, ← List.append_assoc] at heq
      obtain ⟨rfl, hlast⟩ := List.append_inj' heq rfl
      obtain rfl := (List.cons.inj hlast).1
      refine .inr ⟨⟨front, back, rfl, hopen, fun middle other after heq => ?_⟩, hback back _ [] rfl⟩
      exact hback middle other (after ++ [token]) (by rw [heq, List.append_assoc, List.cons_append])
  · rintro (⟨rfl, hopen⟩ | ⟨⟨front, back, rfl, hopen, hback⟩, hlast⟩)
    · exact ⟨tokens, [], rfl, hopen, fun middle other after heq => by cases middle <;> cases heq⟩
    · refine ⟨front, back ++ [token], by simp, hopen, fun middle other after heq => ?_⟩
      rcases after.eq_nil_or_concat' with rfl | ⟨after, last, rfl⟩
      · obtain ⟨rfl, hother⟩ := List.append_inj' heq rfl
        obtain rfl := (List.cons.inj hother).1
        exact hlast
      · rw [← List.cons_append, ← List.append_assoc] at heq
        exact hback middle other after (List.append_inj' heq rfl).1

/-- The scope of the rewriting after these pieces: the one of the rule, unless it has lapsed. -/
theorem scopeAfter_cases (initial : Scope) (tokens : List Token) :
    (Lapsed tokens →
      tokens.foldl (fun scope token => token.scopeAfter initial scope) initial = initial) ∧
    (¬ Lapsed tokens → tokens.foldl (fun scope token => token.scopeAfter initial scope) initial
      = ruleScope initial tokens) := by
  induction tokens using List.reverseRecOn with
  | nil => exact ⟨fun h => absurd h not_lapsed_nil, fun _ => rfl⟩
  | append_singleton tokens token ih =>
    rw [lapsed_concat_iff, List.foldl_append, ruleScope_concat]
    cases token with
    | comma =>
      refine ⟨fun _ => rfl, fun h => ?_⟩
      have hclosed : ¬ 0 < openParens tokens := fun hopen => h (.inl ⟨rfl, hopen⟩)
      rw [Token.ruleAfter, if_neg fun h => hclosed h.2]
      rfl
    | marker scope =>
      refine ⟨?_, fun _ => by rw [Token.ruleAfter, if_neg nofun]; rfl⟩
      rintro (⟨⟨⟩, -⟩ | ⟨-, hmarker, -⟩)
      exact absurd rfl (hmarker scope)
    | _ =>
      rw [Token.ruleAfter, if_neg nofun]
      refine ⟨?_, fun h => ih.2 fun hlapsed => h (.inr ⟨hlapsed, nofun, nofun⟩)⟩
      rintro (⟨⟨⟩, -⟩ | ⟨hlapsed, -⟩)
      exact ih.1 hlapsed

/-! ## The scope in force at each piece -/

/-- After a piece the draft is in the scope that the piece leaves. -/
theorem Draft.advance_scope (names : NameSource σ) (initial : Scope) (d : Draft) (token : Token)
    (inner : ∀ scope content, token = .within scope content → Rewriting σ String) :
    (fun d' : Draft => { d' with scope := token.scopeAfter initial d.scope })
      <$> d.advance names initial token inner = d.advance names initial token inner := by
  cases token with
  | className | within | composition =>
    simp only [Draft.advance, map_bind, map_pure]
    rfl
  | blank text =>
    refine congrArg (@pure (Rewriting σ) _ _)
      (?_ : { d.writeBlank text with scope := d.scope } = d.writeBlank text)
    unfold Draft.writeBlank
    split <;> rfl
  | _ => rfl

/-- The pieces with the scopes they are listed with, as the rewriting takes them in. -/
def rewriteAt (names : NameSource σ) (initial : Scope) (pieces : List (Scope × Token)) :
    Rewriting σ String :=
  Draft.text <$> pieces.foldlM
    (fun d piece => { d with scope := piece.1 }.step names initial piece.2) (Draft.start initial)

theorem foldlM_inScope (names : NameSource σ) (initial : Scope) (tokens : List Token) (d : Draft) :
    (inScope initial d.scope tokens).foldlM
        (fun d piece => { d with scope := piece.1 }.step names initial piece.2) d
      = tokens.foldlM (Draft.step names initial) d := by
  induction tokens generalizing d with
  | nil => rfl
  | cons token tokens ih =>
    rw [inScope, List.foldlM_cons, List.foldlM_cons]
    show d.step names initial token >>= _ = _
    rw [Draft.step, ← d.advance_scope, bind_map_left, bind_map_left]
    exact bind_congr fun d' => ih { d' with scope := token.scopeAfter initial d.scope }

/-- The rewriting takes in every piece in the scope that `inScope` lists it with. -/
theorem rewriteIn_eq_rewriteAt {selector : String} (h : tokenize selector = .ok tokens)
    (names : NameSource σ) (initial : Scope) :
    rewriteIn names initial selector
      = rewriteAt names initial (inScope initial initial tokens) := by
  rw [rewriteIn_of_tokenize h, rewriteTokens, rewriteAt,
    show inScope initial initial tokens
      = inScope initial (Draft.start initial).scope tokens from rfl,
    foldlM_inScope]

/-- The scope that a piece is listed with is the one after the pieces before it. -/
theorem inScope_eq_append {pieces more : List (Scope × Token)} {piece : Scope × Token}
    (h : inScope initial scope tokens = pieces ++ piece :: more) :
    piece.1 = (pieces.map Prod.snd).foldl
      (fun scope token => token.scopeAfter initial scope) scope := by
  induction pieces generalizing scope tokens with
  | nil =>
    cases tokens with
    | nil => cases h
    | cons token tokens =>
      obtain ⟨rfl, -⟩ := List.cons.inj h
      rfl
  | cons first pieces ih =>
    cases tokens with
    | nil => cases h
    | cons token tokens =>
      obtain ⟨rfl, hmore⟩ := List.cons.inj h
      exact ih hmore

/-! ## The rewriting by the rule -/

/-- Take one piece into the draft, with the scope after it by the rule. The number counts the
parentheses that are open. -/
def Draft.ruledAdvance (names : NameSource σ) (initial : Scope) (state : Draft × Nat)
    (token : Token) (inner : ∀ scope content, token = .within scope content → Rewriting σ String) :
    Rewriting σ (Draft × Nat) :=
  (fun d => ({ d with scope := token.ruleAfter initial state.2 state.1.scope },
    token.depthAfter state.2)) <$> state.1.advance names initial token inner

/-- The rewriting in which a comma in parentheses leaves the scope as it is. -/
def ruledIn (names : NameSource σ) (initial : Scope) (selector : String) : Rewriting σ String :=
  match _h : tokenize selector with
  | .error fault => throw fault
  | .ok tokens => do
    let state ← tokens.attach.foldlM (fun state token =>
      Draft.ruledAdvance names initial state token.1 fun scope content hcontent =>
        have := length_content_lt _h (hcontent ▸ token.2)
        ruledIn names scope content) (Draft.start initial, 0)
    return state.1.text
termination_by selector.length

theorem ruledIn_eq (names : NameSource σ) (initial : Scope) (selector : String) :
    ruledIn names initial selector =
      match tokenize selector with
      | .error fault => throw fault
      | .ok tokens => (·.1.text) <$> tokens.foldlM (fun state token =>
          Draft.ruledAdvance names initial state token fun scope content _ =>
            ruledIn names scope content)
          (Draft.start initial, 0) := by
  rw [ruledIn]
  split
  · next h => conv => rhs; rw [h]
  · next tokens h =>
    conv => rhs; rw [h]
    exact congrArg ((·.1.text) <$> ·) (foldlM_attach (fun state token =>
      Draft.ruledAdvance names initial state token fun scope content _ =>
        ruledIn names scope content)
      tokens (Draft.start initial, 0))

/-- Every comma in parentheses stands in the scope in which a selector starts. -/
def UnmarkedArguments (initial : Scope) (tokens : List Token) : Prop :=
  ∀ before after, tokens = before ++ .comma :: after →
    openParens before = 0 ∨ ruleScope initial before = initial

theorem unmarkedArguments_iff : UnmarkedArguments initial tokens ↔
    ∀ i < tokens.length, tokens[i]? = some .comma →
      openParens (tokens.take i) = 0 ∨ ruleScope initial (tokens.take i) = initial := by
  constructor
  · intro h i hi hcomma
    refine h (tokens.take i) (tokens.drop (i + 1)) ?_
    rw [← List.getElem_of_getElem? hcomma |>.2, List.getElem_cons_drop, List.take_append_drop]
  · rintro h before after rfl
    have hbefore := h before.length (by simp) (by simp)
    rwa [List.take_left] at hbefore

instance : Decidable (UnmarkedArguments initial tokens) := decidable_of_iff' _ unmarkedArguments_iff

/-- The text in the parentheses of a marker, with the scope that it starts in. -/
def InnerText (outer inner : Scope × String) : Prop :=
  ∃ tokens, tokenize outer.2 = .ok tokens ∧ .within inner.1 inner.2 ∈ tokens

theorem foldlM_ruledAdvance (names : NameSource σ) (initial : Scope) (before after : List Token)
    (h : UnmarkedArguments initial (before ++ after))
    (hinner : ∀ scope content, .within scope content ∈ after →
      rewriteIn names scope content = ruledIn names scope content)
    (d : Draft) (hscope : d.scope = ruleScope initial before) :
    Prod.fst <$> after.foldlM (fun state token =>
        Draft.ruledAdvance names initial state token fun scope content _ =>
          ruledIn names scope content)
        (d, openParens before)
      = after.foldlM (Draft.step names initial) d := by
  induction after generalizing before d with
  | nil => rfl
  | cons token after ih =>
    have hafter : token.ruleAfter initial (openParens before) d.scope
        = token.scopeAfter initial d.scope := by
      unfold Token.ruleAfter
      split
      · next hcomma =>
        obtain ⟨rfl, hopen⟩ := hcomma
        rw [hscope]
        exact (h before after rfl).resolve_left (by omega)
      · rfl
    have hsame : d.step names initial token
        = d.advance names initial token fun scope content _ => ruledIn names scope content := by
      cases token with
      | within scope content =>
        exact congrArg (· >>= _) (hinner scope content List.mem_cons_self)
      | _ => rfl
    rw [List.foldlM_cons, List.foldlM_cons, map_bind, hsame, ← d.advance_scope, bind_map_left,
      Draft.ruledAdvance, bind_map_left]
    refine bind_congr fun d' => ?_
    have hmore := ih (before ++ [token]) (by rwa [List.append_assoc])
      (fun scope content hmem => hinner scope content (List.mem_cons_of_mem _ hmem))
      { d' with scope := token.scopeAfter initial d.scope }
      (by rw [ruleScope_concat, ← hscope, hafter])
    rw [openParens_concat] at hmore
    rw [← hmore, ← hafter]

/-- The rewriting follows the rule where no comma in parentheses stands behind a marker. -/
theorem rewriteIn_eq_ruledIn (names : NameSource σ) (initial : Scope) (selector : String)
    (h : ∀ scope text tokens, Relation.ReflTransGen InnerText (initial, selector) (scope, text) →
      tokenize text = .ok tokens → UnmarkedArguments scope tokens) :
    rewriteIn names initial selector = ruledIn names initial selector := by
  -- by the length of the selector, as the text in a marker's parentheses is shorter
  induction hn : selector.length using Nat.strongRecOn generalizing initial selector with
  | ind n ih =>
    rw [ruledIn_eq]
    cases htokens : tokenize selector with
    | error fault => rw [rewriteIn_eq, htokens]
    | ok tokens =>
      have hinner (scope : Scope) (content : String) (hmem : .within scope content ∈ tokens) :
          rewriteIn names scope content = ruledIn names scope content :=
        ih content.length (hn ▸ length_content_lt htokens hmem) scope content
          (fun scope' text inner hreach =>
            h scope' text inner (.head ⟨tokens, htokens, hmem⟩ hreach)) rfl
      have hfold := foldlM_ruledAdvance names initial [] tokens (h _ _ _ .refl htokens) hinner
        (.start initial) rfl
      rw [rewriteIn_of_tokenize htokens, rewriteTokens, ← hfold, Functor.map_map]
      rfl

/-- **Every comma puts the scope back, in parentheses too.** Take a selector that is cut into
pieces. The rewriting takes in each piece in the scope that the last marker before it has set, by
the rule that only a comma outside all parentheses ends it, unless a comma in parentheses stands
behind that marker: then the piece is taken in the scope in which the selector starts. So the
rewriting follows the rule if, in the selector and in the texts in the parentheses of its markers,
every comma in parentheses stands in the scope in which that text starts. -/
theorem rewriteIn_scopes {selector : String} (h : tokenize selector = .ok tokens)
    (names : NameSource σ) (initial : Scope) :
    rewriteIn names initial selector = rewriteAt names initial (inScope initial initial tokens) ∧
    (∀ pieces piece more, inScope initial initial tokens = pieces ++ piece :: more →
      (Lapsed (pieces.map Prod.snd) → piece.1 = initial) ∧
      (¬ Lapsed (pieces.map Prod.snd) → piece.1 = ruleScope initial (pieces.map Prod.snd))) ∧
    ((∀ scope text inner, Relation.ReflTransGen InnerText (initial, selector) (scope, text) →
        tokenize text = .ok inner → UnmarkedArguments scope inner) →
      rewriteIn names initial selector = ruledIn names initial selector) := by
  refine ⟨rewriteIn_eq_rewriteAt h names initial, fun pieces piece more hsplit => ?_,
    rewriteIn_eq_ruledIn names initial selector⟩
  rw [inScope_eq_append hsplit]
  exact scopeAfter_cases initial (pieces.map Prod.snd)

/-- Commas among arguments, in the selector itself and in a functional marker. No bare marker stands
before them in their branch, so they change no scope. -/
theorem rewriteIn_scopes_unmarked :
    let names : NameSource Unit := ⟨fun name => pure ("<" ++ name ++ ">"), fun _ _ => pure none⟩
    let selector := ":global .x,:is(.a,.b) :global(.c,:not(.d,.e))"
    let tokens : List Token :=
      [.marker .globalScope, .blank " ", .className "x", .comma, .raw ":is", .raw "(",
        .className "a", .comma, .className "b", .raw ")", .blank " ",
        .within .globalScope ".c,:not(.d,.e)"]
    tokenize selector = .ok tokens ∧
    rewriteIn names .localScope selector = ruledIn names .localScope selector := by
  intro names selector tokens
  have h : tokenize selector = .ok tokens := by decide +kernel
  have hcontent : tokenize ".c,:not(.d,.e)" = .ok [.className "c", .comma, .raw ":not", .raw "(",
      .className "d", .comma, .className "e", .raw ")"] := by decide +kernel
  obtain ⟨-, -, hruled⟩ := rewriteIn_scopes h names .localScope
  refine ⟨h, hruled fun scope text inner hreach hinner => ?_⟩
  obtain heq | ⟨⟨scope', text'⟩, ⟨_, htokens, hmem⟩, hreach⟩ := hreach.cases_head
  · cases heq
    cases h.symm.trans hinner
    decide +kernel
  · cases h.symm.trans htokens
    obtain ⟨rfl, rfl⟩ : .globalScope = scope' ∧ ".c,:not(.d,.e)" = text' := by
      simpa [tokens, eq_comm] using hmem
    obtain heq | ⟨_, ⟨_, htokens, hmem⟩, -⟩ := hreach.cases_head
    · cases heq
      cases hcontent.symm.trans hinner
      decide +kernel
    · cases hcontent.symm.trans htokens
      simp at hmem

/-- A comma among arguments ends the scope of the marker before it: the two classes behind the comma
are renamed, which the rule leaves as they are. -/
theorem argument_comma_resets :
    let names : NameSource Unit := ⟨fun name => pure ("<" ++ name ++ ">"), fun _ _ => pure none⟩
    let selector := ":global :is(.a, .b) .c"
    Id.run ((rewriteIn names .localScope selector).run.run ()) = (.ok ":is(.a, .<b>) .<c>", ()) ∧
    Id.run ((ruledIn names .localScope selector).run.run ()) = (.ok ":is(.a, .b) .c", ()) := by
  decide +kernel

end Selector
end ScopedCss
