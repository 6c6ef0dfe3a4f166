import ScopedCss.Proofs.Selector.Markers
import ScopedCss.Proofs.Selector.Standing

/-!
# Renaming classes

Where no class is imported, the rewriting of a selector without markers does nothing but put other
names in the place of its classes. No piece then runs into the next one or falls apart: a name takes
the place of a name, and every other piece has the same text before and after it as far as it
matters to its reading.

* `allStand_of_renamed`: renamed pieces may follow one another as the pieces they come from do.
* `tokenize_rewrite`: the pieces of the rewritten selector are the renamed pieces of the selector.
-/

namespace ScopedCss
namespace Selector

open Text

variable {σ : Type} {names : NameSource σ} {initial scope : Scope} {s rest : List Char}
  {token token' : Token} {tokens renamed : List Token}

/-! ## Renamed pieces -/

/-- The piece with other names: a class, and the alias after a dot, by the name it has in the scope.
The class of a reference is asked for before. -/
def Token.rename (names : NameSource σ) (scope : Scope) : Token → StateM σ Token
  | .className name => return .className (← names.nameIn scope name)
  | .composition reference => do
    let _ ← names.composed? reference.aliasName reference.remote
    if reference.dotted then
      return .composition { reference with aliasName := ← names.nameIn scope reference.aliasName }
    else
      return .composition reference
  | token => return token

/-- The pieces are the same but for the name of a class. -/
inductive Renamed : Token → Token → Prop
  | same (token : Token) : Renamed token token
  | className (name : String) {name' : String} (h : isClassName name') :
      Renamed (.className name) (.className name')
  | aliasName {reference : Composition} {aliasName : String} (hdotted : reference.dotted)
      (h : isClassName aliasName) :
      Renamed (.composition reference) (.composition { reference with aliasName })

namespace Renamed

theorem head?_source (h : Renamed token token') : token'.source.head? = token.source.head? := by
  cases h with
  | same | className => rfl
  | @aliasName reference _ hdotted =>
    cases hparen : reference.parenthesized <;>
      simp [Token.source, Composition.source, hdotted, hparen]

theorem isBlankText_source (h : Renamed token token') :
    isBlankText token'.source = isBlankText token.source := by
  cases h with
  | same | className => rfl
  | @aliasName reference _ hdotted =>
    have hdot : isBlank '.' = false := by decide
    simp [Token.source, Composition.source, hdotted, isBlankText, hdot]

theorem eq_comma_iff (h : Renamed token token') : token = .comma ↔ token' = .comma := by
  cases h with
  | same => rfl
  | _ => exact ⟨nofun, nofun⟩

/-- A renamed reference has its own parentheses if the other one has them. -/
theorem of_composition {reference : Composition} (h : Renamed token (.composition reference)) :
    ∃ reference', token = .composition reference' ∧
      reference'.parenthesized = reference.parenthesized := by
  cases h with
  | same => exact ⟨_, rfl, rfl⟩
  | aliasName => exact ⟨_, rfl, rfl⟩

end Renamed

/-! ## Renamed pieces in a row -/

theorem exists_of_mem_of_forall₂ {α β : Type} {r : α → β → Prop} {l : List α} {l' : List β} {b : β}
    (h : List.Forall₂ r l l') (hb : b ∈ l') : ∃ a ∈ l, r a b := by
  induction h with
  | nil => cases hb
  | @cons a b' l l' hab hrest ih =>
    cases hb with
    | head => exact ⟨a, List.mem_cons_self, hab⟩
    | tail _ hb =>
      obtain ⟨a, ha, hab⟩ := ih hb
      exact ⟨a, List.mem_cons_of_mem _ ha, hab⟩

theorem head?_flatMap_source (h : List.Forall₂ Renamed tokens renamed) :
    (renamed.flatMap Token.source).head? = (tokens.flatMap Token.source).head? := by
  induction h with
  | nil => rfl
  | cons htoken _ ih =>
    rw [List.flatMap_cons, List.flatMap_cons, List.head?_append, List.head?_append, ih,
      htoken.head?_source]

theorem isBlankText_flatMap_source (h : List.Forall₂ Renamed tokens renamed) :
    isBlankText (renamed.flatMap Token.source) = isBlankText (tokens.flatMap Token.source) := by
  induction h with
  | nil => rfl
  | cons htoken _ ih =>
    have htoken := htoken.isBlankText_source
    simp only [isBlankText, List.flatMap_cons, List.all_append] at ih htoken ⊢
    rw [ih, htoken]

/-- The commas of renamed pieces are where they were. -/
theorem splitOn_comma (h : List.Forall₂ Renamed tokens renamed) :
    List.Forall₂ (List.Forall₂ Renamed) (tokens.splitOn .comma) (renamed.splitOn .comma) := by
  unfold List.splitOn
  induction h with
  | nil => exact .cons .nil .nil
  | @cons token token' tokens renamed htoken hrest ih =>
    rw [List.splitOnP_cons_eq_if_modifyHead, List.splitOnP_cons_eq_if_modifyHead]
    by_cases hcomma : token = .comma
    · obtain rfl := htoken.eq_comma_iff.1 hcomma
      obtain rfl := hcomma
      exact .cons .nil ih
    · have hcomma' : token' ≠ .comma := fun h => hcomma (htoken.eq_comma_iff.2 h)
      rw [if_neg (by simpa using hcomma), if_neg (by simpa using hcomma')]
      generalize tokens.splitOnP _ = branches, renamed.splitOnP _ = branches' at ih
      cases ih with
      | nil => exact .nil
      | cons hbranch hbranches => exact .cons (.cons htoken hbranch) hbranches

theorem flatMap_source_eq_nil_iff (h : List.Forall₂ Renamed tokens renamed) :
    renamed.flatMap Token.source = [] ↔ tokens.flatMap Token.source = [] := by
  rw [← List.head?_eq_none_iff, head?_flatMap_source h, List.head?_eq_none_iff]

/-- A parenthesis begins a reference in front of renamed pieces only if it does so in front of the
pieces they come from. -/
theorem parenthesized?_of_renamed (h : List.Forall₂ Renamed tokens renamed)
    (hstand : AllStand [] tokens) (hrenamed : AllStand [] renamed)
    (hnone : parenthesized? (tokens.flatMap Token.source) = none) :
    parenthesized? (renamed.flatMap Token.source) = none := by
  cases h with
  | nil => rfl
  | @cons token token' tokens renamed htoken hrest =>
    by_contra hsome
    obtain ⟨⟨reference, after⟩, hread⟩ := Option.ne_none_iff_exists'.1 hsome
    rw [← List.append_nil (List.flatMap _ _)] at hread
    obtain ⟨more, hmore, hclose⟩ := hrenamed.of_parenthesized? (List.cons_ne_nil _ _) hread
    obtain ⟨rfl, rfl⟩ := List.cons.inj hmore
    obtain ⟨reference', rfl, hbare⟩ := htoken.of_composition
    -- behind the reference they come from stands the same parenthesis
    rw [List.append_nil] at hclose
    have hhead := head?_flatMap_source hrest
    rw [hclose, List.head?_cons, eq_comm] at hhead
    obtain ⟨after', hafter'⟩ := List.head?_eq_some_iff.1 hhead
    have hstands := hstand.1
    rw [List.append_nil, hafter'] at hstands
    rw [List.flatMap_cons, Token.source, hafter', parenthesized?_of_stands hbare hstands] at hnone
    cases hnone

/-- Renamed pieces may follow one another as the pieces they come from do. -/
theorem allStand_of_renamed (h : List.Forall₂ Renamed tokens renamed)
    (hstand : AllStand [] tokens) :
    AllStand [] renamed ∧ Alike (tokens.flatMap Token.source) (renamed.flatMap Token.source) := by
  induction h with
  | nil => exact ⟨trivial, .of_head rfl nofun⟩
  | @cons token token' tokens renamed htoken hrest ih =>
    obtain ⟨hfirst, hstand⟩ := hstand
    obtain ⟨hrenamed, halike⟩ := ih hstand
    rw [List.append_nil] at hfirst
    show (Stands token' (renamed.flatMap Token.source ++ []) ∧ _) ∧ _
    rw [List.append_nil, List.flatMap_cons, List.flatMap_cons]
    cases htoken with
    | same =>
      refine ⟨⟨hfirst.of_alike halike (fun hnil => .inl ?_) fun hparen => ?_, hrenamed⟩,
        halike.append hfirst⟩
      · exact (flatMap_source_eq_nil_iff hrest).2 hnil
      · exact parenthesized?_of_renamed hrest hstand hrenamed (hparen ▸ hfirst).of_paren
    | className name hname =>
      cases hfirst with
      | className _ hstop hremote =>
        exact ⟨⟨.className hname (halike.name hstop) (halike.remote hremote), hrenamed⟩,
          .of_head rfl nofun⟩
    | @aliasName reference _ hdotted hname =>
      cases hfirst with
      | composition _ hremote hstop =>
        refine ⟨⟨.composition hname hremote fun hbare => halike.name (hstop hbare), hrenamed⟩,
          .of_head ?_ ?_⟩ <;>
        cases hparen : reference.parenthesized <;>
        simp [Token.source, Composition.source, hdotted, hparen]

/-- Renamed pieces end with a blank only if the pieces they come from do. -/
theorem getLast?_of_renamed (h : List.Forall₂ Renamed tokens renamed) (hstand : AllStand [] tokens)
    (hlast : (tokens.flatMap Token.source).getLast?.any isBlank = false) :
    (renamed.flatMap Token.source).getLast?.any isBlank = false := by
  induction h with
  | nil => rfl
  | @cons token token' tokens renamed htoken hrest ih =>
    rw [List.flatMap_cons] at hlast ⊢
    by_cases hnil : tokens.flatMap Token.source = []
    · rw [hnil, List.append_nil] at hlast
      rw [(flatMap_source_eq_nil_iff hrest).2 hnil, List.append_nil]
      cases htoken with
      | same => exact hlast
      | className _ hname =>
        exact getLast?_any_of_forall (List.forall_mem_cons.2
          ⟨rfl, fun c hc => isBlank_of_isNameChar (isNameChar_of_isClassName hname hc)⟩)
      | aliasName _ hname =>
        cases hstand.1 with
        | composition _ hremote _ =>
          exact getLast?_any_of_forall (Composition.forall_source hname hremote
            (fun _ => isBlank_of_isNameChar) (by simp [isBlank]))
    · rw [List.getLast?_append_of_ne_nil _ hnil] at hlast
      rw [List.getLast?_append_of_ne_nil _ (mt (flatMap_source_eq_nil_iff hrest).1 hnil)]
      exact ih hstand.2 hlast

theorem trimText_of_renamed {selector : String} (h : List.Forall₂ Renamed tokens renamed)
    (hread : tokenize selector = .ok tokens) (htrim : trimText selector = selector) :
    trimText (sourceText renamed) = sourceText renamed := by
  obtain ⟨hsource, hstand⟩ := tokensFrom_eq_ok_iff.1 hread
  have htrim : trim selector.toList = selector.toList := by
    conv => rhs; rw [← htrim, trimText, String.toList_ofList]
  rw [← hsource, trim_eq_self_iff, ← head?_flatMap_source h] at htrim
  rw [trimText, sourceText, String.toList_ofList,
    trim_eq_self_iff.2 ⟨htrim.1, getLast?_of_renamed h hstand htrim.2⟩]

/-! ## Names that stay as they are -/

theorem intercalate_sourceText (branches : List (List Token)) :
    ",".intercalate (branches.map sourceText)
      = sourceText ([Token.comma].intercalate branches) := by
  induction branches with
  | nil => rfl
  | cons branch branches ih =>
    cases branches with
    | nil => simp [sourceText]
    | cons next branches =>
      rw [List.map_cons, List.map_cons, String.intercalate_cons_cons, ← List.map_cons, ih,
        List.intercalate_cons_cons]
      simp [sourceText, Token.source, String.ofList_append, String.append_assoc]

theorem unmarked_eq_self (hmarker : ∀ scope, .marker scope ∉ tokens) :
    unmarked tokens = tokens := by
  refine List.filter_eq_self.2 fun token htoken => ?_
  cases token with
  | marker scope => exact absurd htoken (hmarker scope)
  | _ => rfl

/-- No blank is dropped where there is no marker. -/
theorem settled_eq_self (hmarker : ∀ scope, .marker scope ∉ tokens) (apart : Bool) :
    settled apart false tokens = tokens := by
  induction tokens generalizing apart with
  | nil => rfl
  | cons token tokens ih =>
    have ih := ih fun scope h => hmarker scope (List.mem_cons_of_mem _ h)
    cases token with
    | marker scope => exact absurd List.mem_cons_self (hmarker scope)
    | blank text => exact congrArg (.blank text :: ·) (ih true)
    | _ => exact congrArg (_ :: ·) (ih false)

/-- A trimmed selector without markers, each of whose branches has a text, comes out as it is if the
names do. -/
theorem rewrite_verbatim {selector : String} (h : tokenize selector = .ok tokens)
    (htrim : trimText selector = selector) (hmarker : ∀ scope, .marker scope ∉ tokens)
    (hwithin : ∀ token ∈ tokens, token.content? = none)
    (hbranches : .comma ∈ tokens → ∀ branch ∈ tokens.splitOn .comma,
      ¬ isBlankText (branch.flatMap Token.source))
    (hnames : names.Verbatim) (initial : Scope) :
    Returns (· = selector) (rewrite names initial selector) := by
  have hsource : sourceText tokens = selector := by
    rw [sourceText, tokenize_source h, String.ofList_toList]
  by_cases hblank : isBlankText selector.toList
  · -- nothing is left of a trimmed text of blanks
    obtain rfl : selector = "" := by rw [← htrim, trimText_of_isBlankText hblank]
    obtain rfl : [] = tokens := by simpa [tokenize, tokensFrom] using h
    rw [rewrite, rewriteIn_of_tokenize h]
    exact .pure rfl
  · have hmarkers {branch : List Token} (hbranch : branch ∈ tokens.splitOn .comma) (scope : Scope) :
        .marker scope ∉ branch := fun hmem =>
      hmarker scope ((infix_of_mem_splitOn hbranch).1.subset hmem)
    have htext : ∀ branch ∈ tokens.splitOn .comma,
        ¬ isBlankText ((unmarked branch).flatMap Token.source) := by
      intro branch hbranch
      rw [unmarked_eq_self (hmarkers hbranch)]
      by_cases hcomma : .comma ∈ tokens
      · exact hbranches hcomma branch hbranch
      · rw [List.splitOn_eq_singleton hcomma, List.mem_singleton] at hbranch
        rwa [hbranch, tokenize_source h]
    intro s
    obtain ⟨_, s', hrun, rfl⟩ := rewrite_returns h hwithin htext hnames initial s
    refine ⟨_, s', hrun, ?_⟩
    rw [List.map_congr_left fun branch hbranch =>
      congrArg sourceText (settled_eq_self (hmarkers hbranch) true), intercalate_sourceText,
      List.intercalate_splitOn, hsource, htrim]

/-! ## The rewriting renames -/

/-- A source of names that names every class by a class name and knows no import. -/
structure NameSource.Renames (names : NameSource σ) : Prop where
  localName : ∀ name s, isClassName ((names.localName name).run s).1
  composed? : ∀ aliasName remote s, ((names.composed? aliasName remote).run s).1 = none

/-- The source of names that leaves every class as it is. -/
def NameSource.verbatim : NameSource Unit := ⟨pure, fun _ _ => pure none⟩

theorem verbatim_verbatim : NameSource.verbatim.Verbatim := ⟨fun _ _ => rfl, fun _ _ _ => rfl⟩

theorem Renamed.className_nameIn (hnames : names.Renames) (scope : Scope) (name : String) (s : σ) :
    Renamed (.className name) (.className ((names.nameIn scope name).run s).1) := by
  cases scope with
  | localScope => exact .className name (hnames.localName name s)
  | globalScope => exact .same _

theorem Renamed.aliasName_nameIn (hnames : names.Renames) (scope : Scope) {reference : Composition}
    (hdotted : reference.dotted) (s : σ) :
    Renamed (.composition reference) (.composition
      { reference with aliasName := ((names.nameIn scope reference.aliasName).run s).1 }) := by
  cases scope with
  | localScope => exact .aliasName hdotted (hnames.localName _ s)
  | globalScope => exact .same _

/-- What a piece writes is the renamed piece. -/
theorem written?_rename (hnames : names.Renames) {program : Rewriting σ String}
    (hwithin : token.content? = none) (hwritten : token.written? names scope = some program)
    (s : σ) :
    ∃ token' s', (token.rename names scope).run s = (token', s') ∧ Renamed token token' ∧
      program.run.run s = (.ok (String.ofList token'.source), s') := by
  cases token with
  | comma | blank | marker => cases hwritten
  | within => cases hwithin
  | raw text =>
    cases hwritten
    exact ⟨_, _, rfl, .same _, by rw [Token.source, String.ofList_toList]; rfl⟩
  | className name =>
    cases hwritten
    have hdot (name : String) : "." ++ name = String.ofList (Token.className name).source := by
      rw [Token.source, ← List.singleton_append, String.ofList_append, String.ofList_toList]
    refine ⟨.className ((names.nameIn scope name).run s).1, ((names.nameIn scope name).run s).2,
      rfl, .className_nameIn hnames scope name s, ?_⟩
    rw [run_lift_map, hdot]
  | composition reference =>
    cases hwritten
    obtain ⟨dotted, aliasName, remote, parenthesized⟩ := reference
    have hnone := hnames.composed? aliasName remote s
    rcases hrun : (names.composed? aliasName remote).run s with ⟨answer, s₁⟩
    obtain rfl : answer = none := by rwa [hrun] at hnone
    have hwrite (next : Option String → StateM σ String) :
        (liftM (names.composed? aliasName remote >>= next) : Rewriting σ String).run.run s
          = (.ok ((next none).run s₁).1, ((next none).run s₁).2) := by
      rw [← run_bind_of_run hrun next]
      rfl
    cases dotted with
    | true =>
      exact ⟨.composition ⟨true, ((names.nameIn scope aliasName).run s₁).1, remote, parenthesized⟩,
        ((names.nameIn scope aliasName).run s₁).2, run_bind_of_run hrun _,
        .aliasName_nameIn hnames scope rfl s₁, hwrite _⟩
    | false => exact ⟨_, s₁, run_bind_of_run hrun _, .same _, hwrite _⟩

/-- Taking in a piece is renaming it and taking in the renamed piece as it is. -/
theorem step_rename (hnames : names.Renames) (hmarker : ∀ scope, token ≠ .marker scope)
    (hwithin : token.content? = none) (d : Draft) (hscope : d.scope = initial) (s : σ) :
    ∃ token' d' s', (token.rename names initial).run s = (token', s') ∧ Renamed token token' ∧
      d'.scope = initial ∧ (d.step names initial token).run.run s = (.ok d', s') ∧
      (d.step .verbatim initial token').run.run () = (.ok d', ()) := by
  subst hscope
  cases hwritten : token.written? names d.scope with
  | none =>
    cases token with
    | comma => exact ⟨.comma, d.nextBranch d.scope, s, rfl, .same _, rfl, rfl, rfl⟩
    | blank text =>
      refine ⟨.blank text, d.writeBlank text, s, rfl, .same _, ?_, rfl, rfl⟩
      unfold Draft.writeBlank
      split <;> rfl
    | marker scope => exact absurd rfl (hmarker scope)
    | _ => cases hwritten
  | some program =>
    obtain ⟨token', s', hrename, hrenamed, hrun⟩ := written?_rename hnames hwithin hwritten s
    refine ⟨token', d.write (String.ofList token'.source), s', hrename, hrenamed, rfl, ?_, ?_⟩
    · rw [Draft.step_of_written? hwritten, run_map, hrun]
      rfl
    · obtain ⟨program', hwritten', hcontent'⟩ : ∃ program',
          token'.written? .verbatim d.scope = some program' ∧ token'.content? = none := by
        cases hrenamed with
        | same => cases token <;> first | exact ⟨_, rfl, hwithin⟩ | cases hwritten
        | _ => exact ⟨_, rfl, rfl⟩
      obtain ⟨_, _, hrun', rfl⟩ := verbatim_verbatim.written? hcontent' hwritten' ()
      rw [Draft.step_of_written? hwritten', run_map, hrun']
      rfl

theorem foldlM_rename (hnames : names.Renames) (hmarker : ∀ scope, .marker scope ∉ tokens)
    (hwithin : ∀ token ∈ tokens, token.content? = none) (d : Draft) (hscope : d.scope = initial)
    (s : σ) :
    ∃ renamed d' s', (tokens.mapM (Token.rename names initial)).run s = (renamed, s') ∧
      List.Forall₂ Renamed tokens renamed ∧
      (tokens.foldlM (Draft.step names initial) d).run.run s = (.ok d', s') ∧
      (renamed.foldlM (Draft.step .verbatim initial) d).run.run () = (.ok d', ()) := by
  induction tokens generalizing d s with
  | nil => exact ⟨[], d, s, rfl, .nil, rfl, rfl⟩
  | cons token tokens ih =>
    obtain ⟨token', d₁, s₁, hrename, hrenamed, hscope₁, hrun, hrun'⟩ := step_rename hnames
      (fun scope h => hmarker scope (h ▸ List.mem_cons_self))
      (hwithin token List.mem_cons_self) d hscope s
    obtain ⟨renamed, d', s', hrenames, hall, hruns, hruns'⟩ := ih
      (fun scope h => hmarker scope (List.mem_cons_of_mem _ h))
      (fun token h => hwithin token (List.mem_cons_of_mem _ h)) d₁ hscope₁ s₁
    refine ⟨token' :: renamed, d', s', ?_, .cons hrenamed hall, ?_, ?_⟩
    · rw [List.mapM_cons, run_bind_of_run hrename, run_bind_of_run hrenames]
      rfl
    · rw [List.foldlM_cons, ExceptT.run_bind, StateT.run_bind, hrun]
      exact hruns
    · rw [List.foldlM_cons, ExceptT.run_bind, StateT.run_bind, hrun']
      exact hruns'

theorem rewrite_run_of_foldlM {selector : String} {d : Draft} {s s' : σ}
    (h : tokenize selector = .ok tokens)
    (hrun : (tokens.foldlM (Draft.step names initial) (.start initial)).run.run s = (.ok d, s')) :
    (rewrite names initial selector).run.run s = (.ok (trimText d.text), s') := by
  rw [rewrite, rewriteIn_of_tokenize h, rewriteTokens, run_map, run_map, hrun]
  rfl

/-- In the global scope every piece stays as it is. -/
theorem mapM_rename_globalScope (names : NameSource σ) (tokens : List Token) (s : σ) :
    ((tokens.mapM (Token.rename names .globalScope)).run s).1 = tokens := by
  have htoken (token : Token) (s : σ) : ((token.rename names .globalScope).run s).1 = token := by
    cases token with
    | composition reference =>
      obtain ⟨dotted, aliasName, remote, parenthesized⟩ := reference
      cases dotted <;> rfl
    | _ => rfl
  induction tokens generalizing s with
  | nil => rfl
  | cons token tokens ih =>
    obtain ⟨s₁, hrun⟩ : ∃ s₁, (token.rename names .globalScope).run s = (token, s₁) :=
      ⟨_, Prod.ext (htoken token s) rfl⟩
    rw [List.mapM_cons, run_bind_of_run hrun]
    exact congrArg (token :: ·) (ih s₁)

/-- **Rewriting renames the pieces of a selector and keeps them apart.** Take a trimmed selector
that is cut into pieces without markers, with a text in every branch if it has several, and a source
of names that names classes by class names and knows no import. The rewritten selector is then cut
into the pieces of the selector, in their order, in which the classes and the aliases after a dot
have the names that they are given in the local scope. In the global scope the selector comes out as
it is. -/
theorem tokenize_rewrite {selector : String} (h : tokenize selector = .ok tokens)
    (htrim : trimText selector = selector) (hmarker : ∀ scope, .marker scope ∉ tokens)
    (hwithin : ∀ token ∈ tokens, token.content? = none)
    (hbranches : .comma ∈ tokens → ∀ branch ∈ tokens.splitOn .comma,
      ¬ isBlankText (branch.flatMap Token.source))
    (hnames : names.Renames) (initial : Scope) (s : σ) :
    ∃ text renamed s', (rewrite names initial selector).run.run s = (.ok text, s') ∧
      (tokens.mapM (Token.rename names initial)).run s = (renamed, s') ∧
      tokenize text = .ok renamed ∧
      (initial = .globalScope → text = selector ∧ renamed = tokens) := by
  obtain ⟨renamed, d, s', hrename, hrenamed, hfold, hfold'⟩ :=
    foldlM_rename hnames hmarker hwithin (.start initial) (show _ = initial from rfl) s
  have hread : tokenize (sourceText renamed) = .ok renamed :=
    tokensFrom_eq_ok_iff.2
      ⟨String.toList_ofList.symm, (allStand_of_renamed hrenamed (tokensFrom_eq_ok_iff.1 h).2).1⟩
  -- taken in as they are, the renamed pieces make up what the selector becomes
  have hverbatim :
      Returns (· = sourceText renamed) (rewrite .verbatim initial (sourceText renamed)) := by
    refine rewrite_verbatim hread (trimText_of_renamed hrenamed h htrim) (fun scope hmem => ?_)
      (fun token' hmem => ?_) (fun hcomma branch' hmem => ?_) verbatim_verbatim initial
    · obtain ⟨token, htoken, hsame⟩ := exists_of_mem_of_forall₂ hrenamed hmem
      cases hsame
      exact hmarker scope htoken
    · obtain ⟨token, htoken, hsame⟩ := exists_of_mem_of_forall₂ hrenamed hmem
      cases hsame with
      | same => exact hwithin token' htoken
      | _ => rfl
    · obtain ⟨token, htoken, hsame⟩ := exists_of_mem_of_forall₂ hrenamed hcomma
      obtain rfl := hsame.eq_comma_iff.2 rfl
      obtain ⟨branch, hbranch, hsame⟩ := exists_of_mem_of_forall₂ (splitOn_comma hrenamed) hmem
      rw [isBlankText_flatMap_source hsame]
      exact hbranches htoken branch hbranch
  obtain ⟨_, _, hrun', rfl⟩ := hverbatim ()
  rw [rewrite_run_of_foldlM hread hfold'] at hrun'
  obtain ⟨htext, -⟩ := Prod.mk.inj hrun'
  refine ⟨sourceText renamed, renamed, s', ?_, hrename, hread, ?_⟩
  · rw [rewrite_run_of_foldlM h hfold, htext]
  · rintro rfl
    have hsame := mapM_rename_globalScope names tokens s
    rw [hrename] at hsame
    subst hsame
    exact ⟨by rw [sourceText, tokenize_source h, String.ofList_toList], rfl⟩

/-- A class and an alias are renamed, each with a name of its own. The alias of a reference without
a dot stays, and so does a quote that is not closed. -/
theorem tokenize_rewrite_apart :
    let names : NameSource Bool := ⟨fun _ s => (if s then "p" else "q", !s), fun _ _ => pure none⟩
    let selector := ".a (.b::c) > :not(d::e), \"f"
    let between : List Token := [.blank " ", .raw ">", .blank " ", .raw ":not",
      .composition ⟨false, "d", "e", true⟩, .comma, .blank " ", .raw "\"f"]
    tokenize selector
      = .ok (.className "a" :: .blank " " :: .composition ⟨true, "b", "c", true⟩ :: between) ∧
    ∃ text s', Id.run ((rewrite names .localScope selector).run.run true) = (.ok text, s') ∧
      tokenize text
        = .ok (.className "p" :: .blank " " :: .composition ⟨true, "q", "c", true⟩ :: between) := by
  intro names selector between
  have h : tokenize selector
      = .ok (.className "a" :: .blank " " :: .composition ⟨true, "b", "c", true⟩ :: between) := by
    decide +kernel
  have hnames : names.Renames := by
    refine ⟨fun name s => ?_, fun _ _ _ => rfl⟩
    cases s
    · exact (by decide : isClassName "q" = true)
    · exact (by decide : isClassName "p" = true)
  obtain ⟨text, renamed, s', hrun, hrename, hread, -⟩ := tokenize_rewrite h (by decide +kernel)
    (fun scope => by cases scope <;> decide +kernel) (by decide +kernel) (by decide +kernel) hnames
    .localScope true
  obtain ⟨rfl, -⟩ := Prod.mk.inj hrename
  exact ⟨h, text, s', hrun, hread⟩

end Selector
end ScopedCss
