import ScopedCss.Proofs.Selector.Branches
import ScopedCss.Proofs.Selector.Nesting
import ScopedCss.Proofs.Selector.Standing

/-!
# Pseudo-classes with an argument

The parentheses of a pseudo-class are raw text and come out as they are, with one exception: around
a single reference they are read as its own, and these go with it when it is replaced.

* `tokenize_pseudoClass`: the pieces of a pseudo-class with an argument.
* `rewriteTokens_eq_join`: without commas and markers, each piece writes its text behind the one
  before.
* `rewrite_pseudoClass`: how a pseudo-class with an argument is rewritten, and when its parentheses
  stay.
-/

namespace ScopedCss
namespace Selector

open Text

variable {σ : Type} {names : NameSource σ} {initial scope : Scope} {s front rest : List Char}
  {token : Token} {tokens : List Token} {reference : Composition}

/-! ## Balanced parentheses -/

/-- How many parentheses are open after one more character, unless it closes one too many. -/
def nextOpen? (depth : Nat) (c : Char) : Option Nat :=
  if c = '(' then some (depth + 1)
  else if c = ')' then if depth = 0 then none else some (depth - 1)
  else some depth

/-- Every parenthesis is closed and none is closed twice. -/
def Balanced (s : List Char) : Prop := s.foldlM nextOpen? 0 = some 0

instance : Decidable (Balanced s) := inferInstanceAs (Decidable (_ = _))

theorem foldlM_nextOpen? (h : ∀ c ∈ s, c ≠ '(' ∧ c ≠ ')') (depth : Nat) :
    s.foldlM nextOpen? depth = some depth := by
  induction s with
  | nil => rfl
  | cons c s ih =>
    obtain ⟨hc, hs⟩ := List.forall_mem_cons.1 h
    rw [List.foldlM_cons, nextOpen?, if_neg hc.1, if_neg hc.2]
    exact ih hs

theorem not_balanced_of_open (h : ∀ c ∈ s, c ≠ '(' ∧ c ≠ ')') : ¬ Balanced (front ++ '(' :: s) := by
  rw [Balanced, List.foldlM_append]
  cases front.foldlM nextOpen? 0 with
  | none => exact nofun
  | some depth =>
    show ¬ s.foldlM nextOpen? (depth + 1) = some 0
    rw [foldlM_nextOpen? h]
    exact nofun

theorem not_balanced_of_close (h : ∀ c ∈ s, c ≠ '(' ∧ c ≠ ')') (rest : List Char) :
    ¬ Balanced (s ++ ')' :: rest) := by
  rw [Balanced, List.foldlM_append, foldlM_nextOpen? h]
  exact nofun

/-- A reference without parentheses of its own has none. -/
theorem Composition.source_no_parens (h : Stands (.composition reference) rest)
    (hbare : reference.parenthesized = false) : ∀ c ∈ reference.source, c ≠ '(' ∧ c ≠ ')' := by
  have hname {c : Char} (hc : isNameChar c) : c ≠ '(' ∧ c ≠ ')' := by
    constructor <;> rintro rfl <;> exact absurd hc (by decide)
  cases h with
  | composition halias hremote =>
    intro c hc
    simp only [Composition.source, hbare, Bool.false_eq_true, if_false, List.nil_append,
      List.append_nil, List.mem_append, List.mem_ite_nil_right, List.mem_cons, List.not_mem_nil,
      or_false] at hc
    obtain ((⟨-, rfl⟩ | hc) | rfl | rfl) | hc := hc
    · decide
    · exact hname (isNameChar_of_isClassName halias hc)
    · decide
    · decide
    · exact hname (isNameChar_of_isClassName hremote hc)

/-! ## The pieces of a pseudo-class with an argument -/

/-- Some pieces that go on with a closing parenthesis begin with it. -/
theorem AllStand.exists_of_close {next : Token} {more : List Token} {after : List Char}
    (h : AllStand rest (next :: more))
    (hclose : (next :: more).flatMap Token.source ++ [')'] = ')' :: after) :
    ∃ inside, (next :: more).flatMap Token.source ++ rest = ')' :: inside := by
  obtain ⟨c, s, hs⟩ := List.exists_cons_of_ne_nil h.1.source_ne_nil
  rw [List.flatMap_cons, hs] at hclose ⊢
  obtain ⟨rfl, -⟩ := List.cons.inj hclose
  exact ⟨_, rfl⟩

/-- The pieces of an argument do not change in front of a closing parenthesis. -/
theorem allStand_close (front : List Char) (h : AllStand [] tokens)
    (hplain : ∀ c ∈ tokens.flatMap Token.source, isQuote c = false ∧ c ≠ '[')
    (hbalanced : Balanced (front ++ tokens.flatMap Token.source)) : AllStand [')'] tokens := by
  induction tokens generalizing front with
  | nil => trivial
  | cons token tokens ih =>
    obtain ⟨hfirst, hrest⟩ := h
    rw [List.flatMap_cons] at hplain hbalanced
    have hclose := ih (front ++ token.source) hrest
      (fun c hc => hplain c (List.mem_append_right _ hc)) (by rwa [List.append_assoc])
    have halike : Alike [] [')'] := .of_stop rfl rfl (by simp) (by simp)
    refine ⟨hfirst.of_alike (halike.append_all hrest)
      (fun _ => .inr (isOpen_of_plain fun c hc => hplain c (List.mem_append_left _ hc)))
      fun hparen => ?_, hclose⟩
    subst hparen
    by_contra hsome
    obtain ⟨⟨reference, after⟩, hread⟩ := Option.ne_none_iff_exists'.1 hsome
    have hne : tokens ≠ [] := by
      rintro rfl
      cases hread
    obtain ⟨more, rfl, hmore⟩ := hclose.of_parenthesized? hne hread
    cases more with
    | nil =>
      -- the parenthesis is not closed behind the reference
      rw [List.flatMap_singleton] at hbalanced
      exact not_balanced_of_open (Composition.source_no_parens hrest.1 rfl) hbalanced
    | cons next more =>
      -- the parenthesis is closed behind the reference, so the two are one piece
      obtain ⟨inside, hinside⟩ := hrest.2.exists_of_close hmore
      have hnone := hfirst.of_paren
      have hstands := hrest.1
      rw [hinside] at hstands
      rw [List.flatMap_cons, List.append_assoc, hinside] at hnone
      cases (parenthesized?_of_stands rfl hstands).symm.trans hnone

/-- The single reference that these pieces are, if it has no parentheses of its own. -/
def soleReference? : List Token → Option Composition
  | [.composition reference] => if reference.parenthesized then none else some reference
  | _ => none

theorem soleReference?_eq_some_iff :
    soleReference? tokens = some reference ↔
      tokens = [.composition reference] ∧ reference.parenthesized = false := by
  constructor
  · intro h
    unfold soleReference? at h
    repeat' split at h
    · cases h
    · next hbare =>
      cases h
      exact ⟨rfl, by simpa using hbare⟩
    · cases h
  · rintro ⟨rfl, hbare⟩
    rw [soleReference?, if_neg (by simp [hbare])]

/-- Parentheses around an argument are its own if it is a single reference. -/
theorem parenthesized?_argument (h : AllStand [] tokens) (hclose : AllStand [')'] tokens)
    (hbalanced : Balanced (tokens.flatMap Token.source)) :
    parenthesized? (tokens.flatMap Token.source ++ [')'])
      = (soleReference? tokens).map fun reference =>
        ({ reference with parenthesized := true }, []) := by
  cases hsole : soleReference? tokens with
  | some reference =>
    obtain ⟨rfl, hbare⟩ := soleReference?_eq_some_iff.1 hsole
    rw [List.flatMap_singleton]
    exact parenthesized?_of_stands hbare hclose.1
  | none =>
    by_contra hsome
    obtain ⟨⟨reference, after⟩, hread⟩ := Option.ne_none_iff_exists'.1 hsome
    have hne : tokens ≠ [] := by
      rintro rfl
      cases hread
    obtain ⟨more, rfl, hmore⟩ := hclose.of_parenthesized? hne hread
    cases more with
    | nil => cases hsole.symm.trans (soleReference?_eq_some_iff.2 ⟨rfl, rfl⟩)
    | cons next more =>
      obtain ⟨inside, hinside⟩ := h.2.exists_of_close hmore
      rw [List.append_nil] at hinside
      rw [List.flatMap_cons, hinside] at hbalanced
      exact not_balanced_of_close (Composition.source_no_parens h.1 rfl) inside hbalanced

/-- The pieces of a pseudo-class with an argument: those of the argument between raw parentheses, or
one reference with parentheses. -/
theorem tokenize_pseudoClass {name argument : String} (hname : isClassName name)
    (hother : Scope.ofName? name = none) (h : tokenize argument = .ok tokens)
    (hplain : ∀ c ∈ argument.toList, isQuote c = false ∧ c ≠ '[')
    (hbalanced : Balanced argument.toList) :
    tokenize (":" ++ name ++ "(" ++ argument ++ ")") = .ok (.raw (":" ++ name) ::
      match soleReference? tokens with
      | some reference => [.composition { reference with parenthesized := true }]
      | none => .raw "(" :: (tokens ++ [.raw ")"])) := by
  obtain ⟨hsource, hstand⟩ := tokensFrom_eq_ok_iff.1 h
  rw [← hsource] at hplain hbalanced
  have hclose := allStand_close [] hstand hplain hbalanced
  have hread := parenthesized?_argument hstand hclose hbalanced
  obtain ⟨first, more, hfirst, hc, hmore⟩ := exists_of_isClassName hname
  have hpseudo (rest : List Char) : Stands (.raw (":" ++ name)) ('(' :: rest) := by
    have hstands : Stands (.raw (":" ++ String.ofList name.toList)) ('(' :: rest) :=
      .pseudo (by simp [hfirst, hc, hmore]) (by rwa [String.ofList_toList]) rfl fun hnil => by
        rw [hnil] at hfirst
        cases hfirst
    rwa [String.ofList_toList] at hstands
  refine tokensFrom_eq_ok_iff.2 ?_
  cases hsole : soleReference? tokens with
  | some reference =>
    obtain ⟨rfl, hbare⟩ := soleReference?_eq_some_iff.1 hsole
    have hpiece : Stands (.composition { reference with parenthesized := true }) [] := by
      cases hstand.1 with
      | composition halias hremote => exact .composition halias hremote nofun
    have hparen :
        { reference with parenthesized := true }.source = '(' :: (reference.source ++ [')']) := by
      simp [Composition.source, hbare]
    refine ⟨?_, ?_, hpiece, trivial⟩
    · simp [Token.source, ← hsource, hparen]
    · show Stands _
        ([Token.composition { reference with parenthesized := true }].flatMap Token.source ++ [])
      rw [List.flatMap_singleton, Token.source, hparen]
      exact hpseudo _
  | none =>
    rw [hsole, Option.map_none] at hread
    refine ⟨?_, hpseudo _, ?_⟩
    · simp [Token.source, ← hsource]
    · have hsign : Stands (.raw (String.singleton ')')) [] := .sign [] (by decide)
      refine ⟨.paren ?_, allStand_append.2 ⟨hclose, hsign, trivial⟩⟩
      rwa [List.append_nil, List.flatMap_append]

/-! ## What the pieces write -/

/-- The text that a piece writes; a marker and a comma write none. -/
def Token.emit (names : NameSource σ) (scope : Scope) : Token → Rewriting σ String
  | .blank text => pure text
  | token => (token.written? names scope).getD (pure "")

theorem foldlM_step_eq_join (hcomma : .comma ∉ tokens) (hmarker : ∀ scope, .marker scope ∉ tokens)
    (d : Draft) (hskip : d.skipBlank = false) :
    tokens.foldlM (Draft.step names initial) d
      = (fun texts => d.write (String.join texts)) <$> tokens.mapM (Token.emit names d.scope) := by
  induction tokens generalizing d with
  | nil =>
    have hnothing : d.write (String.join []) = d := by
      cases d
      simp_all [Draft.write, String.join]
    rw [List.foldlM_nil, List.mapM_nil, map_pure, hnothing]
  | cons token tokens ih =>
    have ih := ih (fun h => hcomma (List.mem_cons_of_mem _ h))
      (fun scope h => hmarker scope (List.mem_cons_of_mem _ h))
    have htoken : d.step names initial token = d.write <$> token.emit names d.scope := by
      cases token with
      | comma => exact absurd List.mem_cons_self hcomma
      | marker scope => exact absurd List.mem_cons_self (hmarker scope)
      | blank text =>
        show pure (d.writeBlank text) = pure (d.write text)
        rw [Draft.writeBlank, hskip]
        rfl
      | _ => exact Draft.step_of_written? rfl
    rw [List.foldlM_cons, List.mapM_cons, htoken, bind_map_left, map_bind]
    refine bind_congr fun text => ?_
    rw [ih (d.write text) rfl, map_bind, ← bind_pure_comp]
    refine bind_congr fun texts => ?_
    rw [map_pure, String.join_cons, Draft.write, Draft.write, Draft.write, String.append_assoc]

/-- Without commas and markers, each piece writes its text behind the one before. -/
theorem rewriteTokens_eq_join (hcomma : .comma ∉ tokens) (hmarker : ∀ scope, .marker scope ∉ tokens)
    (names : NameSource σ) (initial : Scope) :
    rewriteTokens names initial tokens
      = String.join <$> tokens.mapM (Token.emit names initial) := by
  rw [rewriteTokens_of_not_mem hcomma, foldlM_step_eq_join hcomma hmarker _ rfl, Functor.map_map]
  exact congrArg (· <$> _) (funext fun texts => String.empty_append)

/-! ## Names that do not end with a blank -/

/-- A source of names that do not end with a blank. -/
structure NameSource.Solid (names : NameSource σ) : Prop where
  localName : ∀ name s, ((names.localName name).run s).1.toList.getLast?.any isBlank = false
  composed? : ∀ aliasName remote s, ∀ name ∈ ((names.composed? aliasName remote).run s).1,
    name.toList.getLast?.any isBlank = false

/-- The text begins or ends with a blank only if the piece does. -/
structure Emitted (token : Token) (text : String) : Prop where
  ne_nil : token.source ≠ [] → text.toList ≠ []
  head : token.source.head?.any isBlank = false → text.toList.head?.any isBlank = false
  last : token.source.getLast?.any isBlank = false → text.toList.getLast?.any isBlank = false

theorem Emitted.of_source {text : String} (h : text.toList = token.source) :
    Emitted token text := by
  constructor <;> rw [h] <;> exact id

theorem Emitted.dot {name : String}
    (h : token.source.getLast?.any isBlank = false → name.toList.getLast?.any isBlank = false) :
    Emitted token ("." ++ name) := by
  have hlist : ("." ++ name).toList = '.' :: name.toList := by simp
  refine ⟨fun _ => ?_, fun _ => ?_, fun hlast => ?_⟩ <;> rw [hlist]
  · exact List.cons_ne_nil _ _
  · rfl
  · rw [List.getLast?_cons]
    cases hname : name.toList.getLast? with
    | none => rfl
    | some c => simpa [hname] using h hlast

/-- The alias of a reference stands at neither of its ends. -/
theorem Emitted.aliasName (hdotted : reference.dotted) (aliasName : String) :
    Emitted (.composition reference) (String.ofList { reference with aliasName }.source) := by
  have hsplit (aliasName : String) : { reference with aliasName }.source
      = (if reference.parenthesized then ['('] else []) ++ '.' :: aliasName.toList
        ++ (':' :: ':' :: reference.remote.toList
          ++ if reference.parenthesized then [')'] else []) := by
    simp [Composition.source, hdotted]
  have hlast (aliasName : String) : { reference with aliasName }.source.getLast?
      = (':' :: ':' :: reference.remote.toList
        ++ if reference.parenthesized then [')'] else []).getLast? := by
    rw [hsplit, List.getLast?_append_of_ne_nil _ (by simp)]
  refine ⟨fun _ => ?_, ?_, ?_⟩ <;> rw [String.toList_ofList]
  · exact Composition.source_ne_nil _
  · rw [hsplit]
    cases reference.parenthesized <;> exact fun _ => rfl
  · rw [hlast, Token.source, hlast reference.aliasName]
    exact id

/-- Every piece writes a text that begins or ends with a blank only if the piece does. -/
theorem emit_returns (hnames : names.Solid) (hcomma : token ≠ .comma)
    (hmarker : ∀ scope, token ≠ .marker scope) (hwithin : token.content? = none) (scope : Scope) :
    Returns (Emitted token) (token.emit names scope) := by
  cases token with
  | comma => exact absurd rfl hcomma
  | marker scope => exact absurd rfl (hmarker scope)
  | within => cases hwithin
  | blank text | raw text => exact .pure (.of_source rfl)
  | className name =>
    refine Returns.map (.lift (p := fun text => Emitted (.className name) ("." ++ text)) fun s =>
      .dot ?_) fun _ => id
    cases scope with
    | localScope => exact fun _ => hnames.localName name s
    | globalScope =>
      show _ → name.toList.getLast?.any isBlank = false
      rw [Token.source, List.getLast?_cons]
      cases name.toList.getLast? <;> simp
  | composition reference =>
    refine Returns.lift fun s => ?_
    have hsolid := hnames.composed? reference.aliasName reference.remote s
    rw [NameSource.reference, StateT.run_bind]
    rcases hrun : (names.composed? reference.aliasName reference.remote).run s with ⟨answer, s₁⟩
    rw [hrun] at hsolid
    cases answer with
    | some name => exact .dot fun _ => hsolid name rfl
    | none =>
      show Emitted _ ((if reference.dotted then _ else _ : StateM σ String).run s₁).1
      split
      · next hdotted => exact .aliasName hdotted ((names.nameIn scope reference.aliasName).run s₁).1
      · exact .of_source String.toList_ofList

theorem mapM_emit_returns (hnames : names.Solid) (hcomma : .comma ∉ tokens)
    (hmarker : ∀ scope, .marker scope ∉ tokens) (hwithin : ∀ token ∈ tokens, token.content? = none)
    (scope : Scope) :
    Returns (List.Forall₂ Emitted tokens) (tokens.mapM (Token.emit names scope)) := by
  induction tokens with
  | nil => exact .pure .nil
  | cons token tokens ih =>
    have ih := ih (fun h => hcomma (List.mem_cons_of_mem _ h))
      (fun scope h => hmarker scope (List.mem_cons_of_mem _ h))
      (fun token h => hwithin token (List.mem_cons_of_mem _ h))
    have htoken : Returns (Emitted token) (token.emit names scope) :=
      emit_returns hnames (fun h => hcomma (h ▸ List.mem_cons_self))
        (fun scope h => hmarker scope (h ▸ List.mem_cons_self))
        (hwithin token List.mem_cons_self) scope
    rw [List.mapM_cons]
    exact htoken.bind fun text htext => ih.bind fun texts htexts => .pure (.cons htext htexts)

theorem ends_of_emitted {texts : List String} (h : List.Forall₂ Emitted tokens texts)
    (hne : ∀ token ∈ tokens, token.source ≠ []) :
    ((tokens.flatMap Token.source).head?.any isBlank = false →
      (String.join texts).toList.head?.any isBlank = false) ∧
    ((tokens.flatMap Token.source).getLast?.any isBlank = false →
      (String.join texts).toList.getLast?.any isBlank = false) := by
  induction h with
  | nil => exact ⟨id, id⟩
  | @cons token text tokens texts htoken hrest ih =>
    obtain ⟨htokenNe, hne⟩ := List.forall_mem_cons.1 hne
    obtain ⟨-, hlast⟩ := ih hne
    have htextNe := htoken.ne_nil htokenNe
    rw [String.toList_join] at hlast ⊢
    rw [List.flatMap_cons, List.flatMap_cons, List.head?_append_of_ne_nil _ htokenNe,
      List.head?_append_of_ne_nil _ htextNe]
    refine ⟨htoken.head, fun h => ?_⟩
    cases hrest with
    | nil =>
      rw [List.flatMap_nil, List.append_nil] at h ⊢
      exact htoken.last h
    | @cons next nextText tokens texts hnext hrest =>
      have hnextNe := hne next List.mem_cons_self
      rw [List.getLast?_append_of_ne_nil _ (by simp [hnextNe])] at h
      rw [List.getLast?_append_of_ne_nil _ (by simp [hnext.ne_nil hnextNe])]
      exact hlast h

theorem trim_toList {selector : String} (h : trimText selector = selector) :
    trim selector.toList = selector.toList := by
  conv => rhs; rw [← h, trimText, String.toList_ofList]

/-- Nothing is trimmed from the rewriting of a trimmed selector if no name ends with a blank. -/
theorem rewrite_run_of_solid {selector : String} (h : tokenize selector = .ok tokens)
    (htrim : trimText selector = selector) (hcomma : .comma ∉ tokens)
    (hmarker : ∀ scope, .marker scope ∉ tokens) (hwithin : ∀ token ∈ tokens, token.content? = none)
    (hnames : names.Solid) (initial : Scope) (s : σ) :
    (rewrite names initial selector).run.run s = (rewriteIn names initial selector).run.run s := by
  obtain ⟨texts, s', hrun, htexts⟩ := mapM_emit_returns hnames hcomma hmarker hwithin initial s
  have hne : ∀ token ∈ tokens, token.source ≠ [] := fun token htoken => by
    obtain ⟨before, after, hsplit⟩ := List.append_of_mem htoken
    exact (tokenize_allFit h before token after hsplit).source_ne_nil
  obtain ⟨hhead, hlast⟩ := ends_of_emitted htexts hne
  have htrim := trim_eq_self_iff.1 (trim_toList htrim)
  rw [← tokenize_source h] at htrim
  have htext : trimText (String.join texts) = String.join texts := by
    rw [trimText, trim_eq_self_iff.2 ⟨hhead htrim.1, hlast htrim.2⟩, String.ofList_toList]
  rw [rewrite, run_map, rewriteIn_of_tokenize h, rewriteTokens_eq_join hcomma hmarker,
    run_map, hrun]
  exact Prod.ext (congrArg Except.ok htext) rfl

/-! ## Pseudo-classes -/

/-- A pseudo-class with an argument, as it is written. -/
def pseudoClass (name argument : String) : String := ":" ++ name ++ "(" ++ argument ++ ")"

theorem toList_pseudoClass (name argument : String) :
    (pseudoClass name argument).toList = ':' :: name.toList ++ '(' :: argument.toList ++ [')'] := by
  simp [pseudoClass]

theorem trimText_pseudoClass (name argument : String) :
    trimText (pseudoClass name argument) = pseudoClass name argument := by
  have hlast : (pseudoClass name argument).toList.getLast? = some ')' := by
    rw [toList_pseudoClass, List.getLast?_append_of_ne_nil _ (List.cons_ne_nil _ _)]
    rfl
  have hhead : (pseudoClass name argument).toList.head? = some ':' := by
    rw [toList_pseudoClass]
    rfl
  rw [trimText, trim_eq_self_iff.2 ⟨by rw [hhead]; rfl, by rw [hlast]; rfl⟩, String.ofList_toList]

/-- Without the parentheses another text comes out. -/
theorem trimText_ne_pseudoClass (name answer text : String) :
    trimText (":" ++ name ++ "." ++ answer) ≠ pseudoClass name text := by
  intro h
  have hlist : (":" ++ name ++ "." ++ answer).toList
      = ':' :: name.toList ++ '.' :: answer.toList := by simp
  have hstart : trimStart (':' :: name.toList ++ '.' :: answer.toList)
      = ':' :: name.toList ++ '.' :: answer.toList := trimStart_eq_self_iff.2 rfl
  have hprefix : trimEnd (':' :: name.toList ++ '.' :: answer.toList)
      <+: ':' :: name.toList ++ '.' :: answer.toList := by
    rw [← List.reverse_suffix, trimEnd, List.reverse_reverse]
    exact List.dropWhile_suffix _
  have heq := congrArg String.toList h
  rw [trimText, String.toList_ofList, hlist, trim, hstart, toList_pseudoClass,
    List.append_assoc] at heq
  rw [heq, List.prefix_append_right_inj, List.cons_append, List.cons_prefix_cons] at hprefix
  exact absurd hprefix.1 (by decide)

/-- A reference that is not known stays in its parentheses. -/
theorem reference_run_parenthesized (hbare : reference.parenthesized = false) {s : σ}
    (hnone : ((names.composed? reference.aliasName reference.remote).run s).1 = none) :
    (names.reference scope { reference with parenthesized := true }).run s
      = ("(" ++ ((names.reference scope reference).run s).1 ++ ")",
        ((names.reference scope reference).run s).2) := by
  obtain ⟨dotted, aliasName, remote, parenthesized⟩ := reference
  obtain rfl : parenthesized = false := hbare
  obtain ⟨s₁, hrun⟩ : ∃ s₁, (names.composed? aliasName remote).run s = (none, s₁) :=
    ⟨_, Prod.ext hnone rfl⟩
  have hreference (parenthesized : Bool) :
      (names.reference scope ⟨dotted, aliasName, remote, parenthesized⟩).run s = _ :=
    run_bind_of_run hrun _
  have hsource (aliasName : String) :
      String.ofList (Composition.source ⟨dotted, aliasName, remote, true⟩)
        = "(" ++ String.ofList (Composition.source ⟨dotted, aliasName, remote, false⟩) ++ ")" := by
    simp [Composition.source, ← String.toList_inj]
  rw [hreference, hreference]
  cases dotted with
  | true => exact Prod.ext (hsource _) rfl
  | false => exact Prod.ext (hsource _) rfl

section

variable {name argument : String} (hname : isClassName name) (hother : Scope.ofName? name = none)
  (h : tokenize argument = .ok tokens) (hplain : ∀ c ∈ argument.toList, isQuote c = false ∧ c ≠ '[')
  (hbalanced : Balanced argument.toList)

include hname hother h hplain hbalanced

/-- Around an argument that is no single reference the parentheses come out as they are. -/
theorem rewriteIn_pseudoClass (hcomma : .comma ∉ tokens) (hmarker : ∀ scope, .marker scope ∉ tokens)
    (hsole : soleReference? tokens = none) (names : NameSource σ) (initial : Scope) :
    rewriteIn names initial (pseudoClass name argument)
      = pseudoClass name <$> rewriteIn names initial argument := by
  have hread := tokenize_pseudoClass hname hother h hplain hbalanced
  rw [hsole] at hread
  have hjoin (texts : List String) :
      String.join ((":" ++ name) :: "(" :: (texts ++ [")"]))
        = pseudoClass name (String.join texts) := by
    simp [pseudoClass, String.join_cons, String.join_append, String.append_assoc]
  rw [pseudoClass, rewriteIn_of_tokenize hread, rewriteIn_of_tokenize h,
    rewriteTokens_eq_join hcomma hmarker,
    rewriteTokens_eq_join (by simpa using hcomma) (by simpa using hmarker)]
  simp only [List.mapM_cons, List.mapM_append, List.mapM_nil, Token.emit, Token.written?,
    Option.getD_some, pure_bind, bind_pure_comp, map_pure, Functor.map_map, hjoin]

/-- A single reference is replaced with its parentheses, or stays in them. -/
theorem rewriteIn_pseudoClass_sole {reference : Composition}
    (hsole : soleReference? tokens = some reference) (names : NameSource σ) (initial : Scope) :
    rewriteIn names initial (pseudoClass name argument)
      = ((":" ++ name) ++ ·)
        <$> liftM (names.reference initial { reference with parenthesized := true }) := by
  have hread := tokenize_pseudoClass hname hother h hplain hbalanced
  rw [hsole] at hread
  have hjoin (text : String) : String.join [":" ++ name, text] = ":" ++ name ++ text := by
    simp [String.join_cons, String.append_assoc]
  rw [pseudoClass, rewriteIn_of_tokenize hread, rewriteTokens_eq_join (by simp) (by simp)]
  simp only [List.mapM_cons, List.mapM_nil, Token.emit, Token.written?, Option.getD_some, pure_bind,
    bind_pure_comp, map_pure, Functor.map_map, hjoin]

/-- **The parentheses of a pseudo-class stay, except around a single known reference.** Take a
pseudo-class that is no marker, and an argument with balanced parentheses and without quotes and
square brackets, whose pieces are neither commas nor markers. With any source of names and in any
state of it, the pseudo-class is rewritten to itself with the rewritten argument, but if the
argument is one reference without parentheses and its class is known: then the name of that class
comes in place of the argument and its parentheses. Where the argument has no blanks at its ends and
no name ends with one, the rewritten argument has none either. -/
theorem rewrite_pseudoClass (hcomma : .comma ∉ tokens) (hmarker : ∀ scope, .marker scope ∉ tokens)
    (hwithin : ∀ token ∈ tokens, token.content? = none) (names : NameSource σ) (initial : Scope)
    (s : σ) :
    ((rewrite names initial (pseudoClass name argument)).run.run s
        = (pseudoClass name <$> rewriteIn names initial argument).run.run s ↔
      ∀ reference, soleReference? tokens = some reference →
        ((names.composed? reference.aliasName reference.remote).run s).1 = none) ∧
    (∀ reference answer s', soleReference? tokens = some reference →
      (names.composed? reference.aliasName reference.remote).run s = (some answer, s') →
        (rewrite names initial (pseudoClass name argument)).run.run s
          = (.ok (trimText (":" ++ name ++ "." ++ answer)), s')) ∧
    (trimText argument = argument → names.Solid →
      (rewrite names initial argument).run.run s
        = (rewriteIn names initial argument).run.run s) := by
  have hknown : ∀ reference answer s', soleReference? tokens = some reference →
      (names.composed? reference.aliasName reference.remote).run s = (some answer, s') →
        (rewrite names initial (pseudoClass name argument)).run.run s
          = (.ok (trimText (":" ++ name ++ "." ++ answer)), s') := by
    intro reference answer s' hsole hrun
    have hreference : (names.reference initial { reference with parenthesized := true }).run s
        = ("." ++ answer, s') := run_bind_of_run hrun _
    rw [rewrite, rewriteIn_pseudoClass_sole hname hother h hplain hbalanced hsole, run_map,
      run_lift_map, hreference, ← String.append_assoc]
    rfl
  refine ⟨⟨fun hsame reference hsole => ?_, fun hnone => ?_⟩, hknown, fun htrim hnames =>
    rewrite_run_of_solid h htrim hcomma hmarker hwithin hnames initial s⟩
  · rcases hrun : (names.composed? reference.aliasName reference.remote).run s with ⟨_ | answer, s'⟩
    · rfl
    · rw [hknown reference answer s' hsole hrun, run_map] at hsame
      rcases hargument : (rewriteIn names initial argument).run.run s with ⟨fault | text, s''⟩
      · rw [hargument] at hsame
        cases hsame
      · rw [hargument] at hsame
        exact absurd (Except.ok.inj (Prod.mk.inj hsame).1)
          (trimText_ne_pseudoClass name answer text)
  · cases hsole : soleReference? tokens with
    | none =>
      rw [rewrite, rewriteIn_pseudoClass hname hother h hplain hbalanced hcomma hmarker hsole,
        Functor.map_map]
      exact congrArg (fun f => (f <$> rewriteIn names initial argument).run.run s)
        (funext fun text => trimText_pseudoClass name text)
    | some reference =>
      obtain ⟨rfl, hbare⟩ := soleReference?_eq_some_iff.1 hsole
      have hone : rewriteIn names initial argument = liftM (names.reference initial reference) := by
        rw [rewriteIn_of_tokenize h, rewriteTokens_eq_join hcomma hmarker]
        simp [Token.emit, Token.written?, String.join_cons]
      rw [rewrite, rewriteIn_pseudoClass_sole hname hother h hplain hbalanced hsole, run_map,
        run_lift_map, reference_run_parenthesized hbare (hnone reference hsole), hone, run_lift_map]
      have htext (text : String) : ":" ++ name ++ ("(" ++ text ++ ")") = pseudoClass name text := by
        simp [pseudoClass, String.append_assoc]
      rw [htext]
      exact Prod.ext (congrArg Except.ok (trimText_pseudoClass name _)) rfl

end

/-- A reference to another file is not all that `:not` has as its argument, so the argument is
rewritten as it is on its own. -/
theorem rewrite_pseudoClass_known :
    let names : NameSource Unit :=
      ⟨fun _ => pure "L", fun aliasName _ => pure (if aliasName = "theme" then some "K" else none)⟩
    let argument := ".theme::accent (.a)"
    tokenize argument = .ok [.composition ⟨true, "theme", "accent", false⟩, .blank " ", .raw "(",
      .className "a", .raw ")"] ∧
    (rewrite names .localScope (pseudoClass "not" argument)).run.run ()
      = (pseudoClass "not" <$> rewrite names .localScope argument).run.run () := by
  intro names argument
  have h : tokenize argument = .ok [.composition ⟨true, "theme", "accent", false⟩, .blank " ",
      .raw "(", .className "a", .raw ")"] := by
    decide +kernel
  have hnames : names.Solid := by
    have hlocal : "L".toList.getLast?.any isBlank = false := by decide
    refine ⟨fun _ _ => hlocal, fun aliasName remote s name hname => ?_⟩
    have hknown : name ∈ if aliasName = "theme" then some "K" else none := hname
    split at hknown
    · obtain rfl := Option.some.inj hknown
      rfl
    · cases hknown
  have hnot : isClassName "not" := by decide
  have hplain : ∀ c ∈ argument.toList, isQuote c = false ∧ c ≠ '[' := by simp [argument, isQuote]
  obtain ⟨hsame, -, hsolid⟩ := rewrite_pseudoClass hnot (by decide) h hplain (by decide) (by decide)
    (fun scope => by cases scope <;> decide) (by decide) names .localScope ()
  refine ⟨h, ?_⟩
  rw [hsame.2 (fun _ hsole => by cases hsole), run_map, run_map, hsolid (by decide +kernel) hnames]

/-- A reference to another file is all that `:not` has as its argument, and the parentheses are
lost. -/
theorem pseudoClass_parens_dropped :
    let names : NameSource Unit :=
      ⟨fun _ => pure "L", fun aliasName _ => pure (if aliasName = "theme" then some "K" else none)⟩
    Id.run ((rewrite names .localScope (pseudoClass "not" ".theme::accent")).run.run ())
      = (.ok ":not.K", ()) ∧
    Id.run ((pseudoClass "not" <$> rewrite names .localScope ".theme::accent").run.run ())
      = (.ok ":not(.K)", ()) := by
  decide +kernel

end Selector
end ScopedCss
