import Mathlib.Tactic.TFAE
import ScopedCss.Proofs.Document.Names
import ScopedCss.Proofs.Selector.Standing
import ScopedCss.Proofs.Use.Rendering

/-!
# One notion of class name

Class names are read in three places: as words of a `@use` directive, as pieces of a selector, and
as aliases in an `:import` rule. A directive cuts words at other characters than a selector does,
and an alias is looked at as a whole. All the same they take the same texts for class names, so that
whatever a directive binds can be referred to in a selector (`classNames_agree`).

* `Use.tokenize?_dot_iff`, `Selector.tokenize_dot_iff`, `applyImport_eq_invalidAlias_iff`: what each
  of the readers takes for a class name.
* `Selector.readsAsReference`: a reference between class names is one piece, however it is written.
* `BindClassNames.ofDocument`: whatever the directives of a document bind is a class name.
-/

namespace ScopedCss

open Stylesheet (Node Document)
open Text (isClassName)

/-! ## The words of a `@use` directive -/

namespace Use

variable {name : String} {tokens : List Token}

theorem isClassName_of_ofWord {word : List Char} (h : Token.ofWord word = .className name) :
    isClassName name := by
  unfold Token.ofWord at h
  split at h
  · cases h
  split at h
  · cases h
  split at h
  · split at h
    · next hname =>
      cases h
      exact hname
    · cases h
  · cases h

/-- Every class that a text is cut into is a class name. -/
theorem isClassName_of_mem_tokensOf? {s : List Char} (h : tokensOf? s = some tokens)
    (hmem : .className name ∈ tokens) : isClassName name := by
  fun_induction tokensOf? s generalizing tokens with
  | case1 =>
    cases h
    cases hmem
  | case3 => cases h
  | case7 _ _ _ _ _ _ _ ih => exact ih h hmem
  | case8 _ _ _ _ _ _ _ ih =>
    obtain ⟨more, hmore, rfl⟩ := Option.map_eq_some_iff.1 h
    rcases List.mem_cons.1 hmem with hword | hmem
    · exact isClassName_of_ofWord hword.symm
    · exact ih hmore hmem
  | case2 _ _ _ _ _ _ ih | case4 _ _ ih | case5 _ _ _ ih | case6 _ _ _ _ ih =>
    obtain ⟨more, hmore, rfl⟩ := Option.map_eq_some_iff.1 h
    exact ih hmore ((List.mem_cons.1 hmem).resolve_left nofun)

/-- A dot and a text behind it are one class if and only if the text is a class name. -/
theorem tokenize?_dot_iff :
    tokenize? ("." ++ name) = some [.className name] ↔ isClassName name := by
  constructor
  · intro h
    exact isClassName_of_mem_tokensOf? h List.mem_cons_self
  · intro hname
    have hlegible : (Token.className name).Legible '"' := hname
    rw [tokenize?, ← List.append_nil (String.toList _)]
    refine (tokensOf?_written rfl hlegible fun _ => rfl).trans ?_
    rw [tokensOf?]
    rfl

theorem Clause.label_mem_tokens (clause : Clause) :
    .className clause.reference.label ∈ clause.tokens := by
  obtain ⟨className, _ | label⟩ := clause
  · exact List.mem_cons_self
  · exact .tail _ (.tail _ List.mem_cons_self)

/-- The label of a reference is one of the words that spell it. -/
theorem SpellsReferences.label_mem {references : List Reference} {r : Reference}
    (h : SpellsReferences tokens references) (hr : r ∈ references) :
    .className r.label ∈ tokens := by
  cases h with
  | single clause =>
    obtain rfl := List.mem_singleton.1 hr
    exact clause.label_mem_tokens
  | listed first more =>
    refine .tail _ (List.mem_append_left _ ?_)
    obtain ⟨clause, hclause, rfl⟩ := List.mem_map.1 hr
    rcases List.mem_cons.1 hclause with rfl | hmore
    · exact List.mem_append_left _ clause.label_mem_tokens
    · refine List.mem_append_right _ (List.mem_flatMap.2 ⟨clause, hmore, ?_⟩)
      exact .tail _ clause.label_mem_tokens

theorem isClassName_label {params : String} {directive : Directive} {r : Reference}
    (h : Directive.parse params = .ok directive) (hr : r ∈ directive.references) :
    isClassName r.label := by
  unfold Directive.parse at h
  split at h
  · next tokens htokens =>
    obtain ⟨path, hspells⟩ := ofTokens_eq_ok_iff.1 h
    exact isClassName_of_mem_tokensOf? htokens (List.mem_append_left _ (hspells.label_mem hr))
  · cases h

end Use

/-! ## The pieces of a selector -/

namespace Selector

variable {aliasName remote name : String}

/-- A dot and a text behind it are one class if and only if the text is a class name. -/
theorem tokenize_dot_iff : tokenize ("." ++ name) = .ok [.className name] ↔ isClassName name := by
  rw [tokenize, tokensFrom_eq_ok_iff]
  constructor
  · rintro ⟨-, hstands, -⟩
    cases hstands with
    | className hname => exact hname
  · intro hname
    refine ⟨?_, .className hname rfl rfl, trivial⟩
    simp [Token.source]

/-- A reference between class names is one piece of a selector. -/
theorem tokenize_composition {selector : String} (reference : Composition)
    (hselector : selector.toList = reference.source) (halias : isClassName reference.aliasName)
    (hremote : isClassName reference.remote) :
    tokenize selector = .ok [.composition reference] := by
  rw [tokenize, tokensFrom_eq_ok_iff, hselector]
  refine ⟨?_, .composition halias hremote fun _ => rfl, trivial⟩
  simp [Token.source]

/-- The alias and the class are read as one reference, with or without a dot and parentheses. -/
structure ReadsAsReference (aliasName remote : String) : Prop where
  bare : tokenize (aliasName ++ "::" ++ remote)
    = .ok [.composition ⟨false, aliasName, remote, false⟩]
  dotted : tokenize ("." ++ aliasName ++ "::" ++ remote)
    = .ok [.composition ⟨true, aliasName, remote, false⟩]
  parenthesized : tokenize ("(" ++ aliasName ++ "::" ++ remote ++ ")")
    = .ok [.composition ⟨false, aliasName, remote, true⟩]
  dottedInParens : tokenize ("(." ++ aliasName ++ "::" ++ remote ++ ")")
    = .ok [.composition ⟨true, aliasName, remote, true⟩]

theorem readsAsReference (halias : isClassName aliasName) (hremote : isClassName remote) :
    ReadsAsReference aliasName remote := by
  -- the reference is named, as the two class names do not tell which of the four it is
  have hread {selector : String} (dotted parenthesized : Bool)
      (hselector : selector.toList
        = Composition.source ⟨dotted, aliasName, remote, parenthesized⟩) :
      tokenize selector = .ok [.composition ⟨dotted, aliasName, remote, parenthesized⟩] :=
    tokenize_composition ⟨dotted, aliasName, remote, parenthesized⟩ hselector halias hremote
  constructor <;> exact hread _ _ (by simp [Composition.source])

/-- In local scope a class asks for its own name. -/
theorem requests_dot (hname : isClassName name) (known : String → Bool) :
    requests known .localScope ("." ++ name) = [.ownName name] := by
  rw [requests_eq, tokenize_dot_iff.2 hname]
  rfl

/-- In any scope a reference asks for its class, if it is known what its alias stands for. -/
theorem requests_composition (reference : Composition) (halias : isClassName reference.aliasName)
    (hremote : isClassName reference.remote) {known : String → Bool}
    (hknown : known reference.aliasName) (scope : Scope) :
    requests known scope (String.ofList reference.source)
      = [.composition reference.aliasName reference.remote] := by
  rw [requests_eq, tokenize_composition reference String.toList_ofList halias hremote]
  simp [requestsOf, inScope, Token.requests, Composition.requests, hknown]

end Selector

/-! ## The aliases of an `:import` rule -/

variable {config : Config} {steps more : List Step} {cx : Context}

/-- Only a directive says that an alias is invalid; no step finds it out by itself. -/
theorem eq_fail_of_invalidAlias {step : Step} {text : String}
    (h : step.fault? config cx = some (.directive text .invalidAlias)) :
    step = .fail (.directive text .invalidAlias) := by
  unfold Step.fault? at h
  split at h
  · rw [Option.some.inj h]
  · split at h <;> cases h
  · split at h
    · split at h <;> cases h
    · cases h
  · cases h

/-- An alias is refused if and only if it is not a class name, whatever its value is. -/
theorem applyImport_eq_invalidAlias_iff (config : Config) (cx : Context)
    (aliasName value : String) :
    ((Directive.applyImport config (.declaration aliasName value)).run.run cx).1
        = .error (.directive (Error.importDirective aliasName) .invalidAlias)
      ↔ ¬ isClassName aliasName := by
  constructor
  · intro hresult hname
    have hended := (applyImport_runs config cx (.declaration aliasName value)).ended
    rw [hresult] at hended
    obtain ⟨step, hstep, cx', hfault⟩ := fault?_of_perform_error hended
    obtain rfl := eq_fail_of_invalidAlias hfault
    rw [importSteps, if_pos hname] at hstep
    split at hstep
    · simp [Error.ofImport] at hstep
    · next source _ => cases hclass : source.className <;> simp [hclass, referenceSteps] at hstep
  · intro hname
    unfold Directive.applyImport
    simp only [hname]
    rfl

/-! ## What directives bind -/

/-- The alias that a step binds. -/
def Step.alias? : Step → Option String
  | addImport aliasName _ => some aliasName
  | _ => none

/-- The aliases that the directives of a document bind. -/
def Stylesheet.Document.aliases (config : Config) (document : Document) : List String :=
  (document.steps config).filterMap Step.alias?

/-- The labels and the aliases that these steps bind are class names. -/
def BindClassNames (steps : List Step) : Prop :=
  ∀ step ∈ steps, ∀ name, step.label? = some name ∨ step.alias? = some name → isClassName name

namespace BindClassNames

variable (config : Config) (directory : Path) (imports : Imports)

theorem nil : BindClassNames [] := by
  intro step hstep
  cases hstep

theorem skip {step : Step} (hlabel : step.label? = none) (halias : step.alias? = none)
    (h : BindClassNames steps) : BindClassNames (step :: steps) := by
  refine List.forall_mem_cons.2 ⟨fun name hname => ?_, h⟩
  rw [hlabel, halias] at hname
  rcases hname with hname | hname <;> cases hname

theorem bind {label : String} (hlabel : isClassName label) (directive : String) (target : Path)
    (className : String) (h : BindClassNames steps) :
    BindClassNames (.bind directive label target className :: steps) := by
  refine List.forall_mem_cons.2 ⟨fun name hname => ?_, h⟩
  rcases hname with hname | hname <;> cases hname
  exact hlabel

theorem addImport {aliasName : String} (halias : isClassName aliasName) (target : Path)
    (h : BindClassNames steps) : BindClassNames (.addImport aliasName target :: steps) := by
  refine List.forall_mem_cons.2 ⟨fun name hname => ?_, h⟩
  rcases hname with hname | hname <;> cases hname
  exact halias

theorem append (h : BindClassNames steps) (hmore : BindClassNames more) :
    BindClassNames (steps ++ more) :=
  List.forall_mem_append.2 ⟨h, hmore⟩

theorem flatMap {α : Type} {stepsOf : α → List Step} {list : List α}
    (h : ∀ a ∈ list, BindClassNames (stepsOf a)) : BindClassNames (list.flatMap stepsOf) := by
  intro step hstep
  obtain ⟨a, ha, hmem⟩ := List.mem_flatMap.1 hstep
  exact h a ha step hmem

theorem referenceSteps {label : String} (hlabel : isClassName label) (directive : String)
    (target : Path) (className : String) :
    BindClassNames (referenceSteps directive label target className) :=
  .skip rfl rfl (.bind hlabel directive target className nil)

theorem useSteps (params : String) : BindClassNames (useSteps config directory params) := by
  unfold ScopedCss.useSteps
  cases hparse : Use.Directive.parse params with
  | error fault => exact .skip rfl rfl nil
  | ok directive =>
    apply BindClassNames.skip rfl rfl
    apply BindClassNames.flatMap
    intro reference hreference
    exact referenceSteps (Use.isClassName_label hparse hreference) _ _ _

theorem importSteps (node : Node) : BindClassNames (importSteps config directory node) := by
  cases node with
  | declaration aliasName value =>
    simp only [ScopedCss.importSteps]
    by_cases halias : isClassName aliasName
    · rw [if_pos halias]
      cases Import.Source.parse value with
      | error fault => exact .skip rfl rfl nil
      | ok source =>
        apply BindClassNames.skip rfl rfl
        cases source.className with
        | none => exact .addImport halias _ nil
        | some className => exact (referenceSteps halias _ _ _).append (.addImport halias _ nil)
    · rw [if_neg halias]
      exact .skip rfl rfl nil
  | rule | block | statement => exact .skip rfl rfl nil

theorem directiveSteps (node : Node) : BindClassNames (directiveSteps config directory node) := by
  cases node with
  | rule selector nodes => exact .flatMap fun node _ => importSteps config directory node
  | block name params nodes => exact useSteps config directory params
  | statement name params => exact useSteps config directory params
  | declaration property value => exact nil

/-- A selector binds nothing. -/
theorem requestSteps (request : Selector.Request) :
    BindClassNames (requestSteps imports request) := by
  cases request with
  | ownName className => exact .skip rfl rfl nil
  | composition aliasName remote =>
    simp only [ScopedCss.requestSteps]
    cases imports[aliasName]? with
    | none => exact nil
    | some target => exact .skip rfl rfl nil
  | closing marker => exact .skip rfl rfl nil

theorem ofDocument (document : Document) : BindClassNames (document.steps config) :=
  have hcompositional : Compositional config document.key.directory BindClassNames :=
    ⟨nil, append, directiveSteps config _, requestSteps⟩
  hcompositional.stepsOf ∅ document.nodes

end BindClassNames

variable {document : Document} {name : String}

theorem isClassName_of_mem_labels (h : name ∈ document.labels config) : isClassName name := by
  obtain ⟨step, hstep, hlabel⟩ := List.mem_filterMap.1 h
  exact BindClassNames.ofDocument config document step hstep name (.inl hlabel)

theorem isClassName_of_mem_aliases (h : name ∈ document.aliases config) : isClassName name := by
  obtain ⟨step, hstep, halias⟩ := List.mem_filterMap.1 h
  exact BindClassNames.ofDocument config document step hstep name (.inr halias)

/-- **There is one notion of class name.** A text that is a class after a dot in a `@use` directive
is one in a selector, and the other way round; it is these texts that may be aliases in an `:import`
rule, in whatever context and with whatever value. Two of them make a reference in a selector, with
or without a dot and parentheses. So every label and every alias that the directives of a document
bind can be referred to: in a selector they are what the rewriting asks for. -/
theorem classNames_agree (config : Config) (document : Document) :
    (∀ (name value : String) (cx : Context), List.TFAE [
      isClassName name,
      Use.tokenize? ("." ++ name) = some [.className name],
      Selector.tokenize ("." ++ name) = .ok [.className name],
      ((Directive.applyImport config (.declaration name value)).run.run cx).1
        ≠ .error (.directive (Error.importDirective name) .invalidAlias)]) ∧
    (∀ aliasName remote, isClassName aliasName → isClassName remote →
      Selector.ReadsAsReference aliasName remote) ∧
    (∀ label ∈ document.labels config, isClassName label ∧
      ∀ known, Selector.requests known .localScope ("." ++ label) = [.ownName label]) ∧
    ∀ aliasName ∈ document.aliases config, ∀ remote, isClassName remote →
      Selector.ReadsAsReference aliasName remote ∧
      ∀ known scope dotted parenthesized, known aliasName →
        Selector.requests known scope
            (String.ofList (Selector.Composition.source ⟨dotted, aliasName, remote, parenthesized⟩))
          = [.composition aliasName remote] := by
  refine ⟨fun name value cx => ?_, fun aliasName remote => Selector.readsAsReference,
    fun label hlabel => ?_, fun aliasName hmem remote hremote => ?_⟩
  · tfae_have 2 ↔ 1 := Use.tokenize?_dot_iff
    tfae_have 3 ↔ 1 := Selector.tokenize_dot_iff
    tfae_have 4 ↔ 1 := (applyImport_eq_invalidAlias_iff config cx name value).not.trans not_not
    tfae_finish
  · have hname := isClassName_of_mem_labels hlabel
    exact ⟨hname, Selector.requests_dot hname⟩
  · have halias := isClassName_of_mem_aliases hmem
    refine ⟨Selector.readsAsReference halias hremote, ?_⟩
    intro known scope dotted parenthesized hknown
    exact Selector.requests_composition ⟨dotted, aliasName, remote, parenthesized⟩ halias
      hremote hknown scope

/-- Names that are words of the grammars and names of markers, and one that looks like a path. -/
theorem classNames_agree_words :
    let config := Config.ofOptions { grammars := [.importRule, .atUse] }
    let document : Document := ⟨⟨"/a.css"⟩, "", [.statement "use" "(.x as .from) from './b.css'",
      .rule ":import" [.declaration "local" "'./c.css'"]]⟩
    let knows (aliasName : String) : Bool := aliasName == "local"
    Selector.ReadsAsReference "as" "1/é" ∧
      document.labels config = ["from"] ∧
      Selector.requests knows .localScope ".from" = [.ownName "from"] ∧
      document.aliases config = ["local"] ∧
      Selector.requests knows .globalScope "(.local::global)"
        = [.composition "local" "global"] := by
  intro config document knows
  have hlabels : document.labels config = ["from"] := by decide +kernel
  have haliases : document.aliases config = ["local"] := by decide +kernel
  obtain ⟨-, hreads, hlabel, halias⟩ := classNames_agree config document
  obtain ⟨-, hfrom⟩ := hlabel "from" (hlabels ▸ List.mem_cons_self)
  obtain ⟨-, hlocal⟩ := halias "local" (haliases ▸ List.mem_cons_self) "global" (by decide)
  exact ⟨hreads "as" "1/é" (by decide) (by decide), hlabels, hfrom knows, haliases,
    hlocal knows .globalScope true true (by decide)⟩

end ScopedCss
