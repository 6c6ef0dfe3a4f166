import Mathlib.Data.List.Forall2
import ScopedCss.Proofs.Document.Frame
import ScopedCss.Proofs.Document.Visits
import ScopedCss.Proofs.Selector.Keyframes

/-!
# Keyframes in a document

The walk comes to the rules in a block of `@keyframes` as it comes to any other, so what becomes of
them depends on their selectors alone. A list of moments stays as it is while there is no dot in it.
The fraction of a percentage is taken for a class: it gets a name, and an entry in the table of the
document.

* `Stylesheet.keyframeSelectorsOf` lists the selectors of keyframes.
* `forall₂_settle_keyframes`: one by one, they are rewritten with the names that are there in the
  end.
* `process_keyframes`: what becomes of those that are lists of moments.
-/

namespace ScopedCss

namespace Stylesheet

/-- The selector of a rule. -/
def Node.selector? : Node → Option String
  | .rule selector _ => some selector
  | _ => none

mutual

/-- The selectors of the rules in a node that stand directly in a block of keyframes. -/
def Node.keyframeSelectors : Node → List String
  | .rule _ nodes => keyframeSelectorsOf nodes
  | .block name _ nodes =>
    (if name = "keyframes" then nodes.filterMap Node.selector? else []) ++ keyframeSelectorsOf nodes
  | .statement _ _ => []
  | .declaration _ _ => []

/-- The selectors of the rules in these nodes that stand directly in a block of keyframes. -/
def keyframeSelectorsOf : List Node → List String
  | [] => []
  | node :: nodes => node.keyframeSelectors ++ keyframeSelectorsOf nodes

end

end Stylesheet

open Stylesheet (Node Document keyframeSelectorsOf)

variable {config : Config} {document : Document} {store names : Store} {table : Table}
  {steps : List Step} {selector : String}

/-! ## Rules before and after -/

/-- The selector of a rule that takes some of these steps, and what it is with these names. -/
def Settles (config : Config) (steps : List Step) (table : Table) (names : Store)
    (selector selector' : String) : Prop :=
  ∃ imports : Imports, selectorSteps config imports selector ⊆ steps ∧
    selector' = settleSelector config imports table names selector

theorem forall₂_settle_selectors (directory : Path) (nodes : List Node) (imports : Imports)
    (h : stepsOf config directory imports nodes ⊆ steps) :
    List.Forall₂ (Settles config steps table names) ((prune config nodes).filterMap Node.selector?)
      ((settle config directory table names imports nodes).filterMap Node.selector?) := by
  induction nodes generalizing imports with
  | nil => exact .nil
  | cons node nodes ih =>
    rw [stepsOf, List.append_subset] at h
    rw [prune, settle]
    by_cases hdirective : isDirective config node
    · rw [if_pos hdirective] at h ⊢
      rw [if_pos hdirective]
      exact ih _ h.2
    · rw [if_neg hdirective] at h ⊢
      rw [if_neg hdirective]
      cases node with
      | rule selector inside =>
        have hfirst := (List.append_subset.1 h.1).1
        exact .cons ⟨imports, hfirst, rfl⟩ (ih _ h.2)
      | block | statement | declaration => exact ih _ h.2

mutual

theorem forall₂_settleNode_keyframes (directory : Path) (imports : Imports) : (node : Node) →
    nodeSteps config directory imports node ⊆ steps →
    List.Forall₂ (Settles config steps table names) (pruneNode config node).keyframeSelectors
      (settleNode config directory table names imports node).keyframeSelectors
  | .rule selector nodes, h =>
    forall₂_settle_keyframes directory imports nodes (List.append_subset.1 h).2
  | .block name params nodes, h => by
    have hinside := forall₂_settle_keyframes directory imports nodes h
    rw [pruneNode, settleNode, Node.keyframeSelectors, Node.keyframeSelectors]
    split
    · exact List.rel_append (forall₂_settle_selectors directory nodes imports h) hinside
    · exact hinside
  | .statement name params, _ => .nil
  | .declaration property value, _ => .nil

/-- The selectors of keyframes are rewritten one by one, with the names that are there in the
end. -/
theorem forall₂_settle_keyframes (directory : Path) (imports : Imports) : (nodes : List Node) →
    stepsOf config directory imports nodes ⊆ steps →
    List.Forall₂ (Settles config steps table names) (keyframeSelectorsOf (prune config nodes))
      (keyframeSelectorsOf (settle config directory table names imports nodes))
  | [], _ => .nil
  | node :: nodes, h => by
    rw [stepsOf, List.append_subset] at h
    rw [prune, settle]
    by_cases hdirective : isDirective config node
    · rw [if_pos hdirective] at h ⊢
      rw [if_pos hdirective]
      exact forall₂_settle_keyframes directory _ nodes h.2
    · rw [if_neg hdirective] at h ⊢
      rw [if_neg hdirective]
      exact List.rel_append (forall₂_settleNode_keyframes directory imports node h.1)
        (forall₂_settle_keyframes directory _ nodes h.2)

end

/-! ## Lists of moments -/

/-- Classes are not scoped, or there is no dot in the selector. A list of moments then asks for no
name. -/
def AsksNothing (config : Config) (selector : String) : Prop :=
  config.modules = false ∨ '.' ∉ selector.toList

instance (config : Config) (selector : String) : Decidable (AsksNothing config selector) :=
  inferInstanceAs (Decidable (_ ∨ _))

theorem requests_of_asksNothing (h : Selector.isKeyframeSelector selector)
    (hnothing : AsksNothing config selector) (known : String → Bool) :
    Selector.requests known (Selector.defaultScope config.modules) selector = [] := by
  obtain ⟨fractions, hrequests, -, hdot⟩ := Selector.requests_keyframes h
  rw [hrequests]
  rcases hnothing with hmodules | hnone
  · rw [hmodules]
    exact List.flatMap_eq_nil_iff.2 fun _ _ => rfl
  · rw [hdot.2 hnone]
    rfl

/-- Whatever the document, such a selector stays as it is, and nothing is done but to note this. -/
theorem scopeSelector_of_asksNothing (h : Selector.isKeyframeSelector selector)
    (hnothing : AsksNothing config selector) (cx : Context) :
    (scopeSelector config selector).run cx
      = (.ok selector, { cx with log := cx.log ++ [.rewritten selector selector] }) := by
  let answers := answersOf config.generate cx.imports cx.table cx.store
  have hknows := answersOf_knows config.generate cx.imports cx.table cx.store
  have hrequests := requests_of_asksNothing h hnothing (Imports.knows cx.imports)
  have hasked : Selector.Asked (Context.names config) answers [] cx (.ok ()) cx := .nil cx
  rw [← hrequests] at hasked
  unfold scopeSelector
  rw [StateT.run_bind, Selector.rewrite_run hknows hasked,
    Selector.text_keyframes h hrequests hknows]
  rfl

theorem settleSelector_of_asksNothing (h : Selector.isKeyframeSelector selector)
    (hnothing : AsksNothing config selector) (imports : Imports) :
    settleSelector config imports table names selector = selector :=
  Selector.text_keyframes h (requests_of_asksNothing h hnothing _)
    (answersOf_knows _ imports table names)

/-- Otherwise the fractions of its percentages are classes of the document. -/
theorem own_of_not_asksNothing (h : Selector.isKeyframeSelector selector)
    (hsome : ¬ AsksNothing config selector) :
    ∃ fractions : List String, fractions ≠ [] ∧ ∀ fraction ∈ fractions,
      Stylesheet.startsDigit fraction.toList ∧ '.' :: fraction.toList <:+: selector.toList ∧
        ∀ imports, Step.own fraction ∈ selectorSteps config imports selector := by
  obtain ⟨fractions, hrequests, hfractions, hdot⟩ := Selector.requests_keyframes h
  obtain ⟨hmodules, hmem⟩ := not_or.1 hsome
  refine ⟨fractions, fun hnil => hmem (hdot.1 hnil), fun fraction hfraction => ?_⟩
  obtain ⟨hdigit, hoccurs⟩ := hfractions fraction hfraction
  refine ⟨hdigit, hoccurs, fun imports => ?_⟩
  have hscope : Selector.defaultScope config.modules = .localScope := by
    rw [eq_true_of_ne_false hmodules]
    rfl
  rw [selectorSteps, hrequests, hscope]
  refine List.mem_flatMap.2 ⟨.ownName fraction, ?_, List.mem_singleton_self _⟩
  exact List.mem_flatMap.2 ⟨fraction, hfraction, List.mem_singleton_self _⟩

/-! ## Documents -/

/-- **Keyframes without fractions are kept.** When a document is scoped, the selectors of its
keyframes correspond one to one to those that are left without the directives. A list of moments is
the same as before and asks for no name, unless classes are scoped and there is a dot in it. Then
each fraction of its percentages is a class of the finished table. -/
theorem process_keyframes {given : Table} (h : (process config document store).result = .ok given) :
    List.Forall₂ (fun selector selector' => Selector.isKeyframeSelector selector →
        if AsksNothing config selector then
          selector' = selector ∧ ∀ cx, (scopeSelector config selector).run cx
            = (.ok selector, { cx with log := cx.log ++ [.rewritten selector selector] })
        else
          ∃ fractions : List String, fractions ≠ [] ∧ ∀ fraction ∈ fractions,
            Stylesheet.startsDigit fraction.toList ∧ '.' :: fraction.toList <:+: selector.toList ∧
              (document.finished config store).contains fraction)
      (keyframeSelectorsOf (prune config document.nodes))
      (keyframeSelectorsOf (process config document store).document.nodes) := by
  obtain ⟨cx, hperformed⟩ := performed_of_ok h
  rw [(process_of_done hperformed).2.1]
  refine List.Forall₂.imp ?_
    (forall₂_settle_keyframes document.key.directory ∅ document.nodes (List.Subset.refl _))
  rintro selector _ ⟨imports, hsteps, rfl⟩ hmoments
  by_cases hnothing : AsksNothing config selector
  · rw [if_pos hnothing]
    exact ⟨settleSelector_of_asksNothing hmoments hnothing imports,
      scopeSelector_of_asksNothing hmoments hnothing⟩
  · rw [if_neg hnothing]
    obtain ⟨fractions, hsome, hfractions⟩ := own_of_not_asksNothing hmoments hnothing
    refine ⟨fractions, hsome, fun fraction hfraction => ?_⟩
    obtain ⟨hdigit, hoccurs, hown⟩ := hfractions fraction hfraction
    refine ⟨hdigit, hoccurs, ?_⟩
    have hclass : fraction ∈ (document.steps config).filterMap Step.ownClass? :=
      List.mem_filterMap.2 ⟨_, hsteps (hown imports), rfl⟩
    exact (contains_perform (congrArg Prod.fst hperformed) fraction).2 (.inr (.inl hclass))

/-- Keyframes inside of another block, one rule with a fraction and one without. -/
theorem process_keyframes_nested :
    let config := Config.ofOptions {}
    let document : Document := ⟨⟨"/a.css"⟩, "", [.rule ".a" [], .block "media" "print"
      [.block "keyframes" "k" [.rule "from, 50%" [], .rule "12.5%, to" []]]]⟩
    let finished := Table.ofList [("a", "_a_i649y_tthz1"), ("5%", "_5%_i649y_zswx8")]
    (process config document ∅).result = .ok finished ∧
      keyframeSelectorsOf (process config document ∅).document.nodes
        = ["from, 50%", "12._5%_i649y_zswx8, to"] ∧
      (∀ cx, (scopeSelector config "from, 50%").run cx
        = (.ok "from, 50%", { cx with log := cx.log ++ [.rewritten "from, 50%" "from, 50%"] })) ∧
      ∃ fractions : List String, fractions ≠ [] ∧ ∀ fraction ∈ fractions,
        Stylesheet.startsDigit fraction.toList ∧ '.' :: fraction.toList <:+: "12.5%, to".toList ∧
          finished.contains fraction := by
  intro config document finished
  have h : (process config document ∅).result = .ok finished := by decide +kernel
  have hafter : keyframeSelectorsOf (process config document ∅).document.nodes
      = ["from, 50%", "12._5%_i649y_zswx8, to"] := by
    decide +kernel
  have hbefore :
      keyframeSelectorsOf (prune config document.nodes) = ["from, 50%", "12.5%, to"] := by
    decide +kernel
  have hfinished : document.finished config ∅ = finished := by decide +kernel
  have hkeyframes := process_keyframes h
  rw [hbefore, hafter, hfinished] at hkeyframes
  obtain ⟨hkept, hrest⟩ := List.forall₂_cons.1 hkeyframes
  obtain ⟨htaken, -⟩ := List.forall₂_cons.1 hrest
  replace hkept := hkept (by decide +kernel)
  replace htaken := htaken (by decide +kernel)
  rw [if_pos (by decide +kernel)] at hkept
  rw [if_neg (by decide +kernel)] at htaken
  exact ⟨h, hafter, hkept.2, htaken⟩

/-- The fraction of a percentage is no class, but it gets a name and an entry in the table, and what
was a moment of the animation is none any more. -/
theorem keyframes_fraction_renamed :
    let config := Config.ofOptions {}
    let document : Document := ⟨⟨"/a.css"⟩, "", [.block "keyframes" "k" [.rule "12.5%" []]]⟩
    Selector.isKeyframeSelector "12.5%" ∧
      Selector.isKeyframeSelector "12._5%_i649y_zswx8" = false ∧
      (process config document ∅).result = .ok (Table.ofList [("5%", "_5%_i649y_zswx8")]) ∧
      (process config document ∅).document.nodes
        = [.block "keyframes" "k" [.rule "12._5%_i649y_zswx8" []]] := by
  decide +kernel

end ScopedCss
