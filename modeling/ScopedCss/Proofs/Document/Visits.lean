import ScopedCss.Proofs.Document.InPlace
import ScopedCss.Proofs.Step.Directive

/-!
# What the walk makes of a document

What the walk comes to can be read off the nodes: directives, and the selectors of the rules that
are no directives. It follows or rewrites them in the order of the document.

* `visits` lists what the walk comes to, `visitAll` goes through the list.
* `prune` takes the directives out, at every level.
* `Reworded` puts texts in the place of selectors and changes nothing else.
* `walk_makes`: the walk makes its visits, and puts their results into what `prune` has left.
-/

namespace ScopedCss

open Stylesheet (Node)

/-! ## Visits -/

/-- Something that the walk comes to. -/
inductive Visit where
  /-- A directive, which is followed. -/
  | directive (node : Node)
  /-- The selector of a rule, which is rewritten. -/
  | selector (text : String)

/-- Follow the directive, or rewrite the selector and give the result. -/
def Visit.run (config : Config) : Visit → Scoping (List String)
  | directive node => do
    let _ ← Directive.interceptAny config (Grammar.distinct config.grammars) node
    return []
  | selector text => do
    let result ← (ExceptT.mk (scopeSelector config text) : Scoping String)
    return [result]

/-- Visits made one after the other, with all results of selectors in their order. -/
def visitAll (config : Config) : List Visit → Scoping (List String)
  | [] => return []
  | visit :: visits => do
    let result ← visit.run config
    let results ← visitAll config visits
    return result ++ results

mutual

/-- What the walk comes to in a node that is no directive: the selector of a rule before what is in
the rule. -/
def nodeVisits (config : Config) : Node → List Visit
  | .rule selector nodes => .selector selector :: visits config nodes
  | .block _ _ nodes => visits config nodes
  | _ => []

/-- What the walk comes to in these nodes. -/
def visits (config : Config) : List Node → List Visit
  | [] => []
  | node :: nodes =>
    (if isDirective config node then [.directive node] else nodeVisits config node)
      ++ visits config nodes

end

mutual

/-- A node without the directives in it. -/
def pruneNode (config : Config) : Node → Node
  | .rule selector nodes => .rule selector (prune config nodes)
  | .block name params nodes => .block name params (prune config nodes)
  | node => node

/-- The nodes without the directives among them and in them. -/
def prune (config : Config) : List Node → List Node
  | [] => []
  | node :: nodes =>
    if isDirective config node then prune config nodes
    else pruneNode config node :: prune config nodes

end

/-! ## Selectors apart -/

namespace Stylesheet

mutual

/-- A node with all selectors left empty. -/
def Node.outline : Node → Node
  | .rule _ nodes => .rule "" (outlineOf nodes)
  | .block name params nodes => .block name params (outlineOf nodes)
  | node => node

/-- The nodes with all selectors left empty. -/
def outlineOf : List Node → List Node
  | [] => []
  | node :: nodes => node.outline :: outlineOf nodes

end

/-- The nodes with these texts in the place of their selectors, one after the other. -/
structure Reworded (nodes : List Node) (texts : List String) (nodes' : List Node) : Prop where
  outline : outlineOf nodes' = outlineOf nodes
  selectors : selectorsOf nodes' = texts

theorem Reworded.cons {node node' : Node} {nodes nodes' : List Node} {texts : List String}
    (hnode : node'.outline = node.outline) (hnodes : Reworded nodes texts nodes') :
    Reworded (node :: nodes) (node'.selectors ++ texts) (node' :: nodes') where
  outline := by rw [outlineOf, outlineOf, hnode, hnodes.outline]
  selectors := by rw [selectorsOf, hnodes.selectors]

mutual

theorem Node.eq_of_outline : (node node' : Node) → node'.outline = node.outline →
    ∀ {texts texts' : List String}, node'.selectors ++ texts' = node.selectors ++ texts →
      node' = node ∧ texts' = texts
  | .rule selector nodes, node', houtline, texts, texts', htexts => by
    cases node' with
    | rule selector' nodes' =>
      obtain ⟨rfl, hrest⟩ := List.cons.inj htexts
      obtain ⟨rfl, rfl⟩ := eq_of_outlineOf nodes nodes' (Node.rule.inj houtline).2 hrest
      exact ⟨rfl, rfl⟩
    | block | statement | declaration => cases houtline
  | .block name params nodes, node', houtline, texts, texts', htexts => by
    cases node' with
    | block name' params' nodes' =>
      obtain ⟨rfl, rfl, hnodes⟩ := Node.block.inj houtline
      obtain ⟨rfl, rfl⟩ := eq_of_outlineOf nodes nodes' hnodes htexts
      exact ⟨rfl, rfl⟩
    | rule | statement | declaration => cases houtline
  | .statement name params, node', houtline, texts, texts', htexts => by
    cases node' with
    | statement name' params' =>
      cases houtline
      exact ⟨rfl, htexts⟩
    | rule | block | declaration => cases houtline
  | .declaration property value, node', houtline, texts, texts', htexts => by
    cases node' with
    | declaration property' value' =>
      cases houtline
      exact ⟨rfl, htexts⟩
    | rule | block | statement => cases houtline

theorem eq_of_outlineOf : (nodes nodes' : List Node) → outlineOf nodes' = outlineOf nodes →
    ∀ {texts texts' : List String}, selectorsOf nodes' ++ texts' = selectorsOf nodes ++ texts →
      nodes' = nodes ∧ texts' = texts
  | [], nodes', houtline, texts, texts', htexts => by
    cases nodes' with
    | nil => exact ⟨rfl, htexts⟩
    | cons => cases houtline
  | node :: nodes, nodes', houtline, texts, texts', htexts => by
    cases nodes' with
    | nil => cases houtline
    | cons node' nodes' =>
      obtain ⟨hnode, hnodes⟩ := List.cons.inj houtline
      simp only [selectorsOf, List.append_assoc] at htexts
      obtain ⟨rfl, hrest⟩ := Node.eq_of_outline node node' hnode htexts
      obtain ⟨rfl, rfl⟩ := eq_of_outlineOf nodes nodes' hnodes hrest
      exact ⟨rfl, rfl⟩

end

theorem Reworded.unique {nodes nodes' nodes'' : List Node} {texts : List String}
    (h : Reworded nodes texts nodes') (h' : Reworded nodes texts nodes'') : nodes' = nodes'' := by
  have houtline := h.outline.trans h'.outline.symm
  have hselectors := h.selectors.trans h'.selectors.symm
  exact (eq_of_outlineOf nodes'' nodes' houtline (congrArg (· ++ []) hselectors)).1

end Stylesheet

open Stylesheet (Reworded)

variable (config : Config)

/-! ## The walk -/

theorem visitAll_append (first more : List Visit) :
    visitAll config (first ++ more) = (do
      let results ← visitAll config first
      let others ← visitAll config more
      return results ++ others) := by
  induction first with
  | nil => simp [visitAll]
  | cons visit first ih =>
    simp only [List.cons_append, visitAll, ih, bind_assoc, pure_bind, List.append_assoc]

theorem visitAll_append_run {first more : List Visit} {texts : List String} {cx cx₁ : Context}
    (h : (visitAll config first).run.run cx = (.ok texts, cx₁)) :
    (visitAll config (first ++ more)).run.run cx
      = (((visitAll config more).run.run cx₁).1.map (texts ++ ·),
        ((visitAll config more).run.run cx₁).2) := by
  rw [visitAll_append, ExceptT.run_bind, StateT.run_bind, h]
  show StateT.run (ExceptT.run (visitAll config more >>= _)) cx₁ = _
  rw [ExceptT.run_bind, StateT.run_bind]
  match (visitAll config more).run.run cx₁ with
  | (.error error, cx₂) => rfl
  | (.ok others, cx₂) => rfl

theorem visitAll_directive_run (node : Node) (cx : Context) :
    (visitAll config [.directive node]).run.run cx =
      let (followed, cx₁) :=
        (Directive.interceptAny config (Grammar.distinct config.grammars) node).run.run cx
      (followed.map fun _ => [], cx₁) := by
  simp only [visitAll, Visit.run, bind_assoc, pure_bind]
  rw [ExceptT.run_bind, StateT.run_bind]
  match (Directive.interceptAny config (Grammar.distinct config.grammars) node).run.run cx with
  | (.error error, cx₁) => rfl
  | (.ok _, cx₁) => rfl

theorem visitAll_selector_run (text : String) (cx : Context) :
    (visitAll config [.selector text]).run.run cx =
      (((scopeSelector config text).run cx).1.map ([·]),
        ((scopeSelector config text).run cx).2) := by
  simp only [visitAll, Visit.run, bind_assoc, pure_bind]
  rw [ExceptT.run_bind, StateT.run_bind, ExceptT.run_mk]
  match (scopeSelector config text).run cx with
  | (.error error, cx₁) => rfl
  | (.ok result, cx₁) => rfl

/-- A walk makes these visits. If it comes to its end, it has put the results in the place of the
selectors of these nodes. -/
def Makes {α : Type} (config : Config) (program : StateM Context (Walked α)) (visits : List Visit)
    (rewords : List String → α → Prop) (cx : Context) : Prop :=
  match (visitAll config visits).run.run cx with
  | (.error error, cx') => ∃ left, program.run cx = ((.error error, left), cx')
  | (.ok texts, cx') => ∃ left, program.run cx = ((.ok (), left), cx') ∧ rewords texts left

namespace Makes

variable {config}
variable {α β : Type} {program : StateM Context (Walked α)} {first more : List Visit}
  {rewords : List String → α → Prop} {cx cx₁ : Context}

/-- A walk that stops at an error. -/
theorem stopped {error : Error} {left : α}
    (h : (visitAll config first).run.run cx = (.error error, cx₁))
    (hrun : program.run cx = ((.error error, left), cx₁)) :
    Makes config program (first ++ more) rewords cx := by
  unfold Makes
  rw [visitAll_append, ExceptT.run_bind, StateT.run_bind, h]
  exact ⟨left, hrun⟩

/-- A walk that goes on after its first visits. -/
theorem goesOn {texts : List String} {rest : StateM Context (Walked β)}
    {rewordsRest : List String → β → Prop} {f : β → α}
    (h : (visitAll config first).run.run cx = (.ok texts, cx₁))
    (hrun : program.run cx = (((rest.run cx₁).1.1, f (rest.run cx₁).1.2), (rest.run cx₁).2))
    (hrest : Makes config rest more rewordsRest cx₁)
    (hrewords : ∀ others left, rewordsRest others left → rewords (texts ++ others) (f left)) :
    Makes config program (first ++ more) rewords cx := by
  unfold Makes at hrest ⊢
  rw [visitAll_append_run config h, hrun]
  match hmore : (visitAll config more).run.run cx₁ with
  | (.error error, cx₂) =>
    rw [hmore] at hrest
    obtain ⟨left, hleft⟩ := hrest
    rw [hleft]
    exact ⟨_, rfl⟩
  | (.ok others, cx₂) =>
    rw [hmore] at hrest
    obtain ⟨left, hleft, hreworded⟩ := hrest
    rw [hleft]
    exact ⟨_, rfl, hrewords others left hreworded⟩

end Makes

mutual

theorem walkNode_makes (cx : Context) : (node : Node) →
    Makes config (walkNode config node) (nodeVisits config node)
      (fun texts left => left.outline = (pruneNode config node).outline ∧ left.selectors = texts) cx
  | .rule selector nodes => by
    have hwalk : (walkNode config (.rule selector nodes)).run cx = _ := StateT.run_bind ..
    have hvisit := visitAll_selector_run config selector cx
    rw [nodeVisits, ← List.singleton_append]
    match hrun : (scopeSelector config selector).run cx with
    | (.error error, cx₁) =>
      rw [hrun] at hwalk hvisit
      exact .stopped hvisit hwalk
    | (.ok result, cx₁) =>
      rw [hrun] at hwalk hvisit
      refine .goesOn hvisit hwalk (walk_makes cx₁ nodes) ?_
      rintro others left ⟨houtline, hselectors⟩
      exact ⟨congrArg (Node.rule "") houtline, congrArg (result :: ·) hselectors⟩
  | .block name params nodes => by
    have hvisit : (visitAll config []).run.run cx = (.ok [], cx) := rfl
    exact .goesOn hvisit rfl (walk_makes cx nodes) fun others left hleft =>
      ⟨congrArg (Node.block name params) hleft.outline, hleft.selectors⟩
  | .statement name params => ⟨_, rfl, rfl, rfl⟩
  | .declaration property value => ⟨_, rfl, rfl, rfl⟩

theorem walk_makes (cx : Context) : (nodes : List Node) →
    Makes config (walk config nodes) (visits config nodes) (Reworded (prune config nodes)) cx
  | [] => ⟨_, rfl, rfl, rfl⟩
  | node :: nodes => by
    have hwalk : (walk config (node :: nodes)).run cx = _ := StateT.run_bind ..
    by_cases hdirective : isDirective config node
    · obtain ⟨ended, cx₁, hrun, -⟩ := interceptAny_of_isDirective config cx hdirective
      have hvisit := visitAll_directive_run config node cx
      rw [hrun] at hwalk hvisit
      simp only [visits, prune, if_pos hdirective]
      cases ended with
      | error error => exact .stopped hvisit hwalk
      | ok => exact .goesOn (f := id) hvisit hwalk (walk_makes cx₁ nodes) fun _ _ h => h
    · rw [interceptAny_of_not_isDirective config cx hdirective] at hwalk
      simp only [visits, prune, if_neg hdirective]
      replace hwalk := hwalk.trans (StateT.run_bind ..)
      have hnode := walkNode_makes cx node
      unfold Makes at hnode
      match hvisits : (visitAll config (nodeVisits config node)).run.run cx with
      | (.error error, cx₁) =>
        rw [hvisits] at hnode
        obtain ⟨left, hrun⟩ := hnode
        rw [hrun] at hwalk
        exact .stopped hvisits hwalk
      | (.ok texts, cx₁) =>
        rw [hvisits] at hnode
        obtain ⟨left, hrun, houtline, rfl⟩ := hnode
        rw [hrun] at hwalk
        exact .goesOn hvisits hwalk (walk_makes cx₁ nodes) fun _ _ hrest => hrest.cons houtline

end

/-- **The walk takes out exactly the directives, and rewrites exactly the selectors.** It comes to
its end with these nodes if and only if its visits, made in the order of the document, all succeed,
and the nodes are those that are left without the directives, with the results of the visits in the
place of their selectors. The walk in place is no other walk. -/
theorem walk_ok_iff (nodes left : List Node) (cx cx' : Context) :
    walkFrom config 0 nodes = walk config nodes ∧
    ((walk config nodes).run cx = ((.ok (), left), cx') ↔
      ∃ texts, (visitAll config (visits config nodes)).run.run cx = (.ok texts, cx') ∧
        Reworded (prune config nodes) texts left) := by
  refine ⟨walkFrom_zero nodes, ?_⟩
  have hmakes := walk_makes config cx nodes
  unfold Makes at hmakes
  match hvisits : (visitAll config (visits config nodes)).run.run cx with
  | (.error error, cx₁) =>
    rw [hvisits] at hmakes
    obtain ⟨stopped, hrun⟩ := hmakes
    rw [hrun]
    exact ⟨nofun, fun ⟨_, hmade, _⟩ => nomatch hmade⟩
  | (.ok texts, cx₁) =>
    rw [hvisits] at hmakes
    obtain ⟨made, hrun, hreworded⟩ := hmakes
    rw [hrun]
    constructor
    · rintro ⟨⟩
      exact ⟨texts, rfl, hreworded⟩
    · rintro ⟨texts', ⟨⟩, hreworded'⟩
      rw [hreworded.unique hreworded']

end ScopedCss
