import ScopedCss.Process
import ScopedCss.Proofs.Selector.Requests
import ScopedCss.Proofs.Step.Directive

/-!
# The walk through a document takes steps

The steps of a document can be read off its nodes, as long as the aliases that its directives
declare are kept in mind: no step depends on a name, nor on the store.

* `stepsOf` lists the steps. What holds of the steps of directives and of requests holds of all of
  them, if it is `Compositional`.
* `settle` rewrites nodes with names that do not change any more, those of a finished table and a
  finished store.
* `walk_walks`: the walk takes the steps of its nodes, and what it makes of the nodes is what
  `settle` makes of them afterwards.
-/

namespace ScopedCss

open Stylesheet (Node Document)

/-- The files that aliases stand for. -/
abbrev Imports := Std.ExtTreeMap String Path

namespace Imports

/-- The aliases after a step. -/
def add (imports : Imports) : Step → Imports
  | .addImport aliasName target => imports.insert aliasName target
  | _ => imports

/-- The aliases after these steps. -/
def addAll (imports : Imports) (steps : List Step) : Imports := steps.foldl add imports

/-- The alias stands for a file. -/
def knows (imports : Imports) (aliasName : String) : Bool := imports[aliasName]?.isSome

end Imports

/-! ## Steps -/

/-- The steps that a request of a selector takes. -/
def requestSteps (imports : Imports) : Selector.Request → List Step
  | .ownName className => [.own className]
  | .composition aliasName remote =>
    imports[aliasName]?.elim [] fun target => [.ask target remote]
  | .closing marker => [.fail (.ofOpenMarker marker)]

/-- The steps that the selector of a rule takes. -/
def selectorSteps (config : Config) (imports : Imports) (selector : String) : List Step :=
  (Selector.requests imports.knows (Selector.defaultScope config.modules) selector).flatMap
    (requestSteps imports)

mutual

/-- The steps of a node that is no directive. -/
def nodeSteps (config : Config) (directory : Path) (imports : Imports) : Node → List Step
  | .rule selector nodes =>
    selectorSteps config imports selector ++ stepsOf config directory imports nodes
  | .block _ _ nodes => stepsOf config directory imports nodes
  | _ => []

/-- The steps of these nodes in a document of this directory. -/
def stepsOf (config : Config) (directory : Path) (imports : Imports) : List Node → List Step
  | [] => []
  | node :: nodes =>
    let first := if isDirective config node then directiveSteps config directory node
      else nodeSteps config directory imports node
    first ++ stepsOf config directory (imports.addAll first) nodes

end

/-- The property passes from the steps of each directive and of each request to steps that are taken
one after the other. -/
structure Compositional (config : Config) (directory : Path) (property : List Step → Prop) :
    Prop where
  nil : property []
  append {steps more : List Step} : property steps → property more → property (steps ++ more)
  directive (node : Node) : property (directiveSteps config directory node)
  request (imports : Imports) (request : Selector.Request) : property (requestSteps imports request)

namespace Compositional

variable {config : Config} {directory : Path} {property : List Step → Prop}

theorem selectorSteps (h : Compositional config directory property) (imports : Imports)
    (selector : String) : property (selectorSteps config imports selector) := by
  unfold ScopedCss.selectorSteps
  generalize Selector.requests _ _ _ = requests
  induction requests with
  | nil => exact h.nil
  | cons request requests ih => exact h.append (h.request imports request) ih

mutual

theorem nodeSteps (h : Compositional config directory property) (imports : Imports) :
    (node : Node) → property (nodeSteps config directory imports node)
  | .rule selector nodes => h.append (h.selectorSteps imports selector) (h.stepsOf imports nodes)
  | .block _ _ nodes => h.stepsOf imports nodes
  | .statement _ _ => h.nil
  | .declaration _ _ => h.nil

/-- Such a property holds of the steps of all nodes. -/
theorem stepsOf (h : Compositional config directory property) (imports : Imports) :
    (nodes : List Node) → property (stepsOf config directory imports nodes)
  | [] => h.nil
  | node :: nodes => by
    rw [ScopedCss.stepsOf]
    refine h.append ?_ (h.stepsOf _ nodes)
    split
    · exact h.directive node
    · exact h.nodeSteps imports node

end

end Compositional

/-! ## Nodes with settled names -/

/-- The answers of a table and a store. -/
def answersOf (generate : Name.Generator) (imports : Imports) (table : Table) (store : Store) :
    Selector.Answers where
  ownName className := (table.get? className).getD ""
  composed? aliasName remote := imports[aliasName]?.map fun target =>
    store.nameOf generate target remote

/-- The selector of a rule with the names of a table and a store. -/
def settleSelector (config : Config) (imports : Imports) (table : Table) (store : Store)
    (selector : String) : String :=
  (answersOf config.generate imports table store).text (Selector.defaultScope config.modules)
    selector

mutual

/-- A node that is no directive, with the names of a table and a store. -/
def settleNode (config : Config) (directory : Path) (table : Table) (store : Store)
    (imports : Imports) : Node → Node
  | .rule selector nodes =>
    .rule (settleSelector config imports table store selector)
      (settle config directory table store imports nodes)
  | .block name params nodes =>
    .block name params (settle config directory table store imports nodes)
  | node => node

/-- Nodes without their directives, with the names of a table and a store. -/
def settle (config : Config) (directory : Path) (table : Table) (store : Store)
    (imports : Imports) : List Node → List Node
  | [] => []
  | node :: nodes =>
    if isDirective config node then
      settle config directory table store (imports.addAll (directiveSteps config directory node))
        nodes
    else
      settleNode config directory table store imports node ::
        settle config directory table store
          (imports.addAll (nodeSteps config directory imports node)) nodes

end

variable (config : Config) (cx : Context)

theorem addAll_append (imports : Imports) (steps more : List Step) :
    imports.addAll (steps ++ more) = (imports.addAll steps).addAll more :=
  List.foldl_append

theorem addAll_requestSteps (imports : Imports) (request : Selector.Request) :
    imports.addAll (requestSteps imports request) = imports := by
  cases request with
  | ownName className => rfl
  | composition aliasName remote =>
    simp only [requestSteps]
    cases imports[aliasName]? <;> rfl
  | closing marker => rfl

theorem addAll_selectorSteps (config : Config) (imports : Imports) (selector : String) :
    imports.addAll (selectorSteps config imports selector) = imports := by
  unfold selectorSteps
  generalize Selector.requests _ _ _ = requests
  induction requests with
  | nil => rfl
  | cons request requests ih =>
    rw [List.flatMap_cons, addAll_append, addAll_requestSteps, ih]

theorem imports_perform (steps : List Step) (h : (perform config steps cx).1 = .ok ()) :
    (perform config steps cx).2.imports = Imports.addAll cx.imports steps := by
  induction steps generalizing cx with
  | nil => rfl
  | cons step steps ih =>
    have hfault := fault?_of_perform_cons h
    rw [perform_cons hfault] at h ⊢
    refine (ih _ h).trans ?_
    cases step <;> rfl

theorem Performs.imports {config : Config} {cx cx' : Context} {steps : List Step}
    (h : Performs config steps cx (.ok ()) cx') :
    cx'.imports = Imports.addAll cx.imports steps := by
  rw [← imports_perform config cx steps h.ended]
  exact (congrArg Context.imports h.silent).symm

/-! ## Selectors -/

theorem answersOf_knows (generate : Name.Generator) (imports : Imports) (table : Table)
    (store : Store) :
    (answersOf generate imports table store).Knows imports.knows := by
  intro aliasName remote
  simp [answersOf, Imports.knows]

/-- A class of the document's own takes its step, and a later table gives the same name. -/
theorem names_localName_run (className : String) :
    ∃ cx', Performs config (requestSteps cx.imports (.ownName className)) cx (.ok ()) cx' ∧
      ∀ table store, cx'.table ≤ table →
        ((Context.names config).localName className).run cx
          = ((answersOf config.generate cx.imports table store).ownName className, cx') := by
  have hrun := Context.localName_run config cx className
  generalize hname : (cx.table.get? className).getD _ = name at hrun
  have hentered : ((Step.own className).effect config cx).table.get? className = some name := by
    rw [← hname]
    exact (Table.get?_enter ..).trans (if_pos rfl)
  refine ⟨(Step.own className).effect config cx, ⟨rfl, rfl⟩, fun table store htable => ?_⟩
  -- the name that is entered now is never replaced
  have hlater := htable className name hentered
  exact hrun.trans (by simp [answersOf, hlater])

/-- A reference takes its step if its alias stands for a file, and a later store gives the same
name. -/
theorem names_composed?_run (aliasName remote : String) :
    ∃ cx',
      Performs config (requestSteps cx.imports (.composition aliasName remote)) cx (.ok ()) cx' ∧
      ∀ table store, cx'.store ≤ store →
        ((Context.names config).composed? aliasName remote).run cx
          = ((answersOf config.generate cx.imports table store).composed? aliasName remote,
            cx') := by
  simp only [Context.names, requestSteps, answersOf, StateT.run_bind]
  cases himport : cx.imports[aliasName]? with
  | none =>
    have hrun : (Context.composed? config aliasName remote).run cx = (none, cx) := by
      rw [Context.composed?, StateT.run_bind, StateT.run_get, pure_bind, himport]
      rfl
    rw [hrun]
    -- what is noted of an unknown alias is all that changes
    refine ⟨_, ?_, fun _ _ _ => rfl⟩
    exact ⟨rfl, rfl⟩
  | some target =>
    obtain ⟨hname, hsilent⟩ := Context.remoteName_run config cx target remote
    have hrun : (Context.composed? config aliasName remote).run cx
        = (some ((Context.remoteName config target remote).run cx).1,
          ((Context.remoteName config target remote).run cx).2) := by
      rw [Context.composed?, StateT.run_bind, StateT.run_get, pure_bind, himport]
      rfl
    rw [hrun]
    refine ⟨_, ⟨rfl, hsilent.symm⟩, fun table store hstore => Prod.ext (congrArg some ?_) rfl⟩
    have hasked : cx.store.update target (Entry.remember config.generate target remote)
        = ((Context.remoteName config target remote).run cx).2.store :=
      (congrArg Context.store hsilent).symm
    exact hname.trans (Store.nameOf_eq_of_le (hasked ▸ hstore)).symm

/-- Requests are asked for by taking their steps, and a later table and store give the same
answers. -/
theorem asked_of_performs (requests : List Selector.Request) :
    ∃ ended cx', Performs config (requests.flatMap (requestSteps cx.imports)) cx
        (ended.mapError Error.ofOpenMarker) cx' ∧
      ∀ table store, cx'.table ≤ table → cx'.store ≤ store →
        Selector.Asked (Context.names config) (answersOf config.generate cx.imports table store)
          requests cx ended cx' := by
  induction requests generalizing cx with
  | nil => exact ⟨.ok (), cx, ⟨rfl, rfl⟩, fun _ _ _ _ => .nil cx⟩
  | cons request requests ih =>
    cases request with
    | ownName className =>
      obtain ⟨cx₁, hfirst, hanswer⟩ := names_localName_run config cx className
      have himports : cx₁.imports = cx.imports := hfirst.imports
      obtain ⟨ended, cx', hrest, hasked⟩ := ih cx₁
      rw [himports] at hrest hasked
      refine ⟨ended, cx', hfirst.append hrest, fun table store htable hstore => ?_⟩
      exact .ownName (hanswer table store (le_trans hrest.table_le htable))
        (hasked table store htable hstore)
    | composition aliasName remote =>
      obtain ⟨cx₁, hfirst, hanswer⟩ := names_composed?_run config cx aliasName remote
      have himports : cx₁.imports = cx.imports := hfirst.imports.trans (addAll_requestSteps _ _)
      obtain ⟨ended, cx', hrest, hasked⟩ := ih cx₁
      rw [himports] at hrest hasked
      refine ⟨ended, cx', hfirst.append hrest, fun table store htable hstore => ?_⟩
      exact .composition (hanswer table store (le_trans hrest.store_le hstore))
        (hasked table store htable hstore)
    | closing marker =>
      exact ⟨.error marker, cx, ⟨rfl, rfl⟩, fun _ _ _ _ => .closing marker requests cx⟩

/-- The selector of a rule takes its steps, and is written with the names that a later table and
store have. -/
theorem scopeSelector_run (selector : String) :
    ∃ ended, Performs config (selectorSteps config cx.imports selector) cx ended
        ((scopeSelector config selector).run cx).2 ∧
      ∀ table store, ((scopeSelector config selector).run cx).2.table ≤ table →
        ((scopeSelector config selector).run cx).2.store ≤ store →
        ((scopeSelector config selector).run cx).1
          = ended.map fun _ => settleSelector config cx.imports table store selector := by
  obtain ⟨ended, cx', hsteps, hasked⟩ := asked_of_performs config cx
    (Selector.requests (Imports.knows cx.imports) (Selector.defaultScope config.modules) selector)
  have hrun (table : Table) (store : Store) (htable : cx'.table ≤ table)
      (hstore : cx'.store ≤ store) : ∃ log, (scopeSelector config selector).run cx
        = ((ended.mapError Error.ofOpenMarker).map fun _ =>
            settleSelector config cx.imports table store selector, { cx' with log }) := by
    unfold scopeSelector
    have hknows := answersOf_knows config.generate cx.imports table store
    rw [StateT.run_bind, Selector.rewrite_run hknows (hasked table store htable hstore)]
    cases ended with
    | error marker => exact ⟨cx'.log, rfl⟩
    | ok => exact ⟨_, rfl⟩
  -- the run is one, whichever later table and store its text is written with
  obtain ⟨log, hfirst⟩ := hrun cx'.table cx'.store (le_refl _) (le_refl _)
  rw [hfirst]
  refine ⟨_, ⟨hsteps.ended, hsteps.silent⟩, fun table store htable hstore => ?_⟩
  obtain ⟨_, hlater⟩ := hrun table store htable hstore
  exact congrArg Prod.fst (hfirst.symm.trans hlater)

/-! ## The walk -/

/-- A walk takes these steps. If it comes to its end, then what it makes of the nodes is what is
made of them with the names of any later table and store. -/
structure Walks {α : Type} (config : Config) (program : StateM Context (Walked α))
    (steps : List Step) (settled : Table → Store → α) (cx : Context) : Prop where
  performs : Performs config steps cx (program.run cx).1.1 (program.run cx).2
  settled : (program.run cx).1.1 = .ok () →
    ∀ table store, (program.run cx).2.table ≤ table → (program.run cx).2.store ≤ store →
      (program.run cx).1.2 = settled table store

namespace Walks

variable {α β : Type} {config : Config} {program : StateM Context (Walked α)}
  {first more : List Step} {settled : Table → Store → α} {cx cx₁ : Context}

/-- A walk that stops at a fault. -/
theorem stopped {error : Error} {left : α} (h : Performs config first cx (.error error) cx₁)
    (hrun : program.run cx = ((.error error, left), cx₁)) :
    Walks config program (first ++ more) settled cx := by
  constructor
  · rw [hrun]
    exact h.append_error
  · rw [hrun]
    exact nofun

/-- A walk that goes on after its first steps. -/
theorem goesOn {rest : StateM Context (Walked β)} {settledRest : Table → Store → β} {f : β → α}
    (h : Performs config first cx (.ok ()) cx₁)
    (hrun : program.run cx = (((rest.run cx₁).1.1, f (rest.run cx₁).1.2), (rest.run cx₁).2))
    (hrest : Walks config rest more settledRest cx₁)
    (hsettled : ∀ table store, cx₁.table ≤ table → cx₁.store ≤ store →
      f (settledRest table store) = settled table store) :
    Walks config program (first ++ more) settled cx := by
  constructor
  · rw [hrun]
    exact h.append hrest.performs
  · rw [hrun]
    intro hended table store htable hstore
    rw [← hsettled table store (le_trans hrest.performs.table_le htable)
      (le_trans hrest.performs.store_le hstore), ← hrest.settled hended table store htable hstore]

end Walks

mutual

theorem walkNode_walks (cx : Context) : (node : Node) →
    Walks config (walkNode config node) (nodeSteps config cx.directory cx.imports node)
      (fun table store => settleNode config cx.directory table store cx.imports node) cx
  | .rule selector nodes => by
    obtain ⟨ended, hsteps, hsettled⟩ := scopeSelector_run config cx selector
    match hrun : (scopeSelector config selector).run cx with
    | (result, cx₁) =>
      simp only [hrun] at hsteps hsettled
      have hwalk : (walkNode config (.rule selector nodes)).run cx = _ := StateT.run_bind ..
      rw [hrun] at hwalk
      cases ended with
      | error error =>
        obtain rfl : result = .error error := hsettled _ _ (le_refl _) (le_refl _)
        exact .stopped hsteps hwalk
      | ok =>
        obtain rfl := hsettled _ _ (le_refl _) (le_refl _)
        have hrest := walk_walks cx₁ nodes
        rw [hsteps.imports, addAll_selectorSteps, hsteps.place.2.1] at hrest
        refine .goesOn hsteps hwalk hrest fun table store htable hstore => ?_
        rw [Except.ok.inj (hsettled table store htable hstore)]
        rfl
  | .block name params nodes =>
    .goesOn (Performs.nil rfl) rfl (walk_walks cx nodes) fun _ _ _ _ => rfl
  | .statement name params => ⟨⟨rfl, rfl⟩, fun _ _ _ _ _ => rfl⟩
  | .declaration property value => ⟨⟨rfl, rfl⟩, fun _ _ _ _ _ => rfl⟩

/-- **A walk takes the steps of its nodes.** If it comes to its end, the nodes have become what they
are with the names of any later table and store. -/
theorem walk_walks (cx : Context) : (nodes : List Node) →
    Walks config (walk config nodes) (stepsOf config cx.directory cx.imports nodes)
      (fun table store => settle config cx.directory table store cx.imports nodes) cx
  | [] => ⟨⟨rfl, rfl⟩, fun _ _ _ _ _ => rfl⟩
  | node :: nodes => by
    have hwalk : (walk config (node :: nodes)).run cx = _ := StateT.run_bind ..
    by_cases hdirective : isDirective config node
    · obtain ⟨ended, cx₁, hrun, hsteps⟩ := interceptAny_of_isDirective config cx hdirective
      rw [hrun] at hwalk
      simp only [stepsOf, settle, if_pos hdirective]
      cases ended with
      | error error => exact .stopped hsteps hwalk
      | ok =>
        have hrest := walk_walks cx₁ nodes
        rw [hsteps.imports, hsteps.place.2.1] at hrest
        exact .goesOn (f := id) hsteps hwalk hrest fun _ _ _ _ => rfl
    · rw [interceptAny_of_not_isDirective config cx hdirective] at hwalk
      simp only [stepsOf, settle, if_neg hdirective]
      obtain ⟨hsteps, hsettled⟩ := walkNode_walks cx node
      match hrun : (walkNode config node).run cx with
      | ((ended, left), cx₁) =>
        simp only [hrun] at hsteps hsettled
        replace hwalk := hwalk.trans (StateT.run_bind ..)
        rw [hrun] at hwalk
        cases ended with
        | error error => exact .stopped hsteps hwalk
        | ok =>
          have hrest := walk_walks cx₁ nodes
          rw [hsteps.imports, hsteps.place.2.1] at hrest
          refine .goesOn hsteps hwalk hrest fun table store htable hstore => ?_
          rw [hsettled rfl table store htable hstore]

end

end ScopedCss
