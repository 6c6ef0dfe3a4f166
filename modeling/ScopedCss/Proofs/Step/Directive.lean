import ScopedCss.Directive
import ScopedCss.Proofs.Step.Basic

/-!
# The steps of a directive

The steps that a directive takes can be read off its text: they depend neither on the store nor on
what was done before.

* `directiveSteps`: the steps of a node that is a directive.
* `interceptAny_of_isDirective`, `interceptAny_of_not_isDirective`: the directives of a
  configuration take these steps, and no other node is followed.
-/

namespace ScopedCss

open Stylesheet (Node)

/-- The steps of a reference to a class of a file, bound to a label. -/
def referenceSteps (directive label : String) (target : Path) (className : String) : List Step :=
  [.ask target className, .bind directive label target className]

/-- The steps of a `@use` directive in a document of this directory. -/
def useSteps (config : Config) (directory : Path) (params : String) : List Step :=
  match Use.Directive.parse params with
  | .error fault => [.fail (.ofUse params fault)]
  | .ok directive =>
    let target := config.resolvePath directory directive.path
    .require target :: directive.references.flatMap fun reference =>
      referenceSteps (Error.useDirective params) reference.label target reference.className

/-- The steps of a declaration in an `:import` rule of a document of this directory. -/
def importSteps (config : Config) (directory : Path) : Node → List Step
  | .declaration aliasName value =>
    if Text.isClassName aliasName then
      match Import.Source.parse value with
      | .error fault => [.fail (.ofImport value fault)]
      | .ok source =>
        let target := config.resolvePath directory source.path
        let bound := source.className.elim [] fun className =>
          referenceSteps (Error.importDirective aliasName) aliasName target className
        .require target :: (bound ++ [.addImport aliasName target])
    else [.fail (.directive (Error.importDirective aliasName) .invalidAlias)]
  | _ => [.fail (.directive ":import" .notADeclaration)]

/-- The grammar that a node is a directive of. -/
def grammar? : Node → Option Grammar
  | .block name _ _ | .statement name _ => if name = "use" then some .atUse else none
  | .rule selector _ => if Text.trimText selector = ":import" then some .importRule else none
  | .declaration _ _ => none

/-- The steps of a directive in a document of this directory. -/
def directiveSteps (config : Config) (directory : Path) : Node → List Step
  | .block _ params _ | .statement _ params => useSteps config directory params
  | .rule _ nodes => nodes.flatMap (importSteps config directory)
  | .declaration _ _ => []

/-- The node is a directive of the configuration. -/
def isDirective (config : Config) (node : Node) : Bool := (grammar? node).any config.recognizes

variable (config : Config) (cx : Context)

/-! ## Following a directive -/

/-- The name that is asked for is the name that the label is bound to. -/
theorem reference_runs (directive label : String) (target : Path) (className : String) :
    Runs config (do
        let name ← Context.remoteName config target className
        Context.bind directive label name)
      (referenceSteps directive label target className) cx := by
  obtain ⟨hname, hsilent⟩ := Context.remoteName_run config cx target className
  have hask : Performs config [.ask target className] cx (.ok ())
      ((Context.remoteName config target className).run cx).2 := ⟨rfl, hsilent.symm⟩
  refine Runs.lift_bind hask ?_
  generalize (Context.remoteName config target className).run cx = asked at hname hsilent
  have hstore : asked.2.store = ((Step.ask target className).effect config cx).store :=
    congrArg (fun cx => cx.silent.store) hsilent
  -- once the name is asked for, the store keeps it
  have hkept : asked.2.store.nameOf config.generate target className = asked.1 := by
    rw [hname, hstore]
    exact Store.nameOf_eq_of_le (le_refl _)
  have hbind := Context.bind_runs config asked.2 target className directive label
  rwa [hkept] at hbind

theorem applyUse_runs (params : String) :
    Runs config (Directive.applyUse config params) (useSteps config cx.directory params) cx := by
  unfold Directive.applyUse useSteps
  cases Use.Directive.parse params with
  | error fault => exact Runs.throw _
  | ok directive =>
    refine Runs.get_bind ((Context.require_runs config cx _).bind fun _ cx₁ _ => ?_)
    exact Runs.forM _ fun reference _ cx₂ _ => reference_runs config cx₂ _ _ _ _

theorem applyImport_runs (node : Node) :
    Runs config (Directive.applyImport config node) (importSteps config cx.directory node) cx := by
  unfold Directive.applyImport importSteps
  cases node with
  | declaration aliasName value =>
    by_cases hname : Text.isClassName aliasName
    · simp only [hname, if_true]
      cases Import.Source.parse value with
      | error fault => exact Runs.throw _
      | ok source =>
        refine Runs.get_bind ((Context.require_runs config cx _).bind fun _ cx₁ _ => ?_)
        generalize config.resolvePath cx.directory source.path = target
        have himport (cx₂ : Context) : Runs config
            (liftM (Context.addImport aliasName target) : Scoping PUnit)
            [.addImport aliasName target] cx₂ := ⟨rfl, rfl⟩
        cases source.className with
        | none => exact himport cx₁
        | some className =>
          have hbound := (reference_runs config cx₁ (Error.importDirective aliasName) aliasName
            target className).bind fun _ cx₂ _ => himport cx₂
          rwa [bind_assoc] at hbound
    · simp only [hname]
      exact Runs.throw _
  | rule selector nodes => exact Runs.throw _
  | block name params nodes => exact Runs.throw _
  | statement name params => exact Runs.throw _

/-! ## Following the directives of all grammars -/

/-- A program that says afterwards that it followed a directive. -/
theorem Runs.return_true {program : Scoping PUnit} {steps : List Step} {cx : Context}
    (h : Runs config program steps cx) :
    ∃ ended cx', (do program; return true : Scoping Bool).run.run cx
        = (ended.map fun _ => true, cx') ∧ Performs config steps cx ended cx' := by
  refine ⟨_, _, ?_, h⟩
  rw [ExceptT.run_bind, StateT.run_bind]
  match program.run.run cx with
  | (.ok _, cx') => rfl
  | (.error _, cx') => rfl

theorem intercept_of_grammar? {grammar : Grammar} {node : Node} (h : grammar? node = some grammar) :
    ∃ ended cx', (Directive.intercept config grammar node).run.run cx
        = (ended.map fun _ => true, cx') ∧
      Performs config (directiveSteps config cx.directory node) cx ended cx' := by
  cases node with
  | rule selector nodes =>
    obtain ⟨himport, ⟨⟩⟩ := Option.ite_none_right_eq_some.1 h
    simp only [Directive.intercept, if_pos himport]
    exact Runs.return_true config
      (Runs.forM nodes fun node _ cx₁ hcx₁ => hcx₁ ▸ applyImport_runs config cx₁ node)
  | block name params nodes =>
    obtain ⟨rfl, ⟨⟩⟩ := Option.ite_none_right_eq_some.1 h
    exact Runs.return_true config (applyUse_runs config cx params)
  | statement name params =>
    obtain ⟨rfl, ⟨⟩⟩ := Option.ite_none_right_eq_some.1 h
    exact Runs.return_true config (applyUse_runs config cx params)
  | declaration property value => cases h

theorem intercept_of_grammar?_ne {grammar : Grammar} {node : Node}
    (h : grammar? node ≠ some grammar) :
    (Directive.intercept config grammar node).run.run cx = (.ok false, cx) := by
  unfold Directive.intercept
  split
  · exact absurd rfl h
  · exact absurd rfl h
  · next selector nodes =>
    split
    · next himport => exact absurd (if_pos himport) h
    · rfl
  · rfl

theorem interceptAny_of_mem {grammar : Grammar} {grammars : List Grammar} {node : Node}
    (h : grammar? node = some grammar) (hmem : grammar ∈ grammars) :
    ∃ ended cx', (Directive.interceptAny config grammars node).run.run cx
        = (ended.map fun _ => true, cx') ∧
      Performs config (directiveSteps config cx.directory node) cx ended cx' := by
  induction grammars with
  | nil => cases hmem
  | cons first grammars ih =>
    rw [Directive.interceptAny, ExceptT.run_bind, StateT.run_bind]
    by_cases hfirst : grammar? node = some first
    · obtain ⟨ended, cx', hrun, hsteps⟩ := intercept_of_grammar? config cx hfirst
      refine ⟨ended, cx', ?_, hsteps⟩
      rw [hrun]
      cases ended <;> rfl
    · rw [intercept_of_grammar?_ne config cx hfirst]
      exact ih ((List.mem_cons.1 hmem).resolve_left fun heq => hfirst (heq ▸ h))

theorem interceptAny_of_forall {grammars : List Grammar} {node : Node}
    (h : ∀ grammar ∈ grammars, grammar? node ≠ some grammar) :
    (Directive.interceptAny config grammars node).run.run cx = (.ok false, cx) := by
  induction grammars with
  | nil => rfl
  | cons first grammars ih =>
    rw [Directive.interceptAny, ExceptT.run_bind, StateT.run_bind,
      intercept_of_grammar?_ne config cx (h first List.mem_cons_self)]
    exact ih fun grammar hmem => h grammar (List.mem_cons_of_mem _ hmem)

/-- A directive of the configuration is followed and takes its steps. -/
theorem interceptAny_of_isDirective {node : Node} (h : isDirective config node) :
    ∃ ended cx',
      (Directive.interceptAny config (Grammar.distinct config.grammars) node).run.run cx
        = (ended.map fun _ => true, cx') ∧
      Performs config (directiveSteps config cx.directory node) cx ended cx' := by
  obtain ⟨grammar, hgrammar, hknown⟩ := (Option.any_eq_true _ _).1 h
  refine interceptAny_of_mem config cx hgrammar (List.mem_eraseDups.2 ?_)
  simpa [Config.recognizes] using hknown

/-- No other node is followed. -/
theorem interceptAny_of_not_isDirective {node : Node} (h : ¬ isDirective config node) :
    (Directive.interceptAny config (Grammar.distinct config.grammars) node).run.run cx
      = (.ok false, cx) := by
  refine interceptAny_of_forall config cx fun grammar hmem hgrammar => h ?_
  rw [isDirective, hgrammar]
  simpa [Config.recognizes] using List.mem_eraseDups.1 hmem

end ScopedCss
