import ScopedCss.Context
import ScopedCss.Proofs.Store.Growth

/-!
# Steps of scoping a document

Scoping a document is a sequence of small steps. Each of them may have a fault, which depends on
what has been done before; then it does nothing, and the document fails. Otherwise it has an effect
on the context, which is one of five: an entry of another file, the journal, the table, the imports,
or nothing.

* `perform` takes steps one after the other, up to the first fault.
* The operations of a `Context` are steps, apart from what they write into the log.
-/

namespace ScopedCss

/-- A step of scoping a document. -/
inductive Step where
  /-- Something is malformed. -/
  | fail (error : Error)
  /-- A directive refers to a file. -/
  | require (target : Path)
  /-- The name of a class of a file that was referred to is asked for. -/
  | ask (target : Path) (className : String)
  /-- A directive lets a label stand for this name. -/
  | bind (directive label : String) (target : Path) (className : String)
  /-- A directive lets an alias stand for a file. -/
  | addImport (aliasName : String) (target : Path)
  /-- The name of a class of the document itself is asked for. -/
  | own (className : String)
  deriving DecidableEq

namespace Journal

/-- Write down that a file is referred to. -/
def require (journal : Journal) (store : Store) (target : Path) : Journal :=
  if store.contains target then journal
  else { journal with created := journal.created ++ [target] }

/-- Write down that the name of a class of a file is asked for. -/
def ask (journal : Journal) (store : Store) (target : Path) : Journal :=
  let journal := journal.require store target
  let entry := store.entry target
  if entry.isPlaceholder then journal.snapshot target entry.table else journal

end Journal

namespace Step

/-- What is wrong with a step, given what was done before. -/
def fault? (config : Config) (cx : Context) : Step → Option Error
  | fail error => some error
  | require target =>
    if !cx.store.isResolved target ∧ config.missing = .error then some (.unresolved target)
    else none
  | bind directive label target className =>
    match cx.table.get? label with
    | some known =>
      if known = cx.store.nameOf config.generate target className then none
      else some (.directive directive (.labelTaken label known))
    | none => none
  | _ => none

/-- What a step without a fault does. -/
def effect (config : Config) (cx : Context) : Step → Context
  | fail _ => cx
  | require target =>
    { cx with
      store := cx.store.ensure target
      journal := cx.journal.require cx.store target }
  | ask target className =>
    { cx with
      store := cx.store.update target (Entry.remember config.generate target className)
      journal := cx.journal.ask cx.store target }
  | bind _ label target className =>
    { cx with table := cx.table.enter label (cx.store.nameOf config.generate target className) }
  | addImport aliasName target => { cx with imports := cx.imports.insert aliasName target }
  | own className =>
    { cx with table := cx.table.enter className (config.generate className cx.seed) }

end Step

/-- Take steps up to the first one with a fault. -/
def perform (config : Config) : List Step → Context → Except Error Unit × Context
  | [], cx => (.ok (), cx)
  | step :: steps, cx =>
    match step.fault? config cx with
    | some error => (.error error, cx)
    | none => perform config steps (step.effect config cx)

namespace Context

/-- A context without its log. -/
def silent (cx : Context) : Context := { cx with log := [] }

end Context

variable (config : Config) (steps more : List Step) (cx : Context)

/-! ## Performing steps -/

theorem perform_append :
    perform config (steps ++ more) cx =
      match perform config steps cx with
      | (.ok (), cx) => perform config more cx
      | (.error error, cx) => (.error error, cx) := by
  induction steps generalizing cx with
  | nil => rfl
  | cons step steps ih =>
    simp only [List.cons_append, perform]
    cases step.fault? config cx with
    | some error => rfl
    | none => exact ih _

theorem perform_cons {config : Config} {step : Step} {cx : Context}
    (hfault : step.fault? config cx = none) (steps : List Step) :
    perform config (step :: steps) cx = perform config steps (step.effect config cx) := by
  rw [perform, hfault]

theorem fault?_of_perform_cons {config : Config} {step : Step} {steps : List Step} {cx : Context}
    (h : (perform config (step :: steps) cx).1 = .ok ()) : step.fault? config cx = none := by
  rw [perform] at h
  cases hfault : step.fault? config cx with
  | some error =>
    rw [hfault] at h
    cases h
  | none => rfl

/-- Steps end with the fault of one of them. -/
theorem fault?_of_perform_error {config : Config} {steps : List Step} {cx : Context} {error : Error}
    (h : (perform config steps cx).1 = .error error) :
    ∃ step ∈ steps, ∃ cx', step.fault? config cx' = some error := by
  induction steps generalizing cx with
  | nil => cases h
  | cons step steps ih =>
    rw [perform] at h
    cases hfault : step.fault? config cx with
    | some fault =>
      rw [hfault] at h
      cases h
      exact ⟨step, List.mem_cons_self, cx, hfault⟩
    | none =>
      rw [hfault] at h
      obtain ⟨later, hlater, hfault⟩ := ih h
      exact ⟨later, List.mem_cons_of_mem _ hlater, hfault⟩

/-- The steps before others have no fault if all together have none. -/
theorem perform_ok_of_append {config : Config} {steps more : List Step} {cx cx' : Context}
    (h : perform config (steps ++ more) cx = (.ok (), cx')) :
    ∃ cx₁, perform config steps cx = (.ok (), cx₁) ∧ perform config more cx₁ = (.ok (), cx') := by
  rw [perform_append] at h
  match hsteps : perform config steps cx with
  | (.ok (), cx₁) => exact ⟨cx₁, rfl, by rwa [hsteps] at h⟩
  | (.error error, cx₁) =>
    rw [hsteps] at h
    cases h

theorem fault?_silent (step : Step) : step.fault? config cx.silent = step.fault? config cx := by
  cases step <;> rfl

theorem effect_silent (step : Step) :
    step.effect config cx.silent = (step.effect config cx).silent := by
  cases step <;> rfl

/-- What steps do does not depend on the log. -/
theorem perform_silent :
    perform config steps cx.silent
      = ((perform config steps cx).1, (perform config steps cx).2.silent) := by
  induction steps generalizing cx with
  | nil => rfl
  | cons step steps ih =>
    simp only [perform, fault?_silent, effect_silent]
    cases step.fault? config cx with
    | some error => rfl
    | none => exact ih _

/-- What holds at the start, and after a step if it held before, holds when the steps are done or
one of them has a fault. -/
theorem perform_induction {config : Config} {steps : List Step} {cx : Context}
    {motive : Context → Prop} (start : motive cx)
    (step : ∀ step ∈ steps, ∀ cx, step.fault? config cx = none → motive cx →
      motive (step.effect config cx)) :
    motive (perform config steps cx).2 := by
  induction steps generalizing cx with
  | nil => exact start
  | cons first steps ih =>
    rw [perform]
    cases hfault : first.fault? config cx with
    | some error => exact start
    | none =>
      exact ih (step first List.mem_cons_self cx hfault start) fun s hs =>
        step s (List.mem_cons_of_mem _ hs)

/-- Where a document lies, and its text, never change. -/
theorem perform_place :
    (perform config steps cx).2.path = cx.path ∧
      (perform config steps cx).2.directory = cx.directory ∧
      (perform config steps cx).2.source = cx.source := by
  refine perform_induction (motive := fun cx₁ =>
    cx₁.path = cx.path ∧ cx₁.directory = cx.directory ∧ cx₁.source = cx.source) ⟨rfl, rfl, rfl⟩ ?_
  intro step _ cx₁ _ hkept
  cases step <;> exact hkept

theorem Step.store_le_effect (step : Step) :
    cx.store ≤ (step.effect config cx).store := by
  cases step with
  | require target => exact cx.store.le_ensure target
  | ask target className => exact Store.le_update (Entry.le_remember _ target className) _ _
  | fail | bind | addImport | own => exact le_refl cx.store

theorem Step.table_le_effect (step : Step) :
    cx.table ≤ (step.effect config cx).table := by
  cases step with
  | bind directive label target className => exact Table.le_enter _ _ _
  | own className => exact Table.le_enter _ _ _
  | fail | require | ask | addImport => exact le_refl cx.table

/-- Names are only ever added. -/
theorem le_perform :
    cx.table ≤ (perform config steps cx).2.table ∧
    cx.store ≤ (perform config steps cx).2.store := by
  refine perform_induction (motive := fun cx₁ => cx.table ≤ cx₁.table ∧ cx.store ≤ cx₁.store)
    ⟨le_refl _, le_refl _⟩ ?_
  rintro step _ cx₁ _ ⟨htable, hstore⟩
  exact ⟨le_trans htable (step.table_le_effect config cx₁),
    le_trans hstore (step.store_le_effect config cx₁)⟩

/-- A run comes to the same end as these steps, and leaves the same behind but for the log. -/
structure Performs (config : Config) (steps : List Step) (cx : Context) (ended : Except Error Unit)
    (cx' : Context) : Prop where
  ended : (perform config steps cx).1 = ended
  silent : (perform config steps cx).2.silent = cx'.silent

namespace Performs

variable {config : Config} {steps more : List Step} {cx cx₁ cx₂ : Context}
  {ended : Except Error Unit}

theorem nil (h : cx.silent = cx₁.silent) : Performs config [] cx (.ok ()) cx₁ :=
  ⟨rfl, h⟩

theorem append (h : Performs config steps cx (.ok ()) cx₁)
    (h' : Performs config more cx₁ ended cx₂) : Performs config (steps ++ more) cx ended cx₂ := by
  have hmore : perform config (steps ++ more) cx
      = perform config more (perform config steps cx).2 := by
    rw [perform_append]
    rw [show perform config steps cx = (.ok (), (perform config steps cx).2) by rw [← h.ended]]
  -- the contexts differ in their logs, which the later steps do not look at
  have hsilent := perform_silent config more (perform config steps cx).2
  rw [h.silent, perform_silent] at hsilent
  obtain ⟨hended, hleft⟩ := Prod.mk.inj hsilent
  exact ⟨by rw [hmore, ← hended, h'.ended], by rw [hmore, ← hleft, h'.silent]⟩

theorem append_error {error : Error} (h : Performs config steps cx (.error error) cx₁) :
    Performs config (steps ++ more) cx (.error error) cx₁ := by
  have hsteps : perform config (steps ++ more) cx = perform config steps cx := by
    rw [perform_append]
    rw [show perform config steps cx = (.error error, (perform config steps cx).2) by
      rw [← h.ended]]
  exact ⟨hsteps ▸ h.ended, hsteps ▸ h.silent⟩

theorem table_le (h : Performs config steps cx ended cx₁) : cx.table ≤ cx₁.table := by
  have hle := (le_perform config steps cx).1
  have hsilent := congrArg Context.table h.silent
  exact le_trans hle (le_of_eq hsilent)

theorem store_le (h : Performs config steps cx ended cx₁) : cx.store ≤ cx₁.store := by
  have hle := (le_perform config steps cx).2
  have hsilent := congrArg Context.store h.silent
  exact le_trans hle (le_of_eq hsilent)

theorem place (h : Performs config steps cx ended cx₁) :
    cx₁.path = cx.path ∧ cx₁.directory = cx.directory ∧ cx₁.source = cx.source := by
  have hsilent := h.silent
  have hkept := perform_place config steps cx
  simp only [Context.silent, Context.mk.injEq] at hsilent
  exact ⟨hsilent.1 ▸ hkept.1, hsilent.2.1 ▸ hkept.2.1, hsilent.2.2.1 ▸ hkept.2.2⟩

end Performs

/-- A program that is started in this context performs these steps. -/
def Runs {α : Type} (config : Config) (program : Scoping α) (steps : List Step) (cx : Context) :
    Prop :=
  Performs config steps cx ((program.run.run cx).1.map fun _ => ()) (program.run.run cx).2

namespace Runs

variable {α β : Type} {config : Config} {steps more : List Step} {cx : Context}

theorem throw (error : Error) :
    Runs config (MonadExcept.throw error : Scoping α) [.fail error] cx :=
  ⟨rfl, rfl⟩

theorem bind {program : Scoping α} {next : α → Scoping β} (h : Runs config program steps cx)
    (hnext : ∀ a cx₁, program.run.run cx = (.ok a, cx₁) → Runs config (next a) more cx₁) :
    Runs config (program >>= next) (steps ++ more) cx := by
  unfold Runs at h ⊢
  rw [ExceptT.run_bind, StateT.run_bind]
  match hrun : program.run.run cx with
  | (.ok a, cx₁) =>
    rw [hrun] at h
    exact h.append (hnext a cx₁ hrun)
  | (.error error, cx₁) =>
    rw [hrun] at h
    exact h.append_error

theorem get_bind {next : Context → Scoping β} (h : Runs config (next cx) steps cx) :
    Runs config (get >>= next) steps cx :=
  h

theorem lift_bind {operation : StateM Context α} {next : α → Scoping β}
    (h : Performs config steps cx (.ok ()) (operation.run cx).2)
    (hnext : Runs config (next (operation.run cx).1) more (operation.run cx).2) :
    Runs config (liftM operation >>= next) (steps ++ more) cx :=
  h.append hnext

/-- The steps of a program that is run for each element of a list. -/
theorem forM {program : α → Scoping PUnit} {stepsOf : α → List Step} (list : List α)
    (h : ∀ a ∈ list, ∀ cx₁, cx₁.directory = cx.directory →
      Runs config (program a) (stepsOf a) cx₁) :
    Runs config (list.forM program) (list.flatMap stepsOf) cx := by
  induction list generalizing cx with
  | nil => exact Performs.nil rfl
  | cons a list ih =>
    refine (h a List.mem_cons_self cx rfl).bind fun _ cx₁ hrun => ih fun b hb cx₂ hcx₂ => ?_
    have hplace := (h a List.mem_cons_self cx rfl).place
    rw [hrun] at hplace
    exact h b (List.mem_cons_of_mem _ hb) cx₂ (hcx₂.trans hplace.2.1)

end Runs

/-! ## Operations are steps -/

namespace Context

variable (target : Path) (className : String)

theorem ensure_run :
    (ensure target).run cx = ((), { cx with
      store := cx.store.ensure target
      journal := cx.journal.require cx.store target }) := by
  show ((), if cx.store.contains target then cx else _) = _
  by_cases h : cx.store.contains target <;> simp [h, Store.ensure, Journal.require]

/-- Asking the document itself for the name of a class is a step, and gives this name. -/
theorem localName_run :
    (localName config className).run cx
      = ((cx.table.get? className).getD (config.generate className cx.seed),
        (Step.own className).effect config cx) := by
  show (let p := cx.table.translate config.generate cx.seed className
    (p.1, { cx with table := p.2 })) = _
  rw [Table.translate_eq]
  rfl

/-- Asking another file for the name of a class is a step, and gives this name. -/
theorem remoteName_run :
    ((remoteName config target className).run cx).1
        = cx.store.nameOf config.generate target className ∧
      ((remoteName config target className).run cx).2.silent
        = ((Step.ask target className).effect config cx).silent := by
  rw [remoteName, StateT.run_bind, ensure_run]
  show (StateT.run (if _ then _ else _ : StateM Context String) _).1 = _ ∧
    (StateT.run (if _ then _ else _ : StateM Context String) _).2.silent = _
  simp only [Store.entry_ensure, Step.effect, Journal.ask, Store.nameOf, Entry.nameOf]
  by_cases hstage : (cx.store.entry target).stage = .processed
  · have hplaceholder : (cx.store.entry target).isPlaceholder = false := by
      simp [Entry.isPlaceholder, hstage]
    have hremember : cx.store.update target (Entry.remember config.generate target className)
        = cx.store.ensure target := by
      rw [Store.update, Entry.remember, if_pos hstage, Store.put_entry_eq_ensure]
    simp only [if_pos hstage, hplaceholder, hremember]
    cases (cx.store.entry target).table.get? className <;> exact ⟨rfl, rfl⟩
  · have hremember : cx.store.update target (Entry.remember config.generate target className)
        = (cx.store.ensure target).setTable target ((cx.store.entry target).table.enter className
            (config.generate className ⟨target, (cx.store.entry target).source.getD ""⟩)) := by
      rw [Store.setTable_ensure, Store.update, Entry.remember, if_neg hstage]
      rfl
    simp only [if_neg hstage, hremember, Table.enter]
    cases (cx.store.entry target).table.get? className <;> exact ⟨rfl, rfl⟩

/-- A reference to a file is a step. -/
theorem require_runs : Runs config (require config target) [.require target] cx := by
  refine Runs.get_bind ?_
  cases hresolved : cx.store.isResolved target with
  | true =>
    constructor <;> simp [perform, Step.fault?, Step.effect, hresolved, ensure_run] <;> rfl
  | false =>
    cases hmissing : config.missing with
    | error => constructor <;> simp [perform, Step.fault?, hresolved, hmissing] <;> rfl
    | warn =>
      constructor <;> simp only [perform, Step.fault?, Step.effect, hresolved, hmissing]
      · rfl
      · show _ = Context.silent (((ensure target).run _).2)
        rw [ensure_run]
        rfl
    | ignore =>
      constructor <;>
        simp [perform, Step.fault?, Step.effect, hresolved, hmissing, ensure_run] <;> rfl

/-- Binding a label to the name of a class is a step. -/
theorem bind_runs (directive label : String) :
    Runs config (bind directive label (cx.store.nameOf config.generate target className))
      [.bind directive label target className] cx := by
  generalize hname : cx.store.nameOf config.generate target className = name
  refine Runs.get_bind ?_
  cases hknown : cx.table.get? label with
  | none =>
    constructor <;>
      simp only [perform, Step.fault?, hknown, Step.effect, Table.enter, hname] <;> rfl
  | some known =>
    by_cases h : known = name
    · constructor <;>
        simp [perform, Step.fault?, hknown, Step.effect, Table.enter, hname, h] <;> rfl
    · constructor <;> simp [perform, Step.fault?, hknown, hname, h] <;> rfl

end Context
end ScopedCss
