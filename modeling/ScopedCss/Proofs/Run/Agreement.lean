import Mathlib.Data.List.Induction
import ScopedCss.Proofs.Document.Names
import ScopedCss.Proofs.Run.Atomicity
import ScopedCss.Proofs.Step.Targets

/-!
# All files agree on a name

A generator that does not look at the source makes the name of a class from the path of its file. As
long as no directive of the file binds the class as a label, this is the name that every document
obtains for it, at every time of a run (`obtained_eq_generate`): from the table of the file, from
the placeholder that stands for it, from the file while it is processed, or made anew.

The invariant is `Consistent`: neither the store nor the document that is processed has another name
for the class.
-/

namespace ScopedCss

open Stylesheet (Document)

/-! ## What a document does in a run -/

/-- Processed in this store, the document comes to a step, in this context. -/
def Stylesheet.Document.Reaches (config : Config) (document : Document) (store : Store)
    (step : Step) (cx : Context) : Prop :=
  ∃ before after, document.steps config = before ++ step :: after ∧
    perform config before (document.opening store) = (.ok (), cx)

/-- Processed in this store, the document comes to bind a label. -/
def Stylesheet.Document.Binds (config : Config) (document : Document) (store : Store)
    (label : String) : Prop :=
  ∃ step cx, document.Reaches config store step cx ∧ step.label? = some label

/-- The file, the class and the name that a step obtains for it: that of a `@use` reference, of a
declaration in an `:import` rule, of a reference in a selector, or of a class of the document. -/
def Step.obtained? (config : Config) (cx : Context) : Step → Option (Path × String × String)
  | ask target className | bind _ _ target className =>
    some (target, className, cx.store.nameOf config.generate target className)
  | own className =>
    some (cx.path, className, (cx.table.get? className).getD (config.generate className cx.seed))
  | _ => none

theorem Step.obtained?_of_target {config : Config} {cx : Context} {step : Step} {target file : Path}
    {className name : String} (htarget : step.target? = some target)
    (hobtained : step.obtained? config cx = some (file, className, name)) :
    file = target ∧ name = cx.store.nameOf config.generate target className := by
  cases step with
  | ask target' asked =>
    cases htarget
    cases hobtained
    exact ⟨rfl, rfl⟩
  | bind directive label target' asked =>
    cases htarget
    cases hobtained
    exact ⟨rfl, rfl⟩
  | require | addImport => cases hobtained
  | fail | own => cases htarget

/-- The calls that process these documents under one configuration. -/
def callsOf (config : Config) (documents : List Document) : List Call :=
  documents.map (.process config)

/-- Each step before one that is reached is reached itself. -/
theorem reaches_of_mem {config : Config} {document : Document} {store : Store}
    {before after : List Step} {step : Step} {cx : Context}
    (hsteps : document.steps config = before ++ after)
    (hperform : perform config before (document.opening store) = (.ok (), cx))
    (hstep : step ∈ before) :
    ∃ cx₁, document.Reaches config store step cx₁ := by
  obtain ⟨first, rest, rfl⟩ := List.append_of_mem hstep
  obtain ⟨cx₁, hfirst, -⟩ := perform_ok_of_append hperform
  exact ⟨cx₁, first, rest ++ after, by rw [hsteps, List.append_assoc, List.cons_append], hfirst⟩

theorem mem_steps_of_reaches {config : Config} {document : Document} {store : Store} {step : Step}
    {cx : Context} (h : document.Reaches config store step cx) : step ∈ document.steps config := by
  obtain ⟨before, after, hsteps, -⟩ := h
  rw [hsteps]
  exact List.mem_append_right _ List.mem_cons_self

theorem mem_labels_of_binds {config : Config} {document : Document} {store : Store} {label : String}
    (h : document.Binds config store label) : label ∈ document.labels config := by
  obtain ⟨step, cx, hreaches, hlabel⟩ := h
  exact List.mem_filterMap.2 ⟨step, mem_steps_of_reaches hreaches, hlabel⟩

/-! ## The invariant -/

/-- The generator makes names from paths only, whatever the source of a file. -/
def NamesByPath (config : Config) (generate : String → Path → String) : Prop :=
  ∀ className seed, config.generate className seed = generate className seed.path

theorem namesByPath_ofOptions {options : Options} (h : options.naming = .path) :
    NamesByPath (.ofOptions options) Name.pathName := by
  intro className seed
  show options.naming.generate className seed = _
  rw [h]
  rfl

/-- The table has no other name for the class. -/
def Table.Agrees (table : Table) (className name : String) : Prop :=
  ∀ known, table.get? className = some known → known = name

namespace Table.Agrees

variable {table : Table} {className name : String}

theorem empty : (∅ : Table).Agrees className name := by
  intro known hknown
  rw [get?_empty] at hknown
  cases hknown

theorem getD (h : table.Agrees className name) : (table.get? className).getD name = name := by
  cases hknown : table.get? className with
  | none => rfl
  | some known => exact h known hknown

/-- Another name for the class is not entered. -/
theorem enter (h : table.Agrees className name) {label entered : String}
    (hentered : label = className → entered = name) :
    (table.enter label entered).Agrees className name := by
  intro known hknown
  rw [get?_enter] at hknown
  split at hknown
  · next hlabel =>
    obtain rfl := hentered hlabel
    rw [h.getD] at hknown
    exact (Option.some.inj hknown).symm
  · exact h known hknown

end Table.Agrees

variable {config : Config} {generate : String → Path → String} {file : Path} {className : String}
  {store : Store}

/-- No table that the names of the file come from has another name for the class than the one that
is made from the path: neither the one in the store, nor that of the document, if it is the file. -/
structure Consistent (generate : String → Path → String) (file : Path) (className : String)
    (cx : Context) : Prop where
  store : (cx.store.entry file).table.Agrees className (generate className file)
  table : cx.path.SamePlace file → cx.table.Agrees className (generate className file)

theorem consistent_effect (hgenerate : NamesByPath config generate) {cx : Context} {step : Step}
    (hpath : cx.path.SamePlace file → cx.path = file)
    (htarget : ∀ target, step.target? = some target → target.SamePlace file → target = file)
    (hlabel : cx.path.SamePlace file → step.label? ≠ some className)
    (h : Consistent generate file className cx) :
    Consistent generate file className (step.effect config cx) := by
  obtain ⟨hstore, htable⟩ := h
  constructor
  · refine Step.entry_effect
      (motive := fun entry => entry.table.Agrees className (generate className file))
      htarget ?_ hstore
    intro entry asked hentry
    unfold Entry.remember
    split
    · exact hentry
    · exact hentry.enter fun hasked => by rw [hgenerate, hasked]
  · intro hsame
    cases step with
    | bind directive label target asked =>
      exact (htable hsame).enter fun heq => absurd (congrArg some heq) (hlabel hsame)
    | own asked =>
      refine (htable hsame).enter fun heq => ?_
      rw [hgenerate, heq, Context.seed, hpath hsame]
    | fail | require | ask | addImport => exact htable hsame

theorem consistent_perform (hgenerate : NamesByPath config generate) {steps : List Step}
    {cx : Context} (hpath : cx.path.SamePlace file → cx.path = file)
    (htarget : ∀ step ∈ steps, ∀ target, step.target? = some target →
      target.SamePlace file → target = file)
    (hlabel : cx.path.SamePlace file → ∀ step ∈ steps, step.label? ≠ some className)
    (h : Consistent generate file className cx) :
    Consistent generate file className (perform config steps cx).2 := by
  suffices hkept : (perform config steps cx).2.path = cx.path ∧
      Consistent generate file className (perform config steps cx).2 from hkept.2
  refine perform_induction (motive := fun cx₁ => cx₁.path = cx.path ∧
    Consistent generate file className cx₁) ⟨rfl, h⟩ ?_
  rintro step hstep cx₁ - ⟨hsame, hconsistent⟩
  refine ⟨?_, consistent_effect hgenerate (hsame ▸ hpath) (htarget step hstep) ?_ hconsistent⟩
  · cases step <;> exact hsame
  · rw [hsame]
    exact fun hplace => hlabel hplace step hstep

/-! ## Runs -/

theorem consistent_reached (hresolve : config.resolve = Path.resolve)
    (hgenerate : NamesByPath config generate) {document : Document} {before after : List Step}
    {cx : Context} (hsteps : document.steps config = before ++ after)
    (hperform : perform config before (document.opening store) = (.ok (), cx))
    (hlabel : document.key.SamePlace file.normalize → ¬ document.Binds config store className)
    (hstore : (store.entry file.normalize).table.Agrees className
      (generate className file.normalize)) :
    Consistent generate file.normalize className cx := by
  have hcx : cx = (perform config before (document.opening store)).2 := by rw [hperform]
  rw [hcx]
  refine consistent_perform hgenerate Path.normalize_eq_of_samePlace ?_ ?_ ⟨?_, fun _ => .empty⟩
  · intro step hstep target htarget hsame
    have hmem : step ∈ document.steps config := hsteps ▸ List.mem_append_left _ hstep
    exact eq_normalize_of_mem_steps hresolve hmem htarget hsame
  · intro hsame step hstep hbinds
    obtain ⟨cx₁, hreaches⟩ := reaches_of_mem hsteps hperform hstep
    exact hlabel hsame ⟨step, cx₁, hreaches, hbinds⟩
  · rw [entry_opening]
    split
    · exact .empty
    · exact hstore

theorem agrees_process (hresolve : config.resolve = Path.resolve)
    (hgenerate : NamesByPath config generate) {document : Document} (hrest : store.AtRest)
    (hlabel : document.key.SamePlace file.normalize → ¬ document.Binds config store className)
    (hstore : (store.entry file.normalize).table.Agrees className
      (generate className file.normalize)) :
    ((process config document store).store.entry file.normalize).table.Agrees className
      (generate className file.normalize) := by
  match hperformed : document.performed config store with
  | (.error error, cx) =>
    rwa [process_store_of_error hrest (process_of_fault hperformed).1]
  | (.ok (), cx) =>
    have hconsistent := consistent_reached hresolve hgenerate (List.append_nil _).symm hperformed
      hlabel hstore
    rw [(process_of_done hperformed).2.2, Store.entry_commit]
    split
    · next hsame =>
      refine hconsistent.table ?_
      rw [path_of_performed hperformed]
      exact hsame
    · exact hconsistent.store

theorem agrees_storeAfter (hresolve : config.resolve = Path.resolve)
    (hgenerate : NamesByPath config generate) (documents : List Document)
    (hlabel : ∀ past document rest, documents = past ++ document :: rest →
      document.key.SamePlace file.normalize →
        ¬ document.Binds config (storeAfter (callsOf config past)) className) :
    ((storeAfter (callsOf config documents)).entry file.normalize).table.Agrees className
      (generate className file.normalize) := by
  -- by the last document: the ones before it have left the store that it is processed in
  induction documents using List.reverseRecOn with
  | nil => exact .empty
  | append_singleton past document ih =>
    rw [callsOf, List.map_append, List.map_singleton, storeAfter_append]
    refine agrees_process hresolve hgenerate (atRest_storeAfter _) (hlabel past document [] rfl) ?_
    refine ih fun past' document' rest hpast => hlabel past' document' (rest ++ [document]) ?_
    rw [hpast, List.append_assoc, List.cons_append]

/-- **All files agree on a name, at all times.** Documents are processed one after the other from an
empty store, under one configuration with the usual resolver and a generator that makes names from
paths only. If no document that is processed under the path of the file binds the class as a label,
then every name that a document obtains for the class of the file, whatever has become of the file
so far and however its path is spelled, is the one that is made from the normalized path. -/
theorem obtained_eq_generate (hresolve : config.resolve = Path.resolve)
    (hgenerate : NamesByPath config generate) {documents : List Document}
    (hlabel : ∀ past document rest, documents = past ++ document :: rest →
      document.key.SamePlace file.normalize →
        ¬ document.Binds config (storeAfter (callsOf config past)) className)
    {past rest : List Document} {document : Document} (hnow : documents = past ++ document :: rest)
    {step : Step} {cx : Context}
    (hreaches : document.Reaches config (storeAfter (callsOf config past)) step cx)
    {target : Path} {name : String}
    (hobtained : step.obtained? config cx = some (target, className, name))
    (htarget : target.SamePlace file.normalize) :
    name = generate className file.normalize := by
  have hstore := agrees_storeAfter hresolve hgenerate past fun past' document' rest' hpast =>
    hlabel past' document' (rest' ++ document :: rest) (by
      rw [hnow, hpast, List.append_assoc, List.cons_append])
  obtain ⟨before, after, hsteps, hperform⟩ := hreaches
  have hconsistent := consistent_reached hresolve hgenerate hsteps hperform
    (hlabel past document rest hnow) hstore
  have hmem : step ∈ document.steps config := by
    rw [hsteps]
    exact List.mem_append_right _ List.mem_cons_self
  -- what the store answers for the normalized path; a reference has no other spelling of it
  have hremote : cx.store.nameOf config.generate file.normalize className
      = generate className file.normalize := by
    unfold Store.nameOf Entry.nameOf
    rw [hgenerate]
    exact hconsistent.store.getD
  cases step with
  | ask target' asked =>
    cases hobtained
    have hreferred := (refersTo_of_mem_steps hmem rfl).1
    rw [eq_normalize_of_mem_references hresolve hreferred htarget, hremote]
  | bind directive label target' asked =>
    cases hobtained
    have hreferred := (refersTo_of_mem_steps hmem rfl).1
    rw [eq_normalize_of_mem_references hresolve hreferred htarget, hremote]
  | own asked =>
    cases hobtained
    have hown : cx.path = file.normalize := by
      rw [path_of_performed hperform] at htarget ⊢
      exact Path.normalize_eq_of_samePlace htarget
    rw [hgenerate, Context.seed, hown]
    exact (hconsistent.table htarget).getD
  | fail | require | addImport => cases hobtained

/-- A file that is referred to, then processed with the class in local scope, and then referred to
under another spelling. -/
theorem obtained_eq_generate_respelled :
    let config := Config.ofOptions { missing := .warn }
    let past : List Document := [⟨⟨"/a.css"⟩, "", [.statement "use" "(.x) from './b.css'"]⟩,
      ⟨⟨"/s/../b.css"⟩, "", [.rule ".x" []]⟩]
    let document : Document :=
      ⟨⟨"/c.css"⟩, "", [.statement "use" "(.x as .y) from './s/.././b.css'"]⟩
    ∃ cx, document.Reaches config (storeAfter (callsOf config past)) (.ask ⟨"/b.css"⟩ "x") cx ∧
      cx.store.nameOf config.generate ⟨"/b.css"⟩ "x" = Name.pathName "x" ⟨"/b.css"⟩ := by
  intro config past document
  have hsteps : document.steps config = [.require ⟨"/b.css"⟩] ++ .ask ⟨"/b.css"⟩ "x" ::
      [.bind (Error.useDirective "(.x as .y) from './s/.././b.css'") "y" ⟨"/b.css"⟩ "x"] := by
    decide +kernel
  have hlabels : ∀ d ∈ past ++ [document],
      d.key.SamePlace (Path.normalize ⟨"/b.css"⟩) → "x" ∉ d.labels config := by
    decide +kernel
  have hperform : (perform config [.require ⟨"/b.css"⟩]
      (document.opening (storeAfter (callsOf config past)))).1 = .ok () := by
    decide +kernel
  have hreaches :
      document.Reaches config (storeAfter (callsOf config past)) (.ask ⟨"/b.css"⟩ "x") _ :=
    ⟨_, _, hsteps, Prod.ext hperform rfl⟩
  have hnormal : Path.normalize ⟨"/b.css"⟩ = ⟨"/b.css"⟩ := by decide +kernel
  have hlabel (past' : List Document) (d : Document) (rest : List Document)
      (hsplit : past ++ [document] = past' ++ d :: rest)
      (hsame : d.key.SamePlace (Path.normalize ⟨"/b.css"⟩)) :
      ¬ d.Binds config (storeAfter (callsOf config past')) "x" := by
    intro hbinds
    refine hlabels d ?_ hsame (mem_labels_of_binds hbinds)
    rw [hsplit]
    exact List.mem_append_right _ List.mem_cons_self
  have hname : _ = Name.pathName "x" (Path.normalize ⟨"/b.css"⟩) :=
    obtained_eq_generate rfl (namesByPath_ofOptions rfl) hlabel rfl hreaches rfl (by rw [hnormal])
  rw [hnormal] at hname
  exact ⟨_, hreaches, hname⟩

end ScopedCss
