import ScopedCss.Proofs.Run.OwnNames
import ScopedCss.Proofs.Run.Snapshot
import ScopedCss.Proofs.Step.Replay

/-!
# The spelling of a path

The store finds the entry of a file under every spelling of its path, but a new name is made from
the spelling that is at hand. With a resolver that does not normalize paths, the names that two
documents obtain for one class may therefore differ.

* `Document.spelling`: the spelling that a new name is made from. While a file is not processed, its
  first name is kept, so this is the first spelling that the document asks with; a processed file
  keeps no new names, so each reference has its own.
* `obtained_eq_spelled`: a reference obtains the name that the store knows, or else a new one.
* `names_eq_iff_spellings`: when two references agree, and `spelled_name_lost`: they need not.
-/

namespace ScopedCss

open Stylesheet (Document)

variable {config : Config} {generate : String → Path → String} {document : Document} {store : Store}
  {target file : Path} {className name : String} {cx cx' : Context}

/-! ## The first spelling that is asked with -/

/-- The spelling of the path of the file that its name for the class is asked for with. -/
def Step.asked? (file : Path) (className : String) : Step → Option Path
  | ask target asked => if target.SamePlace file ∧ asked = className then some target else none
  | _ => none

/-- While a file is not processed, the first name that is made for a class is kept. -/
theorem get?_effect_of_asked? (hgenerate : NamesByPath config generate) (step : Step)
    (hstage : (cx.store.entry file).stage ≠ .processed) :
    ((step.effect config cx).store.entry file).table.get? className
      = ((cx.store.entry file).table.get? className).or
          ((step.asked? file className).map (generate className)) := by
  cases step with
  | require target =>
    show ((cx.store.ensure target).entry file).table.get? className = _
    rw [Store.entry_ensure]
    exact (Option.or_none ..).symm
  | ask target asked =>
    show ((cx.store.update target _).entry file).table.get? className = _
    rw [Store.entry_update]
    simp only [Step.asked?]
    by_cases hsame : target.SamePlace file
    · rw [if_pos hsame, Entry.remember, if_neg hstage]
      by_cases hasked : asked = className
      · subst hasked
        rw [if_pos ⟨hsame, rfl⟩, hgenerate, Table.get?_enter, if_pos rfl]
        cases (cx.store.entry file).table.get? asked <;> rfl
      · simp [Table.get?_enter, hasked]
    · simp [hsame]
  | fail | bind | addImport | own => exact (Option.or_none ..).symm

theorem get?_perform_of_asked? (hgenerate : NamesByPath config generate) {steps : List Step}
    (hstage : (cx.store.entry file).stage ≠ .processed)
    (h : perform config steps cx = (.ok (), cx')) :
    (cx'.store.entry file).table.get? className
      = ((cx.store.entry file).table.get? className).or
          ((steps.findSome? (Step.asked? file className)).map (generate className)) := by
  induction steps generalizing cx with
  | nil =>
    cases h
    exact (Option.or_none ..).symm
  | cons step steps ih =>
    rw [perform_cons (fault?_of_perform_cons (congrArg Prod.fst h))] at h
    have hstage' : ((step.effect config cx).store.entry file).stage ≠ .processed := by
      rwa [(step.store_le_effect config cx file).stage]
    rw [ih hstage' h, get?_effect_of_asked? hgenerate step hstage, Option.or_assoc,
      List.findSome?_cons]
    cases step.asked? file className <;> rfl

/-- A label is bound to a name that was asked for just before. -/
theorem AsksFirst.asked_of_bind {steps : List Step} (h : AsksFirst steps) {before after : List Step}
    {directive label : String}
    (hsteps : steps = before ++ .bind directive label target className :: after) :
    .ask target className ∈ before := by
  induction h generalizing before with
  | nil => simp at hsteps
  | step hlabel _ ih =>
    cases before with
    | nil =>
      cases hsteps
      cases hlabel
    | cons first before =>
      obtain ⟨-, hrest⟩ := List.cons.inj hsteps
      exact List.mem_cons_of_mem _ (ih hrest)
  | reference directive' label' target' className' _ ih =>
    match before with
    | [] => cases hsteps
    | [first] =>
      cases hsteps
      exact List.mem_cons_self
    | first :: second :: before =>
      obtain ⟨-, hsecond⟩ := List.cons.inj hsteps
      obtain ⟨-, hrest⟩ := List.cons.inj hsecond
      exact List.mem_cons_of_mem _ (List.mem_cons_of_mem _ (ih hrest))

namespace Stylesheet.Document

/-- What a document that is processed in this store finds there about a file. -/
def found (document : Document) (store : Store) (file : Path) : Entry :=
  (document.opening store).store.entry file

/-- The spelling that a new name is made from when the document refers to a class with this path. -/
def spelling (config : Config) (document : Document) (store : Store) (target : Path)
    (className : String) : Path :=
  if (document.found store target).stage = .processed then target
  else ((document.steps config).findSome? (Step.asked? target className)).getD target

end Stylesheet.Document

/-- **What name a reference obtains**, if names are made from paths: the one that the store knows,
or else a new one, which is made from the deciding spelling. -/
theorem obtained_eq_spelled (hgenerate : NamesByPath config generate) {step : Step}
    (hreaches : document.Reaches config store step cx) (htarget : step.target? = some target)
    (hobtained : step.obtained? config cx = some (target, className, name)) :
    name = ((document.found store target).table.get? className).getD
      (generate className (document.spelling config store target className)) := by
  rw [(Step.obtained?_of_target htarget hobtained).2, Store.nameOf, Entry.nameOf, hgenerate]
  obtain ⟨before, after, hsteps, hbefore⟩ := hreaches
  unfold Document.spelling
  by_cases hstage : (document.found store target).stage = .processed
  · have hle := (le_perform config before (document.opening store)).2 target
    rw [hbefore] at hle
    rw [if_pos hstage, Entry.eq_of_processed hle hstage]
    rfl
  · have hfound : (cx.store.entry target).table.get? className
        = ((document.found store target).table.get? className).or _ :=
      get?_perform_of_asked? hgenerate hstage hbefore
    rw [if_neg hstage, hfound, hsteps, List.findSome?_append]
    -- the name was made before, or this is the step that makes it
    cases hfirst : before.findSome? (Step.asked? target className) with
    | some first => cases (document.found store target).table.get? className <;> rfl
    | none =>
      cases step with
      | ask target' asked =>
        cases htarget
        cases hobtained
        have hnow : (Step.ask target className).asked? target className = some target :=
          if_pos ⟨rfl, rfl⟩
        simp [hnow]
      | bind directive label target' asked =>
        cases htarget
        cases hobtained
        have hasked := (AsksFirst.stepsOf config _ _ document.nodes).asked_of_bind hsteps
        have hnone := List.findSome?_eq_none_iff.1 hfirst _ hasked
        cases hnone.symm.trans (if_pos ⟨rfl, rfl⟩)
      | require | addImport => cases hobtained
      | fail | own => cases htarget

/-! ## References under several spellings -/

theorem found_congr {file' : Path} (hsame : file.SamePlace file') :
    document.found store file = document.found store file' :=
  Store.entry_congr _ hsame

theorem found_of_ne (hother : ¬ document.key.SamePlace file) :
    document.found store file = store.entry file := by
  rw [Document.found, entry_opening, if_neg hother]

theorem asked_of_obtained {step : Step} (hreaches : document.Reaches config store step cx)
    (htarget : step.target? = some target)
    (hobtained : step.obtained? config cx = some (target, className, name)) :
    .ask target className ∈ document.steps config := by
  obtain ⟨before, after, hsteps, -⟩ := hreaches
  cases step with
  | ask target' asked =>
    cases hobtained
    simp [hsteps]
  | bind directive label target' asked =>
    cases hobtained
    have hasked := (AsksFirst.stepsOf config _ _ document.nodes).asked_of_bind hsteps
    simp [hsteps, hasked]
  | require | addImport => cases hobtained
  | fail | own => cases htarget

/-- While a file is not processed, it does not matter how a reference to it is spelled. -/
theorem spelling_congr {target' : Path} (hsame : target.SamePlace target')
    (hasked : .ask target className ∈ document.steps config)
    (hstage : (document.found store target).stage ≠ .processed) :
    document.spelling config store target className
      = document.spelling config store target' className := by
  have hfirst : Step.asked? target className = Step.asked? target' className := by
    funext step
    cases step <;> simp only [Step.asked?, Path.SamePlace, show _ = _ from hsame]
  rw [Document.spelling, Document.spelling, ← found_congr hsame, if_neg hstage,
    if_neg hstage, hfirst]
  cases hnone : (document.steps config).findSome? (Step.asked? target' className) with
  | some first => rfl
  | none =>
    have hthis := List.findSome?_eq_none_iff.1 hnone _ hasked
    cases hthis.symm.trans (if_pos ⟨hsame, rfl⟩)

/-- A processed file that has the class in local scope and binds no label over it has its own name
for the class, until it is processed again. -/
theorem found_of_spared {owner : Document} {earlier later : List Call} {given : Table}
    (hgiven : (process config owner (storeAfter earlier)).result = .ok given)
    (hlater : ∀ call ∈ later, call.Spares owner.key)
    (hown : className ∈ owner.ownClasses config) (hlabel : className ∉ owner.labels config)
    (hsame : owner.key.SamePlace file) (hother : ¬ document.key.SamePlace file) :
    (document.found (storeAfter (earlier ++ .process config owner :: later)) file).table.get?
        className = some (owner.ownName config className) := by
  have hslot : (storeAfter (earlier ++ .process config owner :: later)).slot? owner.key
      = some ⟨owner.key, owner.finished config (storeAfter earlier), some owner.source,
        .processed⟩ := by
    rw [storeAfter, List.foldl_append, List.foldl_cons]
    have hrest := atRest_storeAfter earlier
    exact slot?_foldl_of_spares (atRest_process hrest) (slot?_process hgiven) rfl hlater
  have hentry : (storeAfter (earlier ++ .process config owner :: later)).entry owner.key
      = ⟨owner.finished config (storeAfter earlier), some owner.source, .processed⟩ := by
    rw [Store.entry, Store.get?, hslot]
    rfl
  rw [found_of_ne hother, ← Store.entry_congr _ hsame, hentry]
  exact get?_finished_of_own hgiven hown hlabel

/-- **When two spellings of a path lead to one name.** Names are made from paths, by any resolver.
Processed in a store that any calls have left, two documents refer to a class of one file, each with
its own spelling of the path. Each obtains the name that the store knows for the class, or else one
that is made from the deciding spelling. So the two obtain the same name just where the store knows
one, or the deciding spellings make the same one. While the file is not processed, a document that
refers to it under two spellings obtains one name.

If the file was processed with the class in local scope, and binds no label over it, then the name
is its own one under every spelling, for as long as the file is not processed again; if it is
processed later, then its own name is the one that its normalized path makes. -/
theorem names_eq_iff_spellings (hgenerate : NamesByPath config Name.pathName) {calls : List Call}
    {first second : Document} {step step' : Step} {cx cx' : Context} {target target' : Path}
    {className name name' : String} (hreaches : first.Reaches config (storeAfter calls) step cx)
    (htarget : step.target? = some target)
    (hobtained : step.obtained? config cx = some (target, className, name))
    (hreaches' : second.Reaches config (storeAfter calls) step' cx')
    (htarget' : step'.target? = some target')
    (hobtained' : step'.obtained? config cx' = some (target', className, name'))
    (hsame : target.SamePlace target') :
    let spelled :=
      Name.pathName className (first.spelling config (storeAfter calls) target className)
    let spelled' :=
      Name.pathName className (second.spelling config (storeAfter calls) target' className)
    let known? := (first.found (storeAfter calls) target).table.get? className
    let known?' := (second.found (storeAfter calls) target').table.get? className
    (name = known?.getD spelled ∧ name' = known?'.getD spelled') ∧
    (first = second ∨ ¬ first.key.SamePlace target ∧ ¬ second.key.SamePlace target →
      (name = name' ↔ (known? = none → spelled = spelled'))) ∧
    (first = second → (first.found (storeAfter calls) target).stage ≠ .processed → name = name') ∧
    ∀ (owner : Document) (earlier : List Call) (given : Table), owner.key.SamePlace target →
      className ∈ owner.ownClasses config → className ∉ owner.labels config →
      (process config owner (storeAfter earlier)).result = .ok given →
        (∃ table, (process config owner (storeAfter earlier)).store.table? owner.key = some table ∧
          table.get? className = some (Name.pathName className owner.key)) ∧
        ∀ later, calls = earlier ++ .process config owner :: later →
          (∀ call ∈ later, call.Spares owner.key) → ¬ first.key.SamePlace target →
            name = Name.pathName className owner.key := by
  intro spelled spelled' known? known?'
  have hname : name = known?.getD spelled :=
    obtained_eq_spelled hgenerate hreaches htarget hobtained
  have hname' : name' = known?'.getD spelled' :=
    obtained_eq_spelled hgenerate hreaches' htarget' hobtained'
  refine ⟨⟨hname, hname'⟩, ?_, ?_, ?_⟩
  · intro hdocuments
    have hknown : known?' = known? := by
      show ((second.found _ target').table.get? _) = ((first.found _ target).table.get? _)
      rw [← found_congr hsame]
      rcases hdocuments with rfl | ⟨hother, hother'⟩
      · rfl
      · rw [found_of_ne hother, found_of_ne hother']
    rw [hname, hname', hknown]
    cases known? with
    | some known => simp
    | none => simp
  · rintro rfl hstage
    have hspelled : spelled = spelled' := by
      have hasked := asked_of_obtained hreaches htarget hobtained
      show Name.pathName _ _ = Name.pathName _ _
      rw [spelling_congr hsame hasked hstage]
    have hknown : known? = known?' := by
      show ((first.found _ target).table.get? _) = ((first.found _ target').table.get? _)
      rw [found_congr hsame]
    rw [hname, hname', hknown, hspelled]
  · intro owner earlier given hplace hown hlabel hgiven
    have hmade : owner.ownName config className = Name.pathName className owner.key :=
      hgenerate className owner.seed
    refine ⟨⟨_, table?_process hgiven, ?_⟩, ?_⟩
    · rw [get?_finished_of_own hgiven hown hlabel, hmade]
    · rintro later rfl hlater hother
      have hknown : known? = some (owner.ownName config className) :=
        found_of_spared hgiven hlater hown hlabel hplace hother
      rw [hname, hknown, hmade]
      rfl

/-- A file is referred to under one spelling, then it is processed with the class in local scope,
and then a document refers to the class under two spellings. -/
theorem names_eq_iff_spellings_processed :
    let config := { Config.ofOptions { missing := .ignore } with
      resolve := fun declared directory => ⟨directory.text ++ "/" ++ declared⟩ }
    let forward : Document := ⟨⟨"/s/b.css"⟩, "", [.statement "use" "(.x) from './a'"]⟩
    let owner : Document := ⟨⟨"/s/a.css"⟩, "", [.rule ".x" []]⟩
    let document : Document := ⟨⟨"/s/c.css"⟩, "", [.statement "use" "(.x) from './a'",
      .statement "use" "(.x as .y) from 'a'"]⟩
    let calls : List Call := [.process config forward, .process config owner]
    ∃ cx cx', document.Reaches config (storeAfter calls) (.ask ⟨"/s/./a.css"⟩ "x") cx ∧
      document.Reaches config (storeAfter calls) (.ask ⟨"/s/a.css"⟩ "x") cx' ∧
      cx.store.nameOf config.generate ⟨"/s/./a.css"⟩ "x" = "_x_ttg62_pq2ag" ∧
      cx'.store.nameOf config.generate ⟨"/s/a.css"⟩ "x" = "_x_ttg62_pq2ag" := by
  intro config forward owner document calls
  let before : List Step := [.require ⟨"/s/./a.css"⟩]
  let between : List Step := [.require ⟨"/s/./a.css"⟩, .ask ⟨"/s/./a.css"⟩ "x",
    .bind (Error.useDirective "(.x) from './a'") "x" ⟨"/s/./a.css"⟩ "x", .require ⟨"/s/a.css"⟩]
  have hsteps : document.steps config = before ++ .ask ⟨"/s/./a.css"⟩ "x" ::
      [.bind (Error.useDirective "(.x) from './a'") "x" ⟨"/s/./a.css"⟩ "x", .require ⟨"/s/a.css"⟩,
        .ask ⟨"/s/a.css"⟩ "x",
        .bind (Error.useDirective "(.x as .y) from 'a'") "y" ⟨"/s/a.css"⟩ "x"] := by
    decide +kernel
  have hsteps' : document.steps config = between ++ .ask ⟨"/s/a.css"⟩ "x" ::
      [.bind (Error.useDirective "(.x as .y) from 'a'") "y" ⟨"/s/a.css"⟩ "x"] := by
    decide +kernel
  have hbefore : (perform config before (document.opening (storeAfter calls))).1 = .ok () := by
    decide +kernel
  have hbetween : (perform config between (document.opening (storeAfter calls))).1 = .ok () := by
    decide +kernel
  have hreaches : document.Reaches config (storeAfter calls) (.ask ⟨"/s/./a.css"⟩ "x") _ :=
    ⟨_, _, hsteps, Prod.ext hbefore rfl⟩
  have hreaches' : document.Reaches config (storeAfter calls) (.ask ⟨"/s/a.css"⟩ "x") _ :=
    ⟨_, _, hsteps', Prod.ext hbetween rfl⟩
  have hsame : Path.SamePlace ⟨"/s/./a.css"⟩ ⟨"/s/a.css"⟩ := by decide +kernel
  have hplace : owner.key.SamePlace ⟨"/s/./a.css"⟩ := by decide +kernel
  have hother : ¬ document.key.SamePlace ⟨"/s/./a.css"⟩ := by decide +kernel
  have hown : "x" ∈ owner.ownClasses config := by decide +kernel
  have hlabel : "x" ∉ owner.labels config := by decide +kernel
  have hdone : (process config owner (storeAfter [.process config forward])).result
      = .ok (Table.ofList [("x", "_x_ttg62_pq2ag")]) := by
    decide +kernel
  have hmade : Name.pathName "x" owner.key = "_x_ttg62_pq2ag" := by decide +kernel
  have hgenerate : NamesByPath config Name.pathName := fun _ _ => rfl
  obtain ⟨-, hiff, -, howner⟩ :=
    names_eq_iff_spellings hgenerate hreaches rfl rfl hreaches' rfl rfl hsame
  obtain ⟨-, hspared⟩ := howner owner [.process config forward] _ hplace hown hlabel hdone
  have hname := (hspared [] rfl nofun hother).trans hmade
  refine ⟨_, _, hreaches, hreaches', hname, ?_⟩
  -- the second reference agrees with the first one, since the store knows the name
  have hknown : (document.found (storeAfter calls) ⟨"/s/./a.css"⟩).table.get? "x" ≠ none := by
    decide +kernel
  exact ((hiff (.inl rfl)).2 fun hnone => absurd hnone hknown).symm.trans hname

/-- The name that is given in advance for one spelling is not the one that the file has in the end;
and a class that the processed file does not have gets two names in one document. -/
theorem spelled_name_lost :
    let config := { Config.ofOptions { missing := .ignore } with
      resolve := fun declared directory => ⟨directory.text ++ "/" ++ declared⟩ }
    let forward : Document := ⟨⟨"/s/b.css"⟩, "", [.statement "use" "(.x) from './a'"]⟩
    let owner : Document := ⟨⟨"/s/a.css"⟩, "", [.rule ".x" []]⟩
    let document : Document := ⟨⟨"/s/c.css"⟩, "", [.statement "use" "(.k) from './a'",
      .statement "use" "(.k as .l) from 'a'"]⟩
    let calls : List Call := [.process config forward, .process config owner]
    NamesByPath config Name.pathName ∧ Path.SamePlace ⟨"/s/./a.css"⟩ ⟨"/s/a.css"⟩ ∧
      owner.key = ⟨"/s/a.css"⟩ ∧ "x" ∈ owner.ownClasses config ∧ owner.labels config = [] ∧
      (∃ cx, forward.Reaches config ∅ (.ask ⟨"/s/./a.css"⟩ "x") cx ∧
        (Step.ask ⟨"/s/./a.css"⟩ "x").obtained? config cx
          = some (⟨"/s/./a.css"⟩, "x", "_x_quom3_izf2x")) ∧
      (storeAfter calls).table? owner.key = some (Table.ofList [("x", "_x_ttg62_pq2ag")]) ∧
      (∃ cx, document.Reaches config (storeAfter calls) (.ask ⟨"/s/./a.css"⟩ "k") cx ∧
        (Step.ask ⟨"/s/./a.css"⟩ "k").obtained? config cx
          = some (⟨"/s/./a.css"⟩, "k", "_k_quom3_izf2i")) ∧
      ∃ cx, document.Reaches config (storeAfter calls) (.ask ⟨"/s/a.css"⟩ "k") cx ∧
        (Step.ask ⟨"/s/a.css"⟩ "k").obtained? config cx
          = some (⟨"/s/a.css"⟩, "k", "_k_ttg62_pq2a3") := by
  intro config forward owner document calls
  let before : List Step := [.require ⟨"/s/./a.css"⟩]
  let between : List Step := [.require ⟨"/s/./a.css"⟩, .ask ⟨"/s/./a.css"⟩ "k",
    .bind (Error.useDirective "(.k) from './a'") "k" ⟨"/s/./a.css"⟩ "k", .require ⟨"/s/a.css"⟩]
  have hforward : forward.steps config = before ++ .ask ⟨"/s/./a.css"⟩ "x" ::
      [.bind (Error.useDirective "(.x) from './a'") "x" ⟨"/s/./a.css"⟩ "x"] := by
    decide +kernel
  have hsteps : document.steps config = before ++ .ask ⟨"/s/./a.css"⟩ "k" ::
      [.bind (Error.useDirective "(.k) from './a'") "k" ⟨"/s/./a.css"⟩ "k", .require ⟨"/s/a.css"⟩,
        .ask ⟨"/s/a.css"⟩ "k",
        .bind (Error.useDirective "(.k as .l) from 'a'") "l" ⟨"/s/a.css"⟩ "k"] := by
    decide +kernel
  have hsteps' : document.steps config = between ++ .ask ⟨"/s/a.css"⟩ "k" ::
      [.bind (Error.useDirective "(.k as .l) from 'a'") "l" ⟨"/s/a.css"⟩ "k"] := by
    decide +kernel
  have hfirst : (perform config before (forward.opening ∅)).1 = .ok () := by decide +kernel
  have hbefore : (perform config before (document.opening (storeAfter calls))).1 = .ok () := by
    decide +kernel
  have hbetween : (perform config between (document.opening (storeAfter calls))).1 = .ok () := by
    decide +kernel
  refine ⟨fun _ _ => rfl, by decide +kernel, by decide +kernel, by decide +kernel,
    by decide +kernel, ⟨_, ⟨_, _, hforward, Prod.ext hfirst rfl⟩, ?_⟩, by decide +kernel,
    ⟨_, ⟨_, _, hsteps, Prod.ext hbefore rfl⟩, ?_⟩, _, ⟨_, _, hsteps', Prod.ext hbetween rfl⟩, ?_⟩
  all_goals decide +kernel

end ScopedCss
