import ScopedCss.Proofs.Run.OwnNames

/-!
# Names that are given in advance

A file that has only been referred to has no text yet, and its names are made without one
(`obtained_in_advance`). When it is processed, its own names are made from its text, and the names
of the placeholder are not looked at. Under content naming a name that was given in advance
therefore is the one that the file has in the end only where the text does not enter it
(`forward_name_kept_iff`), that is, in general it is not (`forward_name_lost`).
-/

namespace ScopedCss

open Stylesheet (Document)

/-- As long as a file is only referred to, its names are made without a text. -/
def Entry.Foreseen (generate : Name.Generator) (file : Path) (entry : Entry) : Prop :=
  entry.isPlaceholder → entry.NamedFrom generate ⟨file, ""⟩

/-- The call processes a document under this configuration, or forgets all documents. -/
def Call.Under (config : Config) : Call → Prop
  | process config' _ => config' = config
  | reset => True

variable {config : Config} {document : Document} {store : Store} {file : Path}

/-! ## Placeholders -/

namespace Entry.Foreseen

variable {generate : Name.Generator} {entry : Entry}

theorem placeholder : Entry.placeholder.Foreseen generate file := by
  intro _
  exact ⟨rfl, fun _ => .empty⟩

theorem of_not_placeholder (h : entry.isPlaceholder = false) : entry.Foreseen generate file := by
  intro hplaceholder
  rw [h] at hplaceholder
  cases hplaceholder

theorem remember (h : entry.Foreseen generate file) (asked : String) :
    (entry.remember generate file asked).Foreseen generate file := by
  intro hplaceholder
  rw [Entry.isPlaceholder_eq_of_le (Entry.le_remember generate file asked entry)] at hplaceholder
  exact (h hplaceholder).remember asked

end Entry.Foreseen

theorem foreseen_reached (hresolve : config.resolve = Path.resolve)
    (h : (store.entry file.normalize).Foreseen config.generate file.normalize)
    {before after : List Step} (hsteps : document.steps config = before ++ after) :
    ((perform config before (document.opening store)).2.store.entry file.normalize).Foreseen
      config.generate file.normalize := by
  refine entry_reached (motive := Entry.Foreseen config.generate file.normalize) hresolve
    (fun entry asked h => h.remember asked) ?_ hsteps
  rw [entry_opening]
  split
  · exact .of_not_placeholder rfl
  · exact h

theorem foreseen_process (hresolve : config.resolve = Path.resolve) (hrest : store.AtRest)
    (h : (store.entry file.normalize).Foreseen config.generate file.normalize) :
    ((process config document store).store.entry file.normalize).Foreseen config.generate
      file.normalize := by
  match hperformed : document.performed config store with
  | (.error error, cx) => rwa [process_store_of_error hrest (process_of_fault hperformed).1]
  | (.ok (), cx) =>
    have hleft := foreseen_reached hresolve h (List.append_nil (document.steps config)).symm
    rw [show perform _ _ _ = _ from hperformed] at hleft
    rw [(process_of_done hperformed).2.2, Store.entry_commit]
    split
    · exact .of_not_placeholder rfl
    · exact hleft

theorem foreseen_storeAfter (hresolve : config.resolve = Path.resolve) {calls : List Call}
    (hcalls : ∀ call ∈ calls, call.Under config) :
    ((storeAfter calls).entry file.normalize).Foreseen config.generate file.normalize := by
  induction calls using List.reverseRecOn with
  | nil => exact .placeholder
  | append_singleton past call ih =>
    rw [storeAfter_append]
    have hcall : call.Under config := hcalls call (by simp)
    cases call with
    | reset => exact .placeholder
    | process config' document =>
      obtain rfl : config' = config := hcall
      apply foreseen_process hresolve (atRest_storeAfter past)
      apply ih
      intro call hcall
      exact hcalls call (List.mem_append_left _ hcall)

/-- **A name that is given in advance is made without the text of the file.** -/
theorem obtained_in_advance (hresolve : config.resolve = Path.resolve) {calls : List Call}
    (hcalls : ∀ call ∈ calls, call.Under config) {step : Step} {cx : Context}
    (hreaches : document.Reaches config (storeAfter calls) step cx) {target : Path}
    (htarget : step.target? = some target) (hsame : target.SamePlace file.normalize)
    (hplaceholder : (cx.store.entry target).isPlaceholder) {className name : String}
    (hobtained : step.obtained? config cx = some (target, className, name)) :
    name = config.generate className ⟨file.normalize, ""⟩ := by
  obtain rfl : target = file.normalize :=
    eq_normalize_of_mem_steps hresolve (mem_steps_of_reaches hreaches) htarget hsame
  obtain ⟨before, after, hsteps, hbefore⟩ := hreaches
  have hstored :
      ((storeAfter calls).entry file.normalize).Foreseen config.generate file.normalize :=
    foreseen_storeAfter hresolve hcalls
  have hforeseen := foreseen_reached hresolve hstored hsteps
  rw [hbefore] at hforeseen
  rw [(Step.obtained?_of_target htarget hobtained).2]
  exact (hforeseen hplaceholder).nameOf className

/-! ## Content naming -/

/-- With a text and without one, a file has the same name for a class only where the text is empty
or the two ways to make a name meet. -/
theorem content_generate_eq_iff (className : String) (path : Path) (source : String) :
    Name.Naming.content.generate className ⟨path, source⟩
        = Name.Naming.content.generate className ⟨path, ""⟩ ↔
      source = "" ∨ Name.contentName className source = Name.pathName className path := by
  show (if source.isEmpty then Name.pathName className path else Name.contentName className source)
    = Name.pathName className path ↔ _
  split
  · next hempty => exact iff_of_true rfl (.inl (String.isEmpty_iff.1 hempty))
  · next htext => exact (or_iff_right fun hempty => htext (String.isEmpty_iff.2 hempty)).symm

/-- **When a name that was given in advance is kept.** Documents are processed one after the other
under one configuration, with the usual resolver and names made from contents. A document obtains
the name of a class of another file while that file is only referred to; then the file is processed,
in any store, and is scoped. If it has the class in local scope, and no directive of it binds the
class, then its table has a name for the class. This is the name that was given in advance just
where the text of the file is empty, or the names that are made from its text and from its path
happen to be the same. -/
theorem forward_name_kept_iff (hgenerate : config.generate = Name.Naming.content.generate)
    (hresolve : config.resolve = Path.resolve) {calls : List Call}
    (hcalls : ∀ call ∈ calls, call.Under config) {step : Step} {cx : Context}
    (hreaches : document.Reaches config (storeAfter calls) step cx) {target : Path}
    (htarget : step.target? = some target) (hplaceholder : (cx.store.entry target).isPlaceholder)
    {className name : String}
    (hobtained : step.obtained? config cx = some (target, className, name)) {later : Document}
    (hsame : target.SamePlace later.key) {given : Table}
    (hgiven : (process config later store).result = .ok given)
    (hown : className ∈ later.ownClasses config) (hlabel : className ∉ later.labels config) :
    ∃ table committed, (process config later store).store.table? later.key = some table ∧
      table.get? className = some committed ∧
      (committed = name ↔ later.source = "" ∨
        Name.contentName className later.source = Name.pathName className later.key) := by
  have hadvance : name = config.generate className ⟨later.key, ""⟩ :=
    obtained_in_advance hresolve hcalls hreaches htarget hsame hplaceholder hobtained
  refine ⟨later.finished config store, later.ownName config className, table?_process hgiven,
    get?_finished_of_own hgiven hown hlabel, ?_⟩
  rw [hadvance, Document.ownName, Document.seed, hgenerate]
  exact content_generate_eq_iff className later.key later.source

/-- A file is referred to twice, the second time under another spelling, and then it turns out to be
empty: the name is kept. -/
theorem forward_name_kept_iff_empty :
    let config := Config.ofOptions { missing := .warn, naming := .content }
    let calls : List Call := [.process config ⟨⟨"/d.css"⟩, "old",
      [.statement "use" "(.card, .x) from './card'"]⟩]
    let document : Document := ⟨⟨"/app.css"⟩, "new", [.statement "use" ".card from './s/../card'"]⟩
    let later : Document := ⟨⟨"/s/../card.css"⟩, "", [.rule ".card" []]⟩
    let store := (process config document (storeAfter calls)).store
    store.table? later.key
        = some (Table.ofList [("card", "_card_zmb0z_1ay4d"), ("x", "_x_zmb0z_57d8x")]) ∧
      ∃ cx, document.Reaches config (storeAfter calls) (.ask ⟨"/card.css"⟩ "card") cx ∧
        ((process config later store).store.table? later.key).bind (·.get? "card")
          = some (cx.store.nameOf config.generate ⟨"/card.css"⟩ "card") := by
  intro config calls document later store
  have hcalls : ∀ call ∈ calls, call.Under config := by
    intro call hcall
    obtain rfl := List.mem_singleton.1 hcall
    rfl
  have hsteps : document.steps config = [.require ⟨"/card.css"⟩] ++ .ask ⟨"/card.css"⟩ "card" ::
      [.bind (Error.useDirective ".card from './s/../card'") "card" ⟨"/card.css"⟩ "card"] := by
    decide +kernel
  have hbefore : (perform config [.require ⟨"/card.css"⟩]
      (document.opening (storeAfter calls))).1 = .ok () := by
    decide +kernel
  have hreaches : document.Reaches config (storeAfter calls) (.ask ⟨"/card.css"⟩ "card") _ :=
    ⟨_, _, hsteps, Prod.ext hbefore rfl⟩
  have hplaceholder : ((perform config [.require ⟨"/card.css"⟩]
      (document.opening (storeAfter calls))).2.store.entry ⟨"/card.css"⟩).isPlaceholder := by
    decide +kernel
  have hsame : Path.SamePlace ⟨"/card.css"⟩ later.key := by decide +kernel
  have hdone : (process config later store).result
      = .ok (Table.ofList [("card", "_card_zmb0z_1ay4d")]) := by
    decide +kernel
  have hown : "card" ∈ later.ownClasses config := by decide +kernel
  have hlabel : "card" ∉ later.labels config := by decide +kernel
  obtain ⟨table, committed, htable, hcommitted, hiff⟩ :=
    forward_name_kept_iff rfl rfl hcalls hreaches rfl hplaceholder rfl hsame hdone hown hlabel
  refine ⟨by decide +kernel, _, hreaches, ?_⟩
  rw [htable]
  exact hcommitted.trans (congrArg some (hiff.2 (.inl rfl)))

/-- The file has a text when it is processed, and the name that was given in advance is lost. -/
theorem forward_name_lost :
    let config := Config.ofOptions { missing := .ignore, naming := .content }
    let document : Document := ⟨⟨"/app.css"⟩, "new", [.statement "use" ".card from './card'"]⟩
    let later : Document := ⟨⟨"/card.css"⟩, ".card {}", [.rule ".card" []]⟩
    let store := (process config document ∅).store
    (∃ cx, document.Reaches config ∅ (.ask later.key "card") cx ∧
      (cx.store.entry later.key).isPlaceholder ∧
      (Step.ask later.key "card").obtained? config cx
        = some (later.key, "card", "_card_zmb0z_1ay4d")) ∧
      (process config document ∅).result = .ok (Table.ofList [("card", "_card_zmb0z_1ay4d")]) ∧
      store.isPlaceholder later.key ∧
      "card" ∈ later.ownClasses config ∧ "card" ∉ later.labels config ∧
      (process config later store).result = .ok (Table.ofList [("card", "_card_1u84a_1")]) ∧
      (process config later store).store.table? later.key
        = some (Table.ofList [("card", "_card_1u84a_1")]) := by
  intro config document later store
  have hsteps : document.steps config = [.require later.key] ++ .ask later.key "card" ::
      [.bind (Error.useDirective ".card from './card'") "card" later.key "card"] := by
    decide +kernel
  have hbefore : (perform config [.require later.key] (document.opening ∅)).1 = .ok () := by
    decide +kernel
  refine ⟨⟨_, ⟨_, _, hsteps, Prod.ext hbefore rfl⟩, ?_, ?_⟩, ?_, ?_, ?_, ?_, ?_, ?_⟩ <;>
    decide +kernel

end ScopedCss
