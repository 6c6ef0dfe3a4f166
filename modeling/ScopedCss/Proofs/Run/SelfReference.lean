import ScopedCss.Proofs.Run.OwnNames
import ScopedCss.Proofs.Run.Snapshot

/-!
# Documents that refer to themselves

A document that refers to itself is answered from its entry in the store, which has its own names
only. The table that it leaves may have another name for the class: the one that a directive has
bound it to. So the two agree just where no directive binds the class to another name
(`selfReference_eq_iff`), and not always (`selfReference_ne`).
-/

namespace ScopedCss

open Stylesheet (Document)

/-- Processed in this store, the document comes to let a label stand for this name. -/
def Stylesheet.Document.BindsTo (config : Config) (document : Document) (store : Store)
    (label name : String) : Prop :=
  ∃ directive target className cx,
    document.Reaches config store (.bind directive label target className) cx ∧
      cx.store.nameOf config.generate target className = name

variable {config : Config} {document : Document} {store : Store} {given : Table}
  {className label name : String}

/-! ## Labels in the finished table -/

theorem reaches_of_mem_steps (h : (process config document store).result = .ok given) {step : Step}
    (hstep : step ∈ document.steps config) : ∃ cx, document.Reaches config store step cx := by
  obtain ⟨cx, hperformed⟩ := performed_of_ok h
  exact reaches_of_mem (List.append_nil _).symm hperformed hstep

/-- A label that is bound stands for the name in the finished table. -/
theorem get?_finished_of_bindsTo (h : (process config document store).result = .ok given)
    (hbinds : document.BindsTo config store label name) :
    (document.finished config store).get? label = some name := by
  obtain ⟨directive, target, asked, cx, ⟨before, after, hsteps, hbefore⟩, rfl⟩ := hbinds
  obtain ⟨cx', hperformed⟩ := performed_of_ok h
  rw [finished_of_performed hperformed]
  unfold Document.performed at hperformed
  rw [hsteps, perform_append, hbefore] at hperformed
  exact get?_of_perform_bind hperformed

/-- A name in the finished table is the document's own one, or a directive has bound the class to
it. -/
theorem own_or_bindsTo (h : (process config document store).result = .ok given)
    (hname : (document.finished config store).get? className = some name) :
    name = document.ownName config className ∨ document.BindsTo config store className name := by
  by_cases hlabel : className ∈ document.labels config
  · right
    obtain ⟨step, hstep, hbound⟩ := List.mem_filterMap.1 hlabel
    obtain ⟨cx, hreaches⟩ := reaches_of_mem_steps h hstep
    cases step with
    | bind directive label target asked =>
      cases hbound
      have hbinds : document.BindsTo config store className _ :=
        ⟨directive, target, asked, cx, hreaches, rfl⟩
      rw [get?_finished_of_bindsTo h hbinds] at hname
      cases hname
      exact hbinds
    | fail | require | ask | addImport | own => cases hbound
  · left
    exact agrees_finished hlabel name hname

/-! ## Self references -/

/-- **What a document is told about itself.** It is processed with the usual resolver and is scoped.
A reference to one of its own classes, by either grammar or in a selector, obtains the document's
own name for it, wherever in the document the reference stands. If the table that the document
leaves has a name for this class, then the two are the same just where all directives that bind the
class bind it to this name. This is so if no directive binds it but to the class of the document
itself. -/
theorem selfReference_eq_iff (hresolve : config.resolve = Path.resolve)
    (h : (process config document store).result = .ok given) {step : Step} {cx : Context}
    (hreaches : document.Reaches config store step cx) {file : Path}
    (htarget : step.target? = some file) (hself : file.SamePlace document.key)
    (hobtained : step.obtained? config cx = some (file, className, name)) :
    name = document.ownName config className ∧
    ∃ table, (process config document store).store.table? document.key = some table ∧
      ∀ entry, table.get? className = some entry →
        (name = entry ↔ ∀ bound, document.BindsTo config store className bound → bound = name) ∧
        ((∀ file taken, document.Takes config file ⟨taken, className⟩ →
          file.SamePlace document.key ∧ taken = className) → name = entry) := by
  obtain rfl : file = document.key :=
    eq_normalize_of_mem_steps hresolve (mem_steps_of_reaches hreaches) htarget hself
  obtain rfl : name = document.ownName config className := by
    rw [(Step.obtained?_of_target htarget hobtained).2]
    exact nameOf_own hresolve hreaches className
  refine ⟨rfl, document.finished config store, table?_process h, ?_⟩
  intro entry hentry
  have hiff : document.ownName config className = entry ↔
      ∀ bound, document.BindsTo config store className bound →
        bound = document.ownName config className := by
    constructor
    · rintro rfl bound hbound
      have hget := get?_finished_of_bindsTo h hbound
      exact Option.some.inj (hget.symm.trans hentry)
    · intro hbound
      rcases own_or_bindsTo h hentry with rfl | hbinds
      · rfl
      · exact (hbound entry hbinds).symm
  refine ⟨hiff, fun htakes => hiff.2 ?_⟩
  rintro bound ⟨directive, target, taken, cx₁, hbinding, rfl⟩
  have hmem := mem_steps_of_reaches hbinding
  obtain ⟨hplace, rfl⟩ := htakes target taken (bind_mem_steps_iff_takes.1 ⟨directive, hmem⟩)
  obtain rfl : target = document.key := eq_normalize_of_mem_steps hresolve hmem rfl hplace
  exact nameOf_own hresolve hbinding taken

/-- The class is bound under another label, then referred to again and bound under its own. -/
theorem selfReference_eq_iff_bound :
    let config := Config.ofOptions { naming := .content }
    let document : Document := ⟨⟨"/a.css"⟩, "new",
      [.statement "use" "(.c as .d, .c) from './a'", .rule ".c .d" []]⟩
    ∃ cx, document.Reaches config ∅ (.ask ⟨"/a.css"⟩ "c") cx ∧
      cx.store.nameOf config.generate ⟨"/a.css"⟩ "c" = "_c_375v0_1" ∧
      ((process config document ∅).store.table? document.key).bind (·.get? "c")
        = some "_c_375v0_1" := by
  intro config document
  let directive := Error.useDirective "(.c as .d, .c) from './a'"
  let before : List Step := [.require ⟨"/a.css"⟩, .ask ⟨"/a.css"⟩ "c",
    .bind directive "d" ⟨"/a.css"⟩ "c"]
  have hsteps : document.steps config = before ++ .ask ⟨"/a.css"⟩ "c" ::
      [.bind directive "c" ⟨"/a.css"⟩ "c", .own "c", .own "d"] := by
    decide +kernel
  have hbefore : (perform config before (document.opening ∅)).1 = .ok () := by decide +kernel
  have hreaches : document.Reaches config ∅ (.ask ⟨"/a.css"⟩ "c") _ :=
    ⟨before, _, hsteps, Prod.ext hbefore rfl⟩
  have hdone : (process config document ∅).result
      = .ok (Table.ofList [("d", "_c_375v0_1"), ("c", "_c_375v0_1")]) := by
    decide +kernel
  have hself : Path.SamePlace ⟨"/a.css"⟩ document.key := by decide +kernel
  have hkept : ((process config document ∅).store.table? document.key).bind (·.get? "c")
      = some "_c_375v0_1" := by
    decide +kernel
  have htakes : ∀ declared ∈ document.declarations config, ∀ reference ∈ declared.references,
      reference.label = "c" → reference.className = "c" ∧
        (config.resolvePath document.key.directory declared.path).SamePlace document.key := by
    decide +kernel
  obtain ⟨-, table, htable, hentries⟩ := selfReference_eq_iff rfl hdone hreaches rfl hself rfl
  refine ⟨_, hreaches, ?_, hkept⟩
  rw [htable] at hkept
  apply (hentries _ hkept).2
  rintro file taken ⟨declared, hdeclared, rfl, hreference⟩
  obtain ⟨htaken, hplace⟩ := htakes declared hdeclared _ hreference rfl
  exact ⟨hplace, htaken⟩

/-- The class is bound to one of another file. The document itself is told another name for it than
those who refer to the document when it is done. -/
theorem selfReference_ne :
    let config := Config.ofOptions {}
    let store := (process config ⟨⟨"/b.css"⟩, "", [.rule ".x" []]⟩ ∅).store
    let document : Document := ⟨⟨"/a.css"⟩, "", [.statement "use" ".x as .c from './b'",
      .statement "use" ".c as .d from './a'", .rule ".c .d" []]⟩
    config.resolve = Path.resolve ∧ ∃ cx, document.Reaches config store (.ask document.key "c") cx ∧
      (Step.ask document.key "c").obtained? config cx
        = some (document.key, "c", "_c_i649y_tthz3") ∧
      (process config document store).result
        = .ok (Table.ofList [("c", "_x_i6491_tsq9z"), ("d", "_c_i649y_tthz3")]) ∧
      ((process config document store).store.table? document.key).bind (·.get? "c")
        = some "_x_i6491_tsq9z" := by
  intro config store document
  let before : List Step := [.require ⟨"/b.css"⟩, .ask ⟨"/b.css"⟩ "x",
    .bind (Error.useDirective ".x as .c from './b'") "c" ⟨"/b.css"⟩ "x", .require ⟨"/a.css"⟩]
  have hsteps : document.steps config = before ++ .ask document.key "c" ::
      [.bind (Error.useDirective ".c as .d from './a'") "d" ⟨"/a.css"⟩ "c", .own "c",
        .own "d"] := by
    decide +kernel
  have hbefore : (perform config before (document.opening store)).1 = .ok () := by decide +kernel
  refine ⟨rfl, _, ⟨before, _, hsteps, Prod.ext hbefore rfl⟩, ?_, ?_, ?_⟩ <;> decide +kernel

end ScopedCss
