import ScopedCss.Proofs.Document.Frame
import ScopedCss.Proofs.Run.Agreement

/-!
# The names of processed files

A processed file has fixed the names of its classes. Other documents take them as they are, under
any generator, and keep them when the file is processed again.

* `entry_perform`: while another document is scoped, a processed file stays as it is.
* `get?_of_bind`: a label stands for the name that the file had when the label was bound.
* `slot?_foldl_of_spares`: a processed document keeps its entry until it is processed again.
* `stored_name_used` assembles these: every reference to a class of a processed file leads to the
  name in its table.
-/

namespace ScopedCss

open Stylesheet (Document)

/-! ## Names that are written -/

namespace Selector.Answers

/-- A piece that stands in this scope is written as this text, whatever has been written before. -/
def Writes (answers : Answers) (scope : Scope) (token : Token) (text : String) : Prop :=
  ∀ initial draft inner, draft.scope = scope →
    answers.advance initial draft token inner = draft.write text

/-- Where the label stands in local scope, this name is written after the dot. It also stands there
as the dotted alias of a reference that leads nowhere; the rest of such a reference stays. -/
structure WritesLabel (answers : Answers) (label name : String) : Prop where
  className : answers.Writes .localScope (.className label) ("." ++ name)
  unknownAlias : ∀ reference : Composition, reference.dotted → reference.aliasName = label →
    answers.composed? label reference.remote = none →
      answers.Writes .localScope (.composition reference)
        (String.ofList { reference with aliasName := name }.source)

variable {answers : Answers} {label name : String}

theorem writesLabel (h : answers.ownName label = name) : answers.WritesLabel label name := by
  constructor
  · intro initial draft inner hscope
    show draft.write ("." ++ answers.nameIn draft.scope label) = _
    rw [hscope, nameIn, h]
  · intro reference hdotted halias hunknown initial draft inner hscope
    show draft.write (answers.reference draft.scope reference) = _
    rw [hscope, Answers.reference, halias, hunknown]
    simp only [hdotted, if_true, nameIn, h]

theorem writes_composition {reference : Composition}
    (h : answers.composed? reference.aliasName reference.remote = some name) (scope : Scope) :
    answers.Writes scope (.composition reference) ("." ++ name) := by
  intro initial draft inner _
  show draft.write (answers.reference draft.scope reference) = _
  rw [Answers.reference, h]

end Selector.Answers

/-! ## Processed files while another document is scoped -/

/-- The file is processed, and its table has this name for the class. -/
def Store.Fixes (store : Store) (file : Path) (className name : String) : Prop :=
  ∃ entry, store.get? file = some entry ∧ entry.stage = .processed ∧
    entry.table.get? className = some name

variable {config : Config} {document : Document} {store : Store} {target : Path}
  {className name : String}

theorem entry_perform (hstage : (store.entry target).stage = .processed)
    (hother : ¬ document.key.SamePlace target) {steps : List Step} {ended : Except Error Unit}
    {cx : Context} (h : perform config steps (document.opening store) = (ended, cx)) :
    cx.store.entry target = store.entry target := by
  have hle := (le_perform config steps (document.opening store)).2 target
  rw [h, entry_opening, if_neg hother] at hle
  exact Entry.eq_of_processed hle hstage

/-- A label that is bound stands for the name: it was free, or it stands for this name already. -/
theorem get?_effect_bind {directive label : String} {cx : Context}
    (hfault : (Step.bind directive label target className).fault? config cx = none) :
    ((Step.bind directive label target className).effect config cx).table.get? label
      = some (cx.store.nameOf config.generate target className) := by
  show (cx.table.enter label _).get? label = _
  rw [Table.get?_enter, if_pos rfl]
  cases hknown : cx.table.get? label with
  | none => rfl
  | some known =>
    simp only [Step.fault?, hknown] at hfault
    split at hfault
    · next heq =>
      rw [heq]
      rfl
    · cases hfault

theorem get?_of_perform_bind {directive label : String} {after : List Step} {cx cx' : Context}
    (h : perform config (.bind directive label target className :: after) cx = (.ok (), cx')) :
    cx'.table.get? label = some (cx.store.nameOf config.generate target className) := by
  have hfault := fault?_of_perform_cons (congrArg Prod.fst h)
  rw [perform_cons hfault] at h
  -- no later step gives the label another name
  have hle := (le_perform config after
    ((Step.bind directive label target className).effect config cx)).1
  rw [h] at hle
  apply hle
  exact get?_effect_bind hfault

theorem get?_of_bind {steps : List Step} {directive label : String} {cx cx' : Context}
    (h : perform config steps cx = (.ok (), cx'))
    (hmem : .bind directive label target className ∈ steps) :
    ∃ before cx₁, perform config before cx = (.ok (), cx₁) ∧
      cx'.table.get? label = some (cx₁.store.nameOf config.generate target className) := by
  obtain ⟨before, after, rfl⟩ := List.append_of_mem hmem
  obtain ⟨cx₁, hbefore, hrest⟩ := perform_ok_of_append h
  exact ⟨before, cx₁, hbefore, get?_of_perform_bind hrest⟩

namespace Store.Fixes

/-- No generator is asked for a name that is fixed. -/
theorem nameOf (h : store.Fixes target className name) (hother : ¬ document.key.SamePlace target)
    {steps : List Step} {ended : Except Error Unit} {cx : Context}
    (hperform : perform config steps (document.opening store) = (ended, cx)) :
    cx.store.nameOf config.generate target className = name := by
  obtain ⟨entry, hentry, hstage, hname⟩ := h
  have hstored : store.entry target = entry := by
    rw [Store.entry, hentry]
    rfl
  rw [Store.nameOf, entry_perform (hstored ▸ hstage) hother hperform, hstored, Entry.nameOf, hname]
  rfl

theorem obtained (h : store.Fixes target className name) (hother : ¬ document.key.SamePlace target)
    {step : Step} {cx : Context} (hreaches : document.Reaches config store step cx)
    {obtained : String}
    (hobtained : step.obtained? config cx = some (target, className, obtained)) :
    obtained = name := by
  obtain ⟨before, after, -, hperform⟩ := hreaches
  cases step with
  | ask target' asked =>
    cases hobtained
    exact h.nameOf hother hperform
  | bind directive label target' asked =>
    cases hobtained
    exact h.nameOf hother hperform
  | own asked =>
    cases hobtained
    exact absurd (congrArg Path.components (path_of_performed hperform).symm) hother
  | fail | require | addImport => cases hobtained

/-- A label that the class is taken under stands for its name. -/
theorem get?_of_takes (h : store.Fixes target className name)
    (hother : ¬ document.key.SamePlace target) {cx : Context}
    (hperformed : document.performed config store = (.ok (), cx)) {label : String}
    (htakes : document.Takes config target ⟨className, label⟩) :
    cx.table.get? label = some name := by
  obtain ⟨directive, hbind⟩ := bind_mem_steps_iff_takes.2 htakes
  obtain ⟨before, cx₁, hbefore, hlabel⟩ := get?_of_bind hperformed hbind
  rw [hlabel, h.nameOf hother hbefore]

end Store.Fixes

/-! ## Processed documents while others are processed -/

/-- The call processes a document under another key. -/
def Call.Spares (key : Path) : Call → Prop
  | process _ document => ¬ document.key.SamePlace key
  | reset => False

section Spared

variable {key : Path} {slot : Slot}

theorem slot?_run_of_spares (hrest : store.AtRest) (hslot : store.slot? key = some slot)
    (hstage : slot.entry.stage = .processed) {call : Call} (hcall : call.Spares key) :
    (call.run store).slot? key = some slot ∧ (call.run store).AtRest := by
  cases call with
  | reset => exact absurd hcall id
  | process config document =>
    refine ⟨?_, atRest_process hrest⟩
    show (process config document store).store.slot? key = _
    cases hresult : (process config document store).result with
    | error error => rw [process_store_of_error hrest hresult, hslot]
    | ok given =>
      have hleaves := leaves_process hresult hcall
      rw [show store.slots[key.components]? = _ from hslot] at hleaves
      exact hleaves.eq_of_processed hstage

theorem slot?_foldl_of_spares (hrest : store.AtRest) (hslot : store.slot? key = some slot)
    (hstage : slot.entry.stage = .processed) {calls : List Call}
    (hcalls : ∀ call ∈ calls, call.Spares key) :
    (calls.foldl Call.run store).slot? key = some slot := by
  induction calls generalizing store with
  | nil => exact hslot
  | cons call calls ih =>
    obtain ⟨hcall, hothers⟩ := List.forall_mem_cons.1 hcalls
    obtain ⟨hslot', hrest'⟩ := slot?_run_of_spares hrest hslot hstage hcall
    exact ih hrest' hslot' hothers

end Spared

/-! ## References to processed files -/

/-- **References to a processed file lead to the names in its table.** A document is processed after
any calls, under any configuration, while another file is processed and has a name for a class.
Whatever the document obtains for this class, by a `@use` directive, in an `:import` rule or in a
selector, is this name.

If the document is scoped, each label that it takes the class under stands for the name in its
table, and in local scope becomes the name; a reference to the class in a selector becomes the name
in any scope. This is left as it is when the file is processed again, and by every other call that
spares the document. -/
theorem stored_name_used (calls : List Call) (config : Config) (document : Document)
    (hfixes : (storeAfter calls).Fixes target className name)
    (hother : ¬ document.key.SamePlace target) :
    (∀ step cx, document.Reaches config (storeAfter calls) step cx →
      ((Context.remoteName config target className).run cx).1 = name ∧
        ∀ obtained, step.obtained? config cx = some (target, className, obtained) →
          obtained = name) ∧
    ∀ given, (process config document (storeAfter calls)).result = .ok given →
      ∃ cx, document.performed config (storeAfter calls) = (.ok (), cx) ∧
        (process config document (storeAfter calls)).document.nodes
          = document.settled config cx.table cx.store ∧
        (∀ label, document.Takes config target ⟨className, label⟩ →
          cx.table.get? label = some name ∧
            ∀ imports,
              (answersOf config.generate imports cx.table cx.store).WritesLabel label name) ∧
        (∀ (imports : Imports) (reference : Selector.Composition),
          imports[reference.aliasName]? = some target → reference.remote = className →
            ∀ scope, (answersOf config.generate imports cx.table cx.store).Writes scope
              (.composition reference) ("." ++ name)) ∧
        (∀ config' document', document'.key.SamePlace target →
          (Call.process config' document').Spares document.key) ∧
        ∀ later, (∀ call ∈ later, call.Spares document.key) →
          (storeAfter (calls ++ .process config document :: later)).slot? document.key
            = some ⟨document.key, cx.table, some document.source, .processed⟩ := by
  constructor
  · intro step cx hreaches
    refine ⟨?_, fun _ hobtained => hfixes.obtained hother hreaches hobtained⟩
    obtain ⟨before, after, -, hperform⟩ := hreaches
    rw [(Context.remoteName_run config cx target className).1]
    exact hfixes.nameOf hother hperform
  intro given hgiven
  obtain ⟨cx, hperformed⟩ := performed_of_ok hgiven
  refine ⟨cx, hperformed, ?_, ?_, ?_, ?_, ?_⟩
  · rw [(process_of_done hperformed).2.1]
  · intro label htakes
    have hlabel := hfixes.get?_of_takes hother hperformed htakes
    refine ⟨hlabel, fun imports => Selector.Answers.writesLabel ?_⟩
    show (cx.table.get? label).getD "" = name
    rw [hlabel]
    rfl
  · rintro imports reference himport rfl scope
    apply Selector.Answers.writes_composition
    show imports[reference.aliasName]?.map _ = some name
    rw [himport, Option.map_some, hfixes.nameOf hother hperformed]
  · intro config' document' hsame hspoiled
    exact hother (hspoiled.symm.trans hsame)
  · intro later hlater
    rw [storeAfter, List.foldl_append, List.foldl_cons]
    have hrest := atRest_storeAfter calls
    exact slot?_foldl_of_spares (atRest_process hrest) (slot?_process_of_done hperformed) rfl hlater

/-- A document takes a class by a `@use` directive and in an `:import` rule, and refers to it in
global scope. The class then gets another name. -/
theorem stored_name_used_renamed :
    let config := Config.ofOptions { grammars := [.importRule, .atUse] }
    let calls : List Call := [.process config ⟨⟨"/b.css"⟩, "", [.rule ".x" []]⟩]
    let document : Document := ⟨⟨"/a.css"⟩, "", [.statement "use" "(.x as .y) from './b.css'",
      .rule ":import" [.declaration "z" "'./b.css'::x"], .rule ".y:global(.y (z::x)) .z" []]⟩
    let renamed : Call := .process { config with generate := fun className _ => className }
      ⟨⟨"/s/../b.css"⟩, "new", [.rule ".x" []]⟩
    let name := "_x_i6491_tsq9z"
    let after := storeAfter (calls ++ .process config document :: [renamed])
    ∃ cx, document.performed config (storeAfter calls) = (.ok (), cx) ∧
      cx.table.get? "y" = some name ∧ cx.table.get? "z" = some name ∧
      document.settled config cx.table cx.store
        = [.rule "._x_i6491_tsq9z.y ._x_i6491_tsq9z ._x_i6491_tsq9z" []] ∧
      after.slot? document.key = some ⟨document.key, cx.table, some "", .processed⟩ ∧
      after.table? ⟨"/b.css"⟩ = some (Table.ofList [("x", "x")]) := by
  intro config calls document renamed name after
  have hfixes : (storeAfter calls).Fixes ⟨"/b.css"⟩ "x" name :=
    ⟨⟨Table.ofList [("x", name)], some "", .processed⟩, by decide +kernel⟩
  have hother : ¬ document.key.SamePlace ⟨"/b.css"⟩ := by decide +kernel
  have hdone : (process config document (storeAfter calls)).result
      = .ok (Table.ofList [("y", name), ("z", name)]) := by
    decide +kernel
  have htakes : ∀ label ∈ ["y", "z"], document.Takes config ⟨"/b.css"⟩ ⟨"x", label⟩ := by
    unfold Document.Takes
    decide +kernel
  obtain ⟨-, hscoped⟩ := stored_name_used calls config document hfixes hother
  obtain ⟨cx, hperformed, hnodes, hlabels, -, hspares, hlater⟩ := hscoped _ hdone
  have hwritten : (process config document (storeAfter calls)).document.nodes
      = [.rule "._x_i6491_tsq9z.y ._x_i6491_tsq9z ._x_i6491_tsq9z" []] := by
    decide +kernel
  refine ⟨cx, hperformed, (hlabels "y" (htakes "y" (by decide))).1,
    (hlabels "z" (htakes "z" (by decide))).1, hnodes.symm.trans hwritten, ?_, by decide +kernel⟩
  apply hlater
  intro call hcall
  obtain rfl := List.mem_singleton.1 hcall
  exact hspares _ _ (by decide +kernel)

end ScopedCss
