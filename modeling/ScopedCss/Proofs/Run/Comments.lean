import ScopedCss.Proofs.Run.Agreement
import ScopedCss.Proofs.Selector.Beside
import ScopedCss.Proofs.Step.Simulation
import ScopedCss.Proofs.Stylesheet.Comments

/-!
# A comment in a stylesheet

Comments are dropped where a node starts. Within the prelude of a rule a comment stays, and the
selector is rewritten with it. If the generator makes names from paths, such a comment changes
nothing but itself, as long as no piece of it means anything: neither the text of a document matters
to its names, nor do two selectors that ask for the same.

* `performed_sameBesides`: with names from paths, a document depends on its steps and not on its
  text.
* `AskAlike.process`: documents that are the same but for two selectors that ask for the same.
* `processText_commented`: a stylesheet with a comment in the selector of a rule.
-/

namespace ScopedCss

open Stylesheet (Node Document Reselected)

variable {config : Config} {generate : String → Path → String} {old new : String}
  {nodes nodes' : List Node} {document document' : Document} {store : Store}

/-! ## The text of a document -/

/-- The context of a document with another text. -/
def Context.withSource (cx : Context) (source : String) : Context := { cx with source }

/-- Steps do not look at the text of the document if names are made from paths. -/
theorem effect_withSource (hgenerate : NamesByPath config generate) (step : Step) (cx : Context)
    (source : String) :
    step.effect config (cx.withSource source) = (step.effect config cx).withSource source := by
  cases step with
  | own className =>
    have hname : config.generate className (cx.withSource source).seed
        = config.generate className cx.seed := by
      rw [hgenerate, hgenerate]
      rfl
    rw [Step.effect, hname]
    rfl
  | fail | require | ask | bind | addImport => rfl

theorem perform_withSource (hgenerate : NamesByPath config generate) (steps : List Step)
    (cx : Context) (source : String) :
    perform config steps (cx.withSource source)
      = ((perform config steps cx).1, (perform config steps cx).2.withSource source) := by
  induction steps generalizing cx with
  | nil => rfl
  | cons step steps ih =>
    have hfault : step.fault? config (cx.withSource source) = step.fault? config cx := by
      cases step <;> rfl
    simp only [perform, hfault, effect_withSource hgenerate]
    cases step.fault? config cx with
    | some error => rfl
    | none => exact ih _

/-- The entries are the same but for the text of the file. -/
def Entry.SameBesides (entry entry' : Entry) : Prop :=
  entry.table = entry'.table ∧ entry.stage = entry'.stage

theorem indistinct_sameBesides (hgenerate : NamesByPath config generate) (files : Path → Prop) :
    Indistinct config files fun _ => Entry.SameBesides where
  refl _ _ := ⟨rfl, rfl⟩
  isPlaceholder h := by rw [Entry.isPlaceholder, Entry.isPlaceholder, h.2]
  nameOf h className := by rw [Entry.nameOf, Entry.nameOf, h.1, hgenerate, hgenerate]
  remember _ _ _ h className := by
    unfold Entry.remember
    rw [h.1, h.2, hgenerate, hgenerate]
    split
    · exact h
    · exact ⟨rfl, rfl⟩

/-- **The text of a document does not matter** if names are made from paths, but for the steps that
it takes. -/
theorem performed_sameBesides (hgenerate : NamesByPath config generate)
    (hpath : document'.path = document.path)
    (hsteps : document'.steps config = document.steps config) (store : Store) :
    (document'.performed config store).1 = (document.performed config store).1 ∧
      (document'.performed config store).2.table = (document.performed config store).2.table ∧
      ∀ file, ((document'.performed config store).2.store.entry file).SameBesides
        ((document.performed config store).2.store.entry file) := by
  have hkey : document'.key = document.key := congrArg Path.normalize hpath
  have hopening : Similar (fun _ => True) (fun _ => Entry.SameBesides)
      ((document'.opening store).withSource document.source) (document.opening store) := by
    refine ⟨?_, ?_, fun file _ => ?_⟩
    · rw [opening_seed, ← hkey]
      rfl
    · rw [opening_table]
      rfl
    · show ((document'.opening store).store.entry file).SameBesides _
      rw [entry_opening, entry_opening, hkey]
      split <;> exact ⟨rfl, rfl⟩
  obtain ⟨hended, hsimilar⟩ := perform_similar (indistinct_sameBesides hgenerate _) hopening
    fun step (_ : step ∈ document.steps config) _ _ => trivial
  rw [perform_withSource hgenerate] at hended hsimilar
  rw [Document.performed, Document.performed, hsteps]
  exact ⟨hended, hsimilar.table, fun file => hsimilar.entries file trivial⟩

/-! ## Documents with another selector -/

theorem isDirective_rule (config : Config) {selector : String}
    (h : Text.trimText selector ≠ ":import") (nodes : List Node) :
    isDirective config (.rule selector nodes) = false := by
  rw [isDirective, grammar?, if_neg h]
  rfl

/-- In an `:import` rule a rule is a fault, whatever its selector is. -/
theorem importSteps_reselected (directory : Path) (h : Reselected old new nodes nodes') :
    nodes'.flatMap (importSteps config directory)
      = nodes.flatMap (importSteps config directory) := by
  induction h with
  | here | inRule | inBlock => rfl
  | later node h ih => rw [List.flatMap_cons, List.flatMap_cons, ih]

/-- The selectors are not those of directives, and they ask for the same. -/
structure AskAlike (config : Config) (selector selector' : String) : Prop where
  ne_import : Text.trimText selector ≠ ":import"
  ne_import' : Text.trimText selector' ≠ ":import"
  requests : ∀ known, Selector.requests known (Selector.defaultScope config.modules) selector'
    = Selector.requests known (Selector.defaultScope config.modules) selector

theorem AskAlike.selectorSteps (halike : AskAlike config old new) (imports : Imports) :
    selectorSteps config imports new = ScopedCss.selectorSteps config imports old := by
  rw [ScopedCss.selectorSteps, halike.requests]
  rfl

/-- Documents that are the same but for two such selectors take the same steps. -/
theorem AskAlike.stepsOf (halike : AskAlike config old new) (directory : Path)
    (h : Reselected old new nodes nodes') (imports : Imports) :
    stepsOf config directory imports nodes' = ScopedCss.stepsOf config directory imports nodes := by
  induction h generalizing imports with
  | here inside rest =>
    simp only [ScopedCss.stepsOf, isDirective_rule config halike.ne_import,
      isDirective_rule config halike.ne_import', nodeSteps, halike.selectorSteps]
    rfl
  | @inRule nodes nodes' selector rest h ih =>
    have hdirective : isDirective config (.rule selector nodes')
        = isDirective config (.rule selector nodes) := rfl
    simp only [ScopedCss.stepsOf, hdirective, directiveSteps, importSteps_reselected directory h,
      nodeSteps, ih]
  | @inBlock nodes nodes' name params rest h ih =>
    have hdirective : isDirective config (.block name params nodes')
        = isDirective config (.block name params nodes) := rfl
    simp only [ScopedCss.stepsOf, hdirective, directiveSteps, nodeSteps, ih]
  | later node h ih => rw [ScopedCss.stepsOf, ScopedCss.stepsOf, ih]

/-- Nodes that are the same, but maybe for the selector of one rule, which has the text put in. -/
def SameButSelector (text : String) (nodes nodes' : List Node) : Prop :=
  nodes' = nodes ∨ ∃ plain commented, Selector.SameBut text plain commented ∧
    Reselected plain commented nodes nodes'

namespace SameButSelector

variable {text : String}

theorem cons (h : SameButSelector text nodes nodes') (node : Node) :
    SameButSelector text (node :: nodes) (node :: nodes') := by
  rcases h with rfl | ⟨plain, commented, hsame, h⟩
  · exact .inl rfl
  · exact .inr ⟨plain, commented, hsame, .later node h⟩

theorem rule (h : SameButSelector text nodes nodes') (selector : String) (rest : List Node) :
    SameButSelector text (.rule selector nodes :: rest) (.rule selector nodes' :: rest) := by
  rcases h with rfl | ⟨plain, commented, hsame, h⟩
  · exact .inl rfl
  · exact .inr ⟨plain, commented, hsame, .inRule selector rest h⟩

theorem block (h : SameButSelector text nodes nodes') (name params : String) (rest : List Node) :
    SameButSelector text (.block name params nodes :: rest)
      (.block name params nodes' :: rest) := by
  rcases h with rfl | ⟨plain, commented, hsame, h⟩
  · exact .inl rfl
  · exact .inr ⟨plain, commented, hsame, .inBlock name params rest h⟩

end SameButSelector

/-- Documents that are the same but for two such selectors become the same but for the selectors.
Where the rule stands in a directive, it is left out. -/
theorem AskAlike.settle {text : String} (halike : AskAlike config old new)
    (htext : ∀ answers : Selector.Answers, Selector.SameBut text
      (answers.text (Selector.defaultScope config.modules) old)
      (answers.text (Selector.defaultScope config.modules) new))
    (h : Reselected old new nodes nodes') (directory : Path) (table : Table) (names : Store)
    (imports : Imports) :
    SameButSelector text (settle config directory table names imports nodes)
      (ScopedCss.settle config directory table names imports nodes') := by
  induction h generalizing imports with
  | here inside rest =>
    simp only [ScopedCss.settle, isDirective_rule config halike.ne_import,
      isDirective_rule config halike.ne_import', nodeSteps, halike.selectorSteps, settleNode]
    exact .inr ⟨_, _, htext _, .here _ _⟩
  | @inRule nodes nodes' selector rest h ih =>
    have hdirective : isDirective config (.rule selector nodes')
        = isDirective config (.rule selector nodes) := rfl
    simp only [ScopedCss.settle, hdirective, directiveSteps, importSteps_reselected directory h,
      nodeSteps, halike.stepsOf directory h, settleNode]
    split
    · exact .inl rfl
    · exact (ih imports).rule _ _
  | @inBlock nodes nodes' name params rest h ih =>
    have hdirective : isDirective config (.block name params nodes')
        = isDirective config (.block name params nodes) := rfl
    simp only [ScopedCss.settle, hdirective, directiveSteps, nodeSteps, halike.stepsOf directory h,
      settleNode]
    split
    · exact .inl rfl
    · exact (ih imports).block _ _ _
  | later node h ih =>
    rw [ScopedCss.settle, ScopedCss.settle]
    split
    · exact ih _
    · exact (ih _).cons _

/-- If names are made from paths, documents that are the same but for two such selectors have the
same table and become the same but for the selectors. -/
theorem AskAlike.process {text : String} (halike : AskAlike config old new)
    (htext : ∀ answers : Selector.Answers, Selector.SameBut text
      (answers.text (Selector.defaultScope config.modules) old)
      (answers.text (Selector.defaultScope config.modules) new))
    (hgenerate : NamesByPath config generate) (hpath : document'.path = document.path)
    (hnodes : Reselected old new document.nodes document'.nodes) {given : Table}
    (hresult : (process config document store).result = .ok given) :
    (process config document' store).result = .ok given ∧
      SameButSelector text (ScopedCss.process config document store).document.nodes
        (ScopedCss.process config document' store).document.nodes := by
  have hkey : document'.key = document.key := congrArg Path.normalize hpath
  have hsteps : document'.steps config = document.steps config := by
    rw [Document.steps, Document.steps, hkey, halike.stepsOf _ hnodes]
  obtain ⟨hended, htable, hentries⟩ := performed_sameBesides hgenerate hpath hsteps store
  obtain ⟨cx, hperformed⟩ := performed_of_ok hresult
  match hperformed' : document'.performed config store with
  | (ended, cx') =>
    rw [hperformed, hperformed'] at hended htable hentries
    obtain rfl : ended = .ok () := hended
    obtain ⟨hdone, hscoped, -⟩ := process_of_done hperformed
    obtain ⟨hdone', hscoped', -⟩ := process_of_done hperformed'
    have hsettled : document'.settled config cx'.table cx'.store
        = document'.settled config cx.table cx.store := by
      rw [htable]
      have hnames : SameNames config (fun _ => True) cx'.store cx.store := fun file _ =>
        (indistinct_sameBesides hgenerate fun _ => True).nameOf (hentries file)
      exact settle_congr hnames ∅ (fun _ _ _ => trivial) _ fun _ _ _ _ => trivial
    rw [hdone', hscoped', hscoped, hsettled, htable, ← hdone, hresult]
    refine ⟨rfl, ?_⟩
    show SameButSelector text (document.settled config cx.table cx.store)
      (document'.settled config cx.table cx.store)
    rw [Document.settled, Document.settled, hkey]
    exact halike.settle htext hnodes _ _ _ _

/-! ## From text to text -/

/-- Trimming takes away nothing but blanks. -/
theorem mem_trim {c : Char} {s : List Char} (hc : Text.isBlank c = false) (h : c ∈ s) :
    c ∈ Text.trim s := by
  have hdrop {s : List Char} (h : c ∈ s) : c ∈ s.dropWhile Text.isBlank := by
    rw [← List.takeWhile_append_dropWhile (p := Text.isBlank) (l := s), List.mem_append] at h
    refine h.resolve_left fun htake => ?_
    cases hc.symm.trans (List.mem_takeWhile_imp htake)
  exact List.mem_reverse.2 (hdrop (List.mem_reverse.2 (hdrop h)))

theorem askAlike_of_inserted {content : String} (hold : Text.trimText old ≠ ":import")
    (h : Selector.Inserted (Selector.defaultScope config.modules) content old new) :
    AskAlike config old new := by
  refine ⟨hold, fun himport => ?_, fun known => Selector.requests_inserted h⟩
  have hslash : '/' ∈ new.toList := by
    cases h <;> simp [Selector.comment]
  have hmem : '/' ∈ (Text.trimText new).toList := by
    rw [Text.trimText, String.toList_ofList]
    exact mem_trim rfl hslash
  rw [himport] at hmem
  exact absurd hmem (by decide)

theorem processText_eq_ok_iff {path : Path} {source : String} {output : Output} :
    (processText config path source store).result = .ok output ↔
      ∃ nodes, (Stylesheet.read source).2 = .ok nodes ∧
        (process config ⟨path, source, nodes⟩ store).result = .ok output.table ∧
        output.css = Stylesheet.print
          (process config ⟨path, source, nodes⟩ store).document.nodes := by
  obtain ⟨css, table⟩ := output
  simp only [processText, Document.read]
  cases (Stylesheet.read source).2 with
  | error fault => simp [Except.map]
  | ok nodes =>
    simp only [Except.map]
    cases hresult : (process config ⟨path, source, nodes⟩ store).result with
    | error error => simp [hresult]
    | ok given => simp [hresult, eq_comm, and_comm, Document.text]

/-- **A comment in the selector of a rule.** The generator makes names from paths, and the
stylesheet can be processed. A comment is put into the prelude of a rule that is no directive, right
behind a separator and outside all brackets. If it means nothing in the scope in force there and
does not run into what follows, then the stylesheet can be processed with it. The table is the same,
and the nodes are the same but for the selector of the rule. This one has the same words, and the
comment in one of its branches.

The condition on the comment suffices and is not necessary. `IsSilent` leaves out a comment with a
comma where the initial scope is in force and a comment with a reference to an unknown alias, and
`Inserted` leaves out a comment between a sign and a blank, though none of these need change
anything. -/
theorem processText_commented {content source commented : String} {path : Path} {output : Output}
    (hgenerate : NamesByPath config generate)
    (hcommented : Stylesheet.Commented content source commented old new)
    (hcontent : ¬ ['*', '/'] <:+: content.toList) (hrule : Text.trimText old ≠ ":import")
    (hinserted : Selector.Inserted (Selector.defaultScope config.modules) content old new)
    (hresult : (processText config path source store).result = .ok output) :
    ∃ nodes nodes', output.css = Stylesheet.print nodes ∧
      (processText config path commented store).result
        = .ok ⟨Stylesheet.print nodes', output.table⟩ ∧
      SameButSelector (Selector.comment content) nodes nodes' := by
  obtain ⟨nodes, hread, hprocess, hcss⟩ := processText_eq_ok_iff.1 hresult
  obtain ⟨nodes', hread', hreselected⟩ := hcommented.read hcontent hread
  have halike := askAlike_of_inserted hrule hinserted
  obtain ⟨hprocess', hscoped⟩ := AskAlike.process halike
    (fun answers => Selector.text_inserted hinserted answers) hgenerate
    (show Document.path ⟨path, commented, nodes'⟩ = Document.path ⟨path, source, nodes⟩ from rfl)
    hreselected hprocess
  exact ⟨_, _, hcss, processText_eq_ok_iff.2 ⟨nodes', hread', hprocess', rfl⟩, hscoped⟩

/-- The comment of the following example stands in the prelude of a rule inside a block. -/
theorem commented_inside :
    Stylesheet.Commented " x " "@media print {.a .b {}}"
      "@media print {.a /* x */.b {}}" ".a .b" ".a /* x */.b" := by
  have hrule : Stylesheet.InRule ".a".toList " .b ".toList (" .b ".toList ++ "{}".toList)
      ".a .b {}".toList := by
    refine .here (by decide +kernel) (by decide +kernel) (by decide +kernel) (by decide +kernel) ?_
    refine .past (s := "a .b {}".toList) (by decide +kernel) (by decide +kernel) ?_
    exact .past (c := 'a') (by decide +kernel) (by decide +kernel) .here
  have hplace : Stylesheet.InRule ".a".toList " .b ".toList " .b \x7b\x7d\x7d".toList
      "@media print {.a .b {}}".toList :=
    @Stylesheet.InRule.inside _ _ _ "@media print {.a .b {}}".toList _ "\x7d".toList _
      (by decide +kernel) (by decide +kernel) (by decide +kernel) hrule
  exact @Stylesheet.Commented.behind " x " ' ' "@media print \x7b.a".toList ".b \x7b\x7d\x7d".toList
    ".a".toList ".b ".toList rfl hplace

/-- A comment in a rule inside a block. -/
theorem processText_commented_inside :
    let config := Config.ofOptions {}
    let output : Output :=
      ⟨"@media print \x7b\n  ._a_i649y_tthz1 ._b_i649y_tthz2 \x7b\n  \x7d\n\x7d\n",
      Table.ofList [("a", "_a_i649y_tthz1"), ("b", "_b_i649y_tthz2")]⟩
    NamesByPath config Name.pathName ∧
      (processText config ⟨"/a.css"⟩ "@media print {.a .b {}}" ∅).result = .ok output ∧
      ∃ nodes nodes', output.css = Stylesheet.print nodes ∧
        (processText config ⟨"/a.css"⟩ "@media print {.a /* x */.b {}}" ∅).result
          = .ok ⟨Stylesheet.print nodes', output.table⟩ ∧
        SameButSelector (Selector.comment " x ") nodes nodes' := by
  intro config output
  have hgenerate : NamesByPath config Name.pathName := namesByPath_ofOptions rfl
  have hresult : (processText config ⟨"/a.css"⟩ "@media print {.a .b {}}" ∅).result
      = .ok output := by
    decide +kernel
  have hinserted : Selector.Inserted .localScope " x " ".a .b" ".a /* x */.b" :=
    @Selector.Inserted.between _ _ ".a .b" [.className "a"] [.className "b"] " " ""
      (by decide +kernel) (by decide) (fun _ _ hmem => by cases hmem; rfl)
      (Selector.isSilent_of_forall (by decide) _)
  exact ⟨hgenerate, hresult,
    processText_commented hgenerate commented_inside (by decide) (by decide) hinserted hresult⟩

/-- A class in a comment is scoped like any other, so that the comment changes the table. -/
theorem processText_commented_class :
    let config := Config.ofOptions {}
    Stylesheet.Commented " .b " ".a  .c {}" ".a /* .b */ .c {}" ".a  .c" ".a /* .b */ .c" ∧
      NamesByPath config Name.pathName ∧ ¬ ['*', '/'] <:+: " .b ".toList ∧
      (processText config ⟨"/a.css"⟩ ".a  .c {}" ∅).result
        = .ok ⟨"._a_i649y_tthz1  ._c_i649y_tthz3 \x7b\n\x7d\n",
          Table.ofList [("a", "_a_i649y_tthz1"), ("c", "_c_i649y_tthz3")]⟩ ∧
      (processText config ⟨"/a.css"⟩ ".a /* .b */ .c {}" ∅).result
        = .ok ⟨"._a_i649y_tthz1 /* ._b_i649y_tthz2 */ ._c_i649y_tthz3 \x7b\n\x7d\n",
          Table.ofList [("a", "_a_i649y_tthz1"), ("b", "_b_i649y_tthz2"),
            ("c", "_c_i649y_tthz3")]⟩ := by
  refine ⟨?_, namesByPath_ofOptions rfl, by decide, by decide +kernel, by decide +kernel⟩
  have hrule : Stylesheet.InRule ".a".toList "  .c ".toList ("  .c ".toList ++ "{}".toList)
      ".a  .c {}".toList := by
    refine .here (by decide +kernel) (by decide +kernel) (by decide +kernel) (by decide +kernel) ?_
    refine .past (s := "a  .c {}".toList) (by decide +kernel) (by decide +kernel) ?_
    exact .past (c := 'a') (by decide +kernel) (by decide +kernel) .here
  exact @Stylesheet.Commented.behind " .b " ' ' ".a".toList " .c {}".toList ".a".toList
    " .c ".toList rfl hrule

end ScopedCss
