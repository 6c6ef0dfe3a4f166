import ScopedCss.Proofs.Name.Base36
import ScopedCss.Proofs.Run.OwnNames

/-!
# Different classes have different names

The built-in generators write a name as `_class_first_second`, where the last two parts are digits
of some kind. So a name tells its class, whatever the hashes and lines are: what stands between the
first underscore and the last but one is the class, even if it has underscores itself.

* `generate_isNameOf`: every built-in name has this form.
* `IsNameOf.unique`: a name of this form is the name of one class only.
* `generated_names_differ`: so two classes that a document makes names for never get the same.
-/

namespace ScopedCss

open Stylesheet (Document)

namespace Name

variable {className className' name : String} {s s' t t' : List Char} {mark : Char}

/-- A text is cut at its last mark in one way only. -/
theorem eq_of_last_mark (ht : mark ∉ t) (ht' : mark ∉ t') (h : s ++ mark :: t = s' ++ mark :: t') :
    s = s' ∧ t = t' := by
  rcases List.append_eq_append_iff.1 h with ⟨more, rfl, hmore⟩ | ⟨more, rfl, hmore⟩
  all_goals
    cases more with
    | nil => simp_all
    | cons c more =>
      obtain ⟨rfl, rfl⟩ := List.cons.inj hmore
      simp at ht ht'

/-! ## Digits -/

/-- What can be read in base 36 has no underscore. -/
theorem underscore_not_mem_of_value36? {digits : List Char} {n : Nat}
    (h : value36? digits = some n) :
    '_' ∉ digits :=
  fun hmem => absurd (subset_alphabet36 h hmem) (by decide)

theorem underscore_not_mem_segment (h : UInt32) : '_' ∉ (segment h).toList :=
  underscore_not_mem_of_value36? (value36?_segment h)

theorem underscore_not_mem_decimal (n : Nat) : '_' ∉ (toString n).toList := by
  rw [Nat.toString_eq_repr, Nat.toList_repr]
  intro hmem
  cases Nat.isDigit_of_mem_toDigits (by decide) (by decide) hmem

/-! ## Names -/

/-- The name is `_class_first_second`, with no underscore in its last two parts. -/
def IsNameOf (className name : String) : Prop :=
  ∃ first second : String, '_' ∉ first.toList ∧ '_' ∉ second.toList ∧
    name = "_" ++ className ++ "_" ++ first ++ "_" ++ second

/-- A name is that of one class only. -/
theorem IsNameOf.unique (h : IsNameOf className name) (h' : IsNameOf className' name) :
    className = className' := by
  obtain ⟨first, second, hfirst, hsecond, hname⟩ := h
  obtain ⟨first', second', hfirst', hsecond', hname'⟩ := h'
  have hsame : "_" ++ className ++ "_" ++ first ++ "_" ++ second
      = "_" ++ className' ++ "_" ++ first' ++ "_" ++ second' := hname.symm.trans hname'
  have htexts : ('_' :: (className.toList ++ '_' :: first.toList)) ++ '_' :: second.toList
      = ('_' :: (className'.toList ++ '_' :: first'.toList)) ++ '_' :: second'.toList := by
    simpa [String.toList_append] using congrArg String.toList hsame
  have hfront := (eq_of_last_mark hsecond hsecond' htexts).1
  have hclass := (eq_of_last_mark hfirst hfirst' (List.cons.inj hfront).2).1
  exact String.toList_inj.1 hclass

theorem pathName_isNameOf (className : String) (p : Path) :
    IsNameOf className (pathName className p) :=
  ⟨_, _, underscore_not_mem_segment _, underscore_not_mem_segment _, rfl⟩

theorem contentName_isNameOf (className source : String) :
    IsNameOf className (contentName className source) := by
  refine ⟨_, _, ?_, underscore_not_mem_decimal _, rfl⟩
  rw [String.toList_ofList]
  exact fun hmem =>
    underscore_not_mem_of_value36? (value36?_digits36 _) (List.mem_of_mem_take hmem)

/-- Every name that a built-in generator makes is that of its class. -/
theorem generate_isNameOf (naming : Naming) (className : String) (seed : Seed) :
    IsNameOf className (naming.generate className seed) := by
  cases naming with
  | path => exact pathName_isNameOf className seed.path
  | content =>
    rw [Naming.generate]
    split
    · exact pathName_isNameOf className seed.path
    · exact contentName_isNameOf className seed.source

end Name

/-! ## Documents -/

variable {config : Config} {document : Document} {store : Store} {className : String}

/-- The document asks the generator for a name of the class: it comes to the class in local scope,
and has no name for it yet. -/
def Stylesheet.Document.Generates (config : Config) (document : Document) (store : Store)
    (className : String) : Prop :=
  ∃ cx, document.Reaches config store (.own className) cx ∧ cx.table.get? className = none

/-- All names that a document makes have the same seed. -/
theorem seed_of_reaches {step : Step} {cx : Context} (h : document.Reaches config store step cx) :
    cx.seed = document.seed := by
  obtain ⟨before, -, -, hbefore⟩ := h
  obtain ⟨hpath, -, hsource⟩ := perform_place config before (document.opening store)
  rw [hbefore] at hpath hsource
  rw [Context.seed, hpath, hsource]
  exact opening_seed

/-- A name that the document has made once is the one that its table has in the end. -/
theorem get?_finished_of_generates (h : document.Generates config store className) :
    (document.finished config store).get? className = some (document.ownName config className) := by
  obtain ⟨cx, hreaches, hnone⟩ := h
  have hname : ((Step.own className).effect config cx).table.get? className
      = some (document.ownName config className) := by
    show (cx.table.enter _ _).get? className = _
    rw [Table.get?_enter, if_pos rfl, hnone, seed_of_reaches hreaches]
    rfl
  obtain ⟨before, after, hsteps, hbefore⟩ := hreaches
  have hfinished : document.finished config store
      = (perform config after ((Step.own className).effect config cx)).2.table := by
    rw [Document.finished, Document.tableAfter, hsteps, perform_append, hbefore]
    rfl
  rw [hfinished]
  exact (le_perform config after _).1 className _ hname

/-- **Different classes have different names.** -/
theorem generated_names_differ :
    (∀ (naming naming' : Name.Naming) (className className' : String) (seed seed' : Name.Seed),
      naming.generate className seed = naming'.generate className' seed' → className = className') ∧
    ∀ (naming : Name.Naming) (config : Config) (document : Document) (store : Store)
      (className className' : String), config.generate = naming.generate →
      document.Generates config store className → document.Generates config store className' →
      className ≠ className' →
      ∃ name name', (document.finished config store).get? className = some name ∧
        (document.finished config store).get? className' = some name' ∧ name ≠ name' := by
  have hinjective (naming naming' : Name.Naming) (className className' : String)
      (seed seed' : Name.Seed)
      (h : naming.generate className seed = naming'.generate className' seed') :
      className = className' := by
    have hname := Name.generate_isNameOf naming className seed
    rw [h] at hname
    exact hname.unique (Name.generate_isNameOf naming' className' seed')
  refine ⟨hinjective, ?_⟩
  intro naming config document store className className' hgenerate h h' hne
  refine ⟨_, _, get?_finished_of_generates h, get?_finished_of_generates h', fun hsame => hne ?_⟩
  rw [Document.ownName, Document.ownName, hgenerate] at hsame
  exact hinjective _ _ _ _ _ _ hsame

/-- A class that looks like the start of a name of the other one, and two generators that make one
name. -/
theorem generated_names_differ_underscore :
    let config := Config.ofOptions {}
    let document : Document := ⟨⟨"/a.css"⟩, "", [.rule ".a .a_i649y" []]⟩
    Name.Naming.content.generate "a" ⟨⟨"/a.css"⟩, ""⟩
        = Name.Naming.path.generate "a" ⟨⟨"/a.css"⟩, ".a {}"⟩ ∧
      document.Generates config ∅ "a" ∧ document.Generates config ∅ "a_i649y" ∧
      ∃ name name', (document.finished config ∅).get? "a" = some name ∧
        (document.finished config ∅).get? "a_i649y" = some name' ∧ name ≠ name' := by
  intro config document
  have hsame : Name.Naming.content.generate "a" ⟨⟨"/a.css"⟩, ""⟩
      = Name.Naming.path.generate "a" ⟨⟨"/a.css"⟩, ".a {}"⟩ := by decide +kernel
  have hfirst : document.Generates config ∅ "a" :=
    ⟨_, ⟨[], [.own "a_i649y"], by decide +kernel, rfl⟩, by decide +kernel⟩
  have hsecond : document.Generates config ∅ "a_i649y" :=
    ⟨_, ⟨[.own "a"], [], by decide +kernel, rfl⟩, by decide +kernel⟩
  have hnames := generated_names_differ.2 .path config document ∅ "a" "a_i649y" rfl hfirst hsecond
    (by decide)
  exact ⟨hsame, hfirst, hsecond, hnames⟩

end ScopedCss
