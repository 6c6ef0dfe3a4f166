import Mathlib.Data.List.TakeWhile
import ScopedCss.Proofs.Document.Frame
import ScopedCss.Proofs.Path.Joining

/-!
# Directories and references

A document refers to other files from its directory. Whether this is the directory of its path or
that of its normalized path does not matter, nor does the spelling of the reference: all lead to one
text, under which the store keeps the file.

* `directory_cases`: the names of a directory are those of the path without the last one.
* `normalize_directory`: the directory of a normalized path is the normalized directory.
* `normalize_composes`: normalized paths are canonical, and references lead to the keys of the
  store.
-/

namespace ScopedCss

open Stylesheet (Document)

namespace Path

variable {p : Path} {rooted : Bool} {name : String}

/-! ## Directories -/

variable {s start body : List Char} {front segments : List (List Char)}

/-- A path starts with a slash, or with a `.` that a slash or nothing follows, or with neither. -/
theorem splitStart_cases (h : splitStart s = (start, body)) :
    start = ['/'] ∧ s.head? = some '/' ∨
    start = ['.'] ∧ s.head? = some '.' ∧ (body = [] ∨ body.head? = some '/') ∨
    start = [] ∧ body = s ∧ s.head? ≠ some '/' := by
  unfold splitStart at h
  split at h
  · cases h
    exact .inl ⟨rfl, rfl⟩
  · cases h
    exact .inr (.inl ⟨rfl, rfl, .inl rfl⟩)
  · cases h
    exact .inr (.inl ⟨rfl, rfl, .inr rfl⟩)
  · next hslash _ _ =>
    cases h
    refine .inr (.inr ⟨rfl, rfl, fun hhead => ?_⟩)
    obtain ⟨rest, hrest⟩ := List.head?_eq_some_iff.1 hhead
    exact hslash rest hrest

theorem namesIn_intercalate (h : ∀ segment ∈ segments, '/' ∉ segment) :
    namesIn (['/'].intercalate segments) = (segments.filter (!isFiller ·)).map String.ofList := by
  by_cases hnil : segments = []
  · subst hnil
    rfl
  · rw [namesIn, List.splitOn_intercalate '/' h hnil]

/-- The first segments of a text, if there is something in them, begin as the text does. -/
theorem head?_intercalate_of_prefix (h : front <+: s.splitOn '/') :
    ['/'].intercalate front = [] ∨ (['/'].intercalate front).head? = s.head? := by
  obtain ⟨behind, h⟩ := h
  cases front with
  | nil => exact .inl rfl
  | cons first front =>
    cases s with
    | nil =>
      rw [List.splitOn_nil] at h
      obtain ⟨rfl, hnone⟩ := List.cons.inj h
      obtain ⟨rfl, -⟩ := List.append_eq_nil_iff.1 hnone
      exact .inl rfl
    | cons c s =>
      rw [List.splitOn_cons_eq_if_modifyHead] at h
      by_cases hc : c = '/'
      · subst hc
        obtain ⟨rfl, -⟩ := List.cons.inj h
        cases front with
        | nil => exact .inl rfl
        | cons next front => exact .inr rfl
      · rw [if_neg (by simpa using hc)] at h
        obtain ⟨tail, rfl⟩ : ∃ tail, first = c :: tail := by
          cases hs : s.splitOn '/' with
          | nil => exact absurd hs (List.splitOn_ne_nil '/' s)
          | cons segment segments =>
            rw [hs] at h
            exact ⟨segment, (List.cons.inj h).1⟩
        right
        cases front <;> simp [List.intercalate_cons_cons]

/-- The start of a path has no name in it, whatever segments follow it. -/
theorem namesIn_start (hs : splitStart s = (start, body)) (hfront : front <+: body.splitOn '/') :
    namesIn (start ++ ['/'].intercalate front) = namesIn (['/'].intercalate front) := by
  rcases splitStart_cases hs with ⟨rfl, -⟩ | ⟨rfl, -, hbody⟩ | ⟨rfl, -, -⟩
  · exact namesIn_slash _
  · rcases head?_intercalate_of_prefix hfront with hnil | hhead
    · rw [hnil]
      rfl
    · rcases hbody with rfl | hslash
      · rw [List.head?_eq_none_iff.1 hhead]
        rfl
      · obtain ⟨tail, htail⟩ := List.head?_eq_some_iff.1 (hhead.trans hslash)
        rw [htail, namesIn_slash]
        exact namesIn_append_slash ['.'] tail
  · rfl

theorem head?_start (hs : splitStart s = (start, body)) (hfront : front <+: body.splitOn '/') :
    ((start ++ ['/'].intercalate front).head? == some '/') = (s.head? == some '/') := by
  rcases splitStart_cases hs with ⟨rfl, hslash⟩ | ⟨rfl, hdot, -⟩ | ⟨rfl, rfl, hother⟩
  · rw [hslash]
    rfl
  · rw [hdot]
    rfl
  · rcases head?_intercalate_of_prefix hfront with hnil | hhead
    · rw [hnil]
      exact (beq_eq_false_iff_ne.2 hother).symm
    · rw [List.nil_append, hhead]

/-- Fillers at the end of a path do not count. -/
theorem filter_dropWhile_reverse (segments : List (List Char)) :
    (segments.dropWhile isFiller).reverse.filter (!isFiller ·)
      = segments.reverse.filter (!isFiller ·) := by
  conv => rhs; rw [← List.takeWhile_append_dropWhile (p := isFiller) (l := segments)]
  rw [List.reverse_append, List.filter_append]
  suffices hfillers : (segments.takeWhile isFiller).reverse.filter (!isFiller ·) = [] by
    rw [hfillers, List.append_nil]
  rw [List.filter_eq_nil_iff]
  intro segment hmem
  simpa using List.mem_takeWhile_imp (List.mem_reverse.1 hmem)

/-- A path without names is in no directory; of any other one the directory has all names but the
last. -/
theorem directory_cases (p : Path) :
    p.names = [] ∧ p.directory = empty ∨
    (∃ last, p.names = p.directory.names ++ [last]) ∧ p.directory.isAbsolute = p.isAbsolute := by
  cases hs : splitStart p.text.toList with
  | mk start body =>
  have hnames : p.names
      = (((body.splitOn '/').reverse.dropWhile isFiller).reverse.filter (!isFiller ·)).map
        String.ofList := by
    rw [filter_dropWhile_reverse, List.reverse_reverse, Path.names, hs]
  have hdrop := List.dropWhile_suffix isFiller (l := (body.splitOn '/').reverse)
  have hhead := List.head?_dropWhile_not isFiller (body.splitOn '/').reverse
  simp only [directory, parent?, hs]
  generalize (body.splitOn '/').reverse.dropWhile isFiller = named at hnames hdrop hhead
  cases named with
  | nil =>
    refine .inl ⟨hnames, ?_⟩
    by_cases hdot : start = ['.'] <;> simp [hdot]
  | cons last above =>
    have hfront : (above.dropWhile isFiller).reverse <+: body.splitOn '/' := by
      rw [← List.reverse_reverse (body.splitOn '/'), List.reverse_prefix]
      exact ((List.dropWhile_suffix isFiller).trans (List.suffix_cons last above)).trans hdrop
    refine .inr ⟨⟨String.ofList last, ?_⟩, ?_⟩
    · rw [hnames, names_eq]
      dsimp only [Option.getD_some]
      rw [String.toList_ofList, namesIn_start hs hfront, namesIn_intercalate,
        filter_dropWhile_reverse, List.reverse_cons, List.filter_append, List.map_append]
      · simp_all
      · intro segment hmem
        exact splitOn_no_slash body segment (hfront.subset hmem)
    · simp only [isAbsolute, Option.getD_some, String.toList_ofList]
      exact head?_start hs hfront

theorem splitStart_ofNames {names : List String} (h : ∀ name ∈ names, IsName name) :
    splitStart (ofNames rooted names).text.toList
      = (if rooted then ['/'] else [], ['/'].intercalate (names.map String.toList)) := by
  rw [toList_ofNames]
  cases rooted with
  | true => rfl
  | false => exact splitStart_intercalate h

theorem dropWhile_isFiller_names {names : List String} (h : ∀ name ∈ names, IsName name) :
    (names.map String.toList).dropWhile isFiller = names.map String.toList := by
  cases names with
  | nil => rfl
  | cons name names =>
    rw [List.map_cons, List.dropWhile_cons_of_neg]
    simp [(h name List.mem_cons_self).not_filler]

/-- The directory of a path that is written from names is the path that is written from all but the
last. -/
theorem directory_ofNames {names : List String} (h : ∀ last ∈ names ++ [name], IsName last) :
    (ofNames rooted (names ++ [name])).directory = ofNames rooted names := by
  have hsegments : ((names ++ [name]).map String.toList).reverse
      = (name :: names.reverse).map String.toList := by
    rw [← List.map_reverse, List.reverse_append, List.reverse_singleton, List.singleton_append]
  have hreverse : ∀ last ∈ name :: names.reverse, IsName last := by
    simpa [or_comm] using h
  have hnoslash : ∀ segment ∈ (names ++ [name]).map String.toList, '/' ∉ segment := by
    intro segment hmem
    obtain ⟨last, hlast, rfl⟩ := List.mem_map.1 hmem
    exact (h last hlast).no_slash
  simp only [directory, parent?, splitStart_ofNames h]
  rw [List.splitOn_intercalate '/' hnoslash (by simp), hsegments, dropWhile_isFiller_names hreverse]
  simp only [List.map_cons, Option.getD_some]
  rw [dropWhile_isFiller_names (List.forall_mem_cons.1 hreverse).2, List.map_reverse,
    List.reverse_reverse, ← toList_ofNames, String.ofList_toList]

/-- **The directory of a normalized path is the normalized directory**, unless the path ends in a
step back. -/
theorem normalize_directory (h : p.names.getLast? ≠ some "..") :
    p.normalize.directory = p.directory.normalize := by
  rcases directory_cases p with ⟨hnone, hdirectory⟩ | ⟨⟨last, hnames⟩, habsolute⟩
  · have hnormal : p.normalize.names = [] := by
      rw [names_normalize, hnone]
      rfl
    rcases directory_cases p.normalize with ⟨-, hempty⟩ | ⟨⟨last, hnames⟩, -⟩
    · rw [hempty, hdirectory]
      rfl
    · rw [hnormal] at hnames
      cases List.append_ne_nil_of_right_ne_nil _ (List.cons_ne_nil _ _) hnames.symm
  · have hlast : last ≠ ".." := by
      rintro rfl
      exact h (by rw [hnames, List.getLast?_concat])
    have hwalk : walk p.isAbsolute p.names = walk p.isAbsolute p.directory.names ++ [last] := by
      rw [hnames, walk, walk, List.foldl_append, List.foldl_cons, List.foldl_nil, step_down hlast,
        List.reverse_cons]
    rw [normalize, hwalk, normalize, habsolute]
    apply directory_ofNames
    rw [← hwalk]
    exact isName_of_mem_walk_names _ p

end Path

/-! ## Spellings of a reference -/

/-- Seen from the directory, the declared path leads to the document when every `..` is taken to
undo the name before it. -/
def Stylesheet.Document.SpelledBy (document : Document) (dir : Path) (declared : String) : Prop :=
  (dir.join ⟨declared⟩).normalize.SamePlace document.path.normalize

namespace Path

variable {document referring : Document} {dir : Path} {declared : String}

/-- All spellings lead to the text of the document's key. -/
theorem resolve_of_spelledBy (h : document.SpelledBy dir declared) :
    resolve declared dir = document.key :=
  normalize_eq_of_samePlace h

/-- The directory that a document refers from may be the one of its key or the one of its path. -/
theorem resolve_key_directory (h : referring.path.names.getLast? ≠ some "..") (declared : String) :
    resolve declared referring.key.directory = resolve declared referring.path.directory := by
  rw [resolve, resolve, Document.key, normalize_directory h, ← normalize_join]

/-- **Normalized paths are canonical, and normalizing goes together with joining.** So whatever the
spelling of a document's path, of its directory and of a reference in it, the reference is resolved
to the very path that the store keeps the file under. -/
theorem normalize_composes :
    (∀ p : Path, "." ∉ p.normalize.components ∧
      (∃ ups rest, p.normalize.components
        = (if p.isAbsolute then ["/"] else List.replicate ups "..") ++ rest ∧ ".." ∉ rest) ∧
      p.normalize.isAbsolute = p.isAbsolute ∧ p.normalize.normalize.text = p.normalize.text) ∧
    (∀ p q : Path, p.normalize.SamePlace q.normalize → p.normalize.text = q.normalize.text) ∧
    (∀ dir r : Path, (dir.join r).normalize.text = (dir.normalize.join r).normalize.text) ∧
    ∀ (document : Document) (declared : String),
      (∀ dir : Path, document.SpelledBy dir declared →
        resolve declared dir = document.key ∧ resolve declared dir.normalize = document.key) ∧
      ∀ (referring : Document) (config : Config) (store : Store) (given : Table),
        referring.path.names.getLast? ≠ some ".." →
        document.SpelledBy referring.path.directory declared →
        (process config document store).result = .ok given →
        ∃ entry, entry.stage = .processed ∧
          (process config document store).store.slot? (resolve declared referring.key.directory)
            = some ⟨resolve declared referring.key.directory, entry⟩ := by
  refine ⟨fun p => ⟨not_mem_components_normalize p, exists_components_normalize p,
      isAbsolute_normalize p, congrArg Path.text (normalize_normalize p)⟩,
    fun p q hsame => congrArg Path.text (normalize_eq_of_samePlace hsame),
    fun dir r => congrArg Path.text (normalize_join dir r),
    fun document declared => ⟨?_, ?_⟩⟩
  · intro dir hspelled
    refine ⟨resolve_of_spelledBy hspelled, ?_⟩
    rw [resolve, ← normalize_join]
    exact resolve_of_spelledBy hspelled
  · intro referring config store given hlast hspelled hgiven
    rw [resolve_key_directory hlast, resolve_of_spelledBy hspelled]
    exact ⟨_, rfl, slot?_process hgiven⟩

/-- A reference that goes above the directory and through another one, between two documents whose
paths have fillers and steps back. -/
theorem normalize_composes_respelled :
    let document : Document := ⟨⟨"/s/x/.././b.css"⟩, ".b {}", [.rule ".b" []]⟩
    let referring : Document := ⟨⟨"//s/y/../app/./a.css"⟩, "", []⟩
    let declared := ".././/t/../b.css"
    let target := resolve declared referring.key.directory
    document.SpelledBy referring.path.directory declared ∧
      resolve declared referring.path.directory = document.key ∧
      target = ⟨"/s/b.css"⟩ ∧ ∃ entry, entry.stage = .processed ∧
        (process (Config.ofOptions {}) document ∅).store.slot? target = some ⟨target, entry⟩ := by
  intro document referring declared target
  have hspelled : document.SpelledBy referring.path.directory declared := by
    unfold Document.SpelledBy Path.SamePlace
    decide +kernel
  have hdone : (process (Config.ofOptions {}) document ∅).result
      = .ok (Table.ofList [("b", "_b_tsrsp_58u8x")]) := by
    decide +kernel
  obtain ⟨hresolve, hstored⟩ := normalize_composes.2.2.2 document declared
  exact ⟨hspelled, (hresolve _ hspelled).1, by decide +kernel,
    hstored referring _ ∅ _ (by decide +kernel) hspelled hdone⟩

end Path
end ScopedCss
