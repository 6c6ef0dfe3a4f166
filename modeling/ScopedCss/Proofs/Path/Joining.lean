import ScopedCss.Proofs.Path.Canonical

/-!
# Joining and normalizing

A directory may be normalized before a path is joined to it: what is walked afterwards starts from
the names that are left of the directory, and these say all that matters of it.

* `Settled`: what the names of a normalized path look like, the last one first. Each step keeps it
  (`Settled.step`), and walking settled names again leaves them as they are
  (`Settled.foldl_reverse`).
* `exists_components_normalize`: a `..` is left only at the start of a relative path.
* `normalize_join`: a path joined to a directory, and to the normalized directory.
-/

namespace ScopedCss
namespace Path

variable {p r : Path} {rooted : Bool} {walked : List String} {name : String}

/-! ## The names of joined paths -/

/-- The names between the slashes of a text. -/
def namesIn (s : List Char) : List String :=
  ((s.splitOn '/').filter (!isFiller ·)).map String.ofList

@[simp] theorem namesIn_nil : namesIn [] = [] := rfl

theorem namesIn_append_slash (s t : List Char) :
    namesIn (s ++ '/' :: t) = namesIn s ++ namesIn t := by
  rw [namesIn, List.splitOn_append_cons_self, List.filter_append, List.map_append, namesIn, namesIn]

theorem namesIn_slash (s : List Char) : namesIn ('/' :: s) = namesIn s :=
  namesIn_append_slash [] s

/-- The start of a path has no name in it. -/
theorem names_eq (p : Path) : p.names = namesIn p.text.toList := by
  unfold Path.names
  generalize p.text.toList = s
  show namesIn (splitStart s).2 = namesIn s
  unfold splitStart
  split
  · next rest => exact (namesIn_slash rest).symm
  · rfl
  · next rest => exact (namesIn_slash rest).trans (namesIn_append_slash ['.'] rest).symm
  · rfl

theorem join_of_isAbsolute (h : r.isAbsolute) (dir : Path) : dir.join r = r := if_pos h

/-- A relative path is put behind the directory, with a slash between them. -/
theorem names_join (h : r.isAbsolute = false) (dir : Path) :
    (dir.join r).names = dir.names ++ r.names := by
  simp only [join, h, Bool.false_eq_true, if_false, names_eq]
  split
  · next hslash =>
    rw [String.toList_append]
    rcases Bool.or_eq_true_iff.1 hslash with hempty | hlast
    · rw [String.isEmpty_iff.1 hempty]
      rfl
    · obtain ⟨front, hfront⟩ := List.getLast?_eq_some_iff.1 (beq_iff_eq.1 hlast)
      rw [hfront, List.append_assoc, List.singleton_append, namesIn_append_slash,
        namesIn_append_slash, namesIn_nil, List.append_nil]
  · simp [namesIn_append_slash]

theorem isAbsolute_join (h : r.isAbsolute = false) (dir : Path) :
    (dir.join r).isAbsolute = dir.isAbsolute := by
  simp only [join, h, Bool.false_eq_true, if_false]
  cases hdir : dir.text.toList with
  | nil =>
    rw [String.toList_eq_nil_iff] at hdir
    simpa [hdir, isAbsolute] using h
  | cons c s => split <;> simp [isAbsolute, hdir]

/-! ## The names of normalized paths -/

/-- Names, the last one first, that no step back can be taken in: a `..` has only other ones before
it, and nothing is before the root. -/
inductive Settled (rooted : Bool) : List String → Prop
  | up (ups : Nat) (hrooted : rooted → ups = 0) : Settled rooted (List.replicate ups "..")
  | down {walked : List String} {name : String} (hname : name ≠ "..") (h : Settled rooted walked) :
      Settled rooted (name :: walked)

theorem step_up_down (hname : name ≠ "..") : step rooted (name :: walked) ".." = walked :=
  if_neg hname

theorem step_down (hname : name ≠ "..") : step rooted walked name = name :: walked :=
  if_neg hname

theorem settled_nil : Settled rooted [] := .up 0 fun _ => rfl

theorem Settled.step (h : Settled rooted walked) (name : String) :
    Settled rooted (Path.step rooted walked name) := by
  by_cases hname : name = ".."
  · subst hname
    cases h with
    | up ups hrooted =>
      cases ups with
      | zero =>
        cases rooted with
        | true => exact settled_nil
        | false => exact .up 1 nofun
      | succ ups => exact .up (ups + 2) fun h => absurd (hrooted h) ups.succ_ne_zero
    | down hlast h => rwa [step_up_down hlast]
  · rw [step_down hname]
    exact .down hname h

theorem settled_foldl (h : Settled rooted walked) (names : List String) :
    Settled rooted (names.foldl (Path.step rooted) walked) := by
  induction names generalizing walked with
  | nil => exact h
  | cons name names ih => exact ih (h.step name)

theorem foldl_ups (ups : Nat) :
    (List.replicate ups "..").foldl (Path.step false) [] = List.replicate ups ".." := by
  induction ups with
  | zero => rfl
  | succ ups ih =>
    conv => lhs; rw [List.replicate_succ', List.foldl_append, ih]
    cases ups <;> rfl

/-- Walking settled names from the start leads to them again. -/
theorem Settled.foldl_reverse (h : Settled rooted walked) :
    walked.reverse.foldl (Path.step rooted) [] = walked := by
  induction h with
  | up ups hrooted =>
    rw [List.reverse_replicate]
    cases rooted with
    | true => rw [hrooted rfl]; rfl
    | false => exact foldl_ups ups
  | @down walked name hname h ih =>
    rw [List.reverse_cons, List.foldl_append, ih]
    exact step_down hname

/-- Settled names, in the order of the path: a run of `..`, if the path is relative, and then other
names. -/
theorem Settled.exists_reverse (h : Settled rooted walked) :
    ∃ ups rest, walked.reverse = (if rooted then [] else List.replicate ups "..") ++ rest ∧
      ".." ∉ rest := by
  induction h with
  | up ups hrooted =>
    refine ⟨ups, [], ?_, List.not_mem_nil⟩
    cases rooted with
    | true => rw [hrooted rfl]; rfl
    | false => simp
  | @down walked name hname h ih =>
    obtain ⟨ups, rest, hwalked, hrest⟩ := ih
    refine ⟨ups, rest ++ [name], by rw [List.reverse_cons, hwalked, List.append_assoc], ?_⟩
    simpa [hrest] using hname.symm

/-- What is walked from the root or the start of a relative path is settled. -/
theorem settled_walk (rooted : Bool) (names : List String) :
    Settled rooted (names.foldl (Path.step rooted) []) :=
  settled_foldl settled_nil names

/-- Names that are walked already need not be walked again. -/
theorem walk_walk_append (rooted : Bool) (names more : List String) :
    walk rooted (walk rooted names ++ more) = walk rooted (names ++ more) := by
  rw [walk, walk, walk, List.foldl_append, List.foldl_append,
    (settled_walk rooted names).foldl_reverse]

theorem walk_walk (rooted : Bool) (names : List String) :
    walk rooted (walk rooted names) = walk rooted names := by
  rw [walk, walk, (settled_walk rooted names).foldl_reverse]

/-! ## Normalized paths -/

theorem isName_of_mem_walk_names (rooted : Bool) (p : Path) :
    ∀ name ∈ walk rooted p.names, IsName name :=
  isName_of_mem_walk fun _ => isName_of_mem_names

theorem names_ofNames (rooted : Bool) {names : List String} (h : ∀ name ∈ names, IsName name) :
    (ofNames rooted names).names = names := by
  rw [names_eq, toList_ofNames]
  cases rooted with
  | true => exact (namesIn_slash _).trans (splitOn_intercalate_names h)
  | false => exact splitOn_intercalate_names h

theorem isAbsolute_ofNames (rooted : Bool) {names : List String} (h : ∀ name ∈ names, IsName name) :
    (ofNames rooted names).isAbsolute = rooted := by
  rw [isAbsolute, toList_ofNames]
  cases rooted with
  | true => rfl
  | false =>
    have hstart := splitStart_intercalate h
    show ((['/'].intercalate (names.map String.toList)).head? == some '/') = false
    generalize ['/'].intercalate (names.map String.toList) = s at hstart
    rw [beq_eq_false_iff_ne]
    intro hslash
    obtain ⟨rest, rfl⟩ := List.head?_eq_some_iff.1 hslash
    cases hstart

theorem names_normalize (p : Path) : p.normalize.names = walk p.isAbsolute p.names :=
  names_ofNames _ (isName_of_mem_walk_names _ p)

theorem components_normalize (p : Path) :
    p.normalize.components
      = (if p.isAbsolute then ["/"] else []) ++ walk p.isAbsolute p.names :=
  components_ofNames _ (isName_of_mem_walk_names _ p)

theorem not_mem_components_normalize (p : Path) : "." ∉ p.normalize.components := by
  rw [components_normalize, List.mem_append]
  rintro (hroot | hname)
  · cases habsolute : p.isAbsolute <;> simp [habsolute] at hroot
  · cases (isName_of_mem_walk_names _ p "." hname).not_filler

/-- A step back is left only at the start of a relative path. -/
theorem exists_components_normalize (p : Path) :
    ∃ ups rest, p.normalize.components
      = (if p.isAbsolute then ["/"] else List.replicate ups "..") ++ rest ∧ ".." ∉ rest := by
  obtain ⟨ups, rest, hwalk, hrest⟩ := (settled_walk p.isAbsolute p.names).exists_reverse
  rw [← walk] at hwalk
  refine ⟨ups, rest, ?_, hrest⟩
  rw [components_normalize, hwalk]
  cases p.isAbsolute <;> rfl

theorem isAbsolute_normalize (p : Path) : p.normalize.isAbsolute = p.isAbsolute :=
  isAbsolute_ofNames _ (isName_of_mem_walk_names _ p)

theorem normalize_normalize (p : Path) : p.normalize.normalize = p.normalize := by
  rw [normalize, isAbsolute_normalize, names_normalize, walk_walk]
  rfl

/-- **A directory may be normalized before a path is joined to it.** -/
theorem normalize_join (dir r : Path) :
    (dir.join r).normalize = (dir.normalize.join r).normalize := by
  cases hr : r.isAbsolute with
  | true => rw [join_of_isAbsolute hr, join_of_isAbsolute hr]
  | false =>
    rw [normalize, normalize, isAbsolute_join hr, isAbsolute_join hr, names_join hr, names_join hr,
      isAbsolute_normalize, names_normalize, walk_walk_append]

end Path
end ScopedCss
