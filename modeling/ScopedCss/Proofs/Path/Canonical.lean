import ScopedCss.Path.Normalize

/-!
# Normalized paths are canonical

The text of a normalized path can be read off its components, so that two normalized paths to the
same place have the same text (`normalize_eq_of_samePlace`). A name that is made from a path is
therefore the same for every spelling, if the path is normalized first.
-/

namespace ScopedCss
namespace Path

/-- A text that can be a name in a path. -/
structure IsName (name : String) : Prop where
  not_filler : isFiller name.toList = false
  no_slash : '/' ∉ name.toList

variable {p q : Path} {names : List String}

/-! ## Names -/

theorem splitOn_no_slash (s : List Char) : ∀ segment ∈ s.splitOn '/', '/' ∉ segment := by
  induction s with
  | nil => simp
  | cons c s ih =>
    rw [List.splitOn_cons_eq_if_modifyHead]
    split
    · simpa using ih
    · next hc =>
      intro segment hmem
      have hne := List.splitOn_ne_nil '/' s
      cases hsplit : s.splitOn '/' with
      | nil => exact absurd hsplit hne
      | cons first rest =>
        rw [hsplit] at hmem ih
        rcases List.mem_cons.1 hmem with rfl | hmem
        · have hfirst := ih first List.mem_cons_self
          simp only [beq_iff_eq] at hc
          simp [hfirst, Ne.symm hc]
        · exact ih segment (List.mem_cons_of_mem _ hmem)

theorem isName_of_mem_names {name : String} (h : name ∈ p.names) : IsName name := by
  unfold Path.names at h
  obtain ⟨segment, hsegment, rfl⟩ := List.mem_map.1 h
  obtain ⟨hmem, hfiller⟩ := List.mem_filter.1 hsegment
  rw [Bool.not_eq_true'] at hfiller
  exact ⟨by rwa [String.toList_ofList], by
    rw [String.toList_ofList]
    exact splitOn_no_slash _ segment hmem⟩

theorem isName_up : IsName ".." := ⟨by decide, by decide⟩

theorem isName_of_mem_step {rooted : Bool} {walked : List String} {name : String}
    (hwalked : ∀ last ∈ walked, IsName last) (hname : IsName name) :
    ∀ last ∈ step rooted walked name, IsName last := by
  unfold step
  split
  · split
    · cases rooted
      · simp [isName_up]
      · simp
    · next first before =>
      split
      · exact List.forall_mem_cons.2 ⟨isName_up, hwalked⟩
      · exact (List.forall_mem_cons.1 hwalked).2
  · exact List.forall_mem_cons.2 ⟨hname, hwalked⟩

theorem isName_of_mem_walk {rooted : Bool} (h : ∀ name ∈ names, IsName name) :
    ∀ name ∈ walk rooted names, IsName name := by
  suffices hfold : ∀ walked : List String, (∀ last ∈ walked, IsName last) →
      ∀ last ∈ names.foldl (step rooted) walked, IsName last by
    intro name hname
    exact hfold [] nofun name (List.mem_reverse.1 hname)
  induction names with
  | nil => exact fun _ hwalked => hwalked
  | cons name names ih =>
    intro walked hwalked
    obtain ⟨hname, hnames⟩ := List.forall_mem_cons.1 h
    exact ih hnames _ (isName_of_mem_step hwalked hname)

/-! ## The components of a path that is written from names -/

theorem toList_ofNames (rooted : Bool) (names : List String) :
    (ofNames rooted names).text.toList
      = (if rooted then ['/'] else []) ++ ['/'].intercalate (names.map String.toList) := by
  cases rooted <;> simp [ofNames, String.toList_intercalate]

/-- No name begins like the start of a path. -/
theorem splitStart_intercalate (h : ∀ name ∈ names, IsName name) :
    splitStart (['/'].intercalate (names.map String.toList))
      = ([], ['/'].intercalate (names.map String.toList)) := by
  cases names with
  | nil => rfl
  | cons name names =>
    obtain ⟨hfiller, hslash⟩ := h name List.mem_cons_self
    obtain ⟨tail, hrest⟩ : ∃ tail,
        ['/'].intercalate ((name :: names).map String.toList) = name.toList ++ tail := by
      cases names with
      | nil => exact ⟨[], by simp⟩
      | cons next names =>
        exact ⟨'/' :: ['/'].intercalate ((next :: names).map String.toList),
          by simp [List.intercalate_cons_cons]⟩
    rw [hrest]
    generalize name.toList = chars at hfiller hslash
    unfold splitStart
    -- each of the three starts would be in the name
    split
    · next heq =>
      cases chars with
      | nil => simp [isFiller] at hfiller
      | cons c cs => simp_all
    · next heq =>
      cases chars with
      | nil => simp [isFiller] at hfiller
      | cons c cs => simp_all [isFiller]
    · next heq =>
      match chars with
      | [] => simp [isFiller] at hfiller
      | [c] => simp_all [isFiller]
      | c :: d :: cs => simp_all
    · rfl

theorem splitOn_intercalate_names (h : ∀ name ∈ names, IsName name) :
    (((['/'].intercalate (names.map String.toList)).splitOn '/').filter (!isFiller ·)).map
      String.ofList = names := by
  by_cases hnil : names = []
  · subst hnil
    rfl
  · rw [List.splitOn_intercalate '/' ?_ (by simpa using hnil), List.filter_eq_self.2 ?_]
    · simp [Function.comp_def, String.ofList_toList]
    · simpa using fun name hname => (h name hname).not_filler
    · simpa using fun name hname => (h name hname).no_slash

theorem components_ofNames (rooted : Bool) (h : ∀ name ∈ names, IsName name) :
    (ofNames rooted names).components = (if rooted then ["/"] else []) ++ names := by
  unfold components Path.names
  rw [toList_ofNames]
  cases rooted with
  | true =>
    show String.ofList ['/'] :: _ = "/" :: names
    exact congrArg _ (splitOn_intercalate_names h)
  | false =>
    simp only [Bool.false_eq_true, if_false, List.nil_append, splitStart_intercalate h]
    exact splitOn_intercalate_names h

/-- **Normalized paths are canonical**: two of them that name the same place are the same. -/
theorem normalize_eq_of_samePlace (h : p.normalize.SamePlace q.normalize) :
    p.normalize = q.normalize := by
  have hwalk (p : Path) : ∀ name ∈ walk p.isAbsolute p.names, IsName name :=
    isName_of_mem_walk fun _ => isName_of_mem_names
  have hroot (names : List String) (hnames : ∀ name ∈ names, IsName name) : "/" ∉ names := by
    intro hmem
    exact (hnames "/" hmem).no_slash (by decide)
  unfold SamePlace normalize at h
  unfold normalize
  rw [components_ofNames _ (hwalk p), components_ofNames _ (hwalk q)] at h
  -- the root is no name, so that both paths have one or neither does
  cases hpa : p.isAbsolute <;> cases hqa : q.isAbsolute <;> simp only [hpa, hqa] at h ⊢
  · rw [show walk false p.names = walk false q.names from h]
  · have hmem : "/" ∈ walk false p.names := by
      rw [show walk false p.names = "/" :: walk true q.names from h]
      exact List.mem_cons_self
    exact absurd hmem (hroot _ (hpa ▸ hwalk p))
  · have hmem : "/" ∈ walk false q.names := by
      rw [← show "/" :: walk true p.names = walk false q.names from h]
      exact List.mem_cons_self
    exact absurd hmem (hroot _ (hqa ▸ hwalk q))
  · rw [show walk true p.names = walk true q.names from List.tail_eq_of_cons_eq h]

end Path
end ScopedCss
