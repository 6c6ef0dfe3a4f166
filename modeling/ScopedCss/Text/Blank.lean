/-!
# Blank characters

The blanks that separate words in selectors, directives and paths are the characters with the
Unicode property `White_Space`; trimming a text removes them at both ends.

* `trimStart`, `trimEnd`, `trim` remove blanks at one end or at both.
* `trimText` is `trim` on a `String`.
-/

namespace ScopedCss
namespace Text

/-- The characters with the Unicode property `White_Space`. -/
def isBlank (c : Char) : Bool :=
  let n := c.toNat
  (0x09 ≤ n && n ≤ 0x0D) || n == 0x20 || n == 0x85 || n == 0xA0 || n == 0x1680
    || (0x2000 ≤ n && n ≤ 0x200A) || n == 0x2028 || n == 0x2029 || n == 0x202F
    || n == 0x205F || n == 0x3000

/-- The text without its leading blanks. -/
def trimStart (s : List Char) : List Char := s.dropWhile isBlank

/-- The text without its trailing blanks. -/
def trimEnd (s : List Char) : List Char := (s.reverse.dropWhile isBlank).reverse

/-- The text without the blanks at its two ends. -/
def trim (s : List Char) : List Char := trimEnd (trimStart s)

/-- The string without the blanks at its two ends. -/
def trimText (s : String) : String := String.ofList (trim s.toList)

/-- A text with no other character than blanks; the empty text is one. -/
def isBlankText (s : List Char) : Bool := s.all isBlank

/-! ### Length facts -/

theorem length_dropWhile_le (p : Char → Bool) (s : List Char) :
    (s.dropWhile p).length ≤ s.length :=
  (List.dropWhile_sublist p).length_le

theorem length_trimStart_le (s : List Char) : (trimStart s).length ≤ s.length :=
  length_dropWhile_le _ _

variable {c : Char} {s rest left right : List Char}

/-! ### Runs of characters -/

theorem isBlankText_cons : isBlankText (c :: s) ↔ isBlank c ∧ isBlankText s := by
  rw [isBlankText, List.all_cons, Bool.and_eq_true, isBlankText]

/-- A run of characters that is cut off where the next one is of another kind. -/
theorem span_append {p : Char → Bool} (hall : s.all p) (hstop : rest.head?.any p = false) :
    (s ++ rest).takeWhile p = s ∧ (s ++ rest).dropWhile p = rest := by
  induction s with
  | nil =>
    cases rest with
    | nil => exact ⟨rfl, rfl⟩
    | cons c rest => simp_all
  | cons c s ih =>
    rw [List.all_cons, Bool.and_eq_true] at hall
    obtain ⟨htake, hdrop⟩ := ih hall.2
    rw [List.cons_append, List.takeWhile_cons_of_pos hall.1, List.dropWhile_cons_of_pos hall.1]
    exact ⟨congrArg (c :: ·) htake, hdrop⟩

theorem head?_any_dropWhile (p : Char → Bool) (s : List Char) :
    (s.dropWhile p).head?.any p = false := by
  have hhead := List.head?_dropWhile_not p s
  cases hs : (s.dropWhile p).head? with
  | none => rfl
  | some c => simpa [hs] using hhead

theorem getLast?_any_of_forall {p : Char → Bool} (h : ∀ c ∈ s, p c = false) :
    s.getLast?.any p = false := by
  cases hs : s.getLast? with
  | none => rfl
  | some c => exact h c (List.mem_of_getLast? hs)

/-! ### Trimmed texts -/

theorem trimStart_eq_self_iff : trimStart s = s ↔ s.head?.any isBlank = false := by
  cases s with
  | nil => simp [trimStart]
  | cons c s =>
    by_cases hc : isBlank c
    · have hlength := length_trimStart_le s
      have hshorter : trimStart (c :: s) ≠ c :: s := by
        rw [trimStart, List.dropWhile_cons_of_pos hc]
        intro hsame
        rw [trimStart, hsame, List.length_cons] at hlength
        omega
      simp [hshorter, hc]
    · simp [trimStart, hc]

theorem trimEnd_eq_self_iff : trimEnd s = s ↔ s.getLast?.any isBlank = false := by
  rw [trimEnd, List.reverse_eq_iff, ← List.head?_reverse]
  exact trimStart_eq_self_iff

theorem length_trimEnd_le (s : List Char) : (trimEnd s).length ≤ s.length := by
  rw [trimEnd, List.length_reverse]
  exact Nat.le_trans (length_dropWhile_le _ _) (Nat.le_of_eq List.length_reverse)

/-- A text is trimmed if neither its first nor its last character is a blank. -/
theorem trim_eq_self_iff :
    trim s = s ↔ s.head?.any isBlank = false ∧ s.getLast?.any isBlank = false := by
  rw [← trimStart_eq_self_iff, ← trimEnd_eq_self_iff]
  constructor
  · intro h
    have hstart : trimStart s = s := by
      apply (List.dropWhile_suffix isBlank).eq_of_length_le
      have hlength := length_trimEnd_le (trimStart s)
      rwa [← trim, h] at hlength
    rw [trim, hstart] at h
    exact ⟨hstart, h⟩
  · rintro ⟨hstart, hend⟩
    rw [trim, hstart, hend]

theorem trim_cons_blank (hc : isBlank c) : trim (c :: s) = trim s := by
  rw [trim, trimStart, List.dropWhile_cons_of_pos hc]
  rfl

/-- Nothing is left of a text of blanks. -/
theorem trimText_of_isBlankText {text : String} (h : isBlankText text.toList) :
    trimText text = "" := by
  have htrim : ∀ s : List Char, s.all isBlank → trim s = [] := by
    intro s hs
    induction s with
    | nil => rfl
    | cons c s ih =>
      rw [List.all_cons, Bool.and_eq_true] at hs
      rw [trim_cons_blank hs.1, ih hs.2]
  rw [trimText, htrim _ h]

theorem trim_append_blank (hc : isBlank c) : trim (s ++ [c]) = trim s := by
  have hend (s : List Char) : trimEnd (s ++ [c]) = trimEnd s := by
    rw [trimEnd, List.reverse_append, List.reverse_singleton, List.singleton_append,
      List.dropWhile_cons_of_pos hc]
    rfl
  rw [trim, trimStart, List.dropWhile_append]
  split
  · next hnone =>
    rw [trim, trimStart, List.isEmpty_iff.1 hnone, List.dropWhile_cons_of_pos hc]
    rfl
  · exact hend _

/-- Trimming takes blanks off the ends. -/
theorem exists_trim (s : List Char) :
    ∃ left right, isBlankText left ∧ isBlankText right ∧ s = left ++ (trim s ++ right) := by
  refine ⟨s.takeWhile isBlank, ((trimStart s).reverse.takeWhile isBlank).reverse, ?_, ?_, ?_⟩
  · exact List.all_takeWhile
  · rw [isBlankText, List.all_reverse]
    exact List.all_takeWhile
  · rw [trim, trimEnd, ← List.reverse_append, List.takeWhile_append_dropWhile, List.reverse_reverse,
      trimStart, List.takeWhile_append_dropWhile]

/-- Blanks at the ends do not matter. -/
theorem trim_surrounded (hleft : isBlankText left) (hright : isBlankText right) (s : List Char) :
    trim (left ++ (s ++ right)) = trim s := by
  have hstart : trim (left ++ (s ++ right)) = trim (s ++ right) := by
    induction left with
    | nil => rfl
    | cons c left ih =>
      rw [isBlankText_cons] at hleft
      rw [List.cons_append, trim_cons_blank hleft.1, ih hleft.2]
  rw [hstart]
  clear hstart
  induction right generalizing s with
  | nil => rw [List.append_nil]
  | cons c right ih =>
    rw [isBlankText_cons] at hright
    rw [← List.singleton_append, ← List.append_assoc, ih hright.2, trim_append_blank hright.1]

theorem trim_trim (s : List Char) : trim (trim s) = trim s := by
  obtain ⟨left, right, hleft, hright, hs⟩ := exists_trim s
  conv => rhs; rw [hs, trim_surrounded hleft hright]

/-- Trimming at the end stops at a character that is no blank. -/
theorem trimEnd_append_cons (hc : isBlank c = false) (s rest : List Char) :
    trimEnd (s ++ c :: rest) = s ++ c :: trimEnd rest := by
  rw [trimEnd, trimEnd, List.reverse_append, List.reverse_cons, List.append_assoc,
    List.dropWhile_append]
  split
  · next hnone => simp [List.isEmpty_iff.1 hnone, hc]
  · simp

theorem trim_trimEnd (s : List Char) : trim (trimEnd s) = trim s := by
  have hs : s = [] ++ (trimEnd s ++ (s.reverse.takeWhile isBlank).reverse) := by
    rw [List.nil_append, trimEnd, ← List.reverse_append, List.takeWhile_append_dropWhile,
      List.reverse_reverse]
  have hblanks : isBlankText (s.reverse.takeWhile isBlank).reverse := by
    rw [isBlankText, List.all_reverse]
    exact List.all_takeWhile
  conv => rhs; rw [hs, trim_surrounded rfl hblanks]

/-- A text without blanks is trimmed. -/
theorem trim_eq_self_of_forall (h : ∀ c ∈ s, isBlank c = false) : trim s = s := by
  refine trim_eq_self_iff.2 ⟨?_, getLast?_any_of_forall h⟩
  cases s with
  | nil => rfl
  | cons c s => exact h c List.mem_cons_self

theorem trimEnd_append_blanks (hs : s.getLast?.any isBlank = false) (hright : isBlankText right) :
    trimEnd (s ++ right) = s := by
  have hreverse : right.reverse.all isBlank := by rwa [List.all_reverse]
  rw [← List.head?_reverse] at hs
  rw [trimEnd, List.reverse_append, (span_append hreverse hs).2, List.reverse_reverse]

end Text
end ScopedCss
