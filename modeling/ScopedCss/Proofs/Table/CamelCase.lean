import Mathlib.Data.String.Basic
import ScopedCss.Proofs.Table.Growth
import ScopedCss.Table.CamelCase

/-!
# Tables in camel case

Class names in camel case have no dash left that would be taken away, so that a second conversion
changes nothing. Where several classes of a table become one, the greatest of them keeps the name,
and each of the others is reported.

* `camelName_camelName`: converting a class name twice is converting it once.
* `foldl_addCamel_size`: each class that is entered adds either a name or a collision.
* `get?_camelCase_iff`: the name under a converted class is that of the greatest class behind it.
* `camelCase_accounts`: all of this, for a whole table.
-/

namespace ScopedCss
namespace Table

open Text

/-! ## Class names -/

variable {c : Char} {s : List Char}

/-- No dash stands in front of a word character. -/
def Undashed : List Char → Prop
  | [] => True
  | c :: rest => (c = '-' → rest.head?.any isWordChar = false) ∧ Undashed rest

theorem head?_dashes_append (hstop : s.head?.any isWordChar = false) (dashes : Nat) :
    (List.replicate dashes '-' ++ s).head?.any isWordChar = false := by
  cases dashes with
  | zero => exact hstop
  | succ dashes => rfl

theorem undashed_dashes_append (hstop : s.head?.any isWordChar = false) (h : Undashed s)
    (dashes : Nat) : Undashed (List.replicate dashes '-' ++ s) := by
  induction dashes with
  | zero => exact h
  | succ dashes ih => exact ⟨fun _ => head?_dashes_append hstop dashes, ih⟩

theorem toUpper_ne_dash (hc : c ≠ '-') : c.toUpper ≠ '-' := by
  intro hdash
  unfold Char.toUpper at hdash
  split at hdash
  · next hlower =>
    have hval : c.val = '-'.val - ('A'.val - 'a'.val) := by
      rw [← congrArg Char.val hdash, UInt32.add_sub_cancel]
    rw [hval] at hlower
    exact absurd hlower (by decide)
  · exact hc hdash

/-- What is left of a text has no dash that would be taken away. -/
theorem undashed_camelAfter (dashes : Nat) (s : List Char) : Undashed (camelAfter dashes s) := by
  fun_induction camelAfter dashes s with
  | case1 dashes =>
    rw [← List.append_nil (List.replicate dashes '-')]
    exact undashed_dashes_append (s := []) rfl trivial dashes
  | case2 dashes rest ih => exact ih
  | case3 dashes c rest hc hword ih => exact ⟨fun hdash => absurd hdash (toUpper_ne_dash hc), ih⟩
  | case4 dashes c rest hc hother ih =>
    have hrest : Undashed (c :: camelAfter 0 rest) := ⟨fun hdash => absurd hdash hc, ih⟩
    cases dashes with
    | zero => exact hrest
    | succ dashes =>
      have hword : isWordChar c = false := by simpa using hother
      exact undashed_dashes_append (s := c :: camelAfter 0 rest) hword hrest (dashes + 1)

/-- A text without such dashes stays as it is. -/
theorem camelAfter_of_undashed (h : Undashed s) {dashes : Nat}
    (hstop : 0 < dashes → s.head?.any isWordChar = false) :
    camelAfter dashes s = List.replicate dashes '-' ++ s := by
  induction s generalizing dashes with
  | nil => rw [camelAfter, List.append_nil]
  | cons c s ih =>
    obtain ⟨hdash, hs⟩ := h
    rw [camelAfter]
    split
    · next hc =>
      subst hc
      rw [ih hs fun _ => hdash rfl, List.replicate_succ', List.append_assoc]
      rfl
    · rw [if_neg, ih hs (absurd · (Nat.lt_irrefl 0))]
      · rfl
      · rintro ⟨hpos, hword⟩
        cases hword.symm.trans (hstop hpos)

/-- Converting a class name twice is converting it once. -/
theorem camelName_camelName (className : String) :
    camelName (camelName className) = camelName className := by
  rw [camelName, camelName, String.toList_ofList,
    camelAfter_of_undashed (undashed_camelAfter 0 _) (absurd · (Nat.lt_irrefl 0))]
  rfl

/-! ## Entering the classes of a table -/

variable {t : Table} {camel className name : String} {pairs : List (String × String)}

theorem size_bind (t : Table) (label name : String) :
    (t.bind label name).size = if t.contains label then t.size else t.size + 1 :=
  Std.ExtTreeMap.size_insert

/-- A class that is entered adds a name, or a collision. -/
theorem addCamel_size (done : Table × List Collision) (pair : String × String) :
    (addCamel done pair).2.length + (addCamel done pair).1.size
      = done.2.length + done.1.size + 1 := by
  have hcontains := done.1.contains_iff (camelName pair.1)
  simp only [addCamel, size_bind]
  cases hknown : done.1.get? (camelName pair.1) with
  | none =>
    rw [hknown] at hcontains
    rw [if_neg (by simp [hcontains])]
    exact (Nat.add_assoc ..).symm
  | some replaced =>
    rw [hknown] at hcontains
    rw [if_pos (hcontains.2 ⟨replaced, rfl⟩), List.length_append, List.length_singleton]
    omega

theorem foldl_addCamel_size (pairs : List (String × String)) (done : Table × List Collision) :
    (pairs.foldl addCamel done).2.length + (pairs.foldl addCamel done).1.size
      = done.2.length + done.1.size + pairs.length := by
  induction pairs generalizing done with
  | nil => rfl
  | cons pair pairs ih =>
    have hpair := addCamel_size done pair
    rw [List.foldl_cons, ih, List.length_cons]
    omega

theorem get?_addCamel (done : Table × List Collision) (pair : String × String) (camel : String) :
    (addCamel done pair).1.get? camel
      = if camelName pair.1 = camel then some pair.2 else done.1.get? camel :=
  get?_bind ..

/-- The name under a converted class is the one that was entered last. -/
theorem get?_foldl_addCamel (pairs : List (String × String)) (done : Table × List Collision)
    (camel : String) :
    (pairs.foldl addCamel done).1.get? camel
      = ((pairs.reverse.find? fun pair => camelName pair.1 = camel).map Prod.snd).or
          (done.1.get? camel) := by
  induction pairs generalizing done with
  | nil => rfl
  | cons pair pairs ih =>
    rw [List.foldl_cons, ih, get?_addCamel, List.reverse_cons, List.find?_append]
    cases pairs.reverse.find? fun pair => camelName pair.1 = camel with
    | some last => rfl
    | none => by_cases hcamel : camelName pair.1 = camel <;> simp [hcamel]

/-! ## The table afterwards -/

theorem mem_toList_iff : (className, name) ∈ t.toList ↔ t.get? className = some name :=
  Std.ExtTreeMap.mem_toList_iff_getElem?_eq_some

theorem toList_sorted (t : Table) : t.toList.Pairwise fun pair pair' => pair.1 < pair'.1 :=
  Std.ExtTreeMap.ordered_keys_toList.imp fun hlt => compare_lt_iff_lt.1 hlt

/-- The class is the greatest of those in the table that are converted to this one. -/
structure IsGreatest (t : Table) (camel className : String) : Prop where
  contains : t.contains className
  converts : camelName className = camel
  greatest : ∀ other, t.contains other → camelName other = camel → other ≤ className

/-- The last class that is converted to another one is the greatest. -/
theorem find?_reverse_toList {pair : String × String} :
    (t.toList.reverse.find? fun pair => camelName pair.1 = camel) = some pair ↔
      t.IsGreatest camel pair.1 ∧ t.get? pair.1 = some pair.2 := by
  have hsorted := t.toList_sorted
  rw [List.find?_eq_some_iff_append, ← mem_toList_iff]
  simp only [decide_eq_true_eq, Bool.not_eq_true', decide_eq_false_iff_not]
  constructor
  · rintro ⟨hcamel, behind, front, hsplit, hbehind⟩
    rw [List.reverse_eq_iff, List.reverse_append, List.reverse_cons, List.append_assoc] at hsplit
    rw [hsplit, List.pairwise_append] at hsorted
    have hmem : pair ∈ t.toList := by simp [hsplit]
    refine ⟨⟨(t.contains_iff _).2 ⟨_, mem_toList_iff.1 hmem⟩, hcamel, ?_⟩, hmem⟩
    intro other hother hsame
    obtain ⟨name, hname⟩ := (t.contains_iff other).1 hother
    rw [← mem_toList_iff, hsplit, List.mem_append] at hname
    rcases hname with hfront | hpair
    · exact le_of_lt (hsorted.2.2 _ hfront pair List.mem_cons_self)
    · rcases List.mem_cons.1 hpair with hpair | hlater
      · exact le_of_eq (congrArg Prod.fst hpair)
      · exact absurd hsame (hbehind (other, name) (List.mem_reverse.1 hlater))
  · rintro ⟨⟨-, hcamel, hgreatest⟩, hmem⟩
    obtain ⟨front, behind, hsplit⟩ := List.append_of_mem hmem
    refine ⟨hcamel, behind.reverse, front.reverse, by simp [hsplit], ?_⟩
    intro later hlater hsame
    rw [List.mem_reverse] at hlater
    rw [hsplit, List.pairwise_append] at hsorted
    have hlt : pair.1 < later.1 := (List.pairwise_cons.1 hsorted.2.1).1 later hlater
    have hcontains : t.contains later.1 := by
      refine (t.contains_iff _).2 ⟨later.2, mem_toList_iff.1 ?_⟩
      simp [hsplit, hlater]
    exact absurd (hgreatest _ hcontains hsame) (not_le_of_gt hlt)

/-- A converted class has the name of the greatest class that is converted to it. -/
theorem get?_camelCase_iff :
    t.camelCase.1.get? camel = some name ↔
      ∃ className, t.IsGreatest camel className ∧ t.get? className = some name := by
  rw [camelCase, get?_foldl_addCamel, get?_empty, Option.or_none, Option.map_eq_some_iff]
  constructor
  · rintro ⟨⟨className, _⟩, hfind, rfl⟩
    exact ⟨className, find?_reverse_toList.1 hfind⟩
  · rintro ⟨className, hclass⟩
    exact ⟨(className, name), find?_reverse_toList.2 hclass, rfl⟩

/-- If some class is converted to another one, a greatest one is. -/
theorem exists_isGreatest (h : t.contains className) :
    ∃ greatest, t.IsGreatest (camelName className) greatest := by
  obtain ⟨name, hname⟩ := (t.contains_iff className).1 h
  have hfound :
      (t.toList.reverse.find? fun pair => camelName pair.1 = camelName className).isSome := by
    rw [List.find?_isSome]
    exact ⟨(className, name), List.mem_reverse.2 (mem_toList_iff.2 hname), by simp⟩
  obtain ⟨pair, hpair⟩ := Option.isSome_iff_exists.1 hfound
  exact ⟨pair.1, (find?_reverse_toList.1 hpair).1⟩

theorem contains_camelCase_iff :
    t.camelCase.1.contains camel
      ↔ ∃ className, t.contains className ∧ camelName className = camel := by
  rw [contains_iff]
  constructor
  · rintro ⟨name, hname⟩
    obtain ⟨className, hclass, -⟩ := get?_camelCase_iff.1 hname
    exact ⟨className, hclass.contains, hclass.converts⟩
  · rintro ⟨className, hcontains, rfl⟩
    obtain ⟨greatest, hgreatest⟩ := exists_isGreatest hcontains
    obtain ⟨name, hname⟩ := (t.contains_iff greatest).1 hgreatest.contains
    exact ⟨name, get?_camelCase_iff.2 ⟨greatest, hgreatest, hname⟩⟩

/-- As many collisions are reported as classes are lost. -/
theorem camelCase_size (t : Table) : t.camelCase.2.length + t.camelCase.1.size = t.size := by
  have hlength : t.toList.length = t.size := Std.ExtTreeMap.length_toList
  have hempty : (∅ : Table).size = 0 := Std.ExtTreeMap.size_empty
  rw [camelCase, foldl_addCamel_size, List.length_nil, hempty, hlength]
  omega

/-- A table whose classes are converted already stays as it is, and nothing is reported. -/
theorem camelCase_of_converted
    (h : ∀ className, t.contains className → camelName className = className) :
    t.camelCase = (t, []) := by
  have hsame : t.camelCase.1 = t := by
    apply ext
    intro camel
    apply Option.ext
    intro name
    rw [get?_camelCase_iff]
    constructor
    · rintro ⟨className, hclass, hname⟩
      rwa [← hclass.converts, h className hclass.contains]
    · intro hname
      have hcontains := (t.contains_iff camel).2 ⟨name, hname⟩
      refine ⟨camel, ⟨hcontains, h camel hcontains, fun other hother hconverts => ?_⟩, hname⟩
      exact le_of_eq ((h other hother).symm.trans hconverts)
  have hsize := t.camelCase_size
  rw [hsame] at hsize
  exact Prod.ext hsame (List.eq_nil_of_length_eq_zero (by omega))

/-- **Camel case is idempotent and accounts for every class.** A table in camel case stays as it is
when it is converted again, and nothing is reported then. Its classes are the converted classes of
the table before; each has the name that the greatest class behind it had, code point by code point;
and there are as many reports as there are classes fewer. -/
theorem camelCase_accounts (t : Table) :
    t.camelCase.1.camelCase = (t.camelCase.1, []) ∧
    (∀ camel, t.camelCase.1.contains camel ↔
      ∃ className, t.contains className ∧ camelName className = camel) ∧
    (∀ camel name, t.camelCase.1.get? camel = some name ↔
      ∃ className, t.IsGreatest camel className ∧ t.get? className = some name) ∧
    t.camelCase.2.length + t.camelCase.1.size = t.size := by
  refine ⟨camelCase_of_converted ?_, fun _ => contains_camelCase_iff, fun _ _ => get?_camelCase_iff,
    camelCase_size t⟩
  intro camel hcamel
  obtain ⟨className, -, rfl⟩ := contains_camelCase_iff.1 hcamel
  exact camelName_camelName className

/-- Three classes become one; the greatest of them keeps its name. -/
example : (ofList [("aB", "x"), ("a-b", "y"), ("a--b", "z"), ("é-é", "v")]).camelCase
    = (ofList [("aB", "x"), ("é-é", "v")], [⟨"aB", "a-b", "z"⟩, ⟨"aB", "aB", "y"⟩]) := by
  decide +kernel

end Table
end ScopedCss
