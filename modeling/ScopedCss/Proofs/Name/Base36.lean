import Mathlib.Data.List.DropRight
import Mathlib.Data.Nat.ModEq
import ScopedCss.Name.Generator

/-!
# Base 36 loses nothing

A value can be read back from its base-36 digits, the highest of which is no zero. A segment has the
five lowest digits of its hash, whether they are cut off from more or filled up from fewer: it
stands for the hash modulo 36⁵, and tells two hashes apart just where these remainders differ.

* `value36?_digits36`: reading the digits of a number gives the number.
* `rtake_padded`: cutting padded digits to a width gives the lowest digits of the number.
* `segment_eq_iff`: two segments are equal just where their hashes are, modulo 36⁵.
* `pathName_eq_iff`: so a name that is made from a path tells its class, and its file up to these
  remainders.
* `base36_faithful`: all of this, for every 32-bit value and every path.
-/

namespace ScopedCss
namespace Name

variable {digits : List Char} {d n width : Nat}

/-! ## Reading -/

/-- The digits of base 36, each at the place of its value. -/
def alphabet36 : List Char := "0123456789abcdefghijklmnopqrstuvwxyz".toList

/-- The number that the digits write, the highest of them first; nothing if one of them is no
digit. -/
def value36? (digits : List Char) : Option Nat :=
  digits.foldlM (fun value c => (alphabet36.idxOf? c).map (36 * value + ·)) 0

theorem idxOf?_digit36 (h : d < 36) : alphabet36.idxOf? (digit36 d) = some d := by
  revert d
  decide

/-- One more digit makes the number 36 times as great, and adds its own value. -/
theorem value36?_concat (h : value36? digits = some n) (hd : d < 36) :
    value36? (digits ++ [digit36 d]) = some (36 * n + d) := by
  rw [value36?] at h
  rw [value36?, List.foldlM_append, h]
  simp [idxOf?_digit36 hd]

/-- Nothing but digits can be read. -/
theorem subset_alphabet36 (h : value36? digits = some n) : digits ⊆ alphabet36 := by
  rw [value36?] at h
  generalize 0 = start at h
  induction digits generalizing start with
  | nil => exact List.nil_subset _
  | cons c digits ih =>
    rw [List.foldlM_cons] at h
    obtain ⟨value, hvalue, hrest⟩ := Option.bind_eq_some_iff.1 h
    obtain ⟨place, hplace, -⟩ := Option.map_eq_some_iff.1 hvalue
    have hc : c ∈ alphabet36 := List.isSome_idxOf?.1 (Option.isSome_of_eq_some hplace)
    exact List.cons_subset.2 ⟨hc, ih value hrest⟩

/-! ## All digits of a number -/

theorem digits36_ne_nil (n : Nat) : digits36 n ≠ [] := by
  rw [digits36]
  split <;> simp

theorem value36?_digits36 (n : Nat) : value36? (digits36 n) = some n := by
  fun_induction digits36 n with
  | case1 n h =>
    have hdigit : value36? ([] ++ [digit36 n]) = some (36 * 0 + n) := value36?_concat rfl h
    simpa using hdigit
  | case2 n h ih =>
    rw [value36?_concat ih (Nat.mod_lt n (by decide)), Nat.div_add_mod]

/-- Only zero is written with a zero in front. -/
theorem head?_digits36 (n : Nat) : (digits36 n).head? = some '0' ↔ n = 0 := by
  fun_induction digits36 n with
  | case1 n h =>
    revert n
    decide
  | case2 n h ih =>
    rw [List.head?_append_of_ne_nil _ (digits36_ne_nil _), ih]
    omega

theorem length_digits36_le (h : n < 36 ^ (width + 1)) : (digits36 n).length ≤ width + 1 := by
  induction width generalizing n with
  | zero => rw [digits36, dif_pos (by simpa using h), List.length_singleton]
  | succ width ih =>
    rw [digits36]
    split
    · simp
    · have hquotient : n / 36 < 36 ^ (width + 1) := by
        rw [Nat.pow_succ] at h
        exact Nat.div_lt_of_lt_mul (by rwa [Nat.mul_comm])
      simpa using ih hquotient

theorem base36_ne_empty (value : UInt32) : base36 value ≠ "" := by
  intro hempty
  apply digits36_ne_nil value.toNat
  simpa [base36] using hempty

theorem value36?_base36 (value : UInt32) : value36? (base36 value).toList = some value.toNat := by
  rw [base36, String.toList_ofList, value36?_digits36]

theorem head?_base36 (value : UInt32) : (base36 value).toList.head? = some '0' ↔ value = 0 := by
  rw [base36, String.toList_ofList, head?_digits36]
  exact UInt32.toNat_inj (b := 0)

theorem length_base36_le (value : UInt32) : (base36 value).length ≤ 7 := by
  have hbound : value.toNat < 36 ^ (6 + 1) := value.toNat_lt.trans (by decide)
  rw [base36, String.length_ofList]
  exact length_digits36_le hbound

/-! ## The lowest digits of a number -/

/-- As many digits as the width says: the lowest ones of the number, the highest of them first. -/
def lowDigits : Nat → Nat → List Char
  | 0, _ => []
  | width + 1, n => lowDigits width (n / 36) ++ [digit36 (n % 36)]

@[simp]
theorem length_lowDigits (width n : Nat) : (lowDigits width n).length = width := by
  induction width generalizing n with
  | zero => rfl
  | succ width ih => simp [lowDigits, ih]

theorem lowDigits_zero (width : Nat) : lowDigits width 0 = List.replicate width '0' := by
  induction width with
  | zero => rfl
  | succ width ih =>
    rw [lowDigits, Nat.zero_div, ih, List.replicate_succ']
    rfl

/-- Digits above the width do not matter. -/
theorem lowDigits_mod (width n : Nat) : lowDigits width (n % 36 ^ width) = lowDigits width n := by
  induction width generalizing n with
  | zero => rfl
  | succ width ih =>
    have hlast : n % 36 ^ (width + 1) % 36 = n % 36 :=
      Nat.mod_mod_of_dvd n (Dvd.intro_left (36 ^ width) rfl)
    have hfront : n % 36 ^ (width + 1) / 36 = n / 36 % 36 ^ width := by
      rw [Nat.pow_succ', Nat.mod_mul_right_div_self]
    rw [lowDigits, lowDigits, hlast, hfront, ih]

theorem value36?_lowDigits (width n : Nat) :
    value36? (lowDigits width n) = some (n % 36 ^ width) := by
  induction width generalizing n with
  | zero => simp [lowDigits, value36?, Nat.mod_one]
  | succ width ih =>
    rw [lowDigits, value36?_concat (ih _) (Nat.mod_lt n (by decide)), Nat.pow_succ', Nat.mod_mul,
      Nat.add_comm]

theorem lowDigits_eq_iff {n' : Nat} :
    lowDigits width n = lowDigits width n' ↔ n ≡ n' [MOD 36 ^ width] := by
  constructor
  · intro h
    have hvalue := congrArg value36? h
    rw [value36?_lowDigits, value36?_lowDigits] at hvalue
    exact Option.some.inj hvalue
  · intro h
    rw [← lowDigits_mod width n, h, lowDigits_mod]

/-- Zeros in front do not matter when a number is cut to its lowest digits, if there are enough. -/
theorem rtake_padded (zeros : Nat) (h : width ≤ zeros + (digits36 n).length) :
    (List.replicate zeros '0' ++ digits36 n).rtake width = lowDigits width n := by
  -- Each digit that is taken is the last one of what is left of the number, and when nothing is
  -- left, one of the zeros, just as the lowest digits of zero are.
  induction width generalizing n with
  | zero => simp [lowDigits]
  | succ width ih =>
    rw [digits36] at h ⊢
    split
    · next hn =>
      rw [dif_pos hn] at h
      have hzeros : width ≤ zeros := by simpa using h
      have hfront : (List.replicate zeros '0').rtake width = List.replicate width '0' := by
        simp [List.rtake_eq_reverse_take_reverse, hzeros]
      rw [List.rtake_concat_succ, hfront, lowDigits, Nat.div_eq_of_lt hn, Nat.mod_eq_of_lt hn,
        lowDigits_zero]
    · next hn =>
      rw [dif_neg hn] at h
      rw [List.length_append, List.length_singleton] at h
      have henough : width ≤ zeros + (digits36 (n / 36)).length := by omega
      rw [← List.append_assoc, List.rtake_concat_succ, ih henough, lowDigits]

/-! ## Segments -/

theorem rtake_padSegment (n : Nat) :
    (padSegment (digits36 n)).rtake segmentWidth = lowDigits segmentWidth n :=
  rtake_padded _ (by omega)

/-- The digits of a segment, without the detour over all digits of the hash. -/
theorem toList_segment (h : UInt32) : (segment h).toList = lowDigits segmentWidth h.toNat := by
  rw [segment, String.toList_ofList]
  exact rtake_padSegment h.toNat

theorem length_segment (h : UInt32) : (segment h).length = 5 := by
  rw [← String.length_toList, toList_segment, length_lowDigits]
  rfl

theorem value36?_segment (h : UInt32) : value36? (segment h).toList = some (h.toNat % 36 ^ 5) := by
  rw [toList_segment]
  exact value36?_lowDigits segmentWidth h.toNat

/-- A number that fits into a segment is only padded. -/
theorem padSegment_digits36 (h : n < 36 ^ segmentWidth) :
    padSegment (digits36 n) = lowDigits segmentWidth n := by
  have hfits : (digits36 n).length ≤ segmentWidth := length_digits36_le h
  have hlength : (padSegment (digits36 n)).length = segmentWidth := by
    rw [padSegment, List.length_append, List.length_replicate]
    omega
  rw [← rtake_padSegment, List.rtake, hlength, Nat.sub_self, List.drop_zero]

/-- A segment is the remainder of its hash in base 36, padded. -/
theorem toList_segment_eq_padSegment (h : UInt32) :
    (segment h).toList = padSegment (digits36 (h.toNat % 36 ^ 5)) := by
  have hfits : h.toNat % 36 ^ segmentWidth < 36 ^ segmentWidth := Nat.mod_lt _ (by decide)
  have hpadded := padSegment_digits36 hfits
  rw [lowDigits_mod] at hpadded
  exact (toList_segment h).trans hpadded.symm

/-- Two segments are equal just where their hashes are, modulo 36⁵. -/
theorem segment_eq_iff {h h' : UInt32} :
    segment h = segment h' ↔ h.toNat ≡ h'.toNat [MOD 36 ^ 5] := by
  rw [← String.toList_inj, toList_segment, toList_segment]
  exact lowDigits_eq_iff

/-! ## Names made from paths -/

variable {className className' : String} {p p' : Path}

/-- Two names made from paths are equal just where they are for one class, and both of their hashes
are equal modulo 36⁵. -/
theorem pathName_eq_iff :
    pathName className p = pathName className' p' ↔
      className = className' ∧
      (hash (slashed p)).toNat ≡ (hash (slashed p')).toNat [MOD 36 ^ 5] ∧
      (hash (className ++ ":" ++ slashed p)).toNat
        ≡ (hash (className' ++ ":" ++ slashed p')).toNat [MOD 36 ^ 5] := by
  have hwidth (h h' : UInt32) : (segment h).toList.length = (segment h').toList.length := by
    rw [String.length_toList, String.length_toList, length_segment, length_segment]
  constructor
  · intro hname
    have htexts := congrArg String.toList hname
    simp only [pathName, String.toList_append] at htexts
    -- From the right, where all parts but the class have a fixed width.
    obtain ⟨hfront, hclass⟩ := List.append_inj' htexts (hwidth _ _)
    obtain ⟨hfront, -⟩ := List.append_inj' hfront rfl
    obtain ⟨hfront, hfile⟩ := List.append_inj' hfront (hwidth _ _)
    obtain ⟨hfront, -⟩ := List.append_inj' hfront rfl
    exact ⟨String.toList_inj.1 (List.append_cancel_left hfront),
      segment_eq_iff.1 (String.toList_inj.1 hfile), segment_eq_iff.1 (String.toList_inj.1 hclass)⟩
  · rintro ⟨rfl, hfile, hclass⟩
    rw [pathName, pathName, segment_eq_iff.2 hfile, segment_eq_iff.2 hclass]

/-- **Base 36 is faithful.** A 32-bit value is written with one to seven digits, has no zero in
front unless it is zero, and can be read back. A segment has exactly five digits, which are those of
the remainder of the hash modulo 36⁵ with zeros in front, and it reads as this remainder. So
segments are equal just where their hashes are equal modulo 36⁵, and names made from paths are equal
just where they are for one class and both of their hashes are equal modulo 36⁵. -/
theorem base36_faithful :
    (∀ value : UInt32,
      base36 value ≠ "" ∧ (base36 value).length ≤ 7 ∧ (base36 value).toList ⊆ alphabet36 ∧
      ((base36 value).toList.head? = some '0' ↔ value = 0) ∧
      value36? (base36 value).toList = some value.toNat) ∧
    (∀ h : UInt32,
      (segment h).length = 5 ∧ (segment h).toList ⊆ alphabet36 ∧
      (segment h).toList = padSegment (digits36 (h.toNat % 36 ^ 5)) ∧
      value36? (segment h).toList = some (h.toNat % 36 ^ 5)) ∧
    (∀ h h' : UInt32, segment h = segment h' ↔ h.toNat ≡ h'.toNat [MOD 36 ^ 5]) ∧
    ∀ (className className' : String) (p p' : Path),
      pathName className p = pathName className' p' ↔
        className = className' ∧
        (hash (slashed p)).toNat ≡ (hash (slashed p')).toNat [MOD 36 ^ 5] ∧
        (hash (className ++ ":" ++ slashed p)).toNat
          ≡ (hash (className' ++ ":" ++ slashed p')).toNat [MOD 36 ^ 5] := by
  refine ⟨fun value => ?_, fun h => ?_, fun _ _ => segment_eq_iff, fun _ _ _ _ => pathName_eq_iff⟩
  · have hvalue := value36?_base36 value
    exact ⟨base36_ne_empty value, length_base36_le value, subset_alphabet36 hvalue,
      head?_base36 value, hvalue⟩
  · have hvalue := value36?_segment h
    exact ⟨length_segment h, subset_alphabet36 hvalue, toList_segment_eq_padSegment h, hvalue⟩

/-- The greatest value has seven digits; a small one has zeros in front of it in a segment. -/
example : base36 4294967295 = "1z141z3" ∧ segment 4294967295 = "141z3" ∧ segment 36 = "00010" := by
  decide +kernel

end Name
end ScopedCss
