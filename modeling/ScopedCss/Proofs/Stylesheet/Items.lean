import ScopedCss.Stylesheet.Reader

/-!
# The block structure of a stylesheet

Every text has a block structure, whatever is wrong with it: a list of items, each of which is a
*prelude*, which ends at a semicolon, at a block or at the end, and the block if there is one. What
comes of reading the text can be read off its items.

* `readItems` lists the items of a text.
* `readBlock` and `readSheet` give the nodes of items inside a block, and outside all blocks.
* `parseNodes_inside`, `parseNodes_sheet`: this is what reading the text comes to. The checks before
  a prelude or a block is left never find anything, and nothing is wrong inside a block.
* `read_error_iff` says which stylesheets cannot be read, and why.
-/

namespace ScopedCss
namespace Stylesheet

/-! ## Items -/

/-- A part of a stylesheet, with the place where it begins. -/
inductive Item where
  /-- The at-keyword it begins with, if any, the text up to the semicolon or the block, and the
  items of the block. There is no block where a semicolon or the end of the text ends the
  prelude. -/
  | mk (place : Location) (keyword : Option String) (prelude : String) (body : Option (List Item))

/-- The items of a text that begins at this place. -/
def readItems (place : Location) (s : List Char) : List Item :=
  match _h : skipBlanks s with
  | [] => []
  | c :: rest =>
    let item := c :: rest
    let start := place.after (before s item)
    let body := (afterPrelude item).tail
    if (afterPrelude item).head? = some '{' then
      -- begins with the closing brace, or is empty if the block is not closed
      let close := untilClose [.curly] body
      .mk start (splitKeyword item).1 (preludeOf item)
          (some (readItems (start.after (before item body)) (before body close)))
        :: readItems (start.after (before item close.tail)) close.tail
    else
      .mk start (splitKeyword item).1 (preludeOf item) none
        :: readItems (start.after (before item body)) body
termination_by s.length
decreasing_by
  · exact Nat.lt_of_le_of_lt (length_before_le _ _) (length_tail_afterPrelude_lt _h)
  · refine Nat.lt_of_le_of_lt ?_ (length_tail_afterPrelude_lt _h)
    exact ((List.tail_suffix _).trans (untilClose_suffix _ _)).length_le
  · exact length_tail_afterPrelude_lt _h

mutual

/-- The node of an item inside a block, if it is one. -/
def Item.readInside : Item → Read (List Node)
  | .mk _ keyword prelude (some body) =>
    let (skipped, nodes) := readBlock body
    (skipped, [blockNode keyword prelude nodes])
  | .mk _ (some name) params none => ([], [.statement name params])
  | .mk place none text none => if text.isEmpty then ([], []) else parseDeclaration place text

/-- The nodes of the items in a block. -/
def readBlock : List Item → Read (List Node)
  | [] => ([], [])
  | item :: items =>
    let (skipped, nodes) := item.readInside
    let (moreSkipped, moreNodes) := readBlock items
    (skipped ++ moreSkipped, nodes ++ moreNodes)

end

/-- What is wrong with an item that stands outside all blocks, if anything. -/
def Item.fault? : Item → Option Fault
  | .mk place none prelude none => if prelude.isEmpty then none else some ⟨.noBlock prelude, place⟩
  | _ => none

/-- The nodes of the items outside all blocks, up to the first one that something is wrong with. -/
def readSheet : List Item → Read (Except Fault (List Node))
  | [] => ([], .ok [])
  | item :: items =>
    match item.fault? with
    | some fault => ([], .error fault)
    | none =>
      let (skipped, nodes) := item.readInside
      let (moreSkipped, more) := readSheet items
      (skipped ++ moreSkipped, more.map (nodes ++ ·))

variable {place : Location} {s : List Char} {c : Char} {rest : List Char}

/-! ## Reading -/

/-- A prelude is never left before its end. -/
theorem parsePrelude_eq (place : Location) (s : List Char) :
    parsePrelude place s
      = .ok (String.ofList (Text.trim (before s (untilBody s))), .of (untilBody s)) := by
  rw [parsePrelude, Cursor.next?_drain]

/-- Nor is a block. -/
theorem leave_eq (place : Location) (keyword : Option String) (prelude : String) (block : Parsed) :
    block.leave place keyword prelude
      = (block.skipped, block.result.map fun nodes => [blockNode keyword prelude nodes]) := by
  rw [Parsed.leave, Cursor.next?_drain]

theorem terminator_eq_block_iff : Terminator.of s = .block ↔ s.head? = some '{' := by
  cases s with
  | nil => simp [Terminator.of]
  | cons c rest => unfold Terminator.of; split <;> simp_all

theorem parseNodes_of_nil (depth : Nat) (h : skipBlanks s = []) :
    parseNodes depth place s = ⟨[], .ok [], []⟩ := by
  rw [parseNodes]
  split
  · rfl
  · simp_all

/-- Reading goes on item by item. -/
theorem parseNodes_of_cons (depth : Nat) (h : skipBlanks s = c :: rest) :
    let item := c :: rest
    let start := place.after (before s item)
    let body := (afterPrelude item).tail
    let inside := start.after (before item body)
    let close := untilClose [.curly] body
    parseNodes depth place s =
      if (afterPrelude item).head? = some '{' then
        .andThen ((parseNodes (depth + 1) inside (before body close)).leave inside
            (splitKeyword item).1 (preludeOf item)) close.tail fun _ =>
          parseNodes depth (start.after (before item close.tail)) close.tail
      else
        .andThen (parseEnded depth start (splitKeyword item).1 (preludeOf item)) body fun _ =>
          parseNodes depth inside body := by
  intro item start body inside close
  rw [parseNodes]
  split
  · next hnil => cases h.symm.trans hnil
  · next hcons =>
    cases h.symm.trans hcons
    have hterminator := @terminator_eq_block_iff (afterPrelude item)
    simp only [parsePrelude_eq]
    by_cases hblock : (afterPrelude item).head? = some '{'
    · rw [show Terminator.of (untilBody _) = .block from hterminator.2 hblock, if_pos hblock]
      rfl
    · rw [if_neg hblock]
      cases hends : Terminator.of (untilBody (splitKeyword item).2) with
      | block => exact absurd (hterminator.1 hends) hblock
      | semicolon => rfl
      | ending => rfl

theorem readItems_of_nil (h : skipBlanks s = []) : readItems place s = [] := by
  rw [readItems]
  split
  · rfl
  · simp_all

theorem readItems_of_cons (h : skipBlanks s = c :: rest) :
    let item := c :: rest
    let start := place.after (before s item)
    let body := (afterPrelude item).tail
    let inside := start.after (before item body)
    let close := untilClose [.curly] body
    readItems place s =
      if (afterPrelude item).head? = some '{' then
        .mk start (splitKeyword item).1 (preludeOf item)
            (some (readItems inside (before body close))) ::
          readItems (start.after (before item close.tail)) close.tail
      else .mk start (splitKeyword item).1 (preludeOf item) none :: readItems inside body := by
  intro item start body inside close
  rw [readItems]
  split
  · next hnil => cases h.symm.trans hnil
  · next hcons =>
    cases h.symm.trans hcons
    rfl

theorem parseEnded_inside (depth : Nat) (place : Location) (keyword : Option String)
    (prelude : String) :
    parseEnded (depth + 1) place keyword prelude
      = ((Item.mk place keyword prelude none).readInside.1,
        .ok (Item.mk place keyword prelude none).readInside.2) := by
  cases keyword with
  | some name => simp only [parseEnded, Item.readInside]
  | none =>
    simp only [parseEnded, Item.readInside, Nat.zero_lt_succ, if_true]
    split <;> rfl

theorem parseEnded_sheet (place : Location) (keyword : Option String) (prelude : String) :
    parseEnded 0 place keyword prelude =
      match (Item.mk place keyword prelude none).fault? with
      | some fault => ([], .error fault)
      | none => ((Item.mk place keyword prelude none).readInside.1,
        .ok (Item.mk place keyword prelude none).readInside.2) := by
  cases keyword with
  | some name => simp only [parseEnded, Item.readInside, Item.fault?]
  | none =>
    simp only [parseEnded, Item.readInside, Item.fault?]
    by_cases hempty : prelude.isEmpty <;> simp [hempty]

/-- **Nothing is wrong inside a block.** Whatever the text is, all of it is read, and its nodes are
those of its items. -/
theorem parseNodes_inside (depth : Nat) (place : Location) (s : List Char) :
    parseNodes (depth + 1) place s
      = ⟨(readBlock (readItems place s)).1, .ok (readBlock (readItems place s)).2, []⟩ := by
  induction place, s using readItems.induct generalizing depth with
  | case1 place s hnil => rw [parseNodes_of_nil _ hnil, readItems_of_nil hnil, readBlock]
  | case2 place s c rest hcons item start body hblock close ihblock ihrest =>
    simp only [item, start, body, close] at hblock ihblock ihrest
    rw [parseNodes_of_cons _ hcons, if_pos hblock, leave_eq, ihblock, readItems_of_cons hcons,
      if_pos hblock]
    simp only [Parsed.andThen, Except.map, ihrest, readBlock, Item.readInside]
  | case3 place s c rest hcons item start body hblock ihrest =>
    simp only [item, start, body] at hblock ihrest
    rw [parseNodes_of_cons _ hcons, if_neg hblock, parseEnded_inside, readItems_of_cons hcons,
      if_neg hblock]
    simp only [Parsed.andThen, Except.map, ihrest, readBlock]

theorem fault?_of_block (place : Location) (keyword : Option String) (prelude : String)
    (body : List Item) : (Item.mk place keyword prelude (some body)).fault? = none := by
  cases keyword <;> rfl

/-- Outside all blocks, the text is read up to the first item that something is wrong with. -/
theorem parseNodes_sheet (place : Location) (s : List Char) :
    (parseNodes 0 place s).skipped = (readSheet (readItems place s)).1 ∧
      (parseNodes 0 place s).result = (readSheet (readItems place s)).2 := by
  induction place, s using readItems.induct with
  | case1 place s hnil =>
    rw [parseNodes_of_nil _ hnil, readItems_of_nil hnil, readSheet]
    exact ⟨rfl, rfl⟩
  | case2 place s c rest hcons item start body hblock close ihblock ihrest =>
    simp only [item, start, body, close] at hblock ihrest
    rw [parseNodes_of_cons _ hcons, if_pos hblock, leave_eq, parseNodes_inside,
      readItems_of_cons hcons, if_pos hblock, readSheet, fault?_of_block]
    simp only [Parsed.andThen, Except.map, ihrest, Item.readInside, and_self]
  | case3 place s c rest hcons item start body hblock ihrest =>
    simp only [item, start, body] at hblock ihrest
    rw [parseNodes_of_cons _ hcons, if_neg hblock, parseEnded_sheet, readItems_of_cons hcons,
      if_neg hblock, readSheet]
    cases (Item.mk _ (splitKeyword (c :: rest)).1 (preludeOf (c :: rest)) none).fault? with
    | some fault => exact ⟨rfl, rfl⟩
    | none => simp only [Parsed.andThen, Except.map, ihrest, and_self]

/-! ## Stylesheets that cannot be read -/

theorem read_eq (source : String) : read source = readSheet (readItems .start source.toList) := by
  obtain ⟨hskipped, hresult⟩ := parseNodes_sheet .start source.toList
  rw [read, hskipped, hresult]

theorem fault?_eq_some_iff {item : Item} {fault : Fault} :
    item.fault? = some fault ↔ ∃ place prelude, item = .mk place none prelude none ∧ prelude ≠ "" ∧
      fault = ⟨.noBlock prelude, place⟩ := by
  obtain ⟨place, keyword, prelude, body⟩ := item
  constructor
  · intro h
    cases body with
    | some body => cases (fault?_of_block ..).symm.trans h
    | none =>
      cases keyword with
      | some name => cases h
      | none =>
        obtain ⟨hprelude, hfault⟩ := Option.ite_none_left_eq_some.1 h
        exact ⟨place, prelude, rfl, fun hempty => hprelude (hempty ▸ rfl),
          (Option.some.inj hfault).symm⟩
  · rintro ⟨place', prelude', ⟨⟩, hprelude, rfl⟩
    exact if_neg fun hempty => hprelude (String.isEmpty_iff.1 hempty)

theorem readSheet_error_iff {items : List Item} {fault : Fault} :
    (readSheet items).2 = .error fault ↔ ∃ past item later, items = past ++ item :: later ∧
      (∀ item ∈ past, item.fault? = none) ∧ item.fault? = some fault := by
  induction items with
  | nil => simp [readSheet]
  | cons first items ih =>
    rw [readSheet]
    cases hfault : first.fault? with
    | some found =>
      constructor
      · rintro ⟨⟩
        exact ⟨[], first, items, rfl, nofun, hfault⟩
      · rintro ⟨past, item, later, hsplit, hpast, hitem⟩
        cases past with
        | nil =>
          cases hsplit
          cases hfault.symm.trans hitem
          rfl
        | cons _ past =>
          cases hsplit
          cases hfault.symm.trans (hpast first List.mem_cons_self)
    | none =>
      have hrest : ((readSheet items).2.map (first.readInside.2 ++ ·) = .error fault) ↔
          (readSheet items).2 = .error fault := by
        cases (readSheet items).2 <;> simp [Except.map]
      refine hrest.trans (ih.trans ?_)
      constructor
      · rintro ⟨past, item, later, rfl, hpast, hitem⟩
        exact ⟨first :: past, item, later, rfl, List.forall_mem_cons.2 ⟨hfault, hpast⟩, hitem⟩
      · rintro ⟨past, item, later, hsplit, hpast, hitem⟩
        cases past with
        | nil =>
          cases hsplit
          cases hfault.symm.trans hitem
        | cons _ past =>
          cases hsplit
          exact ⟨past, item, later, rfl, (List.forall_mem_cons.1 hpast).2, hitem⟩

theorem readSheet_of_forall {items : List Item} (h : ∀ item ∈ items, item.fault? = none) :
    readSheet items = ((readBlock items).1, .ok (readBlock items).2) := by
  induction items with
  | nil => rfl
  | cons item items ih =>
    obtain ⟨hitem, hitems⟩ := List.forall_mem_cons.1 h
    simp only [readSheet, hitem, ih hitems, readBlock, Except.map]

/-- **Which stylesheets cannot be read.** Reading always comes to an end, whatever the text is. It
fails just where outside all blocks there is an item without at-keyword and without block that is
not empty, with the prelude and the place of the first such item. If there is none, the nodes are
those of the items. Nothing is wrong inside a block: the text is read to its end, and malformed
declarations are only left out. -/
theorem read_error_iff (path : Path) (source : String) :
    let items := readItems .start source.toList
    (∀ fault, (Document.read path source).2 = .error fault ↔
      ∃ past place prelude later, items = past ++ .mk place none prelude none :: later ∧
        (∀ item ∈ past, item.fault? = none) ∧ prelude ≠ "" ∧ fault = ⟨.noBlock prelude, place⟩ ∧
        fault.cause.message = "Expected '\x7b' after selector '" ++ prelude ++ "'") ∧
    ((∀ item ∈ items, item.fault? = none) →
      Document.read path source = ((readBlock items).1, .ok ⟨path, source, (readBlock items).2⟩)) ∧
    ∀ depth place s, parseNodes (depth + 1) place s
      = ⟨(readBlock (readItems place s)).1, .ok (readBlock (readItems place s)).2, []⟩ := by
  intro items
  refine ⟨?_, ?_, parseNodes_inside⟩
  · intro fault
    have hread : (Document.read path source).2 = .error fault
        ↔ (readSheet items).2 = .error fault := by
      show (read source).2.map _ = _ ↔ _
      rw [read_eq]
      cases (readSheet items).2 <;> simp [Except.map]
    rw [hread, readSheet_error_iff]
    constructor
    · rintro ⟨past, item, later, hitems, hpast, hitem⟩
      obtain ⟨place, prelude, rfl, hprelude, rfl⟩ := fault?_eq_some_iff.1 hitem
      exact ⟨past, place, prelude, later, hitems, hpast, hprelude, rfl, rfl⟩
    · rintro ⟨past, place, prelude, later, hitems, hpast, hprelude, rfl, -⟩
      exact ⟨past, _, later, hitems, hpast,
        fault?_eq_some_iff.2 ⟨place, prelude, rfl, hprelude, rfl⟩⟩
  · intro hitems
    rw [Document.read, read_eq, readSheet_of_forall hitems]
    rfl

end Stylesheet
end ScopedCss
