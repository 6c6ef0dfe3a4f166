import ScopedCss.Directive

/-!
# What the values of an `:import` rule say

A value has its path in one pair of quotes or in two, with or without the word `from` in front of
either, and with or without `::class` behind either. The reader takes quotes and `from` off twice,
whatever the value is.

* `Quotes`: a text that holds a quoted text, behind blanks or `from`. The reader takes the quotes
  off such a text (`splitQuoted?_of_quotes`), and off no other (`quotes_of_splitQuoted?`).
* `parse_eq_ok_iff`: how a value comes to its path and its class.
* `parse_of_spells`: all ways to write a path and a class come to the same.
* `parse_wellFormed`: what is known of the path and the class of any value that is accepted.
-/

namespace ScopedCss
namespace Import

open Text

variable {c quote : Char} {s inside behind lead path body right rest : List Char}
  {class? inner? outer? : Option String} {value : String} {source : Source}

/-! ## A text in quotes -/

/-- What may stand in front of a quoted text: blanks, and the word `from` among them or not. -/
inductive Lead : List Char → Prop where
  | blanks {s : List Char} (h : isBlankText s) : Lead s
  | fromWord {left right : List Char} (hleft : isBlankText left) (hright : isBlankText right) :
    Lead (left ++ 'f' :: 'r' :: 'o' :: 'm' :: right)

/-- The text has a lead, then `inside` between quotes that it does not have in it, then `behind`. -/
inductive Quotes : List Char → List Char → List Char → Prop where
  | mk {lead inside : List Char} {quote : Char} (hlead : Lead lead) (hquote : isQuote quote)
    (hinside : quote ∉ inside) (behind : List Char) :
    Quotes (lead ++ quote :: (inside ++ quote :: behind)) inside behind

theorem isBlank_of_isQuote (h : isQuote c) : isBlank c = false := by
  rw [isQuote, Bool.or_eq_true, beq_iff_eq, beq_iff_eq] at h
  rcases h with rfl | rfl <;> rfl

/-- Only a word `from` with a blank or a quote behind it is dropped. -/
theorem dropFrom_eq_self (h : ∀ c ∈ s.tail, isBlank c = false ∧ isQuote c = false) :
    dropFrom s = s := by
  unfold dropFrom
  split
  · next c rest =>
    obtain ⟨hblank, hquote⟩ := h c (by simp)
    simp [hblank, hquote]
  · rfl

theorem dropFrom_quote (h : isQuote quote) (s : List Char) :
    dropFrom (quote :: s) = quote :: s := by
  rw [isQuote, Bool.or_eq_true, beq_iff_eq, beq_iff_eq] at h
  rcases h with rfl | rfl <;> rfl

/-- A lead is taken off, if what follows it is a quote or is set off by a blank. -/
theorem dropFrom_trim_lead (hlead : Lead lead) (hc : isBlank c = false)
    (hnext : isQuote c ∨ lead.getLast?.all isBlank)
    (hself : dropFrom (c :: trimEnd rest) = c :: trimEnd rest) :
    dropFrom (trim (lead ++ c :: rest)) = c :: trimEnd rest := by
  have hstart (d : Char) (hd : isBlank d = false) (s : List Char) :
      (d :: s).head?.any isBlank = false := hd
  cases hlead with
  | blanks hblanks =>
    rw [trim, trimStart, (span_append hblanks (hstart c hc rest)).2]
    have htrim := trimEnd_append_cons hc [] rest
    rw [List.nil_append, List.nil_append] at htrim
    rw [htrim, hself]
  | @fromWord left right hleft hright =>
    have htrim := trimEnd_append_cons hc ('f' :: 'r' :: 'o' :: 'm' :: right) rest
    simp only [List.cons_append] at htrim
    rw [trim, trimStart, List.append_assoc]
    simp only [List.cons_append]
    rw [(span_append hleft rfl).2, htrim]
    cases right with
    | nil =>
      have hquote : isQuote c := hnext.resolve_right (by simp [show isBlank 'm' = false from rfl])
      simp [dropFrom, hquote, trimStart, hc]
    | cons b right =>
      rw [isBlankText_cons] at hright
      have hdrop := (span_append hright.2 (hstart c hc (trimEnd rest))).2
      simp [dropFrom, hright.1, trimStart, hdrop]

/-- Quotes are taken off. -/
theorem splitQuoted?_of_quotes (h : Quotes s inside behind) :
    splitQuoted? (dropFrom (trim s)) = some (inside, trimEnd behind) := by
  obtain ⟨hlead, hquote, hinside, behind⟩ := h
  rw [dropFrom_trim_lead hlead (isBlank_of_isQuote hquote) (.inl hquote) (dropFrom_quote hquote _),
    trimEnd_append_cons (isBlank_of_isQuote hquote), splitQuoted?, if_pos hquote,
    splitQuote?_append hinside]

/-- What is dropped is the word `from` with all blanks behind it, if anything is. -/
theorem dropFrom_cases (s : List Char) :
    s = dropFrom s ∨ (dropFrom s).head?.any isBlank = false ∧ ∃ blanks, isBlankText blanks ∧
      s = 'f' :: 'r' :: 'o' :: 'm' :: (blanks ++ dropFrom s) := by
  unfold dropFrom
  split
  · next c rest =>
    split
    · refine .inr ⟨head?_any_dropWhile isBlank (c :: rest), (c :: rest).takeWhile isBlank,
        List.all_takeWhile, ?_⟩
      rw [trimStart, List.takeWhile_append_dropWhile]
    · exact .inl rfl
  · exact .inl rfl

/-- Nothing but quotes is taken off. -/
theorem quotes_of_splitQuoted? (h : splitQuoted? (dropFrom (trim s)) = some (inside, rest)) :
    ∃ behind, Quotes s inside behind := by
  obtain ⟨left, right, hleft, hright, hs⟩ := exists_trim s
  have hlead : ∃ lead, Lead lead ∧ left ++ trim s = lead ++ dropFrom (trim s) := by
    rcases dropFrom_cases (trim s) with hsame | ⟨-, blanks, hblanks, hfrom⟩
    · exact ⟨left, .blanks hleft, by rw [← hsame]⟩
    · refine ⟨_, .fromWord hleft hblanks, ?_⟩
      conv => lhs; rw [hfrom]
      simp
  obtain ⟨lead, hlead, htrim⟩ := hlead
  generalize dropFrom (trim s) = text at h htrim
  cases text with
  | nil => cases h
  | cons quote text =>
    rw [splitQuoted?] at h
    split at h
    · next hquote =>
      refine ⟨rest ++ right, ?_⟩
      have hquotes := Quotes.mk hlead hquote (not_mem_of_splitQuote? h) (rest ++ right)
      have hsame : s = lead ++ quote :: (inside ++ quote :: (rest ++ right)) := by
        rw [hs, ← List.append_assoc, htrim, splitQuote?_eq_some h]
        simp
      rwa [← hsame] at hquotes
    · cases h

/-! ## The class behind a path -/

/-- `::class`, if there is a class. -/
def suffix : Option String → List Char
  | some name => ':' :: ':' :: name.toList
  | none => []

/-- What may stand behind a quoted text: the class, if any, with blanks around it. -/
inductive Behind : Option String → List Char → Prop where
  | mk {left right : List Char} {class? : Option String} (hleft : isBlankText left)
    (hright : isBlankText right) (hclass : ∀ name ∈ class?, isClassName name) :
    Behind class? (left ++ (suffix class? ++ right))

theorem suffix_plain (hclass : ∀ name ∈ class?, isClassName name) :
    ∀ c ∈ suffix class?, isBlank c = false ∧ isQuote c = false := by
  cases class? with
  | none => simp [suffix]
  | some name =>
    intro c hc
    rw [suffix, List.mem_cons, List.mem_cons] at hc
    rcases hc with rfl | rfl | hc
    · exact ⟨rfl, rfl⟩
    · exact ⟨rfl, rfl⟩
    · have hname := isNameChar_of_isClassName (hclass name rfl) hc
      exact ⟨isBlank_of_isNameChar hname, isQuote_of_isNameChar hname⟩

theorem classSuffix_of_behind (h : Behind class? rest) : classSuffix rest = .ok class? := by
  obtain ⟨hleft, hright, hclass⟩ := h
  have htrim : trim (suffix class?) = suffix class? :=
    trim_eq_self_of_forall fun c hc => (suffix_plain hclass c hc).1
  rw [classSuffix, trim_surrounded hleft hright, htrim]
  cases class? with
  | none => rfl
  | some name => simp [suffix, hclass name rfl]

theorem classSuffix_trimEnd (rest : List Char) : classSuffix (trimEnd rest) = classSuffix rest := by
  rw [classSuffix, trim_trimEnd, classSuffix]

theorem isClassName_of_classSuffix (h : classSuffix rest = .ok class?) :
    ∀ name ∈ class?, isClassName name := by
  unfold classSuffix at h
  split at h
  · cases h
    simp
  · split at h
    · next hname =>
      cases h
      rintro _ ⟨⟩
      exact hname
    · cases h
  · cases h

/-! ## What stands inside the quotes -/

/-- The ways to write a path inside quotes: as it is, with a blank between it and a `from`, or once
more in quotes. -/
inductive Inside (path : List Char) : Option String → List Char → Prop where
  | bare {lead right : List Char} {class? : Option String} (hlead : Lead lead)
    (hapart : lead.getLast?.all isBlank) (hright : isBlankText right)
    (hclass : ∀ name ∈ class?, isClassName name) :
    Inside path class? (lead ++ (path ++ (suffix class? ++ right)))
  | quoted {body behind : List Char} {class? : Option String} (hbody : Quotes body path behind)
    (hbehind : Behind class? behind) : Inside path class? body

theorem splitColons?_append (hpath : ':' ∉ path) (class? : Option String) :
    splitColons? (path ++ suffix class?) = class?.map fun name => (path, name.toList) := by
  induction path with
  | nil => cases class? <;> simp [suffix, splitColons?]
  | cons c path ih =>
    obtain ⟨hc, hpath⟩ := List.ne_and_not_mem_of_not_mem_cons hpath
    rw [List.cons_append, splitColons?, if_neg fun h => hc h.1.symm, ih hpath]
    cases class? <;> rfl

/-- Behind a bare path nothing is left but the class. -/
theorem dropFrom_trim_bare (hne : path ≠ [])
    (hpath : ∀ c ∈ path, isBlank c = false ∧ isQuote c = false) (hlead : Lead lead)
    (hapart : lead.getLast?.all isBlank) (hright : isBlankText right)
    (hclass : ∀ name ∈ class?, isClassName name) :
    dropFrom (trim (lead ++ (path ++ (suffix class? ++ right)))) = path ++ suffix class? := by
  obtain ⟨c, path, rfl⟩ := List.exists_cons_of_ne_nil hne
  obtain ⟨hc, hpath⟩ := List.forall_mem_cons.1 hpath
  have hplain : ∀ c ∈ path ++ suffix class?, isBlank c = false ∧ isQuote c = false := by
    rw [List.forall_mem_append]
    exact ⟨hpath, suffix_plain hclass⟩
  have hend : trimEnd (path ++ (suffix class? ++ right)) = path ++ suffix class? := by
    rw [← List.append_assoc]
    exact trimEnd_append_blanks (getLast?_any_of_forall fun c hc => (hplain c hc).1) hright
  rw [List.cons_append, dropFrom_trim_lead hlead hc.1 (.inr hapart), hend]
  · rfl
  · rw [hend]
    exact dropFrom_eq_self hplain

theorem innerSource_of_inside (hne : path ≠ [])
    (hpath : ∀ c ∈ path, isBlank c = false ∧ isQuote c = false ∧ c ≠ ':')
    (h : Inside path inner? body) :
    innerSource (dropFrom (trim body)) outer? = .ok (path, inner?.or outer?) := by
  have htrim : trim path = path := trim_eq_self_of_forall fun c hc => (hpath c hc).1
  cases h with
  | quoted hbody hbehind =>
    rw [innerSource, splitQuoted?_of_quotes hbody]
    simp only [classSuffix_trimEnd, classSuffix_of_behind hbehind, htrim]
    rfl
  | bare hlead hapart hright hclass =>
    have hcolon : ':' ∉ path := fun hmem => (hpath ':' hmem).2.2 rfl
    have hnone : splitQuoted? (path ++ suffix inner?) = none := by
      obtain ⟨c, path, rfl⟩ := List.exists_cons_of_ne_nil hne
      rw [List.cons_append, splitQuoted?, (hpath c List.mem_cons_self).2.1,
        if_neg Bool.false_ne_true]
    rw [dropFrom_trim_bare hne (fun c hc => ⟨(hpath c hc).1, (hpath c hc).2.1⟩) hlead hapart hright
      hclass, innerSource, hnone]
    simp only [splitColons?_append hcolon]
    cases inner? with
    | none =>
      rw [suffix, List.append_nil]
      rfl
    | some name => simp [hclass name rfl, htrim]

/-- What is left without `from` is still trimmed. -/
theorem trim_dropFrom (s : List Char) : trim (dropFrom (trim s)) = dropFrom (trim s) := by
  rcases dropFrom_cases (trim s) with hsame | ⟨hhead, blanks, -, hfrom⟩
  · rw [← hsame, trim_trim]
  · refine trim_eq_self_iff.2 ⟨hhead, ?_⟩
    have hlast := (trim_eq_self_iff.1 (trim_trim s)).2
    have hend : trim s = ('f' :: 'r' :: 'o' :: 'm' :: blanks) ++ dropFrom (trim s) := hfrom
    rw [hend, List.getLast?_append] at hlast
    cases hnone : (dropFrom (trim s)).getLast? with
    | none => rfl
    | some c => simpa [hnone] using hlast

/-- How a text inside quotes comes to its path and its class: by quotes of its own, by a `::`, or as
it is. -/
theorem innerSource_cases (h : innerSource s outer? = .ok (path, class?)) :
    (∃ inside rest name?, splitQuoted? s = some (inside, rest) ∧ classSuffix rest = .ok name? ∧
      path = trim inside ∧ class? = name?.or outer?) ∨
    (splitQuoted? s = none ∧ ∃ front name, isClassName name ∧ path = trim front ∧
      class? = some name) ∨
    (splitQuoted? s = none ∧ path = s ∧ class? = outer?) := by
  unfold innerSource at h
  split at h
  · next inside rest hsplit =>
    cases hname : classSuffix rest with
    | error fault =>
      rw [hname] at h
      cases h
    | ok name? =>
      rw [hname] at h
      cases h
      exact .inl ⟨inside, rest, name?, hsplit, hname, rfl, rfl⟩
  · next hsplit =>
    split at h
    · next front name _ =>
      split at h
      · next hname =>
        cases h
        exact .inr (.inl ⟨hsplit, front, _, hname, rfl, rfl⟩)
      · cases h
    · cases h
      exact .inr (.inr ⟨hsplit, rfl, rfl⟩)

/-- The path is trimmed, and the class is one. -/
theorem innerSource_wellFormed (houter : ∀ name ∈ outer?, isClassName name)
    (h : innerSource (dropFrom (trim body)) outer? = .ok (path, class?)) :
    trim path = path ∧ ∀ name ∈ class?, isClassName name := by
  rcases innerSource_cases h with ⟨inside, rest, name?, -, hname, rfl, rfl⟩ |
    ⟨-, front, name, hname, rfl, rfl⟩ | ⟨-, rfl, rfl⟩
  · refine ⟨trim_trim inside, fun name hmem => ?_⟩
    rcases Option.or_eq_some_iff.1 hmem with hinner | ⟨-, hmem⟩
    · exact isClassName_of_classSuffix hname name hinner
    · exact houter name hmem
  · refine ⟨trim_trim front, ?_⟩
    rintro _ ⟨⟩
    exact hname
  · exact ⟨trim_dropFrom body, houter⟩

/-! ## Values -/

/-- How a value comes to its path and its class. -/
theorem parse_eq_ok_iff : Source.parse value = .ok source ↔
    ∃ body rest outer? path class?,
      splitQuoted? (dropFrom (trim value.toList)) = some (body, rest) ∧
      classSuffix rest = .ok outer? ∧
      innerSource (dropFrom (trim body)) outer? = .ok (path, class?) ∧
      path ≠ [] ∧ (path.any isBlank → (splitQuoted? (dropFrom (trim body))).isSome) ∧
      source = ⟨String.ofList path, class?⟩ := by
  constructor
  · intro h
    unfold Source.parse at h
    split at h
    · next body rest hsplit =>
      cases hsuffix : classSuffix rest with
      | error fault =>
        rw [hsuffix] at h
        cases h
      | ok outer? =>
        cases hinner : innerSource (dropFrom (trim body)) outer? with
        | error fault =>
          simp only [hsuffix, hinner, bind, Except.bind] at h
          cases h
        | ok parts =>
          obtain ⟨path, class?⟩ := parts
          simp only [hsuffix, hinner, bind, Except.bind] at h
          split at h
          · cases h
          · next hempty =>
            split at h
            · cases h
            · next hblank =>
              cases h
              refine ⟨body, rest, outer?, path, class?, hsplit, hsuffix, hinner, ?_, ?_, rfl⟩
              · simpa using hempty
              · simpa [Option.isSome_iff_ne_none] using hblank
    · cases h
  · rintro ⟨body, rest, outer?, path, class?, hsplit, hsuffix, hinner, hne, hblank, rfl⟩
    have hempty : path.isEmpty = false := by simpa using hne
    have hquoted : (path.any isBlank && (splitQuoted? (dropFrom (trim body))).isNone) = false := by
      simpa [Option.isSome_iff_ne_none] using hblank
    simp only [Source.parse, hsplit, hsuffix, hinner, hempty, hquoted, bind, Except.bind]
    rfl

/-- The value is one of the ways to write the path, with a class inside the outer quotes or behind
them:

    'path'    from "path"::class    'path::class'    "from path::class"    "from 'path'::class"

Blanks may stand around the whole, behind `from`, and around a class that is behind quotes. -/
def Spells (path : List Char) (inner? outer? : Option String) (value : List Char) : Prop :=
  ∃ body behind, Quotes value body behind ∧ Inside path inner? body ∧ Behind outer? behind

/-- **All ways to write a path and a class come to the same**, if the path has no blanks, quotes or
colons in it; it may still look like the word `from`. A class inside the outer quotes comes before
one behind them. -/
theorem parse_of_spells {path : String} (hne : path ≠ "")
    (hpath : ∀ c ∈ path.toList, isBlank c = false ∧ isQuote c = false ∧ c ≠ ':')
    (hspells : Spells path.toList inner? outer? value.toList) :
    Source.parse value = .ok ⟨path, inner?.or outer?⟩ := by
  obtain ⟨body, behind, hvalue, hbody, hbehind⟩ := hspells
  have hempty : path.toList ≠ [] := by simpa using hne
  have hblank : path.toList.any isBlank = false := by
    rw [List.any_eq_false]
    exact fun c hc => by simp [(hpath c hc).1]
  refine parse_eq_ok_iff.2 ⟨body, _, outer?, path.toList, _, splitQuoted?_of_quotes hvalue, ?_,
    innerSource_of_inside hempty hpath hbody, hempty, ?_, ?_⟩
  · rw [classSuffix_trimEnd, classSuffix_of_behind hbehind]
  · rw [hblank]
    exact fun h => absurd h Bool.false_ne_true
  · rw [String.ofList_toList]

/-- A path that looks like the word `from`, with a class behind its quotes, and another one with a
class inside the outer quotes. -/
theorem parse_of_spells_from :
    let behindQuotes := " from\u3000'fromage'::as"
    let insideQuotes := "\"from 'from'::from\"\t"
    Spells "fromage".toList none (some "as") behindQuotes.toList ∧
      Spells "from".toList (some "from") none insideQuotes.toList ∧
      Source.parse behindQuotes = .ok ⟨"fromage", some "as"⟩ ∧
      Source.parse insideQuotes = .ok ⟨"from", some "from"⟩ := by
  intro behindQuotes insideQuotes
  have hblank : isBlankText [] := rfl
  have hnone : ∀ name ∈ (none : Option String), isClassName name := by decide
  have hbehind : Spells "fromage".toList none (some "as") behindQuotes.toList := by
    have htext : behindQuotes.toList = ([' '] ++ 'f' :: 'r' :: 'o' :: 'm' :: ['\u3000'])
        ++ '\'' :: (([] ++ ("fromage".toList ++ (suffix none ++ [])))
        ++ '\'' :: ([] ++ (suffix (some "as") ++ []))) := by decide +kernel
    rw [htext]
    exact ⟨_, _, .mk (.fromWord rfl rfl) rfl (by decide) _, .bare (.blanks hblank) rfl hblank hnone,
      .mk hblank hblank (by decide)⟩
  have hinside : Spells "from".toList (some "from") none insideQuotes.toList := by
    have htext : insideQuotes.toList = [] ++ '"' :: ((([] ++ 'f' :: 'r' :: 'o' :: 'm' :: [' '])
        ++ '\'' :: ("from".toList ++ '\'' :: ([] ++ (suffix (some "from") ++ []))))
        ++ '"' :: ([] ++ (suffix none ++ ['\t']))) := by decide +kernel
    rw [htext]
    exact ⟨_, _, .mk (.blanks hblank) rfl (by decide) _,
      .quoted (.mk (.fromWord hblank rfl) rfl (by decide) _) (.mk hblank hblank (by decide)),
      .mk hblank rfl hnone⟩
  exact ⟨hbehind, hinside, parse_of_spells (by decide) (by simp [isBlank, isQuote]) hbehind,
    parse_of_spells (by decide) (by simp [isBlank, isQuote]) hinside⟩

/-- **A value that is accepted is well formed**, whatever it is: the path is not empty and is
trimmed, the class is a class name, and only a path in quotes of its own, inside the outer ones, has
blanks in it. Any other value is a syntax error of the declaration, which names the trimmed value,
and leaves the document as it was. -/
theorem parse_wellFormed (value : String) :
    (∀ source, Source.parse value = .ok source →
      source.path ≠ "" ∧ trimText source.path = source.path ∧
      (∀ name ∈ source.className, isClassName name) ∧
      (source.path.toList.any isBlank → ∃ body behind inside after,
        Quotes value.toList body behind ∧ Quotes body inside after ∧
          source.path = String.ofList (trim inside))) ∧
    ∀ fault, Source.parse value = .error fault → ∀ config aliasName cx, isClassName aliasName →
      (Directive.applyImport config (.declaration aliasName value)).run cx
        = (.error (.directive (":import " ++ trimText value) (.importValue fault)), cx) := by
  constructor
  · intro source h
    obtain ⟨body, rest, outer?, path, class?, hsplit, hsuffix, hinner, hne, hblank, rfl⟩ :=
      parse_eq_ok_iff.1 h
    obtain ⟨htrim, hclass⟩ := innerSource_wellFormed (isClassName_of_classSuffix hsuffix) hinner
    refine ⟨by simpa using hne, by rw [trimText, String.toList_ofList, htrim], hclass,
      fun hany => ?_⟩
    rw [String.toList_ofList] at hany
    -- a path with blanks has passed the check for quotes of its own
    rcases innerSource_cases hinner with ⟨inside, after, name?, hquoted, -, rfl, -⟩
      | ⟨hnone, -⟩ | ⟨hnone, -⟩
    · obtain ⟨behind, hvalue⟩ := quotes_of_splitQuoted? hsplit
      obtain ⟨after, hbody⟩ := quotes_of_splitQuoted? hquoted
      exact ⟨body, behind, inside, after, hvalue, hbody, rfl⟩
    all_goals
      have hquoted := hblank hany
      rw [hnone] at hquoted
      cases hquoted
  · intro fault h config aliasName cx halias
    simp only [Directive.applyImport, halias, h]
    rfl

/-- A path with a blank, which is in quotes of its own, and one which is not. -/
theorem parse_wellFormed_spaced :
    let quotedTwice := "\"from ' my dir/a '::b\""
    let quotedOnce := " 'my dir/a'::b "
    let cx := Context.start ⟨"/a.css"⟩ "" ∅
    Source.parse quotedTwice = .ok ⟨"my dir/a", some "b"⟩ ∧
      trimText "my dir/a" = "my dir/a" ∧ isClassName "b" ∧
      (∃ body behind inside after, Quotes quotedTwice.toList body behind ∧
        Quotes body inside after ∧
        "my dir/a" = String.ofList (trim inside)) ∧
      Source.parse quotedOnce = .error .unquotedPath ∧
      (Directive.applyImport default (.declaration "x" quotedOnce)).run cx
        = (.error (.directive (":import " ++ trimText quotedOnce) (.importValue .unquotedPath)),
          cx) := by
  intro quotedTwice quotedOnce cx
  have hparse : Source.parse quotedTwice = .ok ⟨"my dir/a", some "b"⟩ := by unfold quotedTwice; rfl
  have hfault : Source.parse quotedOnce = .error .unquotedPath := by unfold quotedOnce; rfl
  obtain ⟨-, htrim, hclass, hquotes⟩ := (parse_wellFormed quotedTwice).1 _ hparse
  exact ⟨hparse, htrim, hclass "b" rfl, hquotes (by decide +kernel), hfault,
    (parse_wellFormed quotedOnce).2 _ hfault default "x" cx (by decide +kernel)⟩

end Import
end ScopedCss
