import ScopedCss.Directive

/-!
# The grammar of a `@use` directive

    directive = ( reference | "(" reference *( "," reference ) ")" ) "from" quoted
    reference = class [ "as" class ]

The grammar is a relation between words and the directive that they spell. The reader follows no
such rules; it looks at one word after the other and stops at the first that does not fit.

* `Spells`: the words that spell a directive.
* `ofTokens_eq_ok_iff`: the reader takes words for a directive when they spell it, and for nothing
  else.
* `parse_grammar`: so parameters are accepted when their words spell a directive, and all others are
  a syntax error of the directive.
-/

namespace ScopedCss
namespace Use

/-- A class of another file as it is written, with or without a label. -/
structure Clause where
  className : String
  label? : Option String
  deriving DecidableEq

/-- The words of a clause. -/
def Clause.tokens : Clause → List Token
  | ⟨name, none⟩ => [.className name]
  | ⟨name, some label⟩ => [.className name, .asWord, .className label]

/-- What a clause refers to; a class is its own label if it has no other. -/
def Clause.reference (clause : Clause) : Reference :=
  ⟨clause.className, clause.label?.getD clause.className⟩

/-- The words of clauses with commas between them. -/
def Clause.listed (first : Clause) (more : List Clause) : List Token :=
  first.tokens ++ more.flatMap fun clause => .comma :: clause.tokens

/-- The words spell what a directive takes. -/
inductive SpellsReferences : List Token → List Reference → Prop where
  | single (clause : Clause) : SpellsReferences clause.tokens [clause.reference]
  | listed (first : Clause) (more : List Clause) :
    SpellsReferences (.openParen :: (first.listed more ++ [.closeParen]))
      ((first :: more).map Clause.reference)

/-- The words spell the directive. -/
inductive Spells : List Token → Directive → Prop where
  | mk {tokens : List Token} {references : List Reference} (path : String)
    (h : SpellsReferences tokens references) :
    Spells (tokens ++ [.fromWord, .quoted path]) ⟨references, path⟩

@[simp] theorem Clause.listed_nil (first : Clause) : first.listed [] = first.tokens := by
  simp [listed]

@[simp] theorem Clause.listed_cons (first next : Clause) (more : List Clause) :
    first.listed (next :: more) = first.tokens ++ .comma :: next.listed more := by
  simp [listed]

/-! ## One reference -/

/-- A clause is read to its end, unless a label follows that it does not have. -/
theorem readReference_tokens (clause : Clause) (rest : List Token)
    (hrest : rest.head? ≠ some .asWord) :
    readReference (clause.tokens ++ rest) = .ok (clause.reference, rest) := by
  obtain ⟨name, label?⟩ := clause
  cases label? with
  | some label => rfl
  | none =>
    cases rest with
    | nil => rfl
    | cons found rest => cases found <;> first | rfl | exact absurd rfl hrest

/-- What is read as a reference is a clause. -/
theorem tokens_of_readReference {tokens rest : List Token} {r : Reference}
    (h : readReference tokens = .ok (r, rest)) :
    ∃ clause : Clause, clause.reference = r ∧ tokens = clause.tokens ++ rest := by
  unfold readReference at h
  split at h <;> cases h
  case h_1 name label => exact ⟨⟨name, some label⟩, rfl, rfl⟩
  case h_3 _ name _ _ => exact ⟨⟨name, none⟩, rfl, rfl⟩

/-! ## References in parentheses -/

/-- A clause begins like no word that is out of place in a list. -/
theorem notInList?_tokens (clause : Clause) (rest : List Token) :
    notInList? (clause.tokens ++ rest) = none := by
  obtain ⟨name, _ | label⟩ := clause <;> rfl

/-- Clauses with commas between them are read up to the closing parenthesis. -/
theorem readList_listed (first : Clause) (more : List Clause) (rest : List Token) :
    readList (first.listed more ++ .closeParen :: rest)
      = .ok ((first :: more).map Clause.reference, rest) := by
  induction more generalizing first with
  | nil =>
    rw [Clause.listed_nil, readList.eq_def, notInList?_tokens,
      readReference_tokens first _ (by simp)]
    rfl
  | cons next more ih =>
    have hread := readReference_tokens first
      (.comma :: (next.listed more ++ .closeParen :: rest)) (by simp)
    rw [Clause.listed_cons, List.append_assoc, List.cons_append, readList.eq_def,
      notInList?_tokens, hread]
    simp only [ih next]
    rfl

/-- What is read as a list are clauses with commas between them, and a closing parenthesis. -/
theorem listed_of_readList {tokens rest : List Token} {references : List Reference}
    (h : readList tokens = .ok (references, rest)) :
    ∃ first more, (first :: more).map Clause.reference = references ∧
      tokens = Clause.listed first more ++ .closeParen :: rest := by
  fun_induction readList tokens generalizing references rest
  case case3 tokens _ r after hread ih =>
    obtain ⟨clause, rfl, rfl⟩ := tokens_of_readReference hread
    cases hlist : readList after with
    | error fault => rw [hlist] at h; cases h
    | ok parts =>
      rw [hlist] at h
      cases h
      obtain ⟨first, more, hmore, rfl⟩ := ih hlist
      exact ⟨clause, first :: more, by simp [← hmore], by simp⟩
  case case4 tokens _ r rest hread =>
    cases h
    obtain ⟨clause, rfl, rfl⟩ := tokens_of_readReference hread
    exact ⟨clause, [], rfl, by simp⟩
  all_goals cases h

/-! ## The whole directive -/

theorem readPath_eq_ok_iff {tokens : List Token} {path : String} :
    readPath tokens = .ok path ↔ tokens = [.fromWord, .quoted path] := by
  constructor
  · intro h
    unfold readPath at h
    split at h <;> cases h
    rfl
  · rintro rfl
    rfl

/-- What a directive takes is read up to `from`. -/
theorem readReferences_of_spells {tokens : List Token} {references : List Reference}
    (h : SpellsReferences tokens references) (rest : List Token) :
    readReferences (tokens ++ .fromWord :: rest) = .ok (references, .fromWord :: rest) := by
  cases h with
  | single clause =>
    have hread := readReference_tokens clause (.fromWord :: rest) (by simp)
    obtain ⟨name, _ | label⟩ := clause <;> simp only [Clause.tokens] at hread ⊢ <;> rfl
  | listed first more =>
    have hread := readList_listed first more (.fromWord :: rest)
    simpa [readReferences] using hread

theorem spells_of_readReferences {tokens rest : List Token} {references : List Reference}
    (h : readReferences tokens = .ok (references, rest)) :
    ∃ front, SpellsReferences front references ∧ tokens = front ++ rest := by
  unfold readReferences at h
  split at h
  case h_1 => cases h
  case h_2 => cases h
  case h_3 =>
    obtain ⟨first, more, rfl, rfl⟩ := listed_of_readList h
    exact ⟨_, .listed first more, by simp⟩
  case h_4 =>
    cases hread : readReference tokens with
    | error fault => rw [hread] at h; cases h
    | ok parts =>
      rw [hread] at h
      cases h
      obtain ⟨clause, hclause, rfl⟩ := tokens_of_readReference hread
      exact ⟨_, hclause ▸ .single clause, rfl⟩

/-- The reader takes words for the directive that they spell. -/
theorem ofTokens_eq_ok_iff {tokens : List Token} {directive : Directive} :
    Directive.ofTokens tokens = .ok directive ↔ Spells tokens directive := by
  constructor
  · intro h
    unfold Directive.ofTokens at h
    cases hreferences : readReferences tokens with
    | error fault => rw [hreferences] at h; cases h
    | ok parts =>
      rw [hreferences] at h
      cases hpath : readPath parts.2 with
      | error fault => simp [bind, Except.bind, hpath] at h
      | ok path =>
        simp only [bind, Except.bind, hpath] at h
        cases h
        obtain ⟨front, hfront, rfl⟩ := spells_of_readReferences hreferences
        rw [readPath_eq_ok_iff.1 hpath]
        exact .mk path hfront
  · rintro ⟨path, h⟩
    simp [Directive.ofTokens, readReferences_of_spells h, readPath]
    rfl

/-- **A `@use` directive is accepted exactly when its words spell one.** Parameters give a directive
when they can be cut into words and these spell it; in all other cases they are a syntax error, and
the document stays as it was. -/
theorem parse_grammar (config : Config) (cx : Context) (params : String) :
    (∀ directive, Directive.parse params = .ok directive ↔
      ∃ tokens, tokenize? params = some tokens ∧ Spells tokens directive) ∧
    ((∀ tokens directive, tokenize? params = some tokens → ¬ Spells tokens directive) →
      ∃ fault, Directive.parse params = .error fault ∧
        (ScopedCss.Directive.applyUse config params).run cx
          = (.error (.ofUse params fault), cx)) := by
  have haccepts (directive : Directive) : Directive.parse params = .ok directive ↔
      ∃ tokens, tokenize? params = some tokens ∧ Spells tokens directive := by
    unfold Directive.parse
    cases tokenize? params with
    | none => simp
    | some tokens => simp [ofTokens_eq_ok_iff]
  refine ⟨haccepts, fun hother => ?_⟩
  cases hparse : Directive.parse params with
  | ok directive =>
    obtain ⟨tokens, htokens, hspells⟩ := (haccepts directive).1 hparse
    exact absurd hspells (hother tokens directive htokens)
  | error fault =>
    refine ⟨fault, rfl, ?_⟩
    simp only [ScopedCss.Directive.applyUse, hparse]
    rfl

end Use
end ScopedCss
