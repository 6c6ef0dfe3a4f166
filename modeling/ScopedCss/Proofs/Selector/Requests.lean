import ScopedCss.Selector.Rewrite

/-!
# What the rewriting of a selector asks for

The names that the rewriting of a selector asks for can be read off the selector, once it is known
which aliases are imported: they depend on no answer. `requests` lists them in their order.

* `rewrite_run`: the rewriting asks for exactly these names, and what it writes depends on nothing
  but the answers. A source of names may therefore be replaced by a fixed list of answers.
-/

namespace ScopedCss
namespace Selector

variable {σ : Type}

/-! ## Requests -/

/-- The scope in force after a piece. -/
def Token.scopeAfter (initial scope : Scope) : Token → Scope
  | .comma => initial
  | .marker scope => scope
  | _ => scope

/-- The pieces of a selector, each with the scope in force where it stands. -/
def inScope (initial : Scope) : Scope → List Token → List (Scope × Token)
  | _, [] => []
  | scope, token :: tokens =>
    (scope, token) :: inScope initial (token.scopeAfter initial scope) tokens

theorem mem_of_mem_inScope {initial scope : Scope} {tokens : List Token} {p : Scope × Token}
    (h : p ∈ inScope initial scope tokens) : p.2 ∈ tokens := by
  induction tokens generalizing scope with
  | nil => cases h
  | cons token tokens ih =>
    rcases List.mem_cons.1 h with rfl | h
    · exact List.mem_cons_self
    · exact List.mem_cons_of_mem _ (ih h)

/-- Something that the rewriting of a selector needs. -/
inductive Request where
  /-- The name of a class of the document itself. -/
  | ownName (className : String)
  /-- The name of the class `remote` in the file that the alias stands for. -/
  | composition (aliasName remote : String)
  /-- A marker that is closed. This one is not, so nothing else is asked for. -/
  | closing (marker : OpenMarker)
  deriving DecidableEq

/-- What a class asks for in a scope. -/
def Scope.requests (scope : Scope) (className : String) : List Request :=
  match scope with
  | .localScope => [.ownName className]
  | .globalScope => []

/-- What a reference asks for. After a dot an alias that is not known is a class of the document. -/
def Composition.requests (known : String → Bool) (scope : Scope) (c : Composition) : List Request :=
  .composition c.aliasName c.remote ::
    if known c.aliasName then [] else if c.dotted then scope.requests c.aliasName else []

/-- The text in a marker's parentheses. -/
def Token.content? : Token → Option String
  | .within _ content => some content
  | _ => none

theorem length_lt_of_content? {selector content : String} {tokens : List Token} {token : Token}
    (h : tokenize selector = .ok tokens) (hmem : token ∈ tokens)
    (hcontent : token.content? = some content) : content.length < selector.length := by
  cases token with
  | within scope content' =>
    obtain rfl := Option.some.inj hcontent
    exact length_content_lt h hmem
  | _ => cases hcontent

/-- What one piece asks for. The text in a marker's parentheses asks for what `inner` says. -/
def Token.requests (known : String → Bool) (scope : Scope) : (token : Token) →
    (inner : Scope → ∀ content, token.content? = some content → List Request) → List Request
  | .className name, _ => scope.requests name
  | .within scope content, inner => inner scope content rfl
  | .composition reference, _ => reference.requests known scope
  | _, _ => []

/-- What the rewriting of a selector asks for, every branch starting in the scope `initial`. -/
def requests (known : String → Bool) (initial : Scope) (selector : String) : List Request :=
  match _h : tokenize selector with
  | .error marker => [.closing marker]
  | .ok tokens =>
    (inScope initial initial tokens).attach.flatMap fun piece =>
      piece.1.2.requests known piece.1.1 fun scope content hcontent =>
        have := length_lt_of_content? _h (mem_of_mem_inScope piece.2) hcontent
        requests known scope content
termination_by selector.length

/-- What these pieces of a selector ask for. -/
def requestsOf (known : String → Bool) (initial scope : Scope) (tokens : List Token) :
    List Request :=
  (inScope initial scope tokens).flatMap fun piece =>
    piece.2.requests known piece.1 fun scope content _ => requests known scope content

theorem requests_eq (known : String → Bool) (initial : Scope) (selector : String) :
    requests known initial selector =
      match tokenize selector with
      | .error marker => [.closing marker]
      | .ok tokens => requestsOf known initial initial tokens := by
  rw [requests]
  split
  · next h => conv => rhs; rw [h]
  · next tokens h =>
    conv => rhs; rw [h]
    exact (List.flatMap_subtype fun _ _ => rfl).trans (by rw [List.unattach_attach]; rfl)

theorem requestsOf_cons (known : String → Bool) (initial scope : Scope) (token : Token)
    (tokens : List Token) :
    requestsOf known initial scope (token :: tokens) =
      token.requests known scope (fun scope content _ => requests known scope content)
        ++ requestsOf known initial (token.scopeAfter initial scope) tokens :=
  rfl

/-! ## Answers -/

/-- Answers to all requests, given beforehand. -/
structure Answers where
  ownName : String → String
  composed? : (aliasName : String) → (remote : String) → Option String

/-- The aliases with an answer are those that are known. -/
def Answers.Knows (answers : Answers) (known : String → Bool) : Prop :=
  ∀ aliasName remote, (answers.composed? aliasName remote).isSome = known aliasName

/-- Requests made one after the other: the source of names comes from one state to the other and
gives these answers, and the end may be a marker that is not closed. -/
inductive Asked (names : NameSource σ) (answers : Answers) :
    List Request → σ → Except OpenMarker Unit → σ → Prop
  | nil (s : σ) : Asked names answers [] s (.ok ()) s
  | ownName {className : String} {requests : List Request} {s s₁ s' : σ}
      {ended : Except OpenMarker Unit}
      (answer : (names.localName className).run s = (answers.ownName className, s₁))
      (rest : Asked names answers requests s₁ ended s') :
      Asked names answers (.ownName className :: requests) s ended s'
  | composition {aliasName remote : String} {requests : List Request} {s s₁ s' : σ}
      {ended : Except OpenMarker Unit}
      (answer : (names.composed? aliasName remote).run s
        = (answers.composed? aliasName remote, s₁))
      (rest : Asked names answers requests s₁ ended s') :
      Asked names answers (.composition aliasName remote :: requests) s ended s'
  | closing (marker : OpenMarker) (requests : List Request) (s : σ) :
      Asked names answers (.closing marker :: requests) s (.error marker) s

namespace Asked

variable {names : NameSource σ} {answers : Answers} {requests more : List Request} {s s' : σ}
  {ended : Except OpenMarker Unit}

theorem of_append (h : Asked names answers (requests ++ more) s ended s') :
    (∃ marker, ended = .error marker ∧ Asked names answers requests s (.error marker) s') ∨
      ∃ s₁, Asked names answers requests s (.ok ()) s₁ ∧ Asked names answers more s₁ ended s' := by
  induction requests generalizing s with
  | nil => exact .inr ⟨s, .nil s, h⟩
  | cons request requests ih =>
    cases h with
    | ownName answer rest =>
      obtain ⟨marker, rfl, h⟩ | ⟨s₁, h, hmore⟩ := ih rest
      · exact .inl ⟨marker, rfl, .ownName answer h⟩
      · exact .inr ⟨s₁, .ownName answer h, hmore⟩
    | composition answer rest =>
      obtain ⟨marker, rfl, h⟩ | ⟨s₁, h, hmore⟩ := ih rest
      · exact .inl ⟨marker, rfl, .composition answer h⟩
      · exact .inr ⟨s₁, .composition answer h, hmore⟩
    | closing marker => exact .inl ⟨marker, rfl, .closing marker requests s'⟩

end Asked

/-! ## The rewritten selector -/

/-- A class name in a scope. -/
def Answers.nameIn (answers : Answers) (scope : Scope) (className : String) : String :=
  match scope with
  | .localScope => answers.ownName className
  | .globalScope => className

/-- What becomes of a reference. After a dot an alias without an answer is a class of the
document. -/
def Answers.reference (answers : Answers) (scope : Scope) (c : Composition) : String :=
  match answers.composed? c.aliasName c.remote with
  | some name => "." ++ name
  | none =>
    let aliasName := if c.dotted then answers.nameIn scope c.aliasName else c.aliasName
    String.ofList { c with aliasName }.source

/-- Take one piece into the draft. The text in a marker's parentheses becomes what `inner` says. -/
def Answers.advance (answers : Answers) (initial : Scope) (d : Draft) (token : Token)
    (inner : Scope → ∀ content, token.content? = some content → String) : Draft :=
  match token, inner with
  | .comma, _ => d.nextBranch initial
  | .blank text, _ => d.writeBlank text
  | .className name, _ => d.write ("." ++ answers.nameIn d.scope name)
  | .marker scope, _ => d.switch scope
  | .within scope content, inner => d.write (inner scope content rfl)
  | .composition reference, _ => d.write (answers.reference d.scope reference)
  | .raw text, _ => d.write text

/-- The selector with these names, every branch starting in the scope `initial`. -/
def Answers.textIn (answers : Answers) (initial : Scope) (selector : String) : String :=
  match _h : tokenize selector with
  | .error _ => ""
  | .ok tokens =>
    (tokens.attach.foldl (fun d token =>
      answers.advance initial d token.1 fun scope content hcontent =>
        have := length_lt_of_content? _h token.2 hcontent
        answers.textIn scope content) (Draft.start initial)).text
termination_by selector.length

/-- The selector with these names, without blanks at its ends. -/
def Answers.text (answers : Answers) (initial : Scope) (selector : String) : String :=
  Text.trimText (answers.textIn initial selector)

/-- The draft after these pieces. -/
def Answers.advanceAll (answers : Answers) (initial : Scope) (d : Draft) (tokens : List Token) :
    Draft :=
  tokens.foldl (fun d token =>
    answers.advance initial d token fun scope content _ => answers.textIn scope content) d

theorem Answers.textIn_eq (answers : Answers) (initial : Scope) (selector : String) :
    answers.textIn initial selector =
      match tokenize selector with
      | .error _ => ""
      | .ok tokens => (answers.advanceAll initial (Draft.start initial) tokens).text := by
  rw [textIn]
  split
  · next h => conv => rhs; rw [h]
  · next tokens h =>
    conv => rhs; rw [h]
    refine congrArg Draft.text ?_
    conv => rhs; rw [advanceAll, ← List.attach_map_subtype_val tokens, List.foldl_map]

/-! ## The rewriting asks for its requests -/

variable {answers : Answers} {known : String → Bool}

theorem nameIn_run {names : NameSource σ} {scope : Scope} {className : String} {s s' : σ}
    {ended : Except OpenMarker Unit}
    (h : Asked names answers (scope.requests className) s ended s') :
    ended = .ok () ∧
    (names.nameIn scope className).run s = (answers.nameIn scope className, s') := by
  cases scope with
  | localScope =>
    obtain _ | ⟨answer, ⟨⟩⟩ := h
    exact ⟨rfl, answer⟩
  | globalScope =>
    cases h
    exact ⟨rfl, rfl⟩

theorem reference_run (hknown : answers.Knows known) {names : NameSource σ} {scope : Scope}
    {c : Composition} {s s' : σ} {ended : Except OpenMarker Unit}
    (h : Asked names answers (c.requests known scope) s ended s') :
    ended = .ok () ∧ (names.reference scope c).run s = (answers.reference scope c, s') := by
  obtain ⟨dotted, aliasName, remote, parenthesized⟩ := c
  have hk := hknown aliasName remote
  obtain _ | _ | ⟨answer, rest⟩ := h
  simp only [NameSource.reference, Answers.reference, StateT.run_bind, answer]
  cases hc : answers.composed? aliasName remote with
  | some name =>
    simp only [← hk, hc] at rest
    cases rest
    exact ⟨rfl, rfl⟩
  | none =>
    simp only [← hk, hc] at rest
    cases dotted with
    | true =>
      obtain ⟨rfl, hname⟩ := nameIn_run rest
      refine ⟨rfl, ?_⟩
      show StateT.run (names.nameIn scope aliasName >>= _) _ = _
      rw [StateT.run_bind, hname]
      rfl
    | false =>
      cases rest
      exact ⟨rfl, rfl⟩

theorem run_lift_map {α β : Type} (f : α → β) (m : StateM σ α) (s : σ) :
    (f <$> (liftM m : Rewriting σ α)).run.run s = (.ok (f (m.run s).1), (m.run s).2) :=
  rfl

theorem run_map {α β : Type} (f : α → β) (m : Rewriting σ α) (s : σ) :
    (f <$> m).run.run s = ((m.run.run s).1.map f, (m.run.run s).2) := by
  simp only [ExceptT.run_map, StateT.run_map]
  rfl

theorem run_bind_of_run {α β : Type} {program : StateM σ α} {s s₁ : σ} {result : α}
    (h : program.run s = (result, s₁)) (next : α → StateM σ β) :
    (program >>= next).run s = (next result).run s₁ := by
  rw [StateT.run_bind, h]
  rfl

/-- A program asks for these requests, and its result depends on nothing but the answers. -/
def AsksFor {α : Type} (answers : Answers) (requests : List Request)
    (program : ∀ {σ : Type}, NameSource σ → Rewriting σ α) (result : α) : Prop :=
  ∀ (σ : Type) (names : NameSource σ) (s s' : σ) (ended : Except OpenMarker Unit),
    Asked names answers requests s ended s' →
      (program names).run.run s = (ended.map fun _ => result, s')

theorem scope_advance (answers : Answers) (initial : Scope) (d : Draft) (token : Token)
    (inner : Scope → ∀ content, token.content? = some content → String) :
    (answers.advance initial d token inner).scope = token.scopeAfter initial d.scope := by
  cases token with
  | blank text =>
    show (d.writeBlank text).scope = d.scope
    unfold Draft.writeBlank
    split <;> rfl
  | _ => rfl

/-- One piece asks for its requests. -/
theorem advance_asksFor (hknown : answers.Knows known) (initial : Scope) (d : Draft) (token : Token)
    (hinner : ∀ scope content, token = .within scope content →
      AsksFor answers (requests known scope content) (rewriteIn · scope content)
        (answers.textIn scope content)) :
    AsksFor answers
      (token.requests known d.scope fun scope content _ => requests known scope content)
      (fun names => d.advance names initial token fun scope content _ =>
        rewriteIn names scope content)
      (answers.advance initial d token fun scope content _ => answers.textIn scope content) := by
  intro σ names s s' ended h
  cases token with
  | comma | blank | marker | raw =>
    cases h
    rfl
  | className name =>
    obtain ⟨rfl, hname⟩ := nameIn_run h
    show (_ <$> (liftM (names.nameIn d.scope name) : Rewriting _ String)).run.run _ = _
    rw [run_lift_map, hname]
    rfl
  | within scope content =>
    show (d.write <$> rewriteIn names scope content).run.run s = _
    rw [run_map, hinner scope content rfl _ names _ _ _ h]
    cases ended <;> rfl
  | composition reference =>
    obtain ⟨rfl, hname⟩ := reference_run hknown h
    show (_ <$> (liftM (names.reference d.scope reference) : Rewriting _ String)).run.run _ = _
    rw [run_lift_map, hname]
    rfl

/-- The pieces of a selector ask for their requests. -/
theorem foldlM_advance_asksFor (hknown : answers.Knows known) (initial : Scope)
    (tokens : List Token)
    (hinner : ∀ scope content, .within scope content ∈ tokens →
      AsksFor answers (requests known scope content) (rewriteIn · scope content)
        (answers.textIn scope content)) (d : Draft) :
    AsksFor answers (requestsOf known initial d.scope tokens)
      (fun names => tokens.foldlM (fun d token =>
        d.advance names initial token fun scope content _ => rewriteIn names scope content) d)
      (answers.advanceAll initial d tokens) := by
  induction tokens generalizing d with
  | nil =>
    intro σ names s s' ended h
    cases h
    rfl
  | cons token tokens ih =>
    intro σ names s s' ended h
    have hfirst := advance_asksFor hknown initial d token fun scope content heq =>
      hinner scope content (heq ▸ List.mem_cons_self)
    have hrest := ih (fun scope content hmem => hinner scope content (.tail _ hmem))
      (answers.advance initial d token fun scope content _ => answers.textIn scope content)
    rw [scope_advance] at hrest
    rw [requestsOf_cons] at h
    simp only [List.foldlM_cons, ExceptT.run_bind, StateT.run_bind]
    -- the requests of this piece come first, and may already end the rewriting
    obtain ⟨marker, rfl, hopen⟩ | ⟨s₁, hdone, hmore⟩ := h.of_append
    · rw [hfirst σ names _ _ _ hopen]
      rfl
    · rw [hfirst σ names _ _ _ hdone]
      exact hrest σ names _ _ _ hmore

theorem rewriteIn_asksFor (hknown : answers.Knows known) (initial : Scope) (selector : String) :
    AsksFor answers (requests known initial selector) (rewriteIn · initial selector)
      (answers.textIn initial selector) := by
  -- by the length of the selector, as the text in a marker's parentheses is shorter
  induction hn : selector.length using Nat.strongRecOn generalizing initial selector with
  | ind n ih =>
    intro σ names s s' ended h
    rw [requests_eq] at h
    show (rewriteIn names initial selector).run.run s = _
    rw [rewriteIn_eq, Answers.textIn_eq]
    cases ht : tokenize selector with
    | error marker =>
      rw [ht] at h
      cases h
      rfl
    | ok tokens =>
      rw [ht] at h
      have hpieces := foldlM_advance_asksFor hknown initial tokens
        (fun scope content hmem =>
          ih content.length (hn ▸ length_content_lt ht hmem) scope content rfl)
        (Draft.start initial)
      show (Draft.text <$> _ : Rewriting _ String).run.run s = _
      rw [run_map, hpieces σ names _ _ _ h]
      cases ended <;> rfl

/-- **A selector is rewritten by its requests.** The rewriting asks for the requests of the selector
in their order and for nothing else; what it writes depends on nothing but the answers. -/
theorem rewrite_run (hknown : answers.Knows known) {names : NameSource σ} {initial : Scope}
    {selector : String} {s s' : σ} {ended : Except OpenMarker Unit}
    (h : Asked names answers (requests known initial selector) s ended s') :
    (rewrite names initial selector).run.run s
      = (ended.map fun _ => answers.text initial selector, s') := by
  rw [rewrite, run_map, rewriteIn_asksFor hknown initial selector _ names _ _ _ h]
  cases ended <;> rfl

end Selector
end ScopedCss
