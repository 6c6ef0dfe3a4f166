import ScopedCss.Selector.Draft
import ScopedCss.Selector.Lexer

/-!
# Rewriting a selector

The classes of a selector are replaced by their scoped names where the scope is local. Every branch
starts in the scope of the whole; a marker without parentheses sets the scope for the rest of its
branch, one with parentheses only for the text in them. References to classes of other files are
replaced in either scope.

The names come from a `NameSource`, which is asked for them in the order of the selector and may
change its state with each answer.

* `rewriteIn_eq`: the rewriting of a selector is one walk over its pieces.
-/

namespace ScopedCss
namespace Selector

/-- Where scoped names come from. -/
structure NameSource (σ : Type) where
  /-- The scoped name of a class of the document itself. -/
  localName : String → StateM σ String
  /-- The scoped name of the class `remote` in the file that `aliasName` was imported for, if there
  is such an import. -/
  composed? : (aliasName : String) → (remote : String) → StateM σ (Option String)

/-- A rewriting asks for names and may come to a marker that is not closed. -/
abbrev Rewriting (σ : Type) := ExceptT OpenMarker (StateM σ)

variable {σ : Type}

/-- A class name as it appears in the scope. -/
def NameSource.nameIn (names : NameSource σ) (scope : Scope) (name : String) : StateM σ String :=
  match scope with
  | .localScope => names.localName name
  | .globalScope => pure name

/-- What a reference becomes: the scoped name as a class, or the reference itself if there is no
such import. After a dot the alias of the latter is a class of the document. -/
def NameSource.reference (names : NameSource σ) (scope : Scope) (c : Composition) :
    StateM σ String := do
  match ← names.composed? c.aliasName c.remote with
  | some name => return "." ++ name
  | none =>
    let aliasName ← if c.dotted then names.nameIn scope c.aliasName else pure c.aliasName
    return String.ofList { c with aliasName }.source

/-- Take one piece into the draft. The text in a marker's parentheses is rewritten by `inner`. -/
def Draft.advance (names : NameSource σ) (initial : Scope) (d : Draft) (token : Token)
    (inner : ∀ scope content, token = .within scope content → Rewriting σ String) :
    Rewriting σ Draft := do
  match htoken : token with
  | .comma => return d.nextBranch initial
  | .blank text => return d.writeBlank text
  | .className name => return d.write ("." ++ (← names.nameIn d.scope name))
  | .marker scope => return d.switch scope
  | .within scope content => return d.write (← inner scope content htoken)
  | .composition reference => return d.write (← names.reference d.scope reference)
  | .raw text => return d.write text

/-- The selector with its names replaced, every branch starting in the scope `initial`. -/
def rewriteIn (names : NameSource σ) (initial : Scope) (selector : String) :
    Rewriting σ String :=
  match _h : tokenize selector with
  | .error fault => throw fault
  | .ok tokens => do
    let draft ← tokens.attach.foldlM (fun d token =>
      d.advance names initial token.1 fun scope content hcontent =>
        have := length_content_lt _h (hcontent ▸ token.2)
        rewriteIn names scope content) (Draft.start initial)
    return draft.text
termination_by selector.length

/-- The selector with its names replaced, without blanks at its ends. -/
def rewrite (names : NameSource σ) (initial : Scope) (selector : String) : Rewriting σ String :=
  Text.trimText <$> rewriteIn names initial selector

/-- The scope in which every branch of a rule starts. -/
def defaultScope (modules : Bool) : Scope := if modules then .localScope else .globalScope

/-! ### One walk over the pieces -/

theorem foldlM_attach {α β : Type} {m : Type → Type} [Monad m] [LawfulMonad m] (f : β → α → m β)
    (l : List α) (b : β) : l.attach.foldlM (fun b a => f b a.1) b = l.foldlM f b := by
  conv => rhs; rw [← List.attach_map_subtype_val l, List.foldlM_map]

/-- The rewriting of a selector is one walk over its pieces. -/
theorem rewriteIn_eq (names : NameSource σ) (initial : Scope) (selector : String) :
    rewriteIn names initial selector =
      match tokenize selector with
      | .error fault => throw fault
      | .ok tokens => Draft.text <$> tokens.foldlM (fun d token =>
          d.advance names initial token fun scope content _ => rewriteIn names scope content)
          (Draft.start initial) := by
  rw [rewriteIn]
  split
  · next h => conv => rhs; rw [h]
  · next tokens h =>
    conv => rhs; rw [h]
    exact congrArg (Draft.text <$> ·) (foldlM_attach (fun d token =>
      d.advance names initial token fun scope content _ => rewriteIn names scope content)
      tokens (Draft.start initial))

/-- Take one piece into the draft, and with it the rewritten text in a marker's parentheses. -/
def Draft.step (names : NameSource σ) (initial : Scope) (d : Draft) (token : Token) :
    Rewriting σ Draft :=
  d.advance names initial token fun scope content _ => rewriteIn names scope content

/-- The pieces of a selector, or of a part of one, with their names replaced. -/
def rewriteTokens (names : NameSource σ) (initial : Scope) (tokens : List Token) :
    Rewriting σ String :=
  Draft.text <$> tokens.foldlM (Draft.step names initial) (Draft.start initial)

theorem rewriteIn_of_tokenize {selector : String} {tokens : List Token}
    (h : tokenize selector = .ok tokens) (names : NameSource σ) (initial : Scope) :
    rewriteIn names initial selector = rewriteTokens names initial tokens := by
  rw [rewriteIn_eq, h]
  rfl

example :
    let names : NameSource Unit := ⟨fun name => pure ("<" ++ name ++ ">"), fun _ _ => pure none⟩
    ((rewrite names .localScope ":global .a, .b :global(.c, .d .e::f)").run ()).1.toOption
      = some ".a, .<b> .c, .d .e::f" := by decide +kernel

end Selector
end ScopedCss
