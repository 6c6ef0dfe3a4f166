import Mathlib.Control.Monad.Basic
import ScopedCss.Selector.Rewrite

/-!
# The rewriting in one text

A selector can be rewritten into one text that grows (`Buffer`): the branches that are done stand in
it with a comma behind each, and the branch at hand begins behind the last of these commas. A branch
that is left without a text is cut off again. This is the rewriting with a list of branches
(`rewriteInBuffer_eq`); what is cut off at the end is always a comma.
-/

namespace ScopedCss
namespace Selector

open Text

variable {σ : Type}

/-! ## Buffers -/

/-- A partly rewritten selector as one text. -/
structure Buffer where
  text : List Char
  /-- Where the branch at hand begins. -/
  branchStart : Nat
  /-- The scope in force. -/
  scope : Scope
  /-- A blank that comes next was left behind by a marker and is dropped. -/
  skipBlank : Bool

namespace Buffer

/-- Nothing is written yet. -/
def start (scope : Scope) : Buffer := ⟨[], 0, scope, false⟩

/-- The branch at hand, so far. -/
def branch (b : Buffer) : List Char := b.text.drop b.branchStart

/-- Write a text. -/
def write (b : Buffer) (text : String) : Buffer :=
  { b with text := b.text ++ text.toList, skipBlank := false }

/-- Write a blank, unless a marker left it behind. -/
def writeBlank (b : Buffer) (text : String) : Buffer :=
  if b.skipBlank then { b with skipBlank := false } else b.write text

/-- Go on in another scope. The blank after a marker goes with it if there is one before it, or
nothing at all. -/
def switch (b : Buffer) (scope : Scope) : Buffer :=
  { b with scope, skipBlank := isBlankText b.branch || b.text.getLast?.any isBlank }

/-- Begin the branch after a comma. A branch without a text is cut off, any other gets its comma. -/
def nextBranch (b : Buffer) (initial : Scope) : Buffer :=
  let text := if isBlankText b.branch then b.text.take b.branchStart else b.text ++ [',']
  ⟨text, text.length, initial, false⟩

/-- The finished text. A last branch without a text is cut off with the comma before it. -/
def finish (b : Buffer) : String :=
  String.ofList
    (if 0 < b.branchStart ∧ isBlankText b.branch then b.text.take (b.branchStart - 1) else b.text)

/-- Take one piece into the buffer. The text in a marker's parentheses is rewritten by `inner`. -/
def advance (names : NameSource σ) (initial : Scope) (b : Buffer) (token : Token)
    (inner : ∀ scope content, token = .within scope content → Rewriting σ String) :
    Rewriting σ Buffer := do
  match htoken : token with
  | .comma => return b.nextBranch initial
  | .blank text => return b.writeBlank text
  | .className name => return b.write ("." ++ (← names.nameIn b.scope name))
  | .marker scope => return b.switch scope
  | .within scope content => return b.write (← inner scope content htoken)
  | .composition reference => return b.write (← names.reference b.scope reference)
  | .raw text => return b.write text

end Buffer

/-- The selector with its names replaced, written into one text. -/
def rewriteInBuffer (names : NameSource σ) (initial : Scope) (selector : String) :
    Rewriting σ String :=
  match _h : tokenize selector with
  | .error fault => throw fault
  | .ok tokens => do
    let buffer ← tokens.attach.foldlM (fun b token =>
      b.advance names initial token.1 fun scope content hcontent =>
        have := length_content_lt _h (hcontent ▸ token.2)
        rewriteInBuffer names scope content) (Buffer.start initial)
    return buffer.finish
termination_by selector.length

/-! ## Drafts as buffers -/

/-- Branches with a comma behind each. -/
def commaEnded (branches : List String) : List Char :=
  branches.flatMap fun branch => branch.toList ++ [',']

theorem commaEnded_append (branches more : List String) :
    commaEnded (branches ++ more) = commaEnded branches ++ commaEnded more := List.flatMap_append

/-- Without the last comma the commas stand between the branches. -/
theorem commaEnded_eq (branches : List String) (hne : branches ≠ []) :
    commaEnded branches = (",".intercalate branches).toList ++ [','] := by
  induction branches with
  | nil => exact absurd rfl hne
  | cons branch branches ih =>
    cases branches with
    | nil => simp [commaEnded]
    | cons next branches =>
      have hrest := ih (List.cons_ne_nil _ _)
      rw [commaEnded, List.flatMap_cons, ← commaEnded, hrest]
      simp [String.toList_intercalate]

namespace Buffer

/-- The text of a draft. -/
def ofDraft (d : Draft) : Buffer :=
  ⟨commaEnded d.kept ++ d.branch.toList, (commaEnded d.kept).length, d.scope, d.skipBlank⟩

variable (d : Draft)

theorem branch_ofDraft : (ofDraft d).branch = d.branch.toList := List.drop_left

theorem ofDraft_write (text : String) : (ofDraft d).write text = ofDraft (d.write text) := by
  simp [ofDraft, write, Draft.write]

theorem ofDraft_writeBlank (text : String) :
    (ofDraft d).writeBlank text = ofDraft (d.writeBlank text) := by
  show (if d.skipBlank then _ else (ofDraft d).write text) = ofDraft (if d.skipBlank then _ else _)
  split
  · rfl
  · exact ofDraft_write d text

theorem ofDraft_switch (scope : Scope) : (ofDraft d).switch scope = ofDraft (d.switch scope) := by
  have hskip : (isBlankText d.branch.toList || (ofDraft d).text.getLast?.any isBlank)
      = (d.isBlank || d.endsBlank) := by
    by_cases hbranch : d.branch.toList = []
    · simp [Draft.isBlank, isBlankText, hbranch]
    · have hlast := List.getLast?_eq_some_getLast hbranch
      rw [ofDraft, List.getLast?_append, Draft.endsBlank, hlast]
      rfl
  rw [switch, branch_ofDraft, hskip]
  rfl

theorem ofDraft_nextBranch (initial : Scope) :
    (ofDraft d).nextBranch initial = ofDraft (d.nextBranch initial) := by
  rw [nextBranch, branch_ofDraft, Draft.nextBranch, Draft.isBlank]
  cases isBlankText d.branch.toList with
  | true => simp [ofDraft, Draft.start]
  | false => simp [ofDraft, Draft.start, commaEnded]

theorem finish_ofDraft : (ofDraft d).finish = d.text := by
  rw [finish, branch_ofDraft, Draft.text, Draft.branches, Draft.isBlank]
  by_cases hkept : d.kept = []
  · simp [ofDraft, hkept, commaEnded]
  · have hdone := commaEnded_eq d.kept hkept
    cases isBlankText d.branch.toList with
    | true => simp [ofDraft, hkept, hdone, -String.toList_intercalate]
    | false =>
      have hall := commaEnded_eq (d.kept ++ [d.branch]) (by simp)
      have hbranch : commaEnded [d.branch] = d.branch.toList ++ [','] := by simp [commaEnded]
      rw [commaEnded_append, hbranch, ← List.append_assoc] at hall
      simp [ofDraft, List.append_cancel_right hall, -String.toList_intercalate]

end Buffer

theorem advance_ofDraft (names : NameSource σ) (initial : Scope) (d : Draft) (token : Token)
    (inner : ∀ scope content, token = .within scope content → Rewriting σ String) :
    (Buffer.ofDraft d).advance names initial token inner
      = Buffer.ofDraft <$> d.advance names initial token inner := by
  cases token with
  | comma => exact congrArg pure (Buffer.ofDraft_nextBranch d initial)
  | blank text => exact congrArg pure (Buffer.ofDraft_writeBlank d text)
  | marker scope => exact congrArg pure (Buffer.ofDraft_switch d scope)
  | raw text => exact congrArg pure (Buffer.ofDraft_write d text)
  | className name =>
    show _ <$> (liftM (names.nameIn d.scope name) : Rewriting σ String) = _ <$> (_ <$> _)
    rw [Functor.map_map]
    exact congrArg (· <$> _) (funext fun text => Buffer.ofDraft_write d _)
  | within scope content =>
    show _ <$> inner scope content rfl = _ <$> (_ <$> _)
    rw [Functor.map_map]
    exact congrArg (· <$> _) (funext fun text => Buffer.ofDraft_write d _)
  | composition reference =>
    show _ <$> (liftM (names.reference d.scope reference) : Rewriting σ String) = _ <$> (_ <$> _)
    rw [Functor.map_map]
    exact congrArg (· <$> _) (funext fun text => Buffer.ofDraft_write d _)

theorem foldlM_ofDraft {f : Buffer → Token → Rewriting σ Buffer}
    {g : Draft → Token → Rewriting σ Draft} {tokens : List Token}
    (h : ∀ d, ∀ token ∈ tokens, f (.ofDraft d) token = Buffer.ofDraft <$> g d token) (d : Draft) :
    tokens.foldlM f (.ofDraft d) = Buffer.ofDraft <$> tokens.foldlM g d := by
  induction tokens generalizing d with
  | nil => simp
  | cons token tokens ih =>
    rw [List.foldlM_cons, List.foldlM_cons, h d token List.mem_cons_self, map_bind, bind_map_left]
    exact bind_congr fun d' => ih (fun d token hmem => h d token (List.mem_cons_of_mem _ hmem)) d'

/-- **The rewriting in one text** is the rewriting with a list of branches. -/
theorem rewriteInBuffer_eq (names : NameSource σ) (initial : Scope) (selector : String) :
    rewriteInBuffer names initial selector = rewriteIn names initial selector := by
  -- by the length of the selector, as the text in a marker's parentheses is shorter
  induction hn : selector.length using Nat.strongRecOn generalizing initial selector with
  | ind n ih =>
    rw [rewriteInBuffer]
    split
    · next fault h => rw [rewriteIn_eq, h]
    · next tokens h =>
      let advance (b : Buffer) (token : Token) : Rewriting σ Buffer :=
        b.advance names initial token fun scope content _ => rewriteInBuffer names scope content
      have hstep (d : Draft) (token : Token) (hmem : token ∈ tokens) :
          advance (.ofDraft d) token = Buffer.ofDraft <$> d.step names initial token := by
        have hinner : (fun scope content (_ : token = .within scope content) =>
              rewriteInBuffer names scope content)
            = fun scope content _ => rewriteIn names scope content := by
          funext scope content hcontent
          exact ih content.length (hn ▸ length_content_lt h (hcontent ▸ hmem)) scope content rfl
        rw [Draft.step, ← hinner]
        exact advance_ofDraft names initial d token _
      calc _ = Buffer.finish <$> tokens.foldlM advance (.start initial) :=
            congrArg (Buffer.finish <$> ·) (foldlM_attach advance tokens (.start initial))
        _ = Buffer.finish <$> Buffer.ofDraft
              <$> tokens.foldlM (Draft.step names initial) (.start initial) :=
            congrArg (Buffer.finish <$> ·) (foldlM_ofDraft hstep (.start initial))
        _ = rewriteIn names initial selector := by
            rw [rewriteIn_of_tokenize h, rewriteTokens, Functor.map_map]
            exact congrArg (· <$> _) (funext Buffer.finish_ofDraft)

end Selector
end ScopedCss
