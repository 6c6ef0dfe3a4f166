import ScopedCss.Proofs.Stylesheet.Head

/-!
# Writing a stylesheet and reading it again

What is written of a node is read as this node, whatever comes after it: its block is not left
before its own closing brace, and its head is read as it was written.

* `isWritable` says which nodes can be written so that they can be read again.
* `Balanced` says that a text stays inside the block around it; the text of a node does.
* `read_text`: reading undoes writing.
-/

namespace ScopedCss
namespace Stylesheet

mutual

/-- The parts of the node, and those of the nodes in it, are read as they are written. -/
def Node.isWritable : Node → Bool
  | .rule selector nodes => isPart selector && startsPlain selector.toList && areWritable nodes
  | .block name params nodes => isAtName name && isPart params && areWritable nodes
  | .statement name params => isAtName name && isPart params
  | .declaration property value => isProperty property && isPart value

/-- All of these nodes are read as they are written. -/
def areWritable : List Node → Bool
  | [] => true
  | node :: nodes => node.isWritable && areWritable nodes

end

/-- The node is a declaration, which can only stand in a block. -/
def Node.isDeclaration : Node → Bool
  | .declaration _ _ => true
  | _ => false

variable {s rest more content head : List Char} {outer : List Bracket} {keyword : Option String}
  {prelude : String} {depth : Nat} {place : Location} {node : Node} {nodes : List Node}

/-! ## Texts -/

/-- The indentation inside so many blocks. -/
def margin (depth : Nat) : List Char := List.replicate (2 * depth) ' '

/-- What is written between the braces of a block, which stands inside so many blocks itself. -/
def contentText (depth : Nat) (nodes : List Node) : List Char :=
  '\n' :: ((printAll (depth + 1) nodes).toList ++ margin depth)

/-- A node with a block is written as its head and the nodes in it. -/
def blockText (depth : Nat) (head : List Char) (nodes : List Node) : List Char :=
  margin depth ++ (head ++ ' ' :: '{' :: (contentText depth nodes ++ ['}', '\n']))

/-- A node without a block is written as its head. -/
def lineText (depth : Nat) (head : List Char) : List Char :=
  margin depth ++ (head ++ [';', '\n'])

theorem toList_print_rule (depth : Nat) (selector : String) (nodes : List Node) :
    ((Node.rule selector nodes).print depth).toList = blockText depth selector.toList nodes := by
  simp [Node.print, blockText, contentText, indent, margin]

theorem toList_print_block (depth : Nat) (name params : String) (nodes : List Node) :
    ((Node.block name params nodes).print depth).toList
      = blockText depth (atHead name params).toList nodes := by
  simp [Node.print, blockText, contentText, indent, margin]

theorem toList_print_statement (depth : Nat) (name params : String) :
    ((Node.statement name params).print depth).toList
      = lineText depth (atHead name params).toList := by
  simp [Node.print, lineText, indent, margin]

theorem toList_print_declaration (depth : Nat) (property value : String) :
    ((Node.declaration property value).print depth).toList
      = lineText depth (declarationText property value).toList := by
  simp [Node.print, lineText, indent, margin, declarationText]

/-! ## Staying inside a block -/

/-- The block in braces around the text is not left in it, whatever comes after the text. -/
def Balanced (s : List Char) : Prop :=
  ∀ outer more, outer.head? = some .curly → untilClose outer (s ++ more) = untilClose outer more

namespace Balanced

theorem nil : Balanced [] := fun _ _ _ => rfl

theorem append {s t : List Char} (hs : Balanced s) (ht : Balanced t) : Balanced (s ++ t) := by
  intro outer more houter
  rw [List.append_assoc, hs _ _ houter, ht _ _ houter]

theorem newline : Balanced ['\n'] := fun _ _ _ => untilClose_space rfl _ _

theorem margin (depth : Nat) : Balanced (margin depth) := by
  unfold Stylesheet.margin
  induction 2 * depth with
  | zero => exact nil
  | succ n ih =>
    intro outer more houter
    rw [List.replicate_succ, List.cons_append, untilClose_space rfl, ih _ _ houter]

/-- The content of a block reaches to its closing brace. -/
theorem untilClose_content (h : Balanced content) (more : List Char) :
    untilClose [.curly] (content ++ '}' :: more) = '}' :: more := by
  have hclosing : (token '}' more).1 = .closing .curly := rfl
  rw [h _ _ rfl, untilClose_of_closing hclosing, if_pos rfl]

/-- A block inside a block is passed over as a whole. -/
theorem untilClose_braces (h : Balanced content) (houter : outer.head? = some .curly)
    (more : List Char) :
    untilClose outer ('{' :: (content ++ '}' :: more)) = untilClose outer more := by
  have hnested : (Bracket.curly :: outer).head? = some .curly := rfl
  have hdeeper : Bracket.curly :: outer ≠ [.curly] := by
    intro hsingle
    obtain rfl := (List.cons.inj hsingle).2
    cases houter
  have hopening : (token '{' (content ++ '}' :: more)).1 = .opening .curly := rfl
  have hclosing : (token '}' more).1 = .closing .curly := rfl
  rw [untilClose_of_opening hopening]
  show untilClose (.curly :: outer) (content ++ '}' :: more) = _
  rw [h _ _ hnested, untilClose_of_closing hclosing, if_neg hdeeper, if_pos hnested]
  rfl

theorem lineText (h : IsHead head keyword prelude) (depth : Nat) :
    Balanced (lineText depth head) := by
  refine append (margin depth) ?_
  intro outer more houter
  have hsemicolon : (token ';' ('\n' :: more)).1 = .semicolon := rfl
  show untilClose outer (head ++ [';', '\n'] ++ more) = _
  rw [List.append_assoc]
  show untilClose outer (head ++ ';' :: '\n' :: more) = _
  rw [h.stays (.semicolon _) houter, untilClose_of_other hsemicolon nofun nofun]
  exact newline _ _ houter

theorem contentText (h : Balanced (printAll (depth + 1) nodes).toList) :
    Balanced (contentText depth nodes) :=
  append newline (append h (margin depth))

theorem blockText (h : IsHead head keyword prelude)
    (hnodes : Balanced (printAll (depth + 1) nodes).toList) :
    Balanced (blockText depth head nodes) := by
  refine append (margin depth) ?_
  intro outer more houter
  have htext : head ++ ' ' :: '{' :: (Stylesheet.contentText depth nodes ++ ['}', '\n']) ++ more
      = head ++ ' ' :: '{' :: (Stylesheet.contentText depth nodes ++ '}' :: '\n' :: more) := by
    simp
  rw [htext, h.stays (.body _) houter, untilClose_space rfl,
    untilClose_braces (contentText hnodes) houter]
  exact newline _ _ houter

end Balanced

mutual

theorem Node.balanced_print : (node : Node) → node.isWritable → (depth : Nat) →
    Balanced (node.print depth).toList
  | .rule selector nodes, h, depth => by
    simp only [Node.isWritable, Bool.and_eq_true] at h
    rw [toList_print_rule]
    exact .blockText (isHead_selector h.1.1 h.1.2) (balanced_printAll nodes h.2 _)
  | .block name params nodes, h, depth => by
    simp only [Node.isWritable, Bool.and_eq_true] at h
    rw [toList_print_block]
    exact .blockText (isHead_atHead h.1.1 h.1.2) (balanced_printAll nodes h.2 _)
  | .statement name params, h, depth => by
    simp only [Node.isWritable, Bool.and_eq_true] at h
    rw [toList_print_statement]
    exact .lineText (isHead_atHead h.1 h.2) depth
  | .declaration property value, h, depth => by
    simp only [Node.isWritable, Bool.and_eq_true] at h
    rw [toList_print_declaration]
    exact .lineText (isHead_declaration h.1 h.2) depth

theorem balanced_printAll : (nodes : List Node) → areWritable nodes → (depth : Nat) →
    Balanced (printAll depth nodes).toList
  | [], _, depth => .nil
  | node :: nodes, h, depth => by
    simp only [areWritable, Bool.and_eq_true] at h
    rw [printAll, String.toList_append]
    exact .append (node.balanced_print h.1 depth) (balanced_printAll nodes h.2 depth)

end

/-! ## Reading -/

theorem skipBlanks_margin (depth : Nat) (s : List Char) :
    skipBlanks (margin depth ++ s) = skipBlanks s := by
  unfold margin
  induction 2 * depth with
  | zero => rfl
  | succ n ih => rw [List.replicate_succ, List.cons_append, skipBlanks_space rfl, ih]

theorem skipBlanks_contentText (depth : Nat) (nodes : List Node) :
    skipBlanks (contentText depth nodes)
      = skipBlanks ((printAll (depth + 1) nodes).toList ++ margin depth) :=
  skipBlanks_space rfl _

theorem skipBlanks_margin_eq_nil (depth : Nat) : skipBlanks (margin depth) = [] := by
  have hmargin := skipBlanks_margin depth []
  rwa [List.append_nil, skipBlanks] at hmargin

/-- A head is never all blanks, as the semicolon or the block comes after it. -/
theorem IsHead.skipBlanks_ne_nil {body : List Char} (h : IsHead head keyword prelude)
    (hstops : Stops more body) : skipBlanks (head ++ more) ≠ [] := by
  intro hnone
  have hafter := h.afterPrelude_eq hstops
  rw [hnone, afterPrelude, splitKeyword, untilBody] at hafter
  cases hstops <;> cases hafter

/-- The item that a line is read as. -/
theorem readItems_of_line (h : IsHead head keyword prelude)
    (hs : skipBlanks s = skipBlanks (lineText depth head ++ more)) :
    ∃ start next, readItems place s
      = .mk start keyword prelude none :: readItems next ('\n' :: more) := by
  have hstops : Stops (';' :: '\n' :: more) (';' :: '\n' :: more) := .semicolon _
  have hitem : skipBlanks s = skipBlanks (head ++ ';' :: '\n' :: more) := by
    rw [hs, lineText, List.append_assoc, skipBlanks_margin, List.append_assoc]
    rfl
  obtain ⟨c, rest, hcons⟩ := List.exists_cons_of_ne_nil (h.skipBlanks_ne_nil hstops)
  have hread := @readItems_of_cons place s c rest (hitem.trans hcons)
  rw [← hcons] at hread
  simp only [h.afterPrelude_eq hstops, h.splitKeyword_eq hstops, h.preludeOf_eq hstops] at hread
  exact ⟨_, _, hread⟩

/-- The item that a node with a block is read as, where its content is read as it was written. -/
theorem readItems_of_block (h : IsHead head keyword prelude)
    (hnodes : Balanced (printAll (depth + 1) nodes).toList)
    (hcontent : ∀ inside, readBlock (readItems inside (contentText depth nodes)) = ([], nodes))
    (hs : skipBlanks s = skipBlanks (blockText depth head nodes ++ more)) :
    ∃ item next, readItems place s = item :: readItems next ('\n' :: more) ∧
      item.readInside = ([], [blockNode keyword prelude nodes]) ∧ item.fault? = none := by
  have hstops := Stops.body (contentText depth nodes ++ '}' :: '\n' :: more)
  have hitem : skipBlanks s
      = skipBlanks (head ++ ' ' :: '{' :: (contentText depth nodes ++ '}' :: '\n' :: more)) := by
    rw [hs, blockText, List.append_assoc, skipBlanks_margin]
    simp
  obtain ⟨c, rest, hcons⟩ := List.exists_cons_of_ne_nil (h.skipBlanks_ne_nil hstops)
  have hread := @readItems_of_cons place s c rest (hitem.trans hcons)
  have hclose := (Balanced.contentText hnodes).untilClose_content ('\n' :: more)
  rw [← hcons] at hread
  simp only [h.afterPrelude_eq hstops, h.splitKeyword_eq hstops, h.preludeOf_eq hstops,
    List.tail_cons, List.head?_cons, if_true, hclose, before_append_right] at hread
  refine ⟨_, _, hread, ?_, fault?_of_block ..⟩
  simp only [Item.readInside, hcontent]

mutual

/-- What is written of a node is read as an item that this node is made of. -/
theorem Node.readItems_print : (node : Node) → node.isWritable →
    ∀ {depth place s more}, skipBlanks s = skipBlanks ((node.print depth).toList ++ more) →
      ∃ item next, readItems place s = item :: readItems next ('\n' :: more) ∧
        item.readInside = ([], [node]) ∧ (node.isDeclaration = false → item.fault? = none)
  | .rule selector nodes, h, depth, place, s, more, hs => by
    simp only [Node.isWritable, Bool.and_eq_true] at h
    rw [toList_print_rule] at hs
    obtain ⟨item, next, hread, hitem, hfault⟩ :=
      readItems_of_block (isHead_selector h.1.1 h.1.2) (balanced_printAll nodes h.2 _)
        (readBlock_contentText nodes h.2) hs
    exact ⟨item, next, hread, hitem, fun _ => hfault⟩
  | .block name params nodes, h, depth, place, s, more, hs => by
    simp only [Node.isWritable, Bool.and_eq_true] at h
    rw [toList_print_block] at hs
    obtain ⟨item, next, hread, hitem, hfault⟩ :=
      readItems_of_block (isHead_atHead h.1.1 h.1.2) (balanced_printAll nodes h.2 _)
        (readBlock_contentText nodes h.2) hs
    exact ⟨item, next, hread, hitem, fun _ => hfault⟩
  | .statement name params, h, depth, place, s, more, hs => by
    simp only [Node.isWritable, Bool.and_eq_true] at h
    rw [toList_print_statement] at hs
    obtain ⟨start, next, hread⟩ := readItems_of_line (isHead_atHead h.1 h.2) hs
    exact ⟨_, next, hread, rfl, fun _ => rfl⟩
  | .declaration property value, h, depth, place, s, more, hs => by
    simp only [Node.isWritable, Bool.and_eq_true] at h
    rw [toList_print_declaration] at hs
    obtain ⟨start, next, hread⟩ := readItems_of_line (isHead_declaration h.1 h.2) hs
    exact ⟨_, next, hread, readInside_declarationText h.1 h.2 start, nofun⟩

/-- What is written of a block is read as the nodes in it. -/
theorem readBlock_contentText (nodes : List Node) (h : areWritable nodes) {depth : Nat}
    (place : Location) : readBlock (readItems place (contentText depth nodes)) = ([], nodes) :=
  readBlock_printAll nodes h (skipBlanks_contentText depth nodes) (skipBlanks_margin_eq_nil depth)

/-- What is written of nodes is read as these nodes, where only blanks follow. -/
theorem readBlock_printAll : (nodes : List Node) → areWritable nodes →
    ∀ {depth place s more}, skipBlanks s = skipBlanks ((printAll depth nodes).toList ++ more) →
      skipBlanks more = [] → readBlock (readItems place s) = ([], nodes)
  | [], _, depth, place, s, more, hs, hmore => by
    rw [readItems_of_nil (hs.trans hmore)]
    rfl
  | node :: nodes, h, depth, place, s, more, hs, hmore => by
    simp only [areWritable, Bool.and_eq_true] at h
    rw [printAll, String.toList_append, List.append_assoc] at hs
    obtain ⟨item, next, hread, hitem, -⟩ := node.readItems_print h.1 hs
    have hskip (rest : List Char) : skipBlanks ('\n' :: rest) = skipBlanks rest :=
      skipBlanks_space rfl _
    have hrest := @readBlock_printAll nodes h.2 depth next _ more (hskip _) hmore
    rw [hread]
    simp only [readBlock, hitem, hrest, List.nil_append, List.singleton_append]

end

/-! ## The whole stylesheet -/

theorem toList_print_cons (node : Node) (nodes : List Node) :
    ∃ rest, (print (node :: nodes)).toList = (node.print 0).toList ++ rest ∧
      skipBlanks ('\n' :: rest) = skipBlanks (print nodes).toList := by
  cases nodes with
  | nil => exact ⟨[], by simp [print], skipBlanks_space rfl _⟩
  | cons next nodes =>
    refine ⟨'\n' :: (print (next :: nodes)).toList, ?_, ?_⟩
    · simp [print, String.toList_intercalate]
    · rw [skipBlanks_space rfl, skipBlanks_space rfl]

/-- What is written of a stylesheet is read as its nodes, one item for each. -/
theorem readItems_print : (nodes : List Node) → areWritable nodes →
    (∀ node ∈ nodes, node.isDeclaration = false) →
    ∀ {place s}, skipBlanks s = skipBlanks (print nodes).toList →
      (∀ item ∈ readItems place s, item.fault? = none) ∧ readBlock (readItems place s) = ([], nodes)
  | [], _, _, place, s, hs => by
    have hnone : readItems place s = [] :=
      readItems_of_nil (hs.trans (by rw [print]; simp [skipBlanks]))
    rw [hnone]
    exact ⟨List.forall_mem_nil _, rfl⟩
  | node :: nodes, h, htop, place, s, hs => by
    simp only [areWritable, Bool.and_eq_true] at h
    obtain ⟨hnode, hnodes⟩ := List.forall_mem_cons.1 htop
    obtain ⟨rest, htext, hrest⟩ := toList_print_cons node nodes
    rw [htext] at hs
    obtain ⟨item, next, hread, hitem, hfault⟩ := node.readItems_print h.1 hs
    obtain ⟨hfaults, hblock⟩ := @readItems_print nodes h.2 hnodes next _ hrest
    rw [hread]
    refine ⟨List.forall_mem_cons.2 ⟨hfault hnode, hfaults⟩, ?_⟩
    simp only [readBlock, hitem, hblock, List.nil_append, List.singleton_append]

/-- **Reading undoes writing.** A stylesheet whose parts are trimmed and closed, with its
declarations in blocks, is read as the same nodes from the text that is written of it, and nothing
is left out. -/
theorem read_text (document : Document) (hwritable : areWritable document.nodes)
    (htop : ∀ node ∈ document.nodes, node.isDeclaration = false) (path : Path) :
    Document.read path document.text = ([], .ok ⟨path, document.text, document.nodes⟩) := by
  obtain ⟨hfaults, hblock⟩ := @readItems_print document.nodes hwritable htop .start _ rfl
  rw [Document.read, read_eq, Document.text, readSheet_of_forall hfaults, hblock]
  rfl

/-- Rules and at-rules inside one another. Semicolons and braces stand in strings, in an address, in
a comment and in brackets, and end nothing. -/
theorem read_text_nested :
    let document : Document := ⟨⟨"a.css"⟩, "", [
      .statement "charset" "'utf-8;'",
      .block "media" "(min-width: 1px)" [
        .rule ".a:not([b='\x7b'])" [
          .declaration "background" "url(x;y) /* \x7d */",
          .rule "" [.declaration "--empty" ""],
          .declaration "--block" "[{;}]"],
        .statement "layer" ""],
      .rule "\\61" []]⟩
    areWritable document.nodes ∧ (∀ node ∈ document.nodes, node.isDeclaration = false) ∧
      Document.read ⟨"b.css"⟩ document.text
        = ([], .ok ⟨⟨"b.css"⟩, document.text, document.nodes⟩) := by
  intro document
  have hwritable : areWritable document.nodes := by decide +kernel
  have htop : ∀ node ∈ document.nodes, node.isDeclaration = false := by decide +kernel
  exact ⟨hwritable, htop, read_text document hwritable htop ⟨"b.css"⟩⟩

end Stylesheet
end ScopedCss
