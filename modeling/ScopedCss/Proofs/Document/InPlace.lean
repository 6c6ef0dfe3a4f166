import ScopedCss.Walk

/-!
# The walk in place

The walk can be done on one list of nodes that is changed as it goes: an index moves along the list,
a directive is removed from it, and any other node is replaced by what becomes of it (`walkFrom`).
The nodes before the index are done with, so this is the walk through the nodes from the index on
(`walkFrom_eq`).
-/

namespace ScopedCss

open Stylesheet (Node)

mutual

/-- Walk in place through a node that is no directive. -/
def walkNodeInPlace (config : Config) : Node → StateM Context (Walked Node)
  | .rule selector nodes => do
    match ← scopeSelector config selector with
    | .error error => return (.error error, .rule selector nodes)
    | .ok result =>
      let (ended, nodes) ← walkFrom config 0 nodes
      return (ended, .rule result nodes)
  | .block name params nodes => do
    let (ended, nodes) ← walkFrom config 0 nodes
    return (ended, .block name params nodes)
  | node => return (.ok (), node)
termination_by node => sizeOf node

/-- Walk in place through the nodes from an index on. A directive is removed, and the node that
moves up to its index comes next. -/
def walkFrom (config : Config) (index : Nat) (nodes : List Node) :
    StateM Context (Walked (List Node)) :=
  if h : index < nodes.length then do
    match ← (Directive.interceptAny config (Grammar.distinct config.grammars) nodes[index]).run with
    | .error error => return (.error error, nodes)
    | .ok true => walkFrom config index (nodes.eraseIdx index)
    | .ok false =>
      match ← walkNodeInPlace config nodes[index] with
      | (.error error, node) => return (.error error, nodes.set index node)
      | (.ok (), node) => walkFrom config (index + 1) (nodes.set index node)
  else return (.ok (), nodes)
termination_by sizeOf (nodes.drop index)
decreasing_by
  all_goals
    have hdrop := congrArg sizeOf (List.drop_eq_getElem_cons h)
    rw [List.cons.sizeOf_spec] at hdrop
  · rw [List.eraseIdx_eq_take_drop_succ, List.drop_left' (List.length_take_of_le (Nat.le_of_lt h))]
    omega
  · omega
  · rw [List.drop_set_of_lt (Nat.lt_add_one index)]
    omega

end

variable {config : Config}

mutual

theorem walkNodeInPlace_eq : (node : Node) → walkNodeInPlace config node = walkNode config node
  | .rule selector nodes => by
    have hnodes : walkFrom config 0 nodes = walk config nodes := by
      simpa using walkFrom_eq nodes []
    rw [walkNodeInPlace, hnodes]
    rfl
  | .block name params nodes => by
    have hnodes : walkFrom config 0 nodes = walk config nodes := by
      simpa using walkFrom_eq nodes []
    rw [walkNodeInPlace, walkNode, hnodes]
  | .statement name params => by simp [walkNodeInPlace, walkNode]
  | .declaration property value => by simp [walkNodeInPlace, walkNode]

theorem walkFrom_eq : (nodes done : List Node) →
    walkFrom config done.length (done ++ nodes)
      = (fun walked => (walked.1, done ++ walked.2)) <$> walk config nodes
  | [], done => by
    rw [walkFrom, dif_neg (by simp), walk, map_pure]
  | node :: nodes, done => by
    have hnode (h : done.length < (done ++ node :: nodes).length) :
        (done ++ node :: nodes)[done.length] = node := by
      simp
    have herase : (done ++ node :: nodes).eraseIdx done.length = done ++ nodes := by
      simp [List.eraseIdx_append_of_length_le]
    have hset (node' : Node) : (done ++ node :: nodes).set done.length node'
        = done ++ node' :: nodes := by
      simp
    rw [walkFrom, dif_pos (by simp), walk, map_bind]
    simp only [hnode, herase, hset, walkNodeInPlace_eq node, walkFrom_eq nodes done]
    congr 1
    funext followed
    match followed with
    | .error error => rfl
    | .ok true => rfl
    | .ok false =>
      simp only [map_bind]
      congr 1
      funext walked
      match walked with
      | (.error error, node') => rfl
      | (.ok (), node') =>
        have hrest := walkFrom_eq nodes (done ++ [node'])
        rw [List.length_append, List.append_assoc] at hrest
        exact hrest.trans (by simp)

end

/-- The walk in place is the walk. -/
theorem walkFrom_zero (nodes : List Node) : walkFrom config 0 nodes = walk config nodes := by
  simpa using walkFrom_eq nodes []

end ScopedCss
