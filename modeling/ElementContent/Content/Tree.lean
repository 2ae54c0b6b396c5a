import ElementContent.Content.Declaration

/-!
# Content trees

The *tree* of a declaration is what is seen on the way down from the root. A node that is met on two
ways stands in the tree twice, with the same id.

- `Declaration.tree`: the tree. It is put together in one pass from left to right, so shared nodes
  become shared values.
- `Tree.eval`: a value computed from the bottom up; `Declaration.collect_eq_map_trees` says that a
  pass over the nodes computes the values of the trees below them.
- `Tree.ids`: the ids of the nodes, each node before its parts and the parts left to right.
- `Tree.leafCount`: how many leaves there are, each counted as often as it is met.
-/

namespace ElementContent

/-- A content with its parts in place; each node keeps its id. -/
inductive Tree where
  /-- A term, attributed to a particle or to none. -/
  | leaf (id : Nat) (term : Term) (particle : Option Nat)
  /-- Two parts. -/
  | group (id : Nat) (kind : GroupKind) (left right : Tree)
  /-- One part, repeated. -/
  | quantified (id : Nat) (quantifier : Quantifier) (body : Tree)
  deriving DecidableEq, Repr

namespace Tree

/-- The tree of a node whose parts are trees. -/
def ofNode (id : Nat) : Node Tree → Tree
  | .leaf term particle => leaf id term particle
  | .group kind left right => group id kind left right
  | .quantified quantifier body => quantified id quantifier body

/-- The id of the topmost node. -/
def id : Tree → Nat
  | leaf id _ _ | group id _ _ _ | quantified id _ _ => id

/-- The number of nodes. -/
def size : Tree → Nat
  | leaf _ _ _ => 1
  | group _ _ left right => 1 + left.size + right.size
  | quantified _ _ body => 1 + body.size

/-- The ids of the nodes, from the top down and left to right. -/
def ids : Tree → List Nat
  | leaf id _ _ => [id]
  | group id _ left right => id :: (left.ids ++ right.ids)
  | quantified id _ body => id :: body.ids

/-- The number of leaves. -/
def leafCount : Tree → Nat
  | leaf _ _ _ => 1
  | group _ _ left right => left.leafCount + right.leafCount
  | quantified _ _ body => body.leafCount

/-- The value of a tree, computed from the ids of its nodes and from the values of their parts. -/
def eval {α : Type} (value : Nat → Node α → α) : Tree → α
  | leaf id term particle => value id (.leaf term particle)
  | group id kind left right => value id (.group kind (left.eval value) (right.eval value))
  | quantified id quantifier body => value id (.quantified quantifier (body.eval value))

/-- Whether the topmost node is a quantifier. -/
def isQuantified : Tree → Bool
  | quantified _ _ _ => true
  | _ => false

theorem eval_ofNode {α : Type} (value : Nat → Node α → α) (id : Nat) (n : Node Tree) :
    (ofNode id n).eval value = value id (n.map (eval value)) := by
  cases n <;> rfl

end Tree

namespace Declaration

/-- The trees below each of the nodes. -/
def trees (d : Declaration) : Array Tree :=
  d.collect Tree.ofNode

/-- The tree below the root. -/
def tree (d : Declaration) : Tree :=
  d.fold Tree.ofNode

/-! ## Passes and trees -/

variable {α : Type}

theorem resolve_map (d : Declaration) (f : Tree → α) (ts : Array Tree) (i : Nat)
    (h : i < d.nodes.size) (hv : i ≤ ts.size) :
    d.resolve (ts.map f) i h (by simpa using hv) = (d.resolve ts i h hv).map f := by
  simp [resolve, Node.map_mapWith]

theorem collectFrom_map_eval (d : Declaration) (value : Nat → Node α → α) (ts : Array Tree) :
    d.collectFrom value (ts.map (Tree.eval value)) =
      (d.collectFrom Tree.ofNode ts).map (Tree.eval value) := by
  fun_induction collectFrom d Tree.ofNode ts with
  | case1 ts h n ih =>
    rw [← ih, Array.map_push, Tree.eval_ofNode, collectFrom]
    simp [h, n, resolve_map]
  | case2 ts h =>
    rw [collectFrom]
    simp [h]

/-- A pass over the nodes computes, for each node, the value of the tree below it. -/
theorem collect_eq_map_trees (d : Declaration) (value : Nat → Node α → α) :
    d.collect value = d.trees.map (Tree.eval value) := by
  have := d.collectFrom_map_eval value #[]
  rwa [Array.map_empty] at this

/-- The value of the root is the value of the tree. -/
theorem fold_eq_eval (d : Declaration) (value : Nat → Node α → α) :
    d.fold value = d.tree.eval value := by
  simp only [fold, tree, collect_eq_map_trees d value, Array.getElem_map]
  rfl

end Declaration

end ElementContent
