import ElementContent.Content.Tree
import ElementContent.Limits
import Std.Data.HashMap
import Std.Data.HashSet

/-!
# Numbering the leaves

A walk over a content tree, from the root down and left to right, gives each leaf that takes a child
the next position. The walk also sees to it that the content is fit for analysis: no node may be met
twice, and groups may be nested only so deep.

A group is a level of its own unless the nearest group around it is of its kind, whatever
quantifiers stand between; a quantifier is a level of its own only directly inside a quantifier.

- `Numbering`: what the walk has seen and numbered so far.
- `Numbering.walk`: the walk over pending subtrees; a stack of pending subtrees stands in for nested
  calls, so a deep tree needs no deep recursion.
-/

namespace ElementContent

/-- A leaf that takes a child. -/
structure Leaf where
  /-- What the leaf stands for. -/
  term : Term
  /-- The particle it belongs to, if any. -/
  particle : Option Nat
  /-- The id of its node. -/
  node : Nat
  deriving DecidableEq, Repr

/-- What a walk has seen and numbered. -/
structure Numbering where
  /-- The ids of the nodes seen. -/
  seen : Std.HashSet Nat
  /-- The leaves that take a child, each at its position. -/
  leaves : Array Leaf
  /-- The position of each of their nodes. -/
  positions : Std.HashMap Nat Nat

/-- A subtree that is yet to be walked over. -/
structure Pending where
  tree : Tree
  /-- The level of what is around the subtree. -/
  depth : Nat
  /-- The kind of the nearest group around it, if there is one. -/
  within : Option GroupKind
  /-- Whether it is the body of a quantifier. -/
  quantified : Bool

namespace Numbering

/-- Nothing seen yet. -/
def start : Numbering := ⟨{}, #[], {}⟩

/-- Notes that a node is seen; it must not have been seen before. -/
def see (n : Numbering) (id : Nat) : Except Error Numbering :=
  if n.seen.contains id then .error (.content (.sharedNode id))
  else .ok { n with seen := n.seen.insert id }

/-- Notes that a group or a quantifier is seen, whose level must be within the limit. -/
def enter (limits : Limits) (n : Numbering) (id depth : Nat) : Except Error Numbering := do
  let n ← n.see id
  limits.check .depth depth
  return n

/-- Gives a leaf the next position, if it takes a child. -/
def addLeaf (n : Numbering) (leaf : Leaf) : Numbering :=
  if leaf.term.takesChild then
    let position := n.leaves.size
    { n with
      leaves := n.leaves.push leaf
      positions := n.positions.insert leaf.node position }
  else n

/-- The level of a group inside what stands at level `depth`. -/
def groupDepth (depth : Nat) (within : Option GroupKind) (kind : GroupKind) : Nat :=
  if within = some kind then depth else depth + 1

/-- The level of a quantifier inside what stands at level `depth`. -/
def quantifierDepth (depth : Nat) (quantified : Bool) : Nat :=
  if quantified then depth + 1 else depth

/-- Walks over the pending subtrees, the first one first. -/
def walk (limits : Limits) : List Pending → Numbering → Except Error Numbering
  | [], n => .ok n
  | ⟨.leaf id term particle, _, _, _⟩ :: rest, n =>
    match n.see id with
    | .error e => .error e
    | .ok n => walk limits rest (n.addLeaf ⟨term, particle, id⟩)
  | ⟨.group id kind left right, depth, within, _⟩ :: rest, n =>
    let depth := groupDepth depth within kind
    match n.enter limits id depth with
    | .error e => .error e
    | .ok n =>
      walk limits (⟨left, depth, some kind, false⟩ :: ⟨right, depth, some kind, false⟩ :: rest) n
  | ⟨.quantified id _ body, depth, within, quantified⟩ :: rest, n =>
    let depth := quantifierDepth depth quantified
    match n.enter limits id depth with
    | .error e => .error e
    | .ok n => walk limits (⟨body, depth, within, true⟩ :: rest) n
termination_by pending => pending.foldr (fun p n => p.tree.size + n) 0
decreasing_by
  all_goals simp [Tree.size]
  all_goals omega

/-- Numbers the leaves of a tree. -/
def ofTree (limits : Limits) (t : Tree) : Except Error Numbering :=
  walk limits [⟨t, 0, none, false⟩] start

end Numbering

end ElementContent
