import ElementContent.Position.Numbering
import ElementContent.Position.Set

/-!
# First, last and follow

A word of marks that a content allows is a sequence of positions. The analysis finds, without
listing the words, the positions that a word may begin with and end with, those that may come
directly after a given one, and whether the empty word is allowed.

- `Summary`: what is known of the words of one node, from the summaries of its parts.
- `Link`: the positions of `source` may be followed directly by those of `target`. A sequence links
  the ends of its left operand to the beginnings of its right one, and a repetition links its ends
  to its beginnings; no other node links anything.
- `Analysis.ofDeclaration`: numbers the leaves, checks the limits, and puts the links of all nodes
  below the root together.
-/

namespace ElementContent

/-- Every position of one set may be followed directly by every position of another. -/
structure Link where
  source : PositionSet
  target : PositionSet

/-- What is known of the words of a node. -/
structure Summary where
  /-- The positions that a word may begin with. -/
  first : PositionSet
  /-- The positions that a word may end with. -/
  last : PositionSet
  /-- Whether the empty word is allowed. -/
  nullable : Bool
  /-- The link that the node itself makes. -/
  link : Option Link

namespace Summary

/-- The summary of a leaf at a position, or of one without a position. -/
def leaf (capacity : Nat) : Option Nat → Summary
  | some p => ⟨.singleton capacity p, .singleton capacity p, false, none⟩
  | none => ⟨.empty capacity, .empty capacity, true, none⟩

/-- One part after the other: words begin in the right part only if the left one may be empty. -/
def sequence (l r : Summary) : Summary where
  first := if l.nullable then l.first.union r.first else l.first
  last := if r.nullable then r.last.union l.last else r.last
  nullable := l.nullable && r.nullable
  link := some ⟨l.last, r.first⟩

/-- Either part. -/
def choice (l r : Summary) : Summary where
  first := l.first.union r.first
  last := l.last.union r.last
  nullable := l.nullable || r.nullable
  link := none

/-- The body at most once. -/
def optional (s : Summary) : Summary :=
  { s with nullable := true, link := none }

/-- The body again and again, at least once. -/
def plus (s : Summary) : Summary :=
  { s with link := some ⟨s.last, s.first⟩ }

/-- The body again and again, or not at all. -/
def star (s : Summary) : Summary :=
  { s.plus with nullable := true }

/-- The summary of a node, from the position of its leaf and from the summaries of its parts. -/
def ofNode (capacity : Nat) (position : Nat → Option Nat) (id : Nat) : Node Summary → Summary
  | .leaf _ _ => leaf capacity (position id)
  | .group .sequence l r => l.sequence r
  | .group .choice l r => l.choice r
  | .quantified .optional s => s.optional
  | .quantified .star s => s.star
  | .quantified .plus s => s.plus

end Summary

/-- The positions of a content and how they follow each other. -/
structure Analysis where
  /-- The leaves that take a child, each at its position. -/
  leaves : Array Leaf
  /-- The position of each of their nodes. -/
  positions : Std.HashMap Nat Nat
  /-- The positions that a word may begin with. -/
  first : PositionSet
  /-- The positions that a word may end with. -/
  last : PositionSet
  /-- Whether the empty word is allowed. -/
  nullable : Bool
  /-- For each position, those that may come directly after it. -/
  follow : Array PositionSet

namespace Analysis

/-- Adds what a link says to the table of what follows each position. -/
def addLink (follow : Array PositionSet) (link : Link) : Array PositionSet :=
  link.source.members.foldl (fun follow p => follow.modify p (·.union link.target)) follow

/-- The links of the nodes that have been seen. -/
def linksSeen (n : Numbering) (summaries : Array Summary) : List Link :=
  summaries.toList.zipIdx.filterMap fun (s, i) => if n.seen.contains i then s.link else none

/-- The analysis of a declaration whose leaves are numbered. -/
def ofNumbering (d : Declaration) (n : Numbering) : Analysis :=
  let capacity := n.leaves.size
  let summarize := Summary.ofNode capacity fun id => n.positions[id]?
  let summaries := d.collect summarize
  have : d.root < summaries.size := by simpa [summaries] using d.root_lt
  let root := summaries[d.root]
  { leaves := n.leaves
    positions := n.positions
    first := root.first
    last := root.last
    nullable := root.nullable
    follow := (linksSeen n summaries).foldl addLink (.replicate capacity (.empty capacity)) }

/-- The analysis of a declaration: it fails if a node is met twice, if groups are nested too deep,
or if there are too many positions, whichever is found first. -/
def ofDeclaration (d : Declaration) (limits : Limits) : Except Error Analysis := do
  let n ← Numbering.ofTree limits d.tree
  limits.check .positions n.leaves.size
  return ofNumbering d n

/-- The position of a node, if it is a leaf that takes a child. -/
def positionOf? (a : Analysis) (node : Nat) : Option Nat :=
  a.positions[node]?

end Analysis

end ElementContent
