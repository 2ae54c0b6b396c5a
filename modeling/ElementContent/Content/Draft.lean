import ElementContent.Content.Declaration
import ElementContent.Limits

/-!
# Drafts

A *draft* is a declaration under construction. Each operation adds nodes at the end and gives the id
of the node that stands for what was asked for, with the draft that holds it; operands are ids that
earlier operations gave. The ids of nodes and of particles are numbers without a bound. A builder
that keeps them in 32-bit words gives the same ids up to `2 ^ 32` nodes and as many labels.

- `Draft.leaf`, `Draft.particle`, `Draft.group`, `Draft.quantify`: one node each.
- `Draft.groupOf`: a group of any number of operands, as groups of two that lean to the left.
- `Draft.build`: the declaration with a given root.

`ElementContent.Content.Repetition` adds the operation for occurrence bounds.
-/

namespace ElementContent

/-- A declaration under construction. -/
structure Draft where
  /-- The nodes so far. -/
  nodes : Array (Node Nat)
  /-- The labels of the particles declared so far. -/
  labels : Array String
  /-- The limits under which occurrence bounds are spelled out. -/
  limits : Limits

namespace Draft

/-- The draft without nodes. -/
def empty (limits : Limits) : Draft :=
  ⟨#[], #[], limits⟩

/-- Adds a node. -/
def add (d : Draft) (n : Node Nat) : Nat × Draft :=
  (d.nodes.size, { d with nodes := d.nodes.push n })

/-- Adds a leaf that belongs to no particle. -/
def leaf (d : Draft) (term : Term) : Nat × Draft :=
  d.add (.leaf term none)

/-- Declares a particle and adds its leaf. -/
def particle (d : Draft) (label : String) (term : Term) : Nat × Draft :=
  let id := d.labels.size
  { d with labels := d.labels.push label }.add (.leaf term (some id))

/-- Adds a group of two. -/
def group (d : Draft) (kind : GroupKind) (left right : Nat) : Nat × Draft :=
  d.add (.group kind left right)

/-- Adds a quantifier over a body. -/
def quantify (d : Draft) (quantifier : Quantifier) (body : Nat) : Nat × Draft :=
  d.add (.quantified quantifier body)

/-- Joins further operands to what stands for those before them. -/
def groupFrom (kind : GroupKind) : Nat → List Nat → Draft → Nat × Draft
  | joined, [], d => (joined, d)
  | joined, item :: rest, d =>
    let (joined, d) := d.group kind joined item
    groupFrom kind joined rest d

/-- Adds a group of the operands. One operand stands for itself, and none gives a leaf for nothing.
-/
def groupOf (d : Draft) (kind : GroupKind) : List Nat → Nat × Draft
  | [] => d.leaf .empty
  | first :: rest => groupFrom kind first rest d

/-- The declaration of what stands below a node. -/
def build (d : Draft) (root : Nat) : Except Error Declaration :=
  Declaration.ofParts d.nodes root d.labels

end Draft

end ElementContent
