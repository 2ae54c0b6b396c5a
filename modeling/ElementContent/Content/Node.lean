import ElementContent.Term

/-!
# Nodes of a content

A content is put together from leaves by groups of two and by quantifiers. `Node α` is one such
step, with the parts that it is made of given as values of type `α`: ids in a declaration, trees in
a tree, or whatever is computed for each part.

- `Node.children`: the parts, left to right.
- `Node.mapWith`: changes the parts, each with the evidence that it is one.
-/

namespace ElementContent

/-- How a group combines its two operands. -/
inductive GroupKind where
  /-- One after the other. -/
  | sequence
  /-- Either of them. -/
  | choice
  deriving DecidableEq, Repr

/-- How often the body of a quantifier may stand. -/
inductive Quantifier where
  /-- Once or not at all. -/
  | optional
  /-- Any number of times. -/
  | star
  /-- At least once. -/
  | plus
  deriving DecidableEq, Repr

/-- One step of a content with its parts. -/
inductive Node (α : Type) where
  /-- A term, attributed to a particle or to none. -/
  | leaf (term : Term) (particle : Option Nat)
  /-- Two parts. -/
  | group (kind : GroupKind) (left right : α)
  /-- One part, repeated. -/
  | quantified (quantifier : Quantifier) (body : α)
  deriving DecidableEq, Repr

namespace Node

variable {α β : Type}

/-- The parts of a node, left to right. -/
def children : Node α → List α
  | leaf _ _ => []
  | group _ left right => [left, right]
  | quantified _ body => [body]

/-- The node with its parts changed by a function that may use that they are its parts. -/
def mapWith : (n : Node α) → ((c : α) → c ∈ n.children → β) → Node β
  | leaf term particle, _ => .leaf term particle
  | group kind left right, f =>
    .group kind (f left (by simp [children])) (f right (by simp [children]))
  | quantified quantifier body, f => .quantified quantifier (f body (by simp [children]))

/-- The node with its parts changed by a function. -/
def map (f : α → β) (n : Node α) : Node β :=
  n.mapWith fun c _ => f c

/-- Whether the node is a leaf that takes a child. -/
def takesChild : Node α → Bool
  | leaf term _ => term.takesChild
  | _ => false

theorem map_mapWith {γ : Type} (n : Node α) (f : (c : α) → c ∈ n.children → β) (g : β → γ) :
    (n.mapWith f).map g = n.mapWith fun c hc => g (f c hc) := by
  cases n <;> rfl

@[simp] theorem children_map (n : Node α) (f : α → β) : (n.map f).children = n.children.map f := by
  cases n <;> rfl

end Node

end ElementContent
