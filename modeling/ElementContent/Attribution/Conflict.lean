/-!
# Conflicts of attribution

Two particles *conflict* where both could take the same child. This module holds the records only;
`ElementContent.Attribution.Check` finds them.

- `Claimant`: the particle that a leaf belongs to. Leaves copied from one declared particle have one
  claimant; a leaf without a particle is its own, by position.
- `Conflict`: two claimants, the state in which they meet first, and a sentence about them.
-/

namespace ElementContent

/-- The particle that a position is attributed to. -/
inductive Claimant where
  /-- A declared particle, by the index of its label. -/
  | declared (id : Nat)
  /-- A leaf without a particle, known by its position. -/
  | position (index : Nat)
  deriving DecidableEq, Hashable, Repr

namespace Claimant

/-- Whether `a` comes no later than `b`: declared particles first, then by number. -/
def notAfter : Claimant → Claimant → Bool
  | declared a, declared b => decide (a ≤ b)
  | declared _, position _ => true
  | position _, declared _ => false
  | position a, position b => decide (a ≤ b)

/-- The two claimants with the earlier one first. -/
def ordered (a b : Claimant) : Claimant × Claimant :=
  if a.notAfter b then (a, b) else (b, a)

/-- The text of a claimant. -/
def render : Claimant → String
  | declared id => s!"particle {id}"
  | position index => s!"position {index}"

end Claimant

/-- Two claimants of the same child. -/
structure Conflict where
  /-- The first state in which both are alive with terms that overlap. -/
  state : Nat
  /-- The earlier claimant. -/
  first : Claimant
  /-- The later claimant. -/
  second : Claimant
  /-- A sentence about the two. -/
  description : String
  deriving DecidableEq, Repr

end ElementContent
