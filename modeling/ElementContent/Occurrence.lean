/-!
# Occurrence bounds

How often a particle may occur: at least `min` times and, unless it is unbounded, at most `max`
times.

- `Occurrence.isConsistent`: some number of occurrences is within the bounds.
- `Occurrence.copies`: how many copies of the particle stand in the content that spells the bounds
  out with `?`, `*` and `+`.
-/

namespace ElementContent

/-- The least and the greatest number of occurrences; no greatest number means unbounded. -/
structure Occurrence where
  min : UInt32
  max : Option UInt32
  deriving DecidableEq, Repr

namespace Occurrence

/-- Exactly once. -/
def once : Occurrence := ⟨1, some 1⟩

/-- Once or not at all. -/
def optional : Occurrence := ⟨0, some 1⟩

/-- Any number of times. -/
def zeroOrMore : Occurrence := ⟨0, none⟩

/-- At least once. -/
def oneOrMore : Occurrence := ⟨1, none⟩

/-- Never. -/
def never : Occurrence := ⟨0, some 0⟩

/-- Whether the least number is at most the greatest. -/
def isConsistent (o : Occurrence) : Bool :=
  match o.max with
  | some max => decide (o.min ≤ max)
  | none => true

/-- The number of copies that spell the bounds out: the greatest number, or the least if there is no
greatest, where the last copy is repeated and so one is needed. -/
def copies (o : Occurrence) : Nat :=
  match o.max with
  | some max => max.toNat
  | none => Nat.max o.min.toNat 1

end Occurrence

end ElementContent
