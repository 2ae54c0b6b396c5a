import ElementContent.Error

/-!
# Limits

Counts that grow with a declaration are bounded, so that a declaration that would take too much
fails instead. `Limits.check` lets a count pass that is at most its limit.
-/

namespace ElementContent

/-- The greatest counts allowed. -/
structure Limits where
  /-- Leaves that take a child, in one declaration. -/
  positions : Nat
  /-- States of one automaton. -/
  states : Nat
  /-- Levels of nested groups in one declaration. -/
  depth : Nat
  /-- Leaves in the copies that spell out one pair of occurrence bounds. -/
  copies : Nat
  deriving DecidableEq, Repr

namespace Limits

/-- The limits where nothing else is said. -/
def standard : Limits := ⟨10000, 10000, 256, 1000⟩

/-- Narrow limits. -/
def strict : Limits := ⟨1000, 1000, 64, 100⟩

/-- Wide limits. -/
def permissive : Limits := ⟨100000, 1000000, 4096, 100000⟩

/-- The limit on a count. -/
def bound (l : Limits) : Measure → Nat
  | .positions => l.positions
  | .states => l.states
  | .depth => l.depth
  | .copies => l.copies

/-- Lets a count pass that is within its limit. -/
def check (l : Limits) (m : Measure) (count : Nat) : Except Error Unit :=
  if l.bound m < count then .error (.overLimit m count (l.bound m)) else .ok ()

theorem check_eq_ok_iff {l : Limits} {m : Measure} {count : Nat} :
    l.check m count = .ok () ↔ count ≤ l.bound m := by
  unfold check
  split <;> simp <;> omega

end Limits

end ElementContent
