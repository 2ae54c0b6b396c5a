import ElementContent.Term

/-!
# What may come next

An *expectation* tells what a valid beginning of the content may go on with: child elements by name,
wildcards, or the end. Names and wildcards are listed once each, in the order in which they were
added.
-/

namespace ElementContent

/-- What may come next. -/
structure Expectation where
  /-- The elements that may follow. -/
  elements : List Symbol := []
  /-- The wildcards by which an element may follow. -/
  wildcards : List Wildcard := []
  /-- Whether the content may end here. -/
  canEnd : Bool := false
  deriving DecidableEq, Repr

namespace Expectation

/-- Adds what a term lets follow, unless it is listed already. -/
def add (e : Expectation) : Term → Expectation
  | .element s => if s ∈ e.elements then e else { e with elements := e.elements ++ [s] }
  | .any w => if w ∈ e.wildcards then e else { e with wildcards := e.wildcards ++ [w] }
  | .text | .empty => e

/-- What the terms let follow. -/
def ofTerms (terms : List Term) (canEnd : Bool) : Expectation :=
  terms.foldl add { canEnd }

end Expectation

end ElementContent
