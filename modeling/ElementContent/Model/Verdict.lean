import ElementContent.Error

/-!
# Verdicts

Children are valid, or there is a first child at which they fail. Where they are a valid beginning
that ends too early, that is the place after the last child.
-/

namespace ElementContent

/-- The outcome of validating children. -/
inductive Verdict where
  /-- The children are allowed. -/
  | valid
  /-- The children before the index could be allowed with others after them, and the one at the
  index, or the end, could not come next. -/
  | failsAt (index : Nat)
  deriving DecidableEq, Repr

namespace Verdict

/-- Whether a failure at an index is that of children that end too early. -/
def isIncomplete (index length : Nat) : Bool :=
  index == length

/-- The text of a failure at an index. -/
def render (index : Nat) : String :=
  s!"content is not valid at child {index}"

/-- The verdict on children each of which must meet a condition. -/
def ofAll (p : Symbol → Bool) (children : List Symbol) : Verdict :=
  match children.findIdx? (fun s => !p s) with
  | some i => failsAt i
  | none => valid

end Verdict

end ElementContent
