import ElementContent.Automaton.Basic
import ElementContent.Model.Direct
import ElementContent.Model.Mixed

/-!
# Models

A *model* validates the children of one element type. It checks them directly, looks them up in a
list, or runs an automaton; which of these is settled when the model is made.

- `Model.validate`: the verdict on children.
- `Model.expected`: what may come after children that are valid so far.
- `Model.stats`: the figures of a model.
- `Model.shortcut?`: the model of a declaration for which no automaton is needed.
-/

namespace ElementContent

/-- How a model validates. -/
inductive Strategy where
  /-- By looking at the operator and its terms. -/
  | direct
  /-- By looking each child up. -/
  | mixed
  /-- By running an automaton. -/
  | automaton
  deriving DecidableEq, Repr

/-- The word for a strategy. -/
def Strategy.render : Strategy → String
  | direct => "simple"
  | mixed => "mixed"
  | automaton => "dfa"

/-- The figures of a model. -/
structure ModelStats where
  /-- How the model validates. -/
  strategy : Strategy
  /-- The number of leaves that take a child. -/
  positions : Nat
  /-- The number of states, if there is an automaton. -/
  states : Nat
  /-- The number of states in which the content may end. -/
  acceptingStates : Nat
  /-- Whether a mixed content lists an element more than once. -/
  hasDuplicates : Bool
  deriving DecidableEq, Repr

/-- What validates the children of an element type. -/
inductive Model where
  | direct (m : DirectModel)
  | mixed (m : MixedModel)
  | automaton (a : Automaton)

namespace Automaton

/-- The verdict on children. -/
def validate (a : Automaton) (children : List Symbol) : Verdict :=
  match a.run children with
  | .error i => .failsAt i
  | .ok state => if a.isAccepting state then .valid else .failsAt children.length

/-- What may come after children; nothing is said after a child that leads nowhere. -/
def expected (a : Automaton) (children : List Symbol) : Option Expectation :=
  match a.run children with
  | .error _ => none
  | .ok state => some (a.expectation state)

end Automaton

namespace Model

/-- The verdict on children. -/
def validate : Model → List Symbol → Verdict
  | direct m => m.validate
  | mixed m => m.validate
  | automaton a => a.validate

/-- What may come after children, if they are valid so far. -/
def expected : Model → List Symbol → Option Expectation
  | direct m => m.expected
  | mixed m => m.expected
  | automaton a => a.expected

/-- How the model validates. -/
def strategy : Model → Strategy
  | direct _ => .direct
  | mixed _ => .mixed
  | automaton _ => .automaton

/-- The figures of the model. -/
def stats : Model → ModelStats
  | direct m => ⟨.direct, m.termCount, 0, 0, false⟩
  | mixed m => ⟨.mixed, m.alternatives.length, 0, 0, m.hasDuplicates⟩
  | automaton a => ⟨.automaton, a.leaves.size, a.states.size, a.acceptingCount, false⟩

/-- The model of a declaration that needs no automaton, as far as such models are wanted. A content
that has both shapes is checked directly. -/
def shortcut? (d : Declaration) (wantDirect wantMixed : Bool) : Option Model :=
  let direct? := if wantDirect then (DirectModel.ofDeclaration? d).map direct else none
  let mixed? := if wantMixed then (MixedModel.ofDeclaration? d).map mixed else none
  direct? <|> mixed?

/-- How a declaration is validated. -/
def strategyFor (d : Declaration) (wantDirect wantMixed : Bool) : Strategy :=
  match shortcut? d wantDirect wantMixed with
  | some m => m.strategy
  | none => .automaton

end Model

end ElementContent
