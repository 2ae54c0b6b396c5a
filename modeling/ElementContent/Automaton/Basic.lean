import ElementContent.Automaton.Alphabet
import ElementContent.Model.Expectation
import ElementContent.Position.Set

/-!
# Automata over children

The states of an automaton are sets of positions: those whose leaves may take the next child. One
position more than there are leaves is the mark of the end; where it is in the set, the content may
end. State 0 is where every content begins. A child leads from a state to at most one state.

States go by numbers without a bound, and where a child leads nowhere there is none. In a table of
32-bit words whose greatest word stands for none, the numbers are the same up to `2 ^ 32 - 1`
states.

- `Automaton.step?`: the state after a child, if there is one.
- `Automaton.run`: the state after a sequence of children, or the index of the first child that
  leads nowhere.
- `Automaton.expectation`: what may come next in a state.
-/

namespace ElementContent

/-- A deterministic automaton whose states are sets of positions. -/
structure Automaton where
  /-- The leaves that take a child, each at its position. -/
  leaves : Array Leaf
  /-- The input classes. -/
  classes : List InputClass
  /-- The positions alive in each state. -/
  states : Array PositionSet
  /-- For each state and class, the next state. -/
  rows : Array (Array (Option Nat))

namespace Automaton

/-- The position that marks the end of the content. -/
def endPosition (a : Automaton) : Nat :=
  a.leaves.size

/-- The number of the class of a child. -/
def classOf? (a : Automaton) (s : Symbol) : Option Nat :=
  ElementContent.classOf? a.classes s

/-- The state that a class leads to. -/
def next? (a : Automaton) (state cls : Nat) : Option Nat := do
  let row ← a.rows[state]?
  let target ← row[cls]?
  target

/-- The state that a child leads to. -/
def step? (a : Automaton) (state : Nat) (s : Symbol) : Option Nat := do
  let cls ← a.classOf? s
  a.next? state cls

/-- The state that children lead to, where `index` counts the children before them. -/
def runFrom (a : Automaton) : Nat → Nat → List Symbol → Except Nat Nat
  | state, _, [] => .ok state
  | state, index, s :: rest =>
    match a.step? state s with
    | some state => runFrom a state (index + 1) rest
    | none => .error index

/-- The state that children lead to from the beginning, or the index of the first that leads
nowhere. -/
def run (a : Automaton) (children : List Symbol) : Except Nat Nat :=
  a.runFrom 0 0 children

/-- Whether the content may end in a state. -/
def isAccepting (a : Automaton) (state : Nat) : Bool :=
  match a.states[state]? with
  | some s => s.contains a.endPosition
  | none => false

/-- The number of states in which the content may end. -/
def acceptingCount (a : Automaton) : Nat :=
  a.states.toList.countP (·.contains a.endPosition)

/-- The leaves alive in a set of positions, with their positions. The end is none of them. -/
def liveLeaves (a : Automaton) (s : PositionSet) : List (Nat × Leaf) :=
  s.members.filterMap fun p => (a.leaves[p]?).map (p, ·)

/-- The classes with a step from a state, in their order, each with the state it leads to. -/
def transitions (a : Automaton) (state : Nat) : List (InputClass × Nat) :=
  match a.rows[state]? with
  | some row => (a.classes.zip row.toList).filterMap fun (cls, target) => target.map (cls, ·)
  | none => []

/-- What may come next in a state. -/
def expectation (a : Automaton) (state : Nat) : Expectation :=
  match a.states[state]? with
  | some s => .ofTerms ((a.liveLeaves s).map (·.2.term)) (a.isAccepting state)
  | none => {}

end Automaton

end ElementContent
