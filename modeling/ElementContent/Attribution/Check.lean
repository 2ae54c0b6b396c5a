import ElementContent.Attribution.Conflict
import ElementContent.Automaton.Basic
import Std.Data.HashSet

/-!
# Unique particle attribution

In a schema, each child must be attributable to one particle, by looking at no more than the
children up to it. The check looks at every state for two live leaves of different claimants whose
terms overlap.

- `candidates`: the leaves alive in a state that have to be compared, one for each pair of claimant
  and term.
- `Automaton.conflicts`: for each pair of claimants that conflict, the first state in which they do.
  States are looked at in order, and in each the pairs of candidates in order.
-/

namespace ElementContent

/-- A claimant with one of its terms. -/
structure Candidate where
  claimant : Claimant
  term : Term
  deriving DecidableEq

namespace Candidate

/-- The candidate that a live leaf stands for. -/
def ofLeaf (position : Nat) (leaf : Leaf) : Candidate :=
  match leaf.particle with
  | some id => ⟨.declared id, leaf.term⟩
  | none => ⟨.position position, leaf.term⟩

/-- Whether two candidates conflict. -/
def conflictsWith (a b : Candidate) : Bool :=
  a.claimant != b.claimant && a.term.overlaps b.term

/-- The name of a candidate in a message: its label, or its term and position. -/
def render (d : Declaration) (table : Option NameTable) (c : Candidate) : String :=
  match c.claimant with
  | .declared id => "'" ++ d.label id ++ "'"
  | .position p => "'" ++ c.term.render table ++ s!"' at position {p}"

end Candidate

/-- What two overlapping terms both match: an element if either stands for one. -/
def renderOverlap (table : Option NameTable) (s t : Term) : String :=
  match s, t with
  | .element _, _ => "element '" ++ s.render table ++ "'"
  | _, .element _ => "element '" ++ t.render table ++ "'"
  | _, _ => "elements admitted by both " ++ s.render table ++ " and " ++ t.render table

/-- The leaves alive in a set of positions that have to be compared, by position; of leaves with the
same claimant and term the first one. -/
def Automaton.candidates (a : Automaton) (s : PositionSet) : List Candidate :=
  ((a.liveLeaves s).map fun (p, leaf) => Candidate.ofLeaf p leaf).eraseDups

/-- All pairs of an element of a list and a later one, by the first and then by the second. -/
def laterPairs {α : Type} : List α → List (α × α)
  | [] => []
  | x :: xs => xs.map (x, ·) ++ laterPairs xs

/-- The conflict of two candidates in a state. -/
def conflictOf (d : Declaration) (table : Option NameTable) (state : Nat) (a b : Candidate) :
    Conflict :=
  let (first, second) := a.claimant.ordered b.claimant
  { state, first, second
    description :=
      "particles " ++ a.render d table ++ " and " ++ b.render d table ++ " both match "
        ++ renderOverlap table a.term b.term ++ s!" (state {state})" }

/-- The conflicts reported so far, and the pairs of claimants that they are about. -/
structure Findings where
  reported : Std.HashSet (Claimant × Claimant)
  conflicts : Array Conflict

/-- Reports a conflict, unless one about the same claimants is reported already. -/
def Findings.add (f : Findings) (c : Conflict) : Findings :=
  if f.reported.contains (c.first, c.second) then f
  else ⟨f.reported.insert (c.first, c.second), f.conflicts.push c⟩

/-- The conflicts in one state, in the order of the pairs of candidates. -/
def Automaton.conflictsAt (a : Automaton) (d : Declaration) (table : Option NameTable)
    (state : Nat) (s : PositionSet) : List Conflict :=
  (laterPairs (a.candidates s)).filterMap fun (x, y) =>
    if x.conflictsWith y then some (conflictOf d table state x y) else none

/-- The conflicts of an automaton, each pair of claimants once, at the first state in which they
conflict. Labels are those of the declaration. -/
def Automaton.conflicts (a : Automaton) (d : Declaration) (table : Option NameTable) :
    List Conflict :=
  let all := a.states.toList.zipIdx.flatMap fun (s, state) => a.conflictsAt d table state s
  (all.foldl Findings.add ⟨{}, #[]⟩).conflicts.toList

end ElementContent
