import ElementContent.Automaton.Basic
import ElementContent.Position.Analysis

/-!
# The automaton of an analysis

The positions that may take the next child, whatever children came before, form one set; so the sets
that can be reached are the states of a deterministic automaton. They are discovered breadth first:
the beginning of the content is state 0, and the steps of each state are tried in the order of the
classes, a set met for the first time taking the next number.

- `Discovery`: the states met so far, with the look-up that finds a set among them.
- `Move`: the classes that one position takes, and the positions that may come after it.
- `Automaton.ofAnalysis`: the automaton, unless it has too many states.
-/

namespace ElementContent

/-- Distinct sets of positions, numbered in the order in which they were met. The first one is
always there; further ones are admitted up to the limit. -/
structure Discovery (limits : Limits) where
  /-- The sets. -/
  states : Array PositionSet
  /-- The number of each set. -/
  index : Std.HashMap PositionSet Nat
  /-- The look-up finds exactly the sets, each at its number. -/
  index_iff : ∀ (s : PositionSet) (i : Nat), index[s]? = some i ↔ states[i]? = some s
  /-- There are no more sets than allowed. -/
  size_le : states.size ≤ max 1 limits.states

namespace Discovery

variable {limits : Limits}

/-- One set alone. -/
def start (s : PositionSet) : Discovery limits where
  states := #[s]
  index := {(s, 0)}
  index_iff t i := by
    cases i with
    | zero => simp [Std.HashMap.getElem?_insert]
    | succ i => simp [Std.HashMap.getElem?_insert]
  size_le := Nat.le_max_left _ _

/-- The number of a set; a set that is new takes the next one, if that is within the limit. -/
def place (d : Discovery limits) (s : PositionSet) : Except Error (Nat × Discovery limits) :=
  match hs : d.index[s]? with
  | some i => .ok (i, d)
  | none =>
    match hc : limits.check .states (d.states.size + 1) with
    | .error e => .error e
    | .ok () => .ok (d.states.size,
      { states := d.states.push s
        index := d.index.insert s d.states.size
        index_iff := by
          intro t i
          rw [Std.HashMap.getElem?_insert, Array.getElem?_push]
          split
          · next heq =>
            obtain rfl : s = t := by simpa using heq
            split
            · simp_all
            · next hi =>
              have := d.index_iff s i
              simp only [hs] at this
              constructor
              · intro h
                simp at h
                omega
              · intro h
                exact absurd (this.2 h) (by simp)
          · next hne =>
            split
            · next hi =>
              subst hi
              rw [d.index_iff]
              simp_all
            · exact d.index_iff t i
        size_le := by
          have := Limits.check_eq_ok_iff.1 hc
          simp only [Limits.bound] at this
          simp only [Array.size_push]
          omega })

end Discovery

/-- What a position does with a child: the numbers of the classes that it takes, and the positions
that may come after it. -/
structure Move where
  classes : List Nat
  next : PositionSet

/-- The numbers of the classes that a term takes, ascending. -/
def Term.classesTaken (classes : List InputClass) (t : Term) : List Nat :=
  classes.zipIdx.filterMap fun (cls, i) => if t.takes cls then some i else none

namespace Analysis

/-- The set of positions with room for the mark of the end. -/
def widened (a : Analysis) (s : PositionSet) : PositionSet :=
  (PositionSet.empty (a.leaves.size + 1)).union s

/-- The positions that take the first child, with the mark of the end if there need not be one. -/
def startSet (a : Analysis) : PositionSet :=
  let s := a.widened a.first
  if a.nullable then s.insert a.leaves.size else s

/-- The positions that may come after a position, with the mark of the end if none need to. -/
def followSet (a : Analysis) (p : Nat) (follow : PositionSet) : PositionSet :=
  let s := a.widened follow
  if a.last.contains p then s.insert a.leaves.size else s

/-- What each position does with a child. -/
def moves (a : Analysis) (classes : List InputClass) : Array Move :=
  (a.leaves.zip a.follow).mapIdx fun p (leaf, follow) =>
    ⟨leaf.term.classesTaken classes, a.followSet p follow⟩

end Analysis

/-- Adds what one move leads to by the classes that it takes. -/
def addMove (capacity : Nat) (targets : Array (Option PositionSet)) (m : Move) :
    Array (Option PositionSet) :=
  m.classes.foldl
    (fun targets cls => targets.modify cls fun t => some ((t.getD (.empty capacity)).union m.next))
    targets

/-- For each class, the positions that a set of positions leads to, unless no position of the set
takes the class. The mark of the end has no move. -/
def successors (moves : Array Move) (classCount : Nat) (s : PositionSet) :
    Array (Option PositionSet) :=
  (s.members.filterMap (moves[·]?)).foldl (addMove (moves.size + 1)) (.replicate classCount none)

variable {limits : Limits}

/-- Numbers the sets that the classes lead to, in order, behind the numbers in `row`. A class that
leads to no positions leads nowhere. -/
def placeAll : List (Option PositionSet) → Array (Option Nat) → Discovery limits →
    Except Error (Array (Option Nat) × Discovery limits)
  | [], row, d => .ok (row, d)
  | none :: rest, row, d => placeAll rest (row.push none) d
  | some s :: rest, row, d =>
    if s.isEmpty then placeAll rest (row.push none) d
    else
      match d.place s with
      | .error e => .error e
      | .ok (i, d) => placeAll rest (row.push (some i)) d

/-- Tries the steps of each state that has no row yet, in the order of their numbers, until every
state has one. -/
def explore (moves : Array Move) (classCount : Nat) (d : Discovery limits)
    (rows : Array (Array (Option Nat))) :
    Except Error (Discovery limits × Array (Array (Option Nat))) :=
  if h : rows.size < d.states.size then
    match placeAll (successors moves classCount d.states[rows.size]).toList #[] d with
    | .error e => .error e
    | .ok (row, later) => explore moves classCount later (rows.push row)
  else .ok (d, rows)
termination_by max 1 limits.states - rows.size
decreasing_by
  rw [Array.size_push]
  have := d.size_le
  omega

/-- The automaton of an analysis: it accepts what the content allows, and it fails only where it
would have too many states. -/
def Automaton.ofAnalysis (a : Analysis) (limits : Limits) : Except Error Automaton :=
  let classes := alphabet (a.leaves.toList.map (·.term))
  let start : Discovery limits := .start a.startSet
  match explore (a.moves classes) classes.length start #[] with
  | .error e => .error e
  | .ok (d, rows) => .ok ⟨a.leaves, classes, d.states, rows⟩

end ElementContent
