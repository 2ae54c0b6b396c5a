import ElementContent.Attribution.Check
import ElementContent.Proofs.Automaton.FlatTable
import ElementContent.Proofs.Automaton.Quotient
import ElementContent.Proofs.Automaton.Simulation

/-!
# Running the automaton with one flat table

Validation, what may come next and the check for unique attribution read the table and the leaves by
number. A step reads the entry of a state and a class, and the live leaves are looked up by the
positions of a state; where there is no entry or no leaf, nothing is answered. On the automaton of
an analysis there always is: a step leads from a state to a state, a class is one of those that the
table has been laid out for, and the positions of a state are numbers of leaves or the end.

- `TableAutomaton.step?`, `TableAutomaton.runFrom?`: one child, and many.
- `TableAutomaton.validate?`, `TableAutomaton.expected?`: the answers for children.
- `TableAutomaton.conflicts?`: the check for unique attribution, state by state.
- `Automaton.validate?_laidOut`, `Automaton.expected?_laidOut`, `Automaton.conflicts?_laidOut`: each
  has the outcome that it has on the automaton itself.
-/

namespace ElementContent

/-! ## Look-ups -/

/-- The elements of a list from an index on; none if it is beyond the end. -/
def dropFrom? {α : Type} (xs : List α) (i : Nat) : Option (List α) :=
  if i ≤ xs.length then some (xs.drop i) else none

/-- All pairs of an element of a list and a later one, the later ones being cut out by index. -/
def laterPairs? {α : Type} (xs : List α) : Option (List (α × α)) := do
  let pairs ← xs.zipIdx.mapM fun (x, i) => (dropFrom? xs (i + 1)).map (·.map (x, ·))
  return pairs.flatten

namespace TableAutomaton

/-- The state that a child leads to, if there is one; nothing at all if the table has no entry for
the state and the class. -/
def step? (m : TableAutomaton) (state : Nat) (s : Symbol) : Option (Option Nat) :=
  match classOf? m.classes s with
  | some cls => m.table[state * m.classes.length + cls]?
  | none => some none

/-- The state that children lead to, where `index` counts the children before them. -/
def runFrom? (m : TableAutomaton) : Nat → Nat → List Symbol → Option (Except Nat Nat)
  | state, _, [] => some (.ok state)
  | state, index, s :: rest => do
    match ← m.step? state s with
    | some state => runFrom? m state (index + 1) rest
    | none => return .error index

/-- Whether the content may end in a state. -/
def isAccepting (m : TableAutomaton) (state : Nat) : Bool :=
  (m.states[state]?).any (·.contains m.leaves.size)

/-- The verdict on children. The child that fails is looked up, for the record. -/
def validate? (m : TableAutomaton) (children : List Symbol) : Option Verdict := do
  match ← m.runFrom? 0 0 children with
  | .error i =>
    let _ ← children[i]?
    return .failsAt i
  | .ok state => return if m.isAccepting state then .valid else .failsAt children.length

/-- The leaves alive in a set of positions, with their positions. The end is passed over. -/
def liveLeaves? (m : TableAutomaton) (s : PositionSet) : Option (List (Nat × Leaf)) :=
  (s.members.filter (· != m.leaves.size)).mapM fun p => (m.leaves[p]?).map (p, ·)

/-- What may come after children; nothing is said after a child that leads nowhere. -/
def expected? (m : TableAutomaton) (children : List Symbol) : Option (Option Expectation) := do
  match ← m.runFrom? 0 0 children with
  | .error _ => return none
  | .ok state =>
    let leaves ← m.liveLeaves? (← m.states[state]?)
    return some (.ofTerms (leaves.map (·.2.term)) (m.isAccepting state))

/-- The conflicts in one state. -/
def conflictsAt? (m : TableAutomaton) (d : Declaration) (table : Option NameTable) (state : Nat) :
    Option (List Conflict) := do
  let leaves ← m.liveLeaves? (← m.states[state]?)
  let pairs ← laterPairs? (leaves.map fun (p, leaf) => Candidate.ofLeaf p leaf).eraseDups
  return pairs.filterMap fun (x, y) =>
    if x.conflictsWith y then some (conflictOf d table state x y) else none

/-- The conflicts of all states, each pair of claimants once. -/
def conflicts? (m : TableAutomaton) (d : Declaration) (table : Option NameTable) :
    Option (List Conflict) := do
  let found ← (List.range m.states.size).mapM (m.conflictsAt? d table)
  return (found.flatten.foldl Findings.add ⟨{}, #[]⟩).conflicts.toList

end TableAutomaton

theorem laterPairs?_eq {α : Type} (xs : List α) : laterPairs? xs = some (laterPairs xs) := by
  have hcut : ∀ y ∈ xs.zipIdx, (dropFrom? xs (y.2 + 1)).map (·.map (y.1, ·)) =
      some ((xs.drop (y.2 + 1)).map (y.1, ·)) := by
    rintro ⟨x, i⟩ hy
    have hx : xs[i]? = some x := List.mk_mem_zipIdx_iff_getElem?.1 hy
    have hi : i + 1 ≤ xs.length := (List.getElem?_eq_some_iff.1 hx).1
    rw [dropFrom?, if_pos hi]
    rfl
  have hpairs : (xs.zipIdx.map fun y => (xs.drop (y.2 + 1)).map (y.1, ·)).flatten =
      laterPairs xs := by
    clear hcut
    induction xs with
    | nil => rfl
    | cons x xs ih =>
      rw [laterPairs, ← ih, List.zipIdx_cons']
      simp [Function.comp_def]
  unfold laterPairs?
  rw [mapM_eq_some_map hcut, ← hpairs]
  rfl

namespace Automaton

variable {t : Tree} {a : Analysis} {m : Automaton} {s : PositionSet} {x : Symbol} {i : Nat}
  {w : List Symbol}

/-! ## Runs -/

/-- The table has an entry for each state and the class of each child. -/
theorem step?_laidOut (hm : m.IsExplored t a) (hi : i < m.states.size) (x : Symbol) :
    m.laidOut.step? i x = some (m.step? i x) := by
  have hnodup : m.classes.Nodup := hm.classes_eq ▸ nodup_alphabet _
  unfold TableAutomaton.step? step?
  show (match m.classOf? x with
    | some cls => (flat m.states.size m.classes.length m.next?)[i * m.classes.length + cls]?
    | none => some none) = _
  cases hc : m.classOf? x with
  | none => rfl
  | some cls => exact getElem?_flat hi (lt_length_of_classOf? hnodup hc)

/-- A step leads to a state. -/
theorem lt_size_of_step? (hm : m.IsExplored t a) {j : Nat} (hi : i < m.states.size)
    (hstep : m.step? i x = some j) : j < m.states.size := by
  obtain ⟨c, -, hnext⟩ := Option.bind_eq_some_iff.1 hstep
  obtain ⟨target, htarget, -⟩ := hm.next_some (Array.getElem?_eq_getElem hi) hnext
  exact (Array.getElem?_eq_some_iff.1 htarget).1

theorem runFrom?_laidOut (hm : m.IsExplored t a) (hi : i < m.states.size) (index : Nat)
    (w : List Symbol) : m.laidOut.runFrom? i index w = some (m.runFrom i index w) := by
  induction w generalizing i index with
  | nil => rfl
  | cons x w ih =>
    rw [TableAutomaton.runFrom?, step?_laidOut hm hi, runFrom]
    cases hstep : m.step? i x with
    | none => rfl
    | some j => exact ih (lt_size_of_step? hm hi hstep) (index + 1)

theorem run?_laidOut (hm : m.IsExplored t a) (w : List Symbol) :
    m.laidOut.runFrom? 0 0 w = some (m.run w) :=
  runFrom?_laidOut hm (Array.getElem?_eq_some_iff.1 hm.start).1 0 w

theorem isAccepting_laidOut (m : Automaton) (i : Nat) :
    m.laidOut.isAccepting i = m.isAccepting i := by
  unfold TableAutomaton.isAccepting isAccepting
  show (m.states[i]?).any _ = _
  cases m.states[i]? <;> rfl

/-- The entries of a run are all there, and so is the child at which it fails. -/
theorem validate?_laidOut (h : a.IsExact t) (hm : m.IsExplored t a) (w : List Symbol) :
    m.laidOut.validate? w = some (m.validate w) := by
  unfold TableAutomaton.validate? validate
  rw [run?_laidOut hm]
  cases hrun : m.run w with
  | error i =>
    have hi := (run_eq_error h hm hrun).1
    simp [hi]
  | ok j => simp [isAccepting_laidOut]

/-! ## Live leaves -/

/-- There is a leaf for each position of a state but the end. -/
theorem liveLeaves?_laidOut (h : a.IsExact t) (hm : m.IsExplored t a) (hs : s ∈ m.states) :
    m.laidOut.liveLeaves? s = some (m.liveLeaves s) := by
  have hleaf : ∀ p ∈ s.members.filter (· != m.leaves.size),
      ∃ x, (m.leaves[p]?).map (p, ·) = some x := by
    intro p hp
    obtain ⟨hp, hne⟩ := List.mem_filter.1 hp
    have hlt := (hm.reached s hs).lt_of_contains h (PositionSet.mem_members.1 hp)
    rw [← hm.leaves_eq] at hlt
    have hne : p ≠ m.leaves.size := by simpa using hne
    have hlt : p < m.leaves.size := by omega
    exact ⟨(p, m.leaves[p]), by simp [hlt]⟩
  have hend : (s.members.filter (· != m.leaves.size)).filterMap
      (fun p => (m.leaves[p]?).map (p, ·)) = m.liveLeaves s := by
    rw [liveLeaves, List.filterMap_filter]
    refine List.filterMap_congr fun p _ => ?_
    by_cases hp : p = m.leaves.size
    · simp [hp]
    · simp [hp]
  rw [← hend]
  exact mapM_eq_some_filterMap hleaf

theorem expected?_laidOut (h : a.IsExact t) (hm : m.IsExplored t a) (w : List Symbol) :
    m.laidOut.expected? w = some (m.expected w) := by
  unfold TableAutomaton.expected? expected
  rw [run?_laidOut hm]
  cases hrun : m.run w with
  | error i => rfl
  | ok j =>
    obtain ⟨s, hj, -⟩ := run_eq_ok h hm hrun
    have hstates : m.laidOut.states[j]? = some s := hj
    simp [hstates, liveLeaves?_laidOut h hm (Array.mem_of_getElem? hj), isAccepting_laidOut,
      expectation, hj]

/-! ## Conflicts -/

theorem conflictsAt?_laidOut (h : a.IsExact t) (hm : m.IsExplored t a) (d : Declaration)
    (table : Option NameTable) (hi : m.states[i]? = some s) :
    m.laidOut.conflictsAt? d table i = some (m.conflictsAt d table i s) := by
  have hstates : m.laidOut.states[i]? = some s := hi
  unfold TableAutomaton.conflictsAt? conflictsAt candidates
  simp [hstates, liveLeaves?_laidOut h hm (Array.mem_of_getElem? hi), laterPairs?_eq]

theorem conflicts?_laidOut (h : a.IsExact t) (hm : m.IsExplored t a) (d : Declaration)
    (table : Option NameTable) : m.laidOut.conflicts? d table = some (m.conflicts d table) := by
  have hread : ∀ i ∈ List.range m.states.size, m.laidOut.conflictsAt? d table i =
      some (((m.states[i]?).map (m.conflictsAt d table i)).getD []) := by
    intro i hi
    have hi := Array.getElem?_eq_getElem (List.mem_range.1 hi)
    rw [conflictsAt?_laidOut h hm d table hi, hi]
    rfl
  have hall : (List.range m.states.size).map
      (fun i => ((m.states[i]?).map (m.conflictsAt d table i)).getD []) =
        m.states.toList.zipIdx.map fun y => m.conflictsAt d table y.2 y.1 := by
    refine List.ext_getElem (by simp) fun i hi hi' => ?_
    rw [List.length_map, List.length_range] at hi
    simp [hi]
  unfold TableAutomaton.conflicts? conflicts
  show ((List.range m.states.size).mapM (m.laidOut.conflictsAt? d table)).bind _ = _
  rw [mapM_eq_some_map hread, hall]
  rfl

end Automaton

end ElementContent
