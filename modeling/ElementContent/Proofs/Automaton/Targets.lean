import ElementContent.Proofs.Automaton.Bound
import ElementContent.Proofs.Position.InPlace
import Mathlib.Data.List.Induction

/-!
# Targets by look-up

The sets that a state leads to can be put together by looking up, for each position of the state,
the classes that it takes and the positions that may come after it. The position of the end is
passed over: it takes no class, and nothing comes after it. Such a computation stops where an entry
is missing, or where there is no room for a position. It never does, since the positions of a state
are numbers of leaves or the end.

- `Analysis.startSet?`, `Analysis.followSets?`: the sets with the mark of the end.
- `targets?`: what the classes lead to from a set of positions; `targets?_eq` says that it is
  `successors`.
-/

namespace ElementContent

namespace Analysis

/-- The positions that take the first child, with the mark of the end if there need not be one; none
if there is no room for the mark. -/
def startSet? (a : Analysis) : Option PositionSet :=
  if a.nullable then (a.widened a.first).insert? a.leaves.size else some (a.widened a.first)

/-- For each position those that may come after it, where the mark of the end is added last. -/
def followSets? (a : Analysis) : Option (Array PositionSet) := do
  let follow ← (List.range a.leaves.size).mapM fun p => (a.follow[p]?).map a.widened
  a.last.members.foldlM (fun follow p => do
    let s ← follow[p]?
    writeAt? follow p (← s.insert? a.leaves.size)) follow.toArray

variable {t : Tree} {a : Analysis} {classes : List InputClass}

theorem lt_room_widened (a : Analysis) (s : PositionSet) : a.leaves.size < (a.widened s).room := by
  rw [PositionSet.room, words_widened]
  omega

theorem startSet?_eq (a : Analysis) : a.startSet? = some a.startSet := by
  unfold startSet? startSet
  split
  · exact PositionSet.insert?_eq (a.lt_room_widened a.first)
  · rfl

/-- Entries that stand at different places can be changed one after the other. -/
theorem foldlM_writeAt?_tabulate {α : Type} {n : Nat} {f : Nat → α} {g : α → α}
    {change : α → Option α} (ps : List Nat) (hps : ∀ p ∈ ps, p < n) (hnodup : ps.Nodup)
    (hchange : ∀ p, change (f p) = some (g (f p))) :
    ps.foldlM (fun xs p => do
      let x ← xs[p]?
      writeAt? xs p (← change x)) (tabulate n f) =
        some (tabulate n fun p => if p ∈ ps then g (f p) else f p) := by
  induction ps using List.reverseRecOn with
  | nil => simp
  | append_singleton ps p ih =>
    obtain ⟨hnodup, -, hdisjoint⟩ := List.nodup_append.1 hnodup
    have hp : p < n := hps p (by simp)
    have hmem : p ∉ ps := fun h => hdisjoint p h p (by simp) rfl
    rw [List.foldlM_append, ih (fun q hq => hps q (by simp [hq])) hnodup]
    simp only [List.foldlM_cons, List.foldlM_nil, Option.bind_eq_bind, Option.bind_some,
      getElem?_tabulate hp, if_neg hmem, hchange, writeAt?_tabulate hp]
    refine congrArg some (tabulate_congr fun q _ => ?_)
    rw [Function.update_apply]
    by_cases hqp : q = p
    · simp [hqp]
    · simp [hqp]

theorem size_moves (h : a.IsExact t) : (a.moves classes).size = a.leaves.size := by
  simp [moves, h.size_follow]

theorem exists_move (h : a.IsExact t) (classes : List InputClass) {p : Nat}
    (hp : p < a.leaves.size) :
    ∃ s, a.follow[p]? = some s ∧
      (a.moves classes)[p]? = some ⟨a.leaves[p].term.classesTaken classes, a.followSet p s⟩ := by
  have hs := Array.getElem?_eq_getElem (h.size_follow ▸ hp)
  exact ⟨_, hs, getElem?_moves.2 ⟨_, _, Array.getElem?_eq_getElem hp, hs, rfl⟩⟩

/-- The classes that are looked up are those of the moves. -/
theorem map_classes_moves (h : a.IsExact t) :
    a.leaves.map (·.term.classesTaken classes) = (a.moves classes).map Move.classes := by
  refine Array.ext (by simp [size_moves h]) fun p hp hp' => Option.some_inj.1 ?_
  rw [Array.size_map] at hp
  obtain ⟨s, -, hmove⟩ := exists_move h classes hp
  rw [← Array.getElem?_eq_getElem, ← Array.getElem?_eq_getElem, Array.getElem?_map,
    Array.getElem?_map, hmove, Array.getElem?_eq_getElem hp]
  rfl

/-- The sets of followers are those of the moves. -/
theorem followSets?_eq (h : a.IsExact t) (classes : List InputClass) :
    a.followSets? = some ((a.moves classes).map Move.next) := by
  have hread : ∀ p ∈ List.range a.leaves.size, (a.follow[p]?).map a.widened =
      some (a.widened ((a.follow[p]?).getD a.first)) := by
    intro p hp
    obtain ⟨s, hs, -⟩ := exists_move h classes (List.mem_range.1 hp)
    rw [hs]
    rfl
  have hlast : ∀ p ∈ a.last.members, p < a.leaves.size := by
    intro p hp
    obtain ⟨leaf, hleaf⟩ := h.exists_leaf ((h.last_iff p).1 (PositionSet.mem_members.1 hp)).occurs
    exact (Array.getElem?_eq_some_iff.1 hleaf).1
  have hnodup : a.last.members.Nodup := a.last.pairwise_members.imp fun hpq => Nat.ne_of_lt hpq
  unfold followSets?
  rw [mapM_eq_some_map hread, Option.bind_eq_bind, Option.bind_some, toArray_map_range,
    foldlM_writeAt?_tabulate (g := (·.insert a.leaves.size)) _ hlast hnodup
      fun p => PositionSet.insert?_eq (a.lt_room_widened _)]
  refine congrArg some (Array.ext (by simp [size_moves h]) fun p hp hp' => Option.some_inj.1 ?_)
  rw [size_tabulate] at hp
  obtain ⟨s, hs, hmove⟩ := exists_move h classes hp
  rw [← Array.getElem?_eq_getElem, ← Array.getElem?_eq_getElem, getElem?_tabulate hp,
    Array.getElem?_map, hmove, hs]
  simp [followSet]

end Analysis

/-! ## One state -/

/-- Adds positions to what a class leads to; none if there is no entry for the class. -/
def addTarget? (capacity : Nat) (next : PositionSet) :
    Array (Option PositionSet) → Nat → Option (Array (Option PositionSet)) :=
  changeAt? fun t => some ((t.getD (.empty capacity)).union next)

/-- Adds what comes after a position to what its classes lead to. The position of the end is passed
over; for another, its classes and what comes after it are looked up. -/
def addPosition? (admitted : Array (List Nat)) (follow : Array PositionSet) (endPosition : Nat)
    (targets : Array (Option PositionSet)) (p : Nat) : Option (Array (Option PositionSet)) :=
  if p = endPosition then some targets
  else do
    let classes ← admitted[p]?
    classes.foldlM (fun targets cls => do
      let next ← follow[p]?
      addTarget? (endPosition + 1) next targets cls) targets

/-- For each class, the positions that a set of positions leads to. -/
def targets? (admitted : Array (List Nat)) (follow : Array PositionSet)
    (endPosition classCount : Nat) (s : PositionSet) : Option (Array (Option PositionSet)) :=
  s.members.foldlM (addPosition? admitted follow endPosition) (.replicate classCount none)

section

variable {capacity count : Nat} {moves : Array Move} {s : PositionSet}

theorem size_addMove (targets : Array (Option PositionSet)) (m : Move) :
    (addMove capacity targets m).size = targets.size := by
  unfold addMove
  induction m.classes generalizing targets with
  | nil => rfl
  | cons cls rest ih => rw [List.foldl_cons, ih, Array.size_modify]

theorem addPosition?_of_move {p : Nat} {m : Move} (hm : moves[p]? = some m)
    {targets : Array (Option PositionSet)} (h : ∀ c ∈ m.classes, c < targets.size) :
    addPosition? (moves.map Move.classes) (moves.map Move.next) moves.size targets p =
      some (addMove (moves.size + 1) targets m) := by
  have hne : p ≠ moves.size := Nat.ne_of_lt (Array.getElem?_eq_some_iff.1 hm).1
  rw [addPosition?, if_neg hne, Array.getElem?_map, Array.getElem?_map, hm]
  exact foldlM_changeAt? h _

/-- The classes lead to the successors, if every position is that of a move or the end, and every
class of a move is one of them. -/
theorem targets?_eq (hs : ∀ p, s.contains p = true → p < moves.size + 1)
    (hclasses : ∀ (p : Nat) (m : Move), moves[p]? = some m → ∀ c ∈ m.classes, c < count) :
    targets? (moves.map Move.classes) (moves.map Move.next) moves.size count s =
      some (successors moves count s) := by
  have hmembers : ∀ p ∈ s.members, p < moves.size + 1 :=
    fun p hp => hs p (PositionSet.mem_members.1 hp)
  unfold targets? successors
  have hsize : (Array.replicate count (none : Option PositionSet)).size = count :=
    Array.size_replicate
  generalize Array.replicate count (none : Option PositionSet) = targets at hsize ⊢
  generalize s.members = ps at hmembers ⊢
  induction ps generalizing targets with
  | nil => rfl
  | cons p ps ih =>
    obtain ⟨hp, hps⟩ := List.forall_mem_cons.1 hmembers
    rw [List.foldlM_cons]
    by_cases hend : p = moves.size
    · have hnone : moves[p]? = none := Array.getElem?_eq_none (Nat.le_of_eq hend.symm)
      rw [addPosition?, if_pos hend, List.filterMap_cons_none hnone]
      exact ih targets hsize hps
    · have hlt : p < moves.size := by omega
      have hm := Array.getElem?_eq_getElem hlt
      rw [addPosition?_of_move hm fun c hc => hsize.symm ▸ hclasses p _ hm c hc,
        List.filterMap_cons_some hm, List.foldl_cons]
      exact ih _ ((size_addMove targets _).trans hsize) hps

end

end ElementContent
