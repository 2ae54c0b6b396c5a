import ElementContent.Proofs.Automaton.Targets
import ElementContent.Proofs.Automaton.Worklist

/-!
# The automaton with one flat table

The steps of an automaton can be kept in one array, with the row of each state behind that of the
state before. A new state then makes the array longer by a row without entries, and the entry of a
state and a class is written at a place that is computed from the two. The states that wait stand in
a queue. A search that works in this way looks up states, classes and places by number, and stops
where one is missing. It never does, and it ends with the states and the steps of the automaton.

- `flat`: the array; `writeAt?_flat_push` and `flat_append` say what one entry and one state more do
  to it.
- `Frontier`: what has been found, with the table and the queue; `Frontier.ofRows` lays rows out in
  this way.
- `Frontier.enterAll?_eq`: one state; `exploreAll?_eq`: all of them.
- `TableAutomaton`, `Automaton.laidOut`: the automaton with its steps in one array.
- `Analysis.synthesize?_eq`: the search ends as the construction of the automaton does.
-/

namespace ElementContent

/-! ## The table -/

/-- The entry of a state and a class, if there is one. -/
def entryOf (rows : Array (Array (Option Nat))) (state cls : Nat) : Option Nat := do
  let row ← rows[state]?
  let entry ← row[cls]?
  entry

/-- The entries of so many states and classes, one row behind the other. -/
def flat (states classes : Nat) (f : Nat → Nat → Option Nat) : Array (Option Nat) :=
  tabulate (states * classes) fun k => f (k / classes) (k % classes)

section Flat

variable {states classes state cls : Nat} {f g : Nat → Nat → Option Nat}
  {rows : Array (Array (Option Nat))} {row : Array (Option Nat)}

/-- The place of an entry is within the table, and no other entry has it. -/
theorem place_lt (hs : state < states) (hc : cls < classes) :
    state * classes + cls < states * classes := by
  have hle : (state + 1) * classes ≤ states * classes := Nat.mul_le_mul_right classes hs
  rw [Nat.succ_mul] at hle
  omega

theorem div_place (hc : cls < classes) : (state * classes + cls) / classes = state := by
  rw [Nat.mul_comm, Nat.mul_add_div (by omega), Nat.div_eq_of_lt hc, Nat.add_zero]

theorem mod_place (hc : cls < classes) : (state * classes + cls) % classes = cls := by
  rw [Nat.mul_comm, Nat.mul_add_mod, Nat.mod_eq_of_lt hc]

theorem getElem?_flat (hs : state < states) (hc : cls < classes) :
    (flat states classes f)[state * classes + cls]? = some (f state cls) := by
  rw [flat, getElem?_tabulate (place_lt hs hc), div_place hc, mod_place hc]

theorem writeAt?_flat (hs : state < states) (hc : cls < classes) {x : Option Nat}
    (hx : g state cls = x) (hother : ∀ s c, (s, c) ≠ (state, cls) → g s c = f s c) :
    writeAt? (flat states classes f) (state * classes + cls) x =
      some (flat states classes g) := by
  rw [flat, writeAt?_tabulate (place_lt hs hc), Option.some_inj]
  refine tabulate_congr fun k _ => ?_
  rw [Function.update_apply]
  split
  · next hk => rw [hk, div_place hc, mod_place hc, hx]
  · next hk =>
    refine (hother _ _ fun heq => hk ?_).symm
    obtain ⟨hdiv, hmod⟩ := Prod.mk.inj heq
    rw [← hdiv, ← hmod, Nat.mul_comm, Nat.div_add_mod]

/-- One more state makes the table longer by a row without entries. -/
theorem flat_append (h : ∀ c, f states c = none) :
    flat states classes f ++ .replicate classes none = flat (states + 1) classes f := by
  have hsize : (flat states classes f).size = states * classes := size_tabulate
  refine Array.ext ?_ fun k hk hk' => Option.some_inj.1 ?_
  · rw [Array.size_append, Array.size_replicate, hsize, flat, size_tabulate, Nat.succ_mul]
  · have hlt : k < (states + 1) * classes := by simpa [flat] using hk'
    rw [← Array.getElem?_eq_getElem, ← Array.getElem?_eq_getElem, Array.getElem?_append, hsize]
    have hright : (flat (states + 1) classes f)[k]? = some (f (k / classes) (k % classes)) :=
      getElem?_tabulate hlt
    rw [hright]
    split
    · next hin => exact getElem?_tabulate hin
    · next hout =>
      have hpos : 0 < classes := Nat.pos_of_ne_zero fun h0 => by simp [h0] at hlt
      have hdiv : k / classes = states := by
        refine Nat.div_eq_of_lt_le (Nat.le_of_not_lt hout) ?_
        rwa [Nat.succ_mul] at hlt ⊢
      rw [hdiv, h, Array.getElem?_replicate, if_pos (by rw [Nat.succ_mul] at hlt; omega)]

theorem entryOf_push (rows : Array (Array (Option Nat))) (row : Array (Option Nat)) (s c : Nat) :
    entryOf (rows.push row) s c = if s = rows.size then row[c]?.join else entryOf rows s c := by
  unfold entryOf
  rw [Array.getElem?_push]
  split
  · cases h : row[c]? <;> simp [h]
  · rfl

theorem entryOf_eq_none (h : rows.size ≤ state) : entryOf rows state cls = none := by
  simp [entryOf, Array.getElem?_eq_none h]

theorem entryOf_push_empty (rows : Array (Array (Option Nat))) :
    entryOf (rows.push #[]) = entryOf rows := by
  funext s c
  rw [entryOf_push]
  split
  · next h => simp [entryOf_eq_none (Nat.le_of_eq h.symm)]
  · rfl

/-- A class without a step may be left out of a row. -/
theorem entryOf_push_none (rows : Array (Array (Option Nat))) (row : Array (Option Nat)) :
    entryOf (rows.push (row.push none)) = entryOf (rows.push row) := by
  funext s c
  rw [entryOf_push, entryOf_push, Array.getElem?_push]
  by_cases hc : c = row.size
  · simp [hc]
  · simp [hc]

/-- The next entry of the last row is written at its place. -/
theorem writeAt?_flat_push (hs : rows.size < states) (hc : row.size < classes) (x : Option Nat) :
    writeAt? (flat states classes (entryOf (rows.push row))) (rows.size * classes + row.size) x =
      some (flat states classes (entryOf (rows.push (row.push x)))) := by
  refine writeAt?_flat hs hc ?_ fun s c hne => ?_
  · simp [entryOf_push]
  · rw [entryOf_push, entryOf_push, Array.getElem?_push]
    by_cases hs : s = rows.size
    · have hc : c ≠ row.size := fun hc => hne (by rw [hs, hc])
      simp [hs, hc]
    · simp [hs]

end Flat

/-! ## The search -/

/-- What a search has found. -/
structure Frontier (limits : Limits) where
  /-- The states. -/
  found : Discovery limits
  /-- Their steps, in one array. -/
  table : Array (Option Nat)
  /-- The states whose steps are yet to be tried, the first one first. -/
  queue : List Nat

variable {limits : Limits}

namespace Frontier

/-- Enters the step of a state by a class. A set that is new becomes a state, with a row without
entries, and waits. -/
def enter? (classCount state cls : Nat) (f : Frontier limits) :
    Option PositionSet → Option (Except Error (Frontier limits))
  | none => some (.ok f)
  | some s =>
    if s.isEmpty then do
      let table ← writeAt? f.table (state * classCount + cls) none
      return .ok { f with table }
    else
      match f.found.place s with
      | .error e => some (.error e)
      | .ok (i, found) => do
        let f : Frontier limits :=
          if i < f.found.states.size then { f with found }
          else ⟨found, f.table ++ .replicate classCount none, f.queue ++ [i]⟩
        let table ← writeAt? f.table (state * classCount + cls) (some i)
        return .ok { f with table }

/-- Enters the steps of a state by the classes from `cls` on. -/
def enterAll? (classCount state : Nat) :
    List (Option PositionSet) → Nat → Frontier limits → Option (Except Error (Frontier limits))
  | [], _, f => some (.ok f)
  | target :: rest, cls, f => do
    match ← f.enter? classCount state cls target with
    | .error e => return .error e
    | .ok f => enterAll? classCount state rest (cls + 1) f

/-- The states with their rows laid out, and those from `taken` on waiting. -/
def ofRows (d : Discovery limits) (classCount : Nat) (rows : Array (Array (Option Nat)))
    (taken : Nat) : Frontier limits :=
  ⟨d, flat d.states.size classCount (entryOf rows), List.range' taken (d.states.size - taken)⟩

variable {d d' : Discovery limits} {rows : Array (Array (Option Nat))}
  {row row' : Array (Option Nat)} {targets : List (Option PositionSet)} {count : Nat}

/-- To place some targets is to place the first and then the others. -/
theorem placeAll_cons_bind (target : Option PositionSet) (targets : List (Option PositionSet)) :
    placeAll (target :: targets) row d =
      (placeAll [target] row d).bind fun (row, d) => placeAll targets row d := by
  cases target with
  | none => rfl
  | some s =>
    rw [placeAll, placeAll]
    by_cases hs : s.isEmpty = true
    · rw [if_pos hs, if_pos hs]
      rfl
    · rw [if_neg hs, if_neg hs]
      cases d.place s <;> rfl

theorem size_of_placeAll (h : placeAll targets row d = .ok (row', d')) :
    row'.size = row.size + targets.length ∧ d.states.size ≤ d'.states.size := by
  obtain ⟨entries, hrow, hentries, hk, -⟩ := placeAll_eq_ok h
  refine ⟨?_, Nat.le_of_not_lt fun hlt => ?_⟩
  · rw [← Array.length_toList, hrow, List.length_append, Array.length_toList, hentries.length_eq]
  · have := hk (Array.getElem?_eq_getElem hlt)
    simp at this

/-- The step of a state by the next class is entered in the table just as it is placed in a row. -/
theorem enter?_eq (hrows : rows.size < d.states.size) (hrow : row.size < count)
    (target : Option PositionSet) :
    (ofRows d count (rows.push row) (rows.size + 1)).enter? count rows.size row.size target =
      some ((placeAll [target] row d).map fun (row, d) =>
        ofRows d count (rows.push row) (rows.size + 1)) := by
  cases target with
  | none =>
    show some (Except.ok (ofRows d count (rows.push row) (rows.size + 1))) = _
    unfold ofRows
    rw [← entryOf_push_none]
    rfl
  | some s =>
    rw [enter?, placeAll]
    by_cases hs : s.isEmpty = true
    · rw [if_pos hs, if_pos hs]
      simp only [ofRows, writeAt?_flat_push hrows hrow]
      rfl
    · rw [if_neg hs, if_neg hs]
      have hfound : (ofRows d count (rows.push row) (rows.size + 1)).found = d := rfl
      rw [hfound]
      cases hplace : d.place s with
      | error e => rfl
      | ok placed =>
        obtain ⟨i, d'⟩ := placed
        rcases Discovery.place_cases hplace with ⟨hi, rfl⟩ | ⟨-, rfl, hstates⟩
        · have hlt : i < d'.states.size := (Array.getElem?_eq_some_iff.1 hi).1
          simp only [if_pos hlt, ofRows, writeAt?_flat_push hrows hrow]
          rfl
        · have hsize : d'.states.size = d.states.size + 1 := by rw [hstates, Array.size_push]
          have htable :
              flat d.states.size count (entryOf (rows.push row)) ++ .replicate count none =
                flat d'.states.size count (entryOf (rows.push row)) := by
            rw [hsize]
            exact flat_append fun c => entryOf_eq_none (by rw [Array.size_push]; exact hrows)
          have hqueue : List.range' (rows.size + 1) (d.states.size - (rows.size + 1)) ++
              [d.states.size] =
                List.range' (rows.size + 1) (d'.states.size - (rows.size + 1)) := by
            have hlen : d'.states.size - (rows.size + 1) =
                d.states.size - (rows.size + 1) + 1 := by omega
            rw [hlen, List.range'_concat]
            congr 2
            omega
          have hrows' : rows.size < d'.states.size := by omega
          simp only [if_neg (Nat.lt_irrefl d.states.size), ofRows, htable, hqueue,
            writeAt?_flat_push hrows' hrow]
          rfl

/-- The steps of a state are entered just as they are placed in a row. -/
theorem enterAll?_eq (hrows : rows.size < d.states.size)
    (hrow : row.size + targets.length = count) :
    enterAll? count rows.size targets row.size (ofRows d count (rows.push row) (rows.size + 1)) =
      some ((placeAll targets row d).map fun (row, d) =>
        ofRows d count (rows.push row) (rows.size + 1)) := by
  induction targets generalizing row d with
  | nil => rfl
  | cons target rest ih =>
    rw [List.length_cons] at hrow
    rw [enterAll?, enter?_eq hrows (by omega), placeAll_cons_bind target rest]
    cases hplace : placeAll [target] row d with
    | error e => rfl
    | ok placed =>
      obtain ⟨row', d'⟩ := placed
      obtain ⟨hsize, hle⟩ := size_of_placeAll hplace
      rw [List.length_singleton] at hsize
      have hrest : row'.size + rest.length = count := by omega
      have hstep := ih (Nat.lt_of_lt_of_le hrows hle) hrest
      rw [hsize] at hstep
      exact hstep

end Frontier

/-- Tries the steps of the states that wait, cut off after so many states. -/
def exploreAll? (admitted : Array (List Nat)) (follow : Array PositionSet)
    (endPosition classCount : Nat) : Nat → Frontier limits →
      Option (Except Error (Frontier limits))
  | _, ⟨found, table, []⟩ => some (.ok ⟨found, table, []⟩)
  | 0, ⟨_, _, _ :: _⟩ => none
  | k + 1, ⟨found, table, state :: queue⟩ => do
    let s ← found.states[state]?
    let targets ← targets? admitted follow endPosition classCount s
    match ← Frontier.enterAll? classCount state targets.toList 0 ⟨found, table, queue⟩ with
    | .error e => return .error e
    | .ok f => exploreAll? admitted follow endPosition classCount k f

section Explore

variable {d : Discovery limits} {rows : Array (Array (Option Nat))} {moves : Array Move}
  {count : Nat} {start : PositionSet}

theorem size_successors (moves : Array Move) (count : Nat) (s : PositionSet) :
    (successors moves count s).size = count := by
  unfold successors
  suffices ∀ (ms : List Move) (targets : Array (Option PositionSet)),
      (ms.foldl (addMove (moves.size + 1)) targets).size = targets.size by
    rw [this, Array.size_replicate]
  intro ms
  induction ms with
  | nil => exact fun _ => rfl
  | cons m ms ih => exact fun targets => (ih _).trans (size_addMove targets m)

/-- When every state has its row, no state waits. -/
theorem exploreAll?_ofRows_of_le {admitted : Array (List Nat)} {follow : Array PositionSet}
    (h : d.states.size ≤ rows.size) (endPosition k : Nat) :
    exploreAll? admitted follow endPosition count k (.ofRows d count rows rows.size) =
      some (.ok (.ofRows d count rows rows.size)) := by
  have hdone : d.states.size - rows.size = 0 := Nat.sub_eq_zero_of_le h
  rw [Frontier.ofRows, hdone, List.range'_zero]
  cases k <;> rfl

/-- Until then, the first state without a row is the next. -/
theorem Frontier.ofRows_of_lt (h : rows.size < d.states.size) :
    Frontier.ofRows d count rows rows.size =
      ⟨d, flat d.states.size count (entryOf rows),
        rows.size :: List.range' (rows.size + 1) (d.states.size - (rows.size + 1))⟩ := by
  have hlen : d.states.size - rows.size = d.states.size - (rows.size + 1) + 1 := by omega
  rw [ofRows, hlen, List.range'_succ]

/-- The steps of the next state are entered just as they are placed in a row. -/
theorem Frontier.enterAll?_successors (h : rows.size < d.states.size) :
    enterAll? count rows.size (successors moves count d.states[rows.size]).toList 0
        ⟨d, flat d.states.size count (entryOf rows),
          List.range' (rows.size + 1) (d.states.size - (rows.size + 1))⟩ =
      some ((placeAll (successors moves count d.states[rows.size]).toList #[] d).map
        fun (row, d) => ofRows d count (rows.push row) (rows.size + 1)) := by
  have hsize : (#[] : Array (Option Nat)).size +
      (successors moves count d.states[rows.size]).toList.length = count := by
    rw [Array.length_toList, size_successors]
    exact Nat.zero_add _
  rw [← enterAll?_eq h hsize, ofRows, entryOf_push_empty]
  rfl

/-- The search tries each state once, and ends as the exploration of the rows does. -/
theorem exploreAll?_eq (he : Explored moves count start d.states rows)
    (hstates : ∀ s, Met moves count start s → ∀ p, s.contains p = true → p < moves.size + 1)
    (hclasses : ∀ (p : Nat) (m : Move), moves[p]? = some m → ∀ c ∈ m.classes, c < count)
    {k : Nat} (hk : max 1 limits.states ≤ k + rows.size) :
    exploreAll? (moves.map Move.classes) (moves.map Move.next) moves.size count k
        (.ofRows d count rows rows.size) =
      some ((explore moves count d rows).map fun (d, rows) => .ofRows d count rows rows.size) := by
  induction k generalizing d rows with
  | zero =>
    -- there is a row for each state that is allowed
    have hle : d.states.size ≤ rows.size := by
      have := d.size_le
      omega
    rw [explore, dif_neg (Nat.not_lt.2 hle)]
    exact exploreAll?_ofRows_of_le hle _ _
  | succ k ih =>
    rw [explore]
    by_cases hlt : rows.size < d.states.size
    · rw [dif_pos hlt, Frontier.ofRows_of_lt hlt, exploreAll?]
      have htargets := targets?_eq (s := d.states[rows.size])
        (hstates _ (he.met _ (Array.getElem_mem hlt))) hclasses
      simp only [Array.getElem?_eq_getElem hlt, htargets, Frontier.enterAll?_successors hlt,
        Option.bind_eq_bind, Option.bind_some]
      cases hplace : placeAll (successors moves count d.states[rows.size]).toList #[] d with
      | error e => rfl
      | ok placed =>
        obtain ⟨row, later⟩ := placed
        have hrest := ih (explored_placeAll he hlt hplace) (by rw [Array.size_push]; omega)
        rw [Array.size_push] at hrest
        exact hrest
    · rw [dif_neg hlt]
      exact exploreAll?_ofRows_of_le (Nat.le_of_not_lt hlt) _ _

end Explore

/-! ## The automaton -/

/-- An automaton with its steps in one array. -/
structure TableAutomaton where
  leaves : Array Leaf
  classes : List InputClass
  states : Array PositionSet
  table : Array (Option Nat)

/-- The automaton with its steps in one array. -/
def Automaton.laidOut (m : Automaton) : TableAutomaton :=
  ⟨m.leaves, m.classes, m.states, flat m.states.size m.classes.length m.next?⟩

namespace Analysis

/-- The automaton of an analysis, found by a search that begins with the positions of the first
child. -/
def synthesize? (a : Analysis) (limits : Limits) : Option (Except Error TableAutomaton) := do
  let classes := alphabet (a.leaves.toList.map (·.term))
  let follow ← a.followSets?
  let start ← a.startSet?
  let admitted := a.leaves.map (·.term.classesTaken classes)
  let found : Except Error (Frontier limits) ← exploreAll? admitted follow a.leaves.size
    classes.length (max 1 limits.states) ⟨.start start, .replicate classes.length none, [0]⟩
  return found.map fun f => ⟨a.leaves, classes, f.found.states, f.table⟩

variable {t : Tree} {a : Analysis} {classes : List InputClass} {s : PositionSet} {p : Nat}

/-- The positions of a state are numbers of leaves, or the end. -/
theorem Reached.lt_of_contains (h : a.IsExact t) (hs : a.Reached t classes s)
    (hp : s.contains p = true) : p < a.leaves.size + 1 := by
  cases hs with
  | start => exact lt_of_occurs_ended h ((contains_startSet h p).1 hp).occurs
  | step _ hiff =>
    obtain ⟨q, leaf, cls, -, -, -, -, hqp⟩ := (hiff p).1 hp
    exact lt_of_occurs_ended h hqp.occurs_right

/-- The classes of a move are numbers of classes. -/
theorem lt_of_mem_moves {m : Move} (hm : (a.moves classes)[p]? = some m) {c : Nat}
    (hc : c ∈ m.classes) : c < classes.length := by
  obtain ⟨leaf, s, -, -, rfl⟩ := getElem?_moves.1 hm
  obtain ⟨cls, hcls, -⟩ := mem_classesTaken.1 hc
  exact (List.getElem?_eq_some_iff.1 hcls).1

/-- The search begins as the exploration does. -/
theorem ofRows_start (s : PositionSet) (count : Nat) :
    (Frontier.ofRows (.start s) count #[] 0 : Frontier limits) =
      ⟨.start s, .replicate count none, [0]⟩ := by
  have hempty : ∀ c, entryOf #[] 0 c = none := fun c => entryOf_eq_none (Nat.le_refl _)
  have htable : flat 1 count (entryOf #[]) = .replicate count none := by
    rw [← flat_append hempty]
    simp [flat, tabulate]
  exact congrArg (Frontier.mk _ · _) htable

/-- The search never stops at something that is missing. Its outcome is the automaton of the
analysis, or the error for which there is none. -/
theorem synthesize?_eq (h : a.IsExact t) (limits : Limits) :
    a.synthesize? limits = some ((Automaton.ofAnalysis a limits).map Automaton.laidOut) := by
  unfold synthesize? Automaton.ofAnalysis
  generalize alphabet (a.leaves.toList.map (·.term)) = classes
  have hsize : (a.moves classes).size = a.leaves.size := size_moves h
  have hstates : ∀ s, Met (a.moves classes) classes.length a.startSet s →
      ∀ p, s.contains p = true → p < (a.moves classes).size + 1 := by
    intro s hs p hp
    rw [hsize]
    exact (hs.reached h).lt_of_contains h hp
  have hrounds : max 1 limits.states ≤
      max 1 limits.states + (#[] : Array (Array (Option Nat))).size := Nat.le_refl _
  have hsearch := exploreAll?_eq (explored_start a.startSet) hstates
    (fun p m hm c hc => lt_of_mem_moves hm hc) hrounds
  rw [Array.size_empty, ofRows_start, hsize, ← map_classes_moves h] at hsearch
  simp only [followSets?_eq h classes, startSet?_eq, hsearch, Option.bind_eq_bind, Option.bind_some]
  cases explore (a.moves classes) classes.length (.start a.startSet : Discovery limits) #[] with
  | error e => rfl
  | ok found => rfl

end Analysis

end ElementContent
