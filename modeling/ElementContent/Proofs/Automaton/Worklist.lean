import ElementContent.Proofs.Automaton.Exploration

/-!
# The exploration as a worklist

The exploration tries the steps of the states in the order of their numbers. Seen from one set to
the next, it is a worklist: the number of a set that is met for the first time goes to the end of a
queue, and when all targets of a state have been seen to, the next state is taken from the front.
The numbers are given out in ascending order, so they are also taken in ascending order, and each of
them once.

- `Search`, `Search.Step`: the worklist and what it does next; `Search.Run` is a sequence of steps
  with the states that they take.
- `Search.Run.completes`: there is one thing to do at a time, so every run comes to the same end.
- `Search.exists_run_placeAll`, `Search.exists_run_explore`: one round of the exploration is a run,
  and so is the whole exploration, to the very end or to a set for which there is no place.
- `Search.InOrder`: the states that have been taken and those that wait are all that are found, in
  the order of their numbers.
- `Search.Sound`: only sets that are met from the first one are found.
-/

namespace ElementContent

variable {limits : Limits}

/-! ## A place for a set -/

namespace Discovery

variable {d d' : Discovery limits} {s : PositionSet} {i : Nat}

theorem index_eq_none_iff : d.index[s]? = none ↔ s ∉ d.states := by
  constructor
  · intro hnone hmem
    obtain ⟨i, hi⟩ := Array.mem_iff_getElem?.1 hmem
    rw [← d.index_iff, hnone] at hi
    cases hi
  · intro hmem
    by_contra hsome
    obtain ⟨i, hi⟩ := Option.ne_none_iff_exists'.1 hsome
    exact hmem (Array.mem_of_getElem? ((d.index_iff s i).1 hi))

/-- A set that is placed stands there already, or it is new and takes the next number. -/
theorem place_cases (h : d.place s = .ok (i, d')) : d.states[i]? = some s ∧ d' = d ∨
    s ∉ d.states ∧ i = d.states.size ∧ d'.states = d.states.push s := by
  unfold place at h
  split at h
  · next j hj =>
    obtain ⟨rfl, rfl⟩ := Prod.mk.inj (Except.ok.inj h)
    exact .inl ⟨(d.index_iff s j).1 hj, rfl⟩
  · next hnew =>
    split at h
    · cases h
    · obtain ⟨rfl, rfl⟩ := Prod.mk.inj (Except.ok.inj h)
      exact .inr ⟨index_eq_none_iff.1 hnew, rfl, rfl⟩

/-- A set has no place only if it is new and there are as many sets as allowed. -/
theorem place_eq_error {e : Error} (h : d.place s = .error e) : s ∉ d.states ∧
    limits.states < d.states.size + 1 ∧
    e = .overLimit .states (d.states.size + 1) limits.states := by
  unfold place at h
  split at h
  · cases h
  · next hnew =>
    split at h
    · next hcheck =>
      obtain rfl := Except.error.inj h
      unfold Limits.check at hcheck
      split at hcheck
      · next hlt => exact ⟨index_eq_none_iff.1 hnew, hlt, (Except.error.inj hcheck).symm⟩
      · cases hcheck
    · cases h

end Discovery

/-! ## The worklist -/

/-- What has been found, and what is still to be done about it. -/
structure Search (limits : Limits) where
  /-- The sets found so far. -/
  found : Discovery limits
  /-- The targets still to be placed of the state that was taken last. -/
  targets : List (Option PositionSet)
  /-- The numbers of the states still to be taken. -/
  queue : List Nat

namespace Search

variable {moves : Array Move} {count : Nat} {w w' w'' : Search limits} {taken taken' : List Nat}
  {d d' : Discovery limits} {targets : List (Option PositionSet)} {queue : List Nat}

/-- One set found, and its state waits. -/
def start (s : PositionSet) : Search limits :=
  ⟨.start s, [], [0]⟩

/-- What is done next, with the number of the state that is taken for it. -/
inductive Step (moves : Array Move) (count : Nat) :
    Search limits → List Nat → Search limits → Prop
  /-- The first state of the queue is taken if no target is left. -/
  | take {d : Discovery limits} {i : Nat} {s : PositionSet} {queue : List Nat} :
    d.states[i]? = some s →
    Step moves count ⟨d, [], i :: queue⟩ [i] ⟨d, (successors moves count s).toList, queue⟩
  /-- A target without positions is passed over. -/
  | skip {d : Discovery limits} {target : Option PositionSet} {targets : List (Option PositionSet)}
    {queue : List Nat} : (∀ s, target = some s → s.isEmpty = true) →
    Step moves count ⟨d, target :: targets, queue⟩ [] ⟨d, targets, queue⟩
  /-- A target that has been found before has its number. -/
  | known {d : Discovery limits} {s : PositionSet} {targets : List (Option PositionSet)}
    {queue : List Nat} : s.isEmpty = false → s ∈ d.states →
    Step moves count ⟨d, some s :: targets, queue⟩ [] ⟨d, targets, queue⟩
  /-- A target that is new gets the next number, which goes to the end of the queue. -/
  | new {d d' : Discovery limits} {s : PositionSet} {i : Nat} {targets : List (Option PositionSet)}
    {queue : List Nat} : s.isEmpty = false → s ∉ d.states → d.place s = .ok (i, d') →
    Step moves count ⟨d, some s :: targets, queue⟩ [] ⟨d', targets, queue ++ [i]⟩

/-- A sequence of steps, with the states that are taken. -/
inductive Run (moves : Array Move) (count : Nat) :
    Search limits → List Nat → Search limits → Prop
  | refl (w : Search limits) : Run moves count w [] w
  | head {w w' w'' : Search limits} {taken taken' : List Nat} : Step moves count w taken w' →
    Run moves count w' taken' w'' → Run moves count w (taken ++ taken') w''

theorem Run.trans (h : Run moves count w taken w') (h' : Run moves count w' taken' w'') :
    Run moves count w (taken ++ taken') w'' := by
  induction h with
  | refl w => exact h'
  | head hstep _ ih =>
    rw [List.append_assoc]
    exact .head hstep (ih h')

/-- The next target is new and has no place. -/
def FailsWith (w : Search limits) (e : Error) : Prop :=
  ∃ s targets, w.targets = some s :: targets ∧ s.isEmpty = false ∧ w.found.place s = .error e

/-- The search is over: nothing is left to be done, or there is no place for a target. -/
def EndsIn (w : Search limits) : Except Error (Array PositionSet) → Prop
  | .ok states => w.targets = [] ∧ w.queue = [] ∧ w.found.states = states
  | .error e => w.FailsWith e

/-- There is only one thing to do next. -/
theorem Step.unique (h : Step moves count w taken w') (h' : Step moves count w taken' w'') :
    taken = taken' ∧ w' = w'' := by
  cases h with
  | take hi =>
    cases h' with
    | take hi' => exact ⟨rfl, by rw [Option.some.inj (hi.symm.trans hi')]⟩
  | skip hempty =>
    cases h' with
    | skip => exact ⟨rfl, rfl⟩
    | known hne => simp [hempty _ rfl] at hne
    | new hne => simp [hempty _ rfl] at hne
  | known hne hmem =>
    cases h' with
    | skip hempty => simp [hempty _ rfl] at hne
    | known => exact ⟨rfl, rfl⟩
    | new _ hnew => exact absurd hmem hnew
  | new hne hnew hplace =>
    cases h' with
    | skip hempty => simp [hempty _ rfl] at hne
    | known _ hmem => exact absurd hmem hnew
    | new _ _ hplace' =>
      obtain ⟨rfl, rfl⟩ := Prod.mk.inj (Except.ok.inj (hplace.symm.trans hplace'))
      exact ⟨rfl, rfl⟩

/-- When the search is over, there is nothing to do next. -/
theorem EndsIn.not_step {result : Except Error (Array PositionSet)} (h : w.EndsIn result) :
    ¬ Step moves count w taken w' := by
  intro hstep
  cases result with
  | ok states =>
    obtain ⟨htargets, hqueue, -⟩ := h
    cases hstep with
    | take => cases hqueue
    | skip => cases htargets
    | known => cases htargets
    | new => cases htargets
  | error e =>
    obtain ⟨s, targets, htargets, hne, hplace⟩ := h
    have hnew := (Discovery.place_eq_error hplace).1
    cases hstep with
    | take => cases htargets
    | skip hempty =>
      obtain ⟨rfl, rfl⟩ := List.cons.inj htargets
      simp [hempty s rfl] at hne
    | known _ hmem =>
      obtain ⟨hs, -⟩ := List.cons.inj htargets
      exact hnew (Option.some.inj hs ▸ hmem)
    | new _ _ hplace' =>
      obtain ⟨hs, -⟩ := List.cons.inj htargets
      obtain rfl := Option.some.inj hs
      cases hplace.symm.trans hplace'

/-- A run that ends is what every run comes to in the end. -/
theorem Run.completes {result : Except Error (Array PositionSet)}
    (h : Run moves count w taken w'') (hend : w''.EndsIn result)
    (h' : Run moves count w taken' w') :
    ∃ rest, taken = taken' ++ rest ∧ Run moves count w' rest w'' := by
  induction h' generalizing taken with
  | refl w => exact ⟨taken, rfl, h⟩
  | head hstep _ ih =>
    cases h with
    | refl => exact absurd hstep hend.not_step
    | head hstep' hrun =>
      obtain ⟨rfl, rfl⟩ := hstep.unique hstep'
      obtain ⟨rest, rfl, hrest⟩ := ih hrun
      exact ⟨rest, (List.append_assoc _ _ _).symm, hrest⟩

/-! ## The exploration is a run -/

/-- To place the first of some targets is a step, unless it has no place. -/
theorem placeAll_cons (target : Option PositionSet) (row : Array (Option Nat)) :
    (∃ e, placeAll (target :: targets) row d = .error e ∧
      FailsWith ⟨d, target :: targets, queue⟩ e) ∨
    ∃ row' d' queue', placeAll (target :: targets) row d = placeAll targets row' d' ∧
      Step moves count ⟨d, target :: targets, queue⟩ [] ⟨d', targets, queue'⟩ := by
  cases target with
  | none => exact .inr ⟨_, d, queue, by rw [placeAll], .skip (by simp)⟩
  | some s =>
    rw [placeAll]
    by_cases hs : s.isEmpty = true
    · rw [if_pos hs]
      exact .inr ⟨_, d, queue, rfl, .skip fun t ht => Option.some.inj ht ▸ hs⟩
    · rw [if_neg hs]
      have hs : s.isEmpty = false := Bool.eq_false_iff.2 hs
      cases hplace : d.place s with
      | error e => exact .inl ⟨e, rfl, s, targets, rfl, hs, hplace⟩
      | ok placed =>
        obtain ⟨i, d'⟩ := placed
        rcases Discovery.place_cases hplace with ⟨hi, rfl⟩ | ⟨hnew, -, -⟩
        · exact .inr ⟨_, _, queue, rfl, .known hs (Array.mem_of_getElem? hi)⟩
        · exact .inr ⟨_, _, queue ++ [i], rfl, .new hs hnew hplace⟩

/-- The targets of a state are placed in a run that takes no further state. -/
theorem exists_run_placeAll {row row' : Array (Option Nat)}
    (h : placeAll targets row d = .ok (row', d')) :
    ∃ queue', Run moves count ⟨d, targets, queue⟩ [] ⟨d', [], queue'⟩ := by
  induction targets generalizing row d queue with
  | nil =>
    obtain ⟨rfl, rfl⟩ := Prod.mk.inj (Except.ok.inj h)
    exact ⟨queue, .refl _⟩
  | cons target rest ih =>
    obtain ⟨e, he, -⟩ | ⟨row₁, d₁, queue₁, hrest, hstep⟩ := placeAll_cons target row
    · rw [he] at h
      cases h
    · obtain ⟨queue', hrun⟩ := ih (hrest.symm.trans h)
      exact ⟨queue', .head hstep hrun⟩

/-- Where the targets of a state cannot all be placed, a run leads to one that has no place. -/
theorem exists_run_of_placeAll_eq_error {row : Array (Option Nat)} {e : Error}
    (h : placeAll targets row d = .error e) :
    ∃ w, Run moves count ⟨d, targets, queue⟩ [] w ∧ w.FailsWith e := by
  induction targets generalizing row d queue with
  | nil => cases h
  | cons target rest ih =>
    obtain ⟨e', he, hfails⟩ | ⟨row₁, d₁, queue₁, hrest, hstep⟩ := placeAll_cons target row
    · obtain rfl := Except.error.inj (h.symm.trans he)
      exact ⟨_, .refl _, hfails⟩
    · obtain ⟨w, hrun, hfails⟩ := ih (hrest.symm.trans h)
      exact ⟨w, .head hstep hrun, hfails⟩

/-- The states that have been taken and those that wait are all that are found, in the order of
their numbers. -/
def InOrder (taken : List Nat) (w : Search limits) : Prop :=
  taken ++ w.queue = List.range w.found.states.size

theorem InOrder.step (h : InOrder taken w) (hstep : Step moves count w taken' w') :
    InOrder (taken ++ taken') w' := by
  cases hstep with
  | take => simpa [InOrder] using h
  | skip => simpa [InOrder] using h
  | known => simpa [InOrder] using h
  | @new d d' s i targets queue hs hnew hplace =>
    rcases Discovery.place_cases hplace with ⟨hi, rfl⟩ | ⟨-, rfl, hstates⟩
    · exact absurd (Array.mem_of_getElem? hi) hnew
    · have h : taken ++ queue = List.range d.states.size := h
      show taken ++ [] ++ (queue ++ [d.states.size]) = List.range d'.states.size
      rw [List.append_nil, ← List.append_assoc, h, hstates, Array.size_push, List.range_succ]

theorem InOrder.run (h : InOrder taken w) (hrun : Run moves count w taken' w') :
    InOrder (taken ++ taken') w' := by
  induction hrun generalizing taken with
  | refl w => rwa [List.append_nil]
  | head hstep _ ih =>
    rw [← List.append_assoc]
    exact ih (h.step hstep)

theorem inOrder_start (s : PositionSet) : InOrder [] (start s : Search limits) :=
  rfl

/-- If a state waits, the first one that does is the next after those that have been taken. -/
theorem InOrder.queue_eq {n : Nat} (h : InOrder (List.range n) w)
    (hn : n < w.found.states.size) : ∃ queue, w.queue = n :: queue := by
  have hget : w.queue[0]? = some n := by
    have := congrArg (·[n]?) h
    simpa [List.getElem?_append_right, hn] using this
  cases hq : w.queue with
  | nil => simp [hq] at hget
  | cons i queue =>
    obtain rfl : i = n := by simpa [hq] using hget
    exact ⟨queue, rfl⟩

/-- The exploration is a run: it takes the states from the queue, and it ends when none is left or
when there is no place for a target. -/
theorem exists_run_explore {rows : Array (Array (Option Nat))}
    (h : InOrder (List.range rows.size) ⟨d, [], queue⟩) :
    ∃ taken w, Run moves count ⟨d, [], queue⟩ taken w ∧
      w.EndsIn ((explore moves count d rows).map (·.1.states)) := by
  fun_induction explore moves count d rows generalizing queue with
  | case1 d rows hlt e hplace =>
    obtain ⟨rest, rfl⟩ := h.queue_eq hlt
    obtain ⟨w, hrun, hfails⟩ := exists_run_of_placeAll_eq_error hplace
    exact ⟨_, w, .head (.take (Array.getElem?_eq_getElem hlt)) hrun, hfails⟩
  | case2 d rows hlt row later hplace ih =>
    obtain ⟨rest, rfl⟩ := h.queue_eq hlt
    obtain ⟨queue', hrun⟩ := exists_run_placeAll hplace
    have hround := Run.head (.take (Array.getElem?_eq_getElem hlt)) hrun
    have horder : InOrder (List.range (rows.push row).size) ⟨later, [], queue'⟩ := by
      rw [Array.size_push, List.range_succ]
      exact h.run hround
    obtain ⟨taken, w, hrest, hend⟩ := ih horder
    exact ⟨_, w, hround.trans hrest, hend⟩
  | case3 d rows hge =>
    refine ⟨[], _, .refl _, ?_⟩
    have hlen := congrArg List.length h
    obtain rfl : queue = [] := by
      refine List.eq_nil_of_length_eq_zero ?_
      simp only [List.length_append, List.length_range] at hlen
      omega
    exact ⟨rfl, rfl, rfl⟩

/-! ## What is found -/

/-- Only sets that are met from the first one are found, and at least one is. -/
structure Sound (moves : Array Move) (count : Nat) (s : PositionSet) (w : Search limits) :
    Prop where
  pos : 0 < w.found.states.size
  met : ∀ t ∈ w.found.states, Met moves count s t
  met_of_target : ∀ t, some t ∈ w.targets → t.isEmpty = false → Met moves count s t

variable {s : PositionSet}

theorem sound_start : Sound moves count s (start s : Search limits) where
  pos := Nat.one_pos
  met t ht := by
    obtain rfl := Discovery.eq_of_mem_start ht
    exact .start
  met_of_target t ht := by cases ht

theorem Sound.step (h : w.Sound moves count s) (hstep : Step moves count w taken w') :
    w'.Sound moves count s := by
  cases hstep with
  | @take d i t queue hi =>
    refine ⟨h.pos, h.met, fun u hu hne => ?_⟩
    obtain ⟨c, hc⟩ := List.mem_iff_getElem?.1 hu
    rw [Array.getElem?_toList] at hc
    exact .step (h.met t (Array.mem_of_getElem? hi)) hc hne
  | skip => exact ⟨h.pos, h.met, fun t ht => h.met_of_target t (List.mem_cons_of_mem _ ht)⟩
  | known => exact ⟨h.pos, h.met, fun t ht => h.met_of_target t (List.mem_cons_of_mem _ ht)⟩
  | @new d d' t i targets queue ht hnew hplace =>
    rcases Discovery.place_cases hplace with ⟨hi, -⟩ | ⟨-, -, hstates⟩
    · exact absurd (Array.mem_of_getElem? hi) hnew
    refine ⟨?_, fun u hu => ?_, fun u hu => h.met_of_target u (List.mem_cons_of_mem _ hu)⟩
    · show 0 < d'.states.size
      rw [hstates, Array.size_push]
      exact Nat.succ_pos _
    · have hu : u ∈ d'.states := hu
      rw [hstates] at hu
      rcases Array.mem_push.1 hu with hu | rfl
      · exact h.met u hu
      · exact h.met_of_target u List.mem_cons_self ht

theorem Sound.run (h : w.Sound moves count s) (hrun : Run moves count w taken w') :
    w'.Sound moves count s := by
  induction hrun with
  | refl w => exact h
  | head hstep _ ih => exact ih (h.step hstep)

/-- Where there is no place for a target, there are as many sets as allowed, and the target is one
more that is met. -/
theorem Sound.failsWith {e : Error} (h : w.Sound moves count s) (hfails : w.FailsWith e) :
    ∃ t, Met moves count s t ∧ t ∉ w.found.states ∧
      w.found.states.size = max 1 limits.states ∧
      e = .overLimit .states (max 1 limits.states + 1) limits.states := by
  obtain ⟨t, targets, htargets, hne, hplace⟩ := hfails
  obtain ⟨hnew, hfull, he⟩ := Discovery.place_eq_error hplace
  have hsize : w.found.states.size = max 1 limits.states := by
    have := h.pos
    have := w.found.size_le
    omega
  refine ⟨t, h.met_of_target t ?_ hne, hnew, hsize, hsize ▸ he⟩
  rw [htargets]
  exact List.mem_cons_self

end Search

end ElementContent
