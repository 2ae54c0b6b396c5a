import ElementContent.Proofs.Automaton.Successors
import Mathlib.Data.List.Forall2
import Mathlib.Data.List.Nodup

/-!
# What the exploration finds

The exploration numbers the sets it meets and never renumbers one, so a row that was right when it
was made stays right while further sets are met. When every set has its row, the sets are closed
under steps, and each was met by steps from the first.

- `Keeps`: a list of sets has grown and kept its numbers.
- `LeadsTo`: the entry of a row that is right for a target.
- `Explored`: the invariant of the exploration; `explored_placeAll` is one round of it and
  `explored_explore` the whole run.
- `Explored.mem_of_met`: when the exploration is done, every set that is met is a state.
- `Automaton.IsExplored`: what is known of the automaton of an analysis.
-/

namespace ElementContent

/-- Every set is still there, at its old number. -/
def Keeps (xs ys : Array PositionSet) : Prop :=
  ∀ ⦃i : Nat⦄ ⦃s : PositionSet⦄, xs[i]? = some s → ys[i]? = some s

theorem Keeps.refl (xs : Array PositionSet) : Keeps xs xs :=
  fun _ _ h => h

theorem Keeps.trans {xs ys zs : Array PositionSet} (h : Keeps xs ys) (h' : Keeps ys zs) :
    Keeps xs zs :=
  fun _ _ hs => h' (h hs)

theorem Keeps.eq_of_lt {xs ys : Array PositionSet} (h : Keeps xs ys) {i : Nat} (hi : i < xs.size)
    {s : PositionSet} (hs : ys[i]? = some s) : xs[i]? = some s := by
  have hx := Array.getElem?_eq_getElem hi
  rw [hx, ← h hx, hs]

theorem keeps_push (xs : Array PositionSet) (s : PositionSet) : Keeps xs (xs.push s) := by
  intro i t h
  rw [Array.getElem?_push_lt (Array.getElem?_eq_some_iff.1 h).1]
  obtain ⟨hi, rfl⟩ := Array.getElem?_eq_some_iff.1 h
  rfl

/-- A target with members stands among the states at the number of the entry. There is no entry for
one without members, or where there is no target at all. -/
inductive LeadsTo (states : Array PositionSet) : Option PositionSet → Option Nat → Prop
  | nowhere {target : Option PositionSet} :
    (∀ s, target = some s → s.isEmpty = true) → LeadsTo states target none
  | state {s : PositionSet} {i : Nat} :
    s.isEmpty = false → states[i]? = some s → LeadsTo states (some s) (some i)

theorem LeadsTo.mono {xs ys : Array PositionSet} (hk : Keeps xs ys) {target : Option PositionSet}
    {entry : Option Nat} (h : LeadsTo xs target entry) : LeadsTo ys target entry := by
  cases h with
  | nowhere h => exact .nowhere h
  | state hs hi => exact .state hs (hk hi)

/-! ## One row -/

variable {limits : Limits}

theorem Discovery.nodup_states (d : Discovery limits) : d.states.toList.Nodup := by
  refine List.nodup_iff_getElem?_ne_getElem?.2 fun i j hij hj heq => ?_
  have hlt : j < d.states.size := by simpa using hj
  rw [Array.getElem?_toList, Array.getElem?_toList, Array.getElem?_eq_getElem hlt] at heq
  have hi := (d.index_iff _ i).2 heq
  have hj := (d.index_iff _ j).2 (Array.getElem?_eq_getElem hlt)
  have := Option.some.inj (hi.symm.trans hj)
  omega

theorem Discovery.eq_of_mem_start {s t : PositionSet}
    (h : t ∈ (start s : Discovery limits).states) : t = s := by
  simpa [start] using h

/-- A set that is placed stands at its number, and nothing else is new. -/
theorem Discovery.place_eq_ok {d d' : Discovery limits} {s : PositionSet} {i : Nat}
    (h : d.place s = .ok (i, d')) :
    d'.states[i]? = some s ∧ Keeps d.states d'.states ∧ ∀ t ∈ d'.states, t ∈ d.states ∨ t = s := by
  unfold place at h
  split at h
  · next j hj =>
    obtain ⟨rfl, rfl⟩ := Prod.mk.inj (Except.ok.inj h)
    exact ⟨(d.index_iff s j).1 hj, .refl _, fun t ht => .inl ht⟩
  · split at h
    · cases h
    · obtain ⟨rfl, rfl⟩ := Prod.mk.inj (Except.ok.inj h)
      refine ⟨Array.getElem?_push_size, keeps_push _ s, fun t ht => ?_⟩
      exact Array.mem_push.1 ht

/-- One round: each target gets the right entry behind the row, and only targets with members are
new. -/
theorem placeAll_eq_ok {targets : List (Option PositionSet)} {row row' : Array (Option Nat)}
    {d d' : Discovery limits} (h : placeAll targets row d = .ok (row', d')) :
    ∃ entries, row'.toList = row.toList ++ entries ∧
      List.Forall₂ (LeadsTo d'.states) targets entries ∧ Keeps d.states d'.states ∧
      ∀ t ∈ d'.states, t ∈ d.states ∨ some t ∈ targets ∧ t.isEmpty = false := by
  induction targets generalizing row d with
  | nil =>
    obtain ⟨rfl, rfl⟩ := Prod.mk.inj (Except.ok.inj h)
    exact ⟨[], by simp, .nil, .refl _, fun t ht => .inl ht⟩
  | cons target rest ih =>
    -- a target that leads nowhere gets no entry and leaves the sets as they are
    have hskip : ∀ {d : Discovery limits}, placeAll rest (row.push none) d = .ok (row', d') →
        (∀ s, target = some s → s.isEmpty = true) →
        ∃ entries, row'.toList = row.toList ++ entries ∧
          List.Forall₂ (LeadsTo d'.states) (target :: rest) entries ∧ Keeps d.states d'.states ∧
          ∀ t ∈ d'.states, t ∈ d.states ∨ some t ∈ target :: rest ∧ t.isEmpty = false := by
      intro d h htarget
      obtain ⟨entries, hrow, hentries, hk, hnew⟩ := ih h
      refine ⟨none :: entries, by simp [hrow], .cons (.nowhere htarget) hentries, hk, ?_⟩
      intro t ht
      exact (hnew t ht).imp_right fun hmem => ⟨List.mem_cons_of_mem _ hmem.1, hmem.2⟩
    cases target with
    | none => exact hskip h (by simp)
    | some s =>
      unfold placeAll at h
      by_cases hs : s.isEmpty = true
      · rw [if_pos hs] at h
        exact hskip h fun t ht => Option.some.inj ht ▸ hs
      · rw [if_neg hs] at h
        have hs : s.isEmpty = false := Bool.eq_false_iff.2 hs
        cases hplace : d.place s with
        | error e => simp [hplace] at h
        | ok placed =>
          obtain ⟨i, d₁⟩ := placed
          rw [hplace] at h
          obtain ⟨hi, hk₁, hnew₁⟩ := Discovery.place_eq_ok hplace
          obtain ⟨entries, hrow, hentries, hk, hnew⟩ := ih h
          refine ⟨some i :: entries, by simp [hrow], .cons (.state hs (hk hi)) hentries,
            hk₁.trans hk, fun t ht => ?_⟩
          rcases hnew t ht with ht | ⟨ht, hne⟩
          · rcases hnew₁ t ht with ht | rfl
            · exact .inl ht
            · exact .inr ⟨List.mem_cons_self, hs⟩
          · exact .inr ⟨List.mem_cons_of_mem _ ht, hne⟩

/-! ## The whole run -/

/-- The sets that are met from the first one, by steps that lead to some position. -/
inductive Met (moves : Array Move) (count : Nat) (start : PositionSet) : PositionSet → Prop
  | start : Met moves count start start
  | step {s t : PositionSet} {c : Nat} : Met moves count start s →
    (successors moves count s)[c]? = some (some t) → t.isEmpty = false → Met moves count start t

/-- The invariant of the exploration: there is no row without its state, the rows are right, and
every state was met. -/
structure Explored (moves : Array Move) (count : Nat) (start : PositionSet)
    (states : Array PositionSet) (rows : Array (Array (Option Nat))) : Prop where
  first : states[0]? = some start
  size_le : rows.size ≤ states.size
  row : ∀ {i : Nat} {r : Array (Option Nat)} {s : PositionSet}, rows[i]? = some r →
    states[i]? = some s → List.Forall₂ (LeadsTo states) (successors moves count s).toList r.toList
  met : ∀ s ∈ states, Met moves count start s

variable {moves : Array Move} {count : Nat} {start : PositionSet}

/-- At the beginning there is one state, and no row. -/
theorem explored_start (s : PositionSet) :
    Explored moves count s (Discovery.start s : Discovery limits).states #[] := by
  refine ⟨rfl, Nat.zero_le _, fun hr => by simp at hr, ?_⟩
  intro t ht
  obtain rfl := Discovery.eq_of_mem_start ht
  exact .start

/-- One more state gets its row. -/
theorem explored_placeAll {d d' : Discovery limits} {rows : Array (Array (Option Nat))}
    {row : Array (Option Nat)} (he : Explored moves count start d.states rows)
    (h : rows.size < d.states.size)
    (hplace : placeAll (successors moves count d.states[rows.size]).toList #[] d = .ok (row, d')) :
    Explored moves count start d'.states (rows.push row) := by
  obtain ⟨entries, hrow, hentries, hk, hnew⟩ := placeAll_eq_ok hplace
  have hcur := Array.getElem?_eq_getElem h
  have hsize : d.states.size ≤ d'.states.size := by
    refine Nat.le_of_not_lt ?_
    intro hlt
    have := hk (Array.getElem?_eq_getElem hlt)
    simp at this
  refine ⟨hk he.first, by rw [Array.size_push]; omega, fun {i r s} hr hs => ?_, fun t ht => ?_⟩
  · -- the row is the new one, or an earlier one, which stays right as the sets grow
    rw [Array.getElem?_push] at hr
    by_cases hi : i = rows.size
    · subst hi
      rw [if_pos rfl] at hr
      obtain rfl := Option.some.inj hr
      obtain rfl := Option.some.inj ((hk hcur).symm.trans hs)
      rw [hrow]
      exact hentries
    · rw [if_neg hi] at hr
      have hlt := (Array.getElem?_eq_some_iff.1 hr).1
      have hs := hk.eq_of_lt (Nat.lt_trans hlt h) hs
      exact (he.row hr hs).imp fun _ _ hle => hle.mono hk
  · rcases hnew t ht with ht | ⟨ht, hne⟩
    · exact he.met t ht
    · obtain ⟨c, hc⟩ := List.mem_iff_getElem?.1 ht
      rw [Array.getElem?_toList] at hc
      exact .step (he.met _ (Array.getElem_mem h)) hc hne

/-- When the exploration is done, every state has a row. -/
theorem explored_explore {d d' : Discovery limits} {rows rows' : Array (Array (Option Nat))}
    (he : Explored moves count start d.states rows)
    (h : explore moves count d rows = .ok (d', rows')) :
    Explored moves count start d'.states rows' ∧ rows'.size = d'.states.size := by
  fun_induction explore moves count d rows with
  | case1 d rows hlt e hplace => cases h
  | case2 d rows hlt row later hplace ih => exact ih (explored_placeAll he hlt hplace) h
  | case3 d rows hge =>
    obtain ⟨rfl, rfl⟩ := Prod.mk.inj (Except.ok.inj h)
    exact ⟨he, Nat.le_antisymm he.size_le (Nat.le_of_not_lt hge)⟩

/-- A row has an entry for each target. -/
theorem Explored.size_row {states : Array PositionSet} {rows : Array (Array (Option Nat))}
    (he : Explored moves count start states rows) {i : Nat} {r : Array (Option Nat)}
    {s : PositionSet} (hr : rows[i]? = some r) (hs : states[i]? = some s) :
    r.size = (successors moves count s).size := by
  have hlen := (he.row hr hs).length_eq
  rw [Array.length_toList, Array.length_toList] at hlen
  exact hlen.symm

/-- At the end, the entry of a state and a class is right for the target. -/
theorem Explored.entry {states : Array PositionSet} {rows : Array (Array (Option Nat))}
    (he : Explored moves count start states rows) (hdone : rows.size = states.size) {i c : Nat}
    {s : PositionSet} (hs : states[i]? = some s) (hc : c < (successors moves count s).size) :
    ∃ r target entry, rows[i]? = some r ∧ r[c]? = some entry ∧
      (successors moves count s)[c]? = some target ∧ LeadsTo states target entry := by
  have hi : i < rows.size := hdone ▸ (Array.getElem?_eq_some_iff.1 hs).1
  have hr := Array.getElem?_eq_getElem hi
  have hrow := he.row hr hs
  have hc' : c < rows[i].size := he.size_row hr hs ▸ hc
  exact ⟨_, _, _, hr, Array.getElem?_eq_getElem hc', Array.getElem?_eq_getElem hc,
    hrow.get (by simpa using hc) (by simpa using hc')⟩

/-- Every set that is met is a state. -/
theorem Explored.mem_of_met {states : Array PositionSet} {rows : Array (Array (Option Nat))}
    (he : Explored moves count start states rows) (hdone : rows.size = states.size)
    {s : PositionSet} (hs : Met moves count start s) : s ∈ states := by
  induction hs with
  | start => exact Array.mem_of_getElem? he.first
  | step hs hc hne ih =>
    obtain ⟨i, hi⟩ := Array.mem_iff_getElem?.1 ih
    obtain ⟨-, target, entry, -, -, htarget, hleads⟩ :=
      he.entry hdone hi (Array.getElem?_eq_some_iff.1 hc).1
    obtain rfl := Option.some.inj (hc.symm.trans htarget)
    cases hleads with
    | nowhere hempty =>
      rw [hempty _ rfl] at hne
      cases hne
    | state _ hstate => exact Array.mem_of_getElem? hstate

/-! ## The automaton -/

theorem Automaton.next?_eq_some_iff {m : Automaton} {i c j : Nat} :
    m.next? i c = some j ↔ ∃ r, m.rows[i]? = some r ∧ r[c]? = some (some j) := by
  simp [next?, Option.bind_eq_some_iff]

/-- The sets that classes lead to from the first one. -/
inductive Analysis.Reached (a : Analysis) (t : Tree) (classes : List InputClass) :
    PositionSet → Prop
  | start : Reached a t classes a.startSet
  | step {s target : PositionSet} {c : Nat} : Reached a t classes s →
    (∀ q, target.contains q = true ↔ a.Leads t classes s c q) →
    (∃ q, target.contains q = true) → Reached a t classes target

/-- What is known of the automaton of an analysis: a step leads to the state of all positions that
the class leads to, there is none only where there are no such positions, and every state is reached
by steps. -/
structure Automaton.IsExplored (t : Tree) (a : Analysis) (m : Automaton) : Prop where
  leaves_eq : m.leaves = a.leaves
  classes_eq : m.classes = alphabet (a.leaves.toList.map (·.term))
  start : m.states[0]? = some a.startSet
  next_some : ∀ {i j c : Nat} {s : PositionSet}, m.states[i]? = some s → m.next? i c = some j →
    ∃ target, m.states[j]? = some target ∧
      ∀ q, target.contains q = true ↔ a.Leads t m.classes s c q
  next_none : ∀ {i c : Nat} {s : PositionSet}, m.states[i]? = some s → c < m.classes.length →
    m.next? i c = none → ∀ q, ¬ a.Leads t m.classes s c q
  reached : ∀ s ∈ m.states, a.Reached t m.classes s

/-- A step that leads to some position goes to the set of all positions that the class leads to. -/
theorem Met.reached {t : Tree} {a : Analysis} (h : a.IsExact t) {classes : List InputClass}
    {s : PositionSet} (hs : Met (a.moves classes) classes.length a.startSet s) :
    a.Reached t classes s := by
  induction hs with
  | start => exact .start
  | @step s target c _ hc hne ih =>
    have hdesc := describes_successors h classes s
    have hlt : c < classes.length := hdesc.size_eq ▸ (Array.getElem?_eq_some_iff.1 hc).1
    refine .step (c := c) ih (fun q => ?_) (PositionSet.exists_contains_of_not_isEmpty hne)
    rw [← hdesc.holds_iff hlt, hc]
    simp

/-- The states and rows of the automaton of an analysis are those that the exploration ends with,
and the states are distinct. -/
theorem Automaton.explored_ofAnalysis {a : Analysis} {m : Automaton}
    (hm : Automaton.ofAnalysis a limits = .ok m) :
    Explored (a.moves m.classes) m.classes.length a.startSet m.states m.rows ∧
      m.rows.size = m.states.size ∧ m.states.toList.Nodup := by
  let classes := alphabet (a.leaves.toList.map (·.term))
  unfold ofAnalysis at hm
  simp only at hm
  split at hm
  · cases hm
  next d rows hexplore =>
  obtain rfl := Except.ok.inj hm
  obtain ⟨he, hdone⟩ := explored_explore (explored_start a.startSet) hexplore
  exact ⟨he, hdone, d.nodup_states⟩

/-- What the automaton of an analysis has from the analysis alone. -/
theorem Automaton.leaves_and_classes_ofAnalysis {a : Analysis} {m : Automaton}
    (hm : Automaton.ofAnalysis a limits = .ok m) :
    m.leaves = a.leaves ∧ m.classes = alphabet (a.leaves.toList.map (·.term)) := by
  unfold ofAnalysis at hm
  simp only at hm
  split at hm
  · cases hm
  · rw [← Except.ok.inj hm]
    exact ⟨rfl, rfl⟩

/-- The automaton of an analysis is explored. -/
theorem Automaton.isExplored_ofAnalysis {t : Tree} {a : Analysis} (h : a.IsExact t)
    {m : Automaton} (hm : Automaton.ofAnalysis a limits = .ok m) : m.IsExplored t a := by
  obtain ⟨hleaves, hclasses⟩ := leaves_and_classes_ofAnalysis hm
  obtain ⟨he, hdone, -⟩ := explored_ofAnalysis hm
  refine ⟨hleaves, hclasses, he.first, fun {i j c s} hs hnext => ?_,
    fun {i c s} hs hc hnext q => ?_, fun s hs => (he.met s hs).reached h⟩
  · -- a step that there is
    have hsize := (describes_successors h m.classes s).size_eq
    obtain ⟨r, hr, hj⟩ := next?_eq_some_iff.1 hnext
    have hc := he.size_row hr hs ▸ (Array.getElem?_eq_some_iff.1 hj).1
    obtain ⟨r', target, entry, hr', hentry, htarget, hlead⟩ := he.entry hdone hs hc
    obtain rfl := Option.some.inj (hr.symm.trans hr')
    obtain rfl := Option.some.inj (hj.symm.trans hentry)
    cases hlead with
    | state _ hstate =>
      refine ⟨_, hstate, ?_⟩
      intro q
      rw [← (describes_successors h m.classes s).holds_iff (hsize ▸ hc), htarget]
      simp
  · -- a step that is missing
    have hsize := (describes_successors h m.classes s).size_eq
    obtain ⟨r, target, entry, hr, hentry, htarget, hlead⟩ := he.entry hdone hs (hsize.symm ▸ hc)
    have hno : entry = none := by
      have : (do let row ← m.rows[i]?; let entry ← row[c]?; entry) = none := hnext
      simpa [hr, hentry] using this
    subst hno
    rw [← (describes_successors h m.classes s).holds_iff hc, htarget]
    rintro ⟨target', htarget', hq⟩
    cases hlead with
    | nowhere hempty =>
      have := PositionSet.isEmpty_iff.1 (hempty target' (Option.some.inj htarget')) q
      rw [hq] at this
      cases this

end ElementContent
