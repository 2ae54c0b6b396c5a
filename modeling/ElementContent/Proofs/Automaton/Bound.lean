import ElementContent.Proofs.Automaton.Exploration
import Mathlib.Algebra.Group.Nat.Defs
import Mathlib.Data.List.Perm.Subperm

/-!
# How many states there can be

The states are distinct sets of positions and of the end mark, so with `n` positions there are at
most `2 ^ (n + 1)` of them. A limit that is no lower than that is never met.

- `PositionSet.Below`: a set with members below a capacity, and room for it.
- `Discovery.size_le_of_below`: there are at most as many states as such sets.
- `exists_explore`: with room for all sets, the exploration does not fail.
- `Automaton.exists_ofAnalysis`: with room for all sets, an analysis has an automaton.
-/

namespace ElementContent

/-- The members are below the capacity, and there is room for the capacity. -/
structure PositionSet.Below (capacity : Nat) (s : PositionSet) : Prop where
  words_eq : s.words = (capacity + 63) / 64
  lt_of_contains : ∀ p, s.contains p = true → p < capacity

theorem PositionSet.Below.bits_lt {capacity : Nat} {s : PositionSet} (h : s.Below capacity) :
    s.bits < 2 ^ capacity := by
  refine Nat.lt_pow_two_of_testBit _ ?_
  intro p hp
  rw [← Bool.not_eq_true]
  exact fun hmem => Nat.not_lt.2 hp (h.lt_of_contains p hmem)

namespace Discovery

variable {limits : Limits} {capacity : Nat}

/-- Distinct sets below a capacity are no more than there are numbers of so many bits. -/
theorem length_le_of_below {l : List PositionSet} (hnodup : l.Nodup)
    (h : ∀ s ∈ l, s.Below capacity) : l.length ≤ 2 ^ capacity := by
  have hbits : (l.map (·.bits)).Nodup := by
    refine hnodup.map_on ?_
    intro s hs t ht hst
    have hw : s.words = t.words := (h s hs).words_eq.trans (h t ht).words_eq.symm
    refine PositionSet.ext_contains hw ?_
    intro p
    rw [PositionSet.contains, hst, PositionSet.contains]
  have hsub : l.map (·.bits) ⊆ List.range (2 ^ capacity) := by
    intro b hb
    obtain ⟨s, hs, rfl⟩ := List.mem_map.1 hb
    exact List.mem_range.2 (h s hs).bits_lt
  have := (List.subperm_of_subset hbits hsub).length_le
  rwa [List.length_map, List.length_range] at this

/-- A set below the capacity has a place if there is room for all such sets. -/
theorem exists_place {d : Discovery limits} {s : PositionSet} (hroom : 2 ^ capacity ≤ limits.states)
    (hd : ∀ t ∈ d.states, t.Below capacity) (hs : s.Below capacity) :
    ∃ placed, d.place s = .ok placed := by
  unfold place
  split
  · exact ⟨_, rfl⟩
  · next hnew =>
    have hfresh : s ∉ d.states.toList := by
      intro hmem
      obtain ⟨i, hi⟩ := List.mem_iff_getElem?.1 hmem
      rw [Array.getElem?_toList, ← d.index_iff, hnew] at hi
      cases hi
    -- with the new one, the states are still distinct sets below the capacity
    have hlen : (s :: d.states.toList).length ≤ 2 ^ capacity := by
      refine length_le_of_below (List.nodup_cons.2 ⟨hfresh, d.nodup_states⟩) ?_
      intro t ht
      rcases List.mem_cons.1 ht with rfl | ht
      · exact hs
      · exact hd t (Array.mem_toList_iff.1 ht)
    have hcheck : limits.check .states (d.states.size + 1) = .ok () := by
      rw [Limits.check_eq_ok_iff]
      exact Nat.le_trans (by simpa using hlen) hroom
    split
    · next e he =>
      rw [hcheck] at he
      cases he
    · exact ⟨_, rfl⟩

end Discovery

variable {limits : Limits} {capacity : Nat}

theorem exists_placeAll {targets : List (Option PositionSet)} (row : Array (Option Nat))
    {d : Discovery limits} (hroom : 2 ^ capacity ≤ limits.states)
    (hd : ∀ t ∈ d.states, t.Below capacity) (ht : ∀ t, some t ∈ targets → t.Below capacity) :
    ∃ placed, placeAll targets row d = .ok placed := by
  induction targets generalizing row d with
  | nil => exact ⟨_, rfl⟩
  | cons target rest ih =>
    have hrest : ∀ t, some t ∈ rest → t.Below capacity :=
      fun t hmem => ht t (List.mem_cons_of_mem _ hmem)
    cases target with
    | none => exact ih _ hd hrest
    | some s =>
      unfold placeAll
      by_cases hs : s.isEmpty = true
      · rw [if_pos hs]
        exact ih _ hd hrest
      · rw [if_neg hs]
        have hbelow := ht s List.mem_cons_self
        obtain ⟨⟨i, d'⟩, hplace⟩ := Discovery.exists_place hroom hd hbelow
        obtain ⟨-, -, hnew⟩ := Discovery.place_eq_ok hplace
        rw [hplace]
        refine ih _ (fun t hmem => ?_) hrest
        rcases hnew t hmem with hmem | rfl
        · exact hd t hmem
        · exact hbelow

/-- The exploration of sets below the capacity does not fail if there is room for all of them. -/
theorem exists_explore {moves : Array Move} {count : Nat} {d : Discovery limits}
    (rows : Array (Array (Option Nat))) (hroom : 2 ^ capacity ≤ limits.states)
    (hmoves : ∀ s t, some t ∈ (successors moves count s).toList → t.Below capacity)
    (hd : ∀ t ∈ d.states, t.Below capacity) :
    ∃ explored, explore moves count d rows = .ok explored := by
  fun_induction explore moves count d rows with
  | case1 d rows hlt e hplace =>
    obtain ⟨placed, hok⟩ := exists_placeAll #[] hroom hd (hmoves d.states[rows.size])
    rw [hplace] at hok
    cases hok
  | case2 d rows hlt row later hplace ih =>
    obtain ⟨-, -, -, -, hnew⟩ := placeAll_eq_ok hplace
    refine ih ?_
    intro t ht
    rcases hnew t ht with ht | ⟨ht, -⟩
    · exact hd t ht
    · exact hmoves _ t ht
  | case3 d rows hge => exact ⟨_, rfl⟩

variable {t : Tree} {a : Analysis}

theorem Analysis.lt_of_occurs_ended (h : a.IsExact t) {q : Nat} (hq : (a.ended t).Occurs q) :
    q < a.leaves.size + 1 := by
  rcases Language.occurs_append hq with hq | hq
  · obtain ⟨leaf, hleaf⟩ := h.exists_leaf hq
    exact Nat.lt_succ_of_lt (Array.getElem?_eq_some_iff.1 hleaf).1
  · exact Language.occurs_letter.1 hq ▸ Nat.lt_succ_self _

/-- An analysis has an automaton if there is room for all sets of its positions and of the end. -/
theorem Automaton.exists_ofAnalysis (h : a.IsExact t)
    (hroom : 2 ^ (a.leaves.size + 1) ≤ limits.states) :
    ∃ m, Automaton.ofAnalysis a limits = .ok m := by
  let classes := alphabet (a.leaves.toList.map (·.term))
  have hstart : ∀ s ∈ (Discovery.start a.startSet : Discovery limits).states,
      s.Below (a.leaves.size + 1) := by
    intro s hs
    obtain rfl := Discovery.eq_of_mem_start hs
    refine ⟨Analysis.words_startSet, ?_⟩
    intro q hq
    exact Analysis.lt_of_occurs_ended h ((Analysis.contains_startSet h q).1 hq).occurs
  have hmoves : ∀ s target, some target ∈
      (successors (a.moves classes) classes.length s).toList →
      target.Below (a.leaves.size + 1) := by
    intro s target hmem
    have hdesc := describes_successors h classes s
    obtain ⟨c, hc⟩ := List.mem_iff_getElem?.1 hmem
    rw [Array.getElem?_toList] at hc
    refine ⟨hdesc.words_eq hc, ?_⟩
    intro q hq
    have hlt : c < classes.length := hdesc.size_eq ▸ (Array.getElem?_eq_some_iff.1 hc).1
    obtain ⟨p, leaf, cls, -, -, -, -, hpq⟩ := (hdesc.holds_iff hlt q).1 ⟨target, hc, hq⟩
    exact Analysis.lt_of_occurs_ended h hpq.occurs_right
  obtain ⟨⟨d, rows⟩, hexplore⟩ := exists_explore #[] hroom hmoves hstart
  refine ⟨⟨a.leaves, classes, d.states, rows⟩, ?_⟩
  unfold ofAnalysis
  simp only [hexplore, classes]

end ElementContent
