import ElementContent.Proofs.Automaton.Trim

/-!
# States come in the order of their distance

A set that is met for the first time takes the next number, and the states are taken in the order of
their numbers. So when a row has an entry, all numbers up to it have been given out by this row or by
those before it, and a state with a lower number is never farther from the first one: children that
lead to a state are no fewer than some children that lead to the state before it.

- `MetInOrder`: each row, with those before it, holds all numbers up to its entries;
  `metInOrder_placeAll` is one round of the exploration, and `metInOrder_explore` the whole of it.
- `Automaton.step?_eq_some_iff`: a child leads to the states that its class has in the row.
- `Automaton.exists_run_of_le`: a state with a lower number is no farther from the first one.
-/

namespace ElementContent

/-- The state stands in the row of one of the first `n` states. -/
def StandsBefore (rows : Array (Array (Option Nat))) (n j : Nat) : Prop :=
  ∃ i row, i < n ∧ rows[i]? = some row ∧ some j ∈ row

/-- Every state but the first stands in some row, and each row, with those before it, holds all
states up to its entries. -/
structure MetInOrder (size : Nat) (rows : Array (Array (Option Nat))) : Prop where
  stands : ∀ j, 0 < j → j < size → StandsBefore rows rows.size j
  upTo : ∀ {i k : Nat} {row : Array (Option Nat)}, rows[i]? = some row → some k ∈ row →
    ∀ j, 0 < j → j ≤ k → StandsBefore rows (i + 1) j

section Exploration

variable {limits : Limits} {moves : Array Move} {count i j n : Nat} {start : PositionSet}
  {rows rows' : Array (Array (Option Nat))} {row row' : Array (Option Nat)}
  {d d' : Discovery limits} {targets : List (Option PositionSet)}

/-- Further rows change nothing in the rows before them. -/
theorem StandsBefore.push (h : StandsBefore rows n j) (row : Array (Option Nat)) :
    StandsBefore (rows.push row) n j := by
  obtain ⟨i, row', hi, hrow, hj⟩ := h
  have hlt := (Array.getElem?_eq_some_iff.1 hrow).1
  exact ⟨i, row', hi, by rw [Array.getElem?_push, if_neg (Nat.ne_of_lt hlt), hrow], hj⟩

theorem StandsBefore.mono {n' : Nat} (h : StandsBefore rows n j) (hn : n ≤ n') :
    StandsBefore rows n' j := by
  obtain ⟨i, row, hi, hrow⟩ := h
  exact ⟨i, row, Nat.lt_of_lt_of_le hi hn, hrow⟩

/-- The numbers that are given out while the targets of a state are placed stand in its row. -/
theorem mem_row_of_placeAll (h : placeAll targets row d = .ok (row', d'))
    (hj : d.states.size ≤ j) (hlt : j < d'.states.size) : some j ∈ row' := by
  induction targets generalizing row d with
  | nil =>
    obtain ⟨rfl, rfl⟩ := Prod.mk.inj (Except.ok.inj h)
    exact absurd hj (Nat.not_le.2 hlt)
  | cons target rest ih =>
    cases target with
    | none => exact ih h hj
    | some s =>
      unfold placeAll at h
      split at h
      · exact ih h hj
      · cases hplace : d.place s with
        | error e => simp [hplace] at h
        | ok placed =>
          obtain ⟨i, d₁⟩ := placed
          rw [hplace] at h
          rcases Discovery.place_cases hplace with ⟨-, rfl⟩ | ⟨-, rfl, hstates⟩
          · exact ih h hj
          · rcases Nat.eq_or_lt_of_le hj with rfl | hj
            · -- the number is that of the new set, and what is in the row stays there
              obtain ⟨entries, hrow, -⟩ := placeAll_eq_ok h
              rw [← Array.mem_toList_iff, hrow]
              simp
            · exact ih h (by rw [hstates, Array.size_push]; exact hj)

/-- What stands in the row of a state is the number of a state. -/
theorem lt_size_of_placeAll (h : placeAll targets #[] d = .ok (row, d')) {k : Nat}
    (hk : some k ∈ row) : k < d'.states.size := by
  have hlt : ∀ {target : Option PositionSet}, LeadsTo d'.states target (some k) →
      k < d'.states.size := by
    rintro _ (_ | ⟨-, hstate⟩)
    exact (Array.getElem?_eq_some_iff.1 hstate).1
  obtain ⟨entries, hrow, hentries, -⟩ := placeAll_eq_ok h
  rw [← Array.mem_toList_iff, hrow, List.nil_append] at hk
  obtain ⟨⟨c, hc⟩, hget⟩ := List.mem_iff_get.1 hk
  exact hlt (hget ▸ hentries.get (hentries.length_eq ▸ hc) hc)

/-- One more state gets its row. -/
theorem metInOrder_placeAll (h : MetInOrder d.states.size rows)
    (hplace : placeAll targets #[] d = .ok (row, d')) :
    MetInOrder d'.states.size (rows.push row) := by
  have hnew : (rows.push row)[rows.size]? = some row := Array.getElem?_push_size
  have hstands : ∀ j, 0 < j → j < d'.states.size →
      StandsBefore (rows.push row) (rows.size + 1) j := by
    intro j hpos hlt
    rcases Nat.lt_or_ge j d.states.size with hold | hge
    · exact ((h.stands j hpos hold).push row).mono (Nat.le_succ _)
    · exact ⟨rows.size, row, Nat.lt_succ_self _, hnew, mem_row_of_placeAll hplace hge hlt⟩
  refine ⟨fun j hpos hlt => by rw [Array.size_push]; exact hstands j hpos hlt, ?_⟩
  intro i k r hr hk j hpos hle
  rw [Array.getElem?_push] at hr
  split at hr
  · next hi =>
    subst hi
    obtain rfl := Option.some.inj hr
    exact hstands j hpos (Nat.lt_of_le_of_lt hle (lt_size_of_placeAll hplace hk))
  · exact (h.upTo hr hk j hpos hle).push row

/-- When the exploration is done, the states have been met in the order of their numbers. -/
theorem metInOrder_explore (h : MetInOrder d.states.size rows)
    (hexplore : explore moves count d rows = .ok (d', rows')) :
    MetInOrder d'.states.size rows' := by
  fun_induction explore moves count d rows with
  | case1 d rows hlt e hplace => cases hexplore
  | case2 d rows hlt row later hplace ih => exact ih (metInOrder_placeAll h hplace) hexplore
  | case3 d rows hge =>
    obtain ⟨rfl, rfl⟩ := Prod.mk.inj (Except.ok.inj hexplore)
    exact h

end Exploration

namespace Automaton

variable {t : Tree} {a : Analysis} {m : Automaton} {limits : Limits} {i j k : Nat}
  {w : List Symbol} {x : Symbol}

/-- The states of the automaton of an analysis have been met in the order of their numbers. -/
theorem metInOrder_ofAnalysis (hm : ofAnalysis a limits = .ok m) :
    MetInOrder m.states.size m.rows := by
  unfold ofAnalysis at hm
  simp only at hm
  split at hm
  · cases hm
  next d rows hexplore =>
  obtain rfl := Except.ok.inj hm
  refine metInOrder_explore ⟨fun j hpos hlt => ?_, fun hr => by simp at hr⟩ hexplore
  exact absurd hlt (Nat.not_lt.2 hpos)

/-- A child leads to the state that its class has in the row. -/
theorem step?_eq_some_iff : m.step? i x = some j ↔
    ∃ c row, m.classOf? x = some c ∧ m.rows[i]? = some row ∧ row[c]? = some (some j) := by
  simp only [step?, Option.bind_eq_bind, Option.bind_eq_some_iff, next?_eq_some_iff,
    exists_and_left]

/-- Some child leads to each state that stands in a row, if every class has a child. -/
theorem exists_step?_of_mem_row (h : a.IsExact t) (hm : ofAnalysis a limits = .ok m)
    (hchild : ∀ c ∈ alphabet (a.leaves.toList.map (·.term)),
      ∃ x, x.isReserved = false ∧ ClassOf (alphabet (a.leaves.toList.map (·.term))) x c)
    {row : Array (Option Nat)} (hrow : m.rows[i]? = some row) (hj : some j ∈ row) :
    ∃ x, m.step? i x = some j := by
  obtain ⟨c, hc⟩ := Array.mem_iff_getElem?.1 hj
  have hclasses := (leaves_and_classes_ofAnalysis hm).2
  have hlt : c < m.classes.length := by
    rw [← (lt_size_of_mem_row h hm (Array.mem_of_getElem? hrow)).1]
    exact (Array.getElem?_eq_some_iff.1 hc).1
  rw [hclasses] at hlt
  obtain ⟨x, hx, hclass⟩ := hchild _ (List.getElem_mem hlt)
  refine ⟨x, step?_eq_some_iff.2 ⟨c, row, ?_, hrow, hc⟩⟩
  rw [classOf?, hclasses, classOf?_eq_some_iff (nodup_alphabet _)]
  exact ⟨hx, _, List.getElem?_eq_getElem hlt, hclass⟩

/-- No fewer children lead to a state than to those before it, if every class has a child. -/
theorem exists_run_of_le (h : a.IsExact t) (hm : ofAnalysis a limits = .ok m)
    (hchild : ∀ c ∈ alphabet (a.leaves.toList.map (·.term)),
      ∃ x, x.isReserved = false ∧ ClassOf (alphabet (a.leaves.toList.map (·.term))) x c)
    (hrun : m.run w = .ok k) (hle : j ≤ k) : ∃ v, m.run v = .ok j ∧ v.length ≤ w.length := by
  induction w using List.reverseRecOn generalizing j k with
  | nil =>
    obtain rfl := Except.ok.inj hrun
    obtain rfl := Nat.le_zero.1 hle
    exact ⟨[], rfl, Nat.le_refl _⟩
  | append_singleton w x ih =>
    rcases Nat.eq_zero_or_pos j with rfl | hpos
    · exact ⟨[], rfl, Nat.zero_le _⟩
    · rw [run_concat] at hrun
      cases hw : m.run w with
      | error n =>
        rw [hw] at hrun
        cases hrun
      | ok p =>
        rw [hw] at hrun
        cases hstep : m.step? p x with
        | none => simp [Except.bind, hstep] at hrun
        | some k' =>
          obtain rfl : k' = k := by simpa [Except.bind, hstep] using hrun
          -- the state stands in the row of a state that is no farther than the one before the last
          obtain ⟨c, row, -, hrow, hc⟩ := step?_eq_some_iff.1 hstep
          obtain ⟨i, row', hi, hrow', hj⟩ := (metInOrder_ofAnalysis hm).upTo hrow
            (Array.mem_of_getElem? hc) j hpos hle
          obtain ⟨v, hv, hlen⟩ := ih hw (Nat.le_of_lt_succ hi)
          obtain ⟨y, hy⟩ := exists_step?_of_mem_row h hm hchild hrow' hj
          refine ⟨v ++ [y], ?_, by simpa using hlen⟩
          rw [run_concat, hv]
          simp [Except.bind, hy]

end Automaton

end ElementContent
