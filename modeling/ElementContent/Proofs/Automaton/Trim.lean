import ElementContent.Proofs.Attribution.Unique
import ElementContent.Proofs.Automaton.Path
import ElementContent.Proofs.Automaton.StateCount

/-!
# No state is useless

The states are found by steps from the first one, and every class of children has a child, so some
children lead to each of them. From there it is always possible to go on to the end: a position is
alive only if it stands in some word, and the rest of the word can be read if every leaf accepts
some child. For the same reason no class that a position takes leads to the empty set.

- `Automaton.eq_of_members`: states are told apart by their members.
- `Automaton.run_eq_of_isAfter`: the state of what is alive after some children is the one that they
  lead to.
- `Automaton.exists_run_to_accepting`: what has been read can be completed.
- `Analysis.isEmpty_of_successors`: where there is a successor, it has members.
- `isState_forkedContent`: the sets that are states, for a content with two parts.
- `automaton_is_trim`: all this for the automaton of a declaration.
-/

namespace ElementContent

open List (Forall₂)

/-! ## Successors have members -/

section Successors

variable {capacity c : Nat} {targets : Array (Option PositionSet)} {target : PositionSet}

/-- A class has a target only if it had one before or if the move takes it. -/
theorem exists_of_addMove {m : Move} (h : (addMove capacity targets m)[c]? = some (some target)) :
    (∃ target', targets[c]? = some (some target')) ∨ c ∈ m.classes := by
  obtain ⟨classes, next⟩ := m
  unfold addMove at h
  simp only at h
  show _ ∨ c ∈ classes
  induction classes generalizing targets with
  | nil => exact .inl ⟨target, h⟩
  | cons cls rest ih =>
    by_cases hcls : cls = c
    · exact .inr (hcls ▸ List.mem_cons_self)
    · rcases ih h with ⟨target', htarget⟩ | hmem
      · rw [Array.getElem?_modify, if_neg hcls] at htarget
        exact .inl ⟨target', htarget⟩
      · exact .inr (List.mem_cons_of_mem _ hmem)

/-- A class has a target only if it had one before or if one of the moves takes it. -/
theorem exists_of_foldl_addMove {ms : List Move}
    (h : (ms.foldl (addMove capacity) targets)[c]? = some (some target)) :
    (∃ target', targets[c]? = some (some target')) ∨ ∃ m ∈ ms, c ∈ m.classes := by
  induction ms generalizing targets with
  | nil => exact .inl ⟨target, h⟩
  | cons m ms ih =>
    rcases ih h with ⟨target', htarget⟩ | ⟨m', hm', hc⟩
    · exact (exists_of_addMove htarget).imp_right fun hc => ⟨m, List.mem_cons_self, hc⟩
    · exact .inr ⟨m', List.mem_cons_of_mem _ hm', hc⟩

end Successors

namespace Analysis

variable {t : Tree} {a : Analysis} {classes : List InputClass} {s target : PositionSet} {c : Nat}

/-- Something comes after every position, be it the end. -/
theorem exists_adjacent_ended {p : Nat} (hp : (a.ended t).Occurs p) (hlt : p < a.leaves.size) :
    ∃ q, (a.ended t).Adjacent p q := by
  obtain ⟨u, v, x, y, huv, hx, rfl⟩ := hp
  cases v with
  | nil =>
    -- the last letter of an ended word is the end
    obtain ⟨-, hend⟩ := List.append_inj' huv rfl
    obtain rfl : p = a.leaves.size := List.singleton_injective hend
    exact absurd hlt (Nat.lt_irrefl _)
  | cons q v => exact ⟨q, u, v, x, _, huv, hx, rfl⟩

/-- The members of a set that is reached stand in words. -/
theorem Reached.occurs (h : a.IsExact t) (hs : a.Reached t classes s) {q : Nat}
    (hq : s.contains q = true) : (a.ended t).Occurs q := by
  cases hs with
  | start => exact ((contains_startSet h q).1 hq).occurs
  | step _ hiff _ =>
    obtain ⟨p, -, -, -, -, -, -, hpq⟩ := (hiff q).1 hq
    exact hpq.occurs_right

/-- A class that some position of a set takes leads to a set with members. -/
theorem isEmpty_of_successors (h : a.IsExact t) (hs : a.Reached t classes s)
    (hc : (successors (a.moves classes) classes.length s)[c]? = some (some target)) :
    target.isEmpty = false := by
  rcases exists_of_foldl_addMove hc with ⟨target', hnone⟩ | ⟨m, hm, hmc⟩
  · simp [Array.getElem?_replicate] at hnone
  · obtain ⟨p, hp, hmove⟩ := List.mem_filterMap.1 hm
    obtain ⟨leaf, f, hleaf, -, rfl⟩ := getElem?_moves.1 hmove
    obtain ⟨cls, hcls, htakes⟩ := mem_classesTaken.1 hmc
    have hp := PositionSet.mem_members.1 hp
    obtain ⟨q, hpq⟩ := exists_adjacent_ended (hs.occurs h hp) (Array.getElem?_eq_some_iff.1 hleaf).1
    obtain ⟨target', htarget, hq⟩ := ((describes_successors h classes s).holds_iff
      (List.getElem?_eq_some_iff.1 hcls).1 q).2 ⟨p, leaf, cls, hp, hleaf, hcls, htakes, hpq⟩
    obtain rfl := Option.some.inj (Option.some.inj (hc.symm.trans htarget))
    refine Bool.eq_false_iff.2 fun hempty => ?_
    rw [PositionSet.isEmpty_iff.1 hempty q] at hq
    cases hq

end Analysis

namespace Automaton

variable {t : Tree} {a : Analysis} {m : Automaton} {limits : Limits} {i j : Nat}
  {s s' : PositionSet} {w : List Symbol}

/-! ## The table -/

/-- Every entry of a row is the number of a state. -/
theorem lt_size_of_mem_row (h : a.IsExact t) (hm : ofAnalysis a limits = .ok m)
    {row : Array (Option Nat)} (hrow : row ∈ m.rows) :
    row.size = m.classes.length ∧ ∀ j, some j ∈ row → j < m.states.size := by
  obtain ⟨he, hdone, -⟩ := explored_ofAnalysis hm
  obtain ⟨i, hi⟩ := Array.mem_iff_getElem?.1 hrow
  have hlt : i < m.states.size := hdone ▸ (Array.getElem?_eq_some_iff.1 hi).1
  have hs := Array.getElem?_eq_getElem hlt
  refine ⟨?_, fun j hj => ?_⟩
  · rw [he.size_row hi hs]
    exact (describes_successors h m.classes _).size_eq
  · obtain ⟨c, hc⟩ := Array.mem_iff_getElem?.1 hj
    have hc' := he.size_row hi hs ▸ (Array.getElem?_eq_some_iff.1 hc).1
    obtain ⟨row', target, entry, hi', hentry, -, hlead⟩ := he.entry hdone hs hc'
    obtain rfl := Option.some.inj (hi.symm.trans hi')
    obtain rfl := Option.some.inj (hc.symm.trans hentry)
    cases hlead with
    | state _ hstate => exact (Array.getElem?_eq_some_iff.1 hstate).1

/-! ## States and children -/

/-- States are told apart by their members. -/
theorem eq_of_members (h : a.IsExact t) (hm : ofAnalysis a limits = .ok m)
    (hi : m.states[i]? = some s) (hj : m.states[j]? = some s')
    (hmembers : ∀ q, s.contains q = s'.contains q) : i = j := by
  obtain ⟨he, -, hnodup⟩ := explored_ofAnalysis hm
  have hwords := Analysis.words_of_met h (he.met s (Array.mem_of_getElem? hi))
  have hwords' := Analysis.words_of_met h (he.met s' (Array.mem_of_getElem? hj))
  obtain rfl := PositionSet.ext_contains (hwords.trans hwords'.symm) hmembers
  rw [← Array.getElem?_toList] at hi hj
  obtain ⟨hlt, hget⟩ := List.getElem?_eq_some_iff.1 hi
  obtain ⟨hlt', hget'⟩ := List.getElem?_eq_some_iff.1 hj
  exact (hnodup.getElem_inj_iff).1 (hget.trans hget'.symm)

/-- Children lead to the state of what is alive after them. -/
theorem run_eq_of_isAfter (h : a.IsExact t) (hm : ofAnalysis a limits = .ok m)
    (hi : m.states[i]? = some s) (hs : a.IsAfter t w s) : m.run w = .ok i := by
  have hexplored := isExplored_ofAnalysis h hm
  obtain ⟨q, hq⟩ := exists_contains_of_reached h (hexplored.reached s (Array.mem_of_getElem? hi))
  cases hrun : m.run w with
  | error n =>
    have hviable := (Language.image_prefixes_iff_alive_append_letter a.leaves.size).2
      ⟨q, (hs q).1 hq⟩
    exact absurd (Language.image_prefixes_take (n + 1) hviable) (run_eq_error h hexplored hrun).2.2
  | ok j =>
    obtain ⟨s', hj, hs'⟩ := run_eq_ok h hexplored hrun
    rw [eq_of_members h hm hi hj fun q => Bool.eq_iff_iff.2 ((hs q).trans (hs' q).symm)]

/-- A run that does not stop does not depend on how many children came before it. -/
theorem runFrom_eq_ok_iff (n n' : Nat) :
    m.runFrom i n w = .ok j ↔ m.runFrom i n' w = .ok j := by
  induction w generalizing i n n' with
  | nil => rfl
  | cons x w ih =>
    rw [runFrom, runFrom]
    cases m.step? i x with
    | none => simp
    | some k => exact ih (n + 1) (n' + 1)

/-- Where some children lead to a state and can be completed, further children lead from there to a
state where the content may end. -/
theorem exists_run_to_accepting (h : a.IsExact t) (hm : m.IsExplored t a)
    (hread : ∀ p < a.leaves.size, ∃ x, TakesAt a.leaves.toList p x) (hrun : m.run w = .ok i) :
    ∃ v j, m.runFrom i 0 v = .ok j ∧ m.isAccepting j = true := by
  have hoccurs : ∀ p, (t.marked a.positionOf?).Occurs p → ∃ x, TakesAt a.leaves.toList p x := by
    intro p hp
    obtain ⟨leaf, hleaf⟩ := h.exists_leaf hp
    exact hread p (Array.getElem?_eq_some_iff.1 hleaf).1
  have hviable := viable_of_run_eq_ok h hm hrun
  rw [← Language.prefixes_image hoccurs] at hviable
  obtain ⟨v, hword⟩ := hviable
  cases hwhole : m.run (w ++ v) with
  | error n =>
    have hviable := Language.image_prefixes_of_image hword
    exact absurd (Language.image_prefixes_take (n + 1) hviable) (run_eq_error h hm hwhole).2.2
  | ok j =>
    obtain ⟨s, hj, hs⟩ := run_eq_ok h hm hwhole
    refine ⟨v, j, ?_, (isAccepting_iff h hm hj hs).2 hword⟩
    rw [run_append, hrun] at hwhole
    exact (runFrom_eq_ok_iff w.length 0).1 hwhole

end Automaton

/-! ## A content with four states -/

section Forked

variable {a : Analysis}

theorem leaves_forkedContent (h : a.IsExact forkedContent.tree) : a.leaves =
    #[⟨.element ⟨0, 1⟩, none, 0⟩, ⟨.element ⟨0, 2⟩, none, 1⟩, ⟨.any .any, none, 3⟩,
      ⟨.element ⟨0, 3⟩, none, 4⟩] := by
  refine Array.toList_inj.1 ?_
  rw [h.leaves_eq, tree_forkedContent]
  rfl

theorem ended_forkedContent (h : a.IsExact forkedContent.tree) {w : List Nat} :
    a.ended forkedContent.tree w ↔ w = [0, 1, 4] ∨ w = [2, 3, 4] := by
  have hend : [a.leaves.size] = [4] := by rw [leaves_forkedContent h]; rfl
  constructor
  · rintro ⟨u, v, rfl, hu, rfl⟩
    rw [hend]
    exact ((words_forkedContent h).1 hu).imp (congrArg (· ++ [4])) (congrArg (· ++ [4]))
  · rintro (rfl | rfl)
    · exact ⟨[0, 1], [4], rfl, (words_forkedContent h).2 (.inl rfl), hend.symm⟩
    · exact ⟨[2, 3], [4], rfl, (words_forkedContent h).2 (.inr rfl), hend.symm⟩

theorem opening_forkedContent (h : a.IsExact forkedContent.tree) : a.opening = {0, 2} := by
  rw [← Analysis.toSet_startSet h]
  ext q
  show a.startSet.contains q = true ↔ q = 0 ∨ q = 2
  rw [Analysis.contains_startSet h]
  simp only [Language.Begins, ended_forkedContent h]
  constructor
  · rintro ⟨v, hv⟩
    exact hv.imp (fun hv => (List.cons.inj hv).1) fun hv => (List.cons.inj hv).1
  · rintro (rfl | rfl)
    · exact ⟨_, .inl rfl⟩
    · exact ⟨_, .inr rfl⟩

/-- A leaf is followed by the other one of its part, or by the end. -/
theorem adjacent_forkedContent (h : a.IsExact forkedContent.tree) {p q : Nat} :
    (a.ended forkedContent.tree).Adjacent p q ↔
      p = 0 ∧ q = 1 ∨ p = 1 ∧ q = 4 ∨ p = 2 ∧ q = 3 ∨ p = 3 ∧ q = 4 := by
  simp only [Language.Adjacent, ended_forkedContent h]
  constructor
  · rintro ⟨u, v, huv⟩
    have hp : (u ++ p :: q :: v)[u.length]? = some p := by simp
    have hq : (u ++ p :: q :: v)[u.length + 1]? = some q := by simp
    have hlength : (u ++ p :: q :: v).length = 3 := by
      rcases huv with huv | huv <;> rw [huv] <;> rfl
    have hplace : u.length = 0 ∨ u.length = 1 := by
      simp only [List.length_append, List.length_cons] at hlength
      omega
    rcases huv with huv | huv <;> rw [huv] at hp hq <;>
      rcases hplace with hplace | hplace <;> rw [hplace] at hp hq <;> simp at hp hq <;> omega
  · rintro (⟨rfl, rfl⟩ | ⟨rfl, rfl⟩ | ⟨rfl, rfl⟩ | ⟨rfl, rfl⟩)
    · exact ⟨[], [4], .inl rfl⟩
    · exact ⟨[0], [], .inl rfl⟩
    · exact ⟨[], [4], .inr rfl⟩
    · exact ⟨[2], [], .inr rfl⟩

/-- The wildcard takes any class, and each name its own. -/
theorem takes_forkedContent (h : a.IsExact forkedContent.tree) {p : Nat} {c : InputClass} :
    (∃ leaf, a.leaves[p]? = some leaf ∧ leaf.term.takes c = true) ↔
      p = 0 ∧ c = .element ⟨0, 1⟩ ∨ p = 1 ∧ c = .element ⟨0, 2⟩ ∨ p = 2 ∨
        p = 3 ∧ c = .element ⟨0, 3⟩ := by
  have hname : ∀ s, (Term.element s).takes c = true ↔ c = .element s := by
    intro s
    cases c with
    | element s' => exact beq_iff_eq.trans (by rw [InputClass.element.injEq, eq_comm])
    | space | foreign => exact iff_of_false (by rintro ⟨⟩) (by rintro ⟨⟩)
  have hany : (Term.any .any).takes c = true := by
    cases c <;> rfl
  rw [leaves_forkedContent h]
  match p with
  | 0 | 1 | 3 => simp [hname]
  | 2 => simp [hany]
  | p + 4 => simp

theorem mem_after_forkedContent (h : a.IsExact forkedContent.tree) {S : Set Nat} {c : InputClass}
    {q : Nat} : q ∈ a.after S c ↔
      q = 1 ∧ 0 ∈ S ∧ c = .element ⟨0, 1⟩ ∨ q = 3 ∧ 2 ∈ S ∨
        q = 4 ∧ (1 ∈ S ∧ c = .element ⟨0, 2⟩ ∨ 3 ∈ S ∧ c = .element ⟨0, 3⟩) := by
  rw [Analysis.mem_after_iff h]
  simp only [takes_forkedContent h, adjacent_forkedContent h]
  constructor
  · grind
  · rintro (⟨rfl, hp, rfl⟩ | ⟨rfl, hp⟩ | ⟨rfl, ⟨hp, rfl⟩ | ⟨hp, rfl⟩⟩) <;>
      exact ⟨_, hp, by simp, by simp⟩

/-- After an `a` both parts go on, after another child only the second one does, and the end is the
same for both. -/
theorem isState_forkedContent (h : a.IsExact forkedContent.tree) {S : Set Nat} :
    a.IsState S ↔ S ∈ ({{0, 2}, {1, 3}, {3}, {4}} : Set (Set Nat)) := by
  have hclasses : a.inputClasses = [.element ⟨0, 1⟩, .element ⟨0, 2⟩, .element ⟨0, 3⟩,
      .space .absent, .foreign] := by
    rw [Analysis.inputClasses, leaves_forkedContent h]
    decide
  have hboth : a.after {0, 2} (.element ⟨0, 1⟩) = {1, 3} := by
    ext q
    rw [mem_after_forkedContent h]
    simp
  have hsecond : ∀ c, c ≠ .element ⟨0, 1⟩ → a.after {0, 2} c = {3} := by
    intro c hc
    ext q
    rw [mem_after_forkedContent h]
    simp [hc]
  have hend : ∀ {S : Set Nat} {c : InputClass}, 0 ∉ S → 2 ∉ S → (a.after S c).Nonempty →
      a.after S c = {4} := by
    intro S c h0 h2 hne
    refine hne.subset_singleton_iff.1 fun q hq => ?_
    rcases (mem_after_forkedContent h).1 hq with ⟨-, hS, -⟩ | ⟨-, hS⟩ | ⟨hq, -⟩
    · exact absurd hS h0
    · exact absurd hS h2
    · exact hq
  constructor
  · intro hS
    induction hS with
    | opening => exact .inl (opening_forkedContent h)
    | @after S c _ _ hne ih =>
      rcases ih with rfl | rfl | rfl | rfl
      · by_cases hc : c = .element ⟨0, 1⟩
        · rw [hc, hboth]
          exact .inr (.inl rfl)
        · rw [hsecond c hc]
          exact .inr (.inr (.inl rfl))
      all_goals exact .inr (.inr (.inr (hend (by simp) (by simp) hne)))
  · have hopening : a.IsState {0, 2} := opening_forkedContent h ▸ .opening
    have hthird : a.IsState {3} := by
      rw [← hsecond .foreign (by rintro ⟨⟩)]
      exact .after hopening (by simp [hclasses]) ⟨3, by rw [hsecond .foreign (by rintro ⟨⟩)]; rfl⟩
    have hlast : (a.after {3} (.element ⟨0, 3⟩)).Nonempty :=
      ⟨4, (mem_after_forkedContent h).2 (by simp)⟩
    rintro (rfl | rfl | rfl | rfl)
    · exact hopening
    · rw [← hboth]
      exact .after hopening (by simp [hclasses]) ⟨1, by rw [hboth]; simp⟩
    · exact hthird
    · rw [← hend (by simp) (by simp) hlast]
      exact .after hthird (by simp [hclasses]) hlast

theorem ncard_isState_forkedContent (h : a.IsExact forkedContent.tree) :
    {S | a.IsState S}.ncard = 4 := by
  have hstates : {S | a.IsState S} = {{0, 2}, {1, 3}, {3}, {4}} :=
    Set.ext fun S => isState_forkedContent h
  have hne : ∀ {S T : Set Nat} (q : Nat), q ∈ S → q ∉ T → S ≠ T := by
    rintro S _ q hS hT rfl
    exact hT hS
  rw [hstates, Set.ncard_insert_of_notMem, Set.ncard_insert_of_notMem, Set.ncard_pair]
  · exact hne 3 (by simp) (by simp)
  · rintro (heq | heq)
    · exact hne 1 (by simp) (by simp) heq
    · exact hne 1 (by simp) (by simp) heq
  · rintro (heq | heq | heq)
    all_goals exact hne 0 (by simp) (by simp) heq

end Forked

/-! ## The automaton of a declaration -/

/-- The automaton of a declaration is trim, provided that its leaves leave the reserved namespace
alone, that each of them accepts some child, and that they and the namespaces they mention are not
too many. Children that are not reserved lead to every state; its set has members, and no other
state has the same; and from there children lead to a state where the content may end. The table has
a row of the right length for each state, with numbers of states for entries, and no class leads to
the empty set. -/
theorem automaton_is_trim {d : Declaration} {limits limits' : Limits} {a : Analysis} {m : Automaton}
    (ha : Analysis.ofDeclaration d limits = .ok a) (hm : Automaton.ofAnalysis a limits' = .ok m)
    (havoid : AvoidsReserved d.tree.terms)
    (haccepts : ∀ leaf ∈ d.tree.leaves, ∃ x, leaf.term.accepts x = true)
    (hleaves : d.tree.leaves.length < 2 ^ 31)
    (hmention : (mentionedBy d.tree.terms).length < 2 ^ 31) :
    (∀ i s, m.states[i]? = some s →
      (∃ w, (∀ x ∈ w, x.isReserved = false) ∧ m.run w = .ok i) ∧
      (∃ q, s.contains q = true) ∧
      (∀ j s', m.states[j]? = some s' → (∀ q, s.contains q = s'.contains q) → i = j) ∧
      ∃ v j, m.runFrom i 0 v = .ok j ∧ m.isAccepting j = true) ∧
    m.rows.size = m.states.size ∧
    (∀ row ∈ m.rows, row.size = m.classes.length ∧ ∀ j, some j ∈ row → j < m.states.size) ∧
    ∀ s ∈ m.states, ∀ target, some target ∈ successors (a.moves m.classes) m.classes.length s →
      target.isEmpty = false := by
  have h := Analysis.isExact_ofDeclaration ha
  have hexplored := Automaton.isExplored_ofAnalysis h hm
  have hchild := Tree.Realizable.exists_child ⟨havoid, hleaves, hmention⟩ h
  have hread : ∀ p < a.leaves.size, ∃ x, TakesAt a.leaves.toList p x := by
    intro p hp
    rw [← h.leaves_eq] at haccepts
    rw [← Array.length_toList] at hp
    obtain ⟨x, hx⟩ := haccepts _ (List.getElem_mem hp)
    exact ⟨x, _, List.getElem?_eq_getElem hp, hx⟩
  refine ⟨fun i s hi => ?_, (Automaton.explored_ofAnalysis hm).2.1, fun row hrow => ?_,
    fun s hs target htarget => ?_⟩
  · have hreached := hexplored.reached s (Array.mem_of_getElem? hi)
    have hmember := Automaton.exists_contains_of_reached h hreached
    rw [hexplored.classes_eq] at hreached
    obtain ⟨w, hw, hafter⟩ := Automaton.exists_isAfter_of_reached h hchild hreached
    have hrun := Automaton.run_eq_of_isAfter h hm hi hafter
    exact ⟨⟨w, hw, hrun⟩, hmember, fun j s' hj => Automaton.eq_of_members h hm hi hj,
      Automaton.exists_run_to_accepting h hexplored hread hrun⟩
  · exact Automaton.lt_size_of_mem_row h hm hrow
  · obtain ⟨c, hc⟩ := Array.mem_iff_getElem?.1 htarget
    exact Analysis.isEmpty_of_successors h (hexplored.reached s hs) hc

/-- The automaton of `(a, b) | (any, c)` has four states, each with children that lead to it, and
the end can be reached from all of them. -/
theorem automaton_is_trim_forkedContent : ∃ a m,
    Analysis.ofDeclaration forkedContent .standard = .ok a ∧
    Automaton.ofAnalysis a .standard = .ok m ∧ m.states.size = 4 ∧
    ∀ i < m.states.size, (∃ w, m.run w = .ok i) ∧
      ∃ v j, m.runFrom i 0 v = .ok j ∧ m.isAccepting j = true := by
  obtain ⟨a, ha⟩ : ∃ a, Analysis.ofDeclaration forkedContent .standard = .ok a := by
    rw [Analysis.exists_ofDeclaration_iff, tree_forkedContent]
    decide
  have h := Analysis.isExact_ofDeclaration ha
  have hroom : 2 ^ (a.leaves.size + 1) ≤ Limits.standard.states := by
    rw [← Array.length_toList, h.leaves_eq, tree_forkedContent]
    decide
  obtain ⟨m, hm⟩ := Automaton.exists_ofAnalysis h hroom
  have havoid : AvoidsReserved forkedContent.tree.terms := by
    rw [tree_forkedContent]
    refine ⟨fun s hs => ?_, by decide⟩
    obtain rfl | rfl | rfl : s = ⟨0, 1⟩ ∨ s = ⟨0, 2⟩ ∨ s = ⟨0, 3⟩ := by
      simpa [Tree.terms] using hs
    all_goals rfl
  have haccepts : ∀ leaf ∈ forkedContent.tree.leaves, ∃ x, leaf.term.accepts x = true := by
    rw [tree_forkedContent]
    simp only [Tree.leaves, Term.takesChild, if_true, List.cons_append, List.nil_append,
      List.forall_mem_cons]
    exact ⟨⟨⟨0, 1⟩, by decide⟩, ⟨⟨0, 2⟩, by decide⟩, ⟨⟨0, 1⟩, by decide⟩, ⟨⟨0, 3⟩, by decide⟩,
      by simp⟩
  obtain ⟨htrim, -⟩ := automaton_is_trim ha hm havoid haccepts
    (by rw [tree_forkedContent]; decide) (by rw [tree_forkedContent]; decide)
  have hsize : m.states.size = 4 :=
    (Automaton.size_states_eq h hm).1.trans (ncard_isState_forkedContent h)
  refine ⟨a, m, ha, hm, hsize, fun i hi => ?_⟩
  obtain ⟨⟨w, -, hw⟩, -, -, haccepting⟩ := htrim i _ (Array.getElem?_eq_getElem hi)
  exact ⟨⟨w, hw⟩, haccepting⟩

end ElementContent
