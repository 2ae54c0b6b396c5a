import ElementContent.Attribution.Check
import ElementContent.Proofs.Term.Overlap

/-!
# What is reported

A pair of claimants is reported if and only if in some state there are two live leaves, one of each
claimant, whose terms overlap. Neither the order in which pairs are looked at nor the leaving out of
candidates and conflicts that have been seen before loses a pair.

- `Findings.Reports`: the invariant of the report, and `reports_foldl` for all conflicts.
- `mem_laterPairs_of_ne`: two different elements of a list are looked at in one order or the other.
- `Automaton.allConflicts`: what is found; `exists_candidates_of_mem_allConflicts` and
  `exists_mem_allConflicts` say that it is the conflicts of candidates.
- `Automaton.reports_iff`: the pairs that are reported.
-/

namespace ElementContent

/-! ## Reporting -/

/-- The two claimants that the conflict is about. -/
def Conflict.claimants (c : Conflict) : Claimant × Claimant :=
  (c.first, c.second)

/-- What is reported of the conflicts seen so far: some of them, of which the pairs are noted, and
one at least for each pair. -/
structure Findings.Reports (f : Findings) (seen : List Conflict) : Prop where
  mem_seen : ∀ c ∈ f.conflicts, c ∈ seen
  reported_iff : ∀ pair, pair ∈ f.reported ↔ ∃ c ∈ f.conflicts, c.claimants = pair
  covers : ∀ c ∈ seen, c.claimants ∈ f.reported

theorem reports_start : (⟨{}, #[]⟩ : Findings).Reports [] where
  mem_seen := by simp
  reported_iff := by simp
  covers := by simp

theorem reports_add {f : Findings} {seen : List Conflict} (h : f.Reports seen) (c : Conflict) :
    (f.add c).Reports (seen ++ [c]) := by
  show (if f.reported.contains c.claimants = true then f
    else ⟨f.reported.insert c.claimants, f.conflicts.push c⟩ : Findings).Reports (seen ++ [c])
  by_cases hc : c.claimants ∈ f.reported
  · -- the pair has been reported before
    rw [if_pos (Std.HashSet.mem_iff_contains.1 hc)]
    refine ⟨fun c' hc' => List.mem_append_left _ (h.mem_seen c' hc'), h.reported_iff, ?_⟩
    intro c' hc'
    rcases List.mem_append.1 hc' with hc' | hc'
    · exact h.covers c' hc'
    · exact List.mem_singleton.1 hc' ▸ hc
  · -- the pair is new, and the conflict is reported for it
    rw [if_neg fun hmem => hc (Std.HashSet.mem_iff_contains.2 hmem)]
    refine ⟨fun c' hc' => ?_, fun pair => ?_, fun c' hc' => ?_⟩
    · rcases Array.mem_push.1 hc' with hc' | rfl
      · exact List.mem_append_left _ (h.mem_seen c' hc')
      · exact List.mem_append_right _ (List.mem_singleton_self _)
    · rw [Std.HashSet.mem_insert, beq_iff_eq, h.reported_iff]
      constructor
      · rintro (hpair | ⟨c', hc', hpair⟩)
        · exact ⟨c, Array.mem_push_self, hpair⟩
        · exact ⟨c', Array.mem_push_of_mem _ hc', hpair⟩
      · rintro ⟨c', hc', hpair⟩
        rcases Array.mem_push.1 hc' with hc' | rfl
        · exact .inr ⟨c', hc', hpair⟩
        · exact .inl hpair
    · rw [Std.HashSet.mem_insert]
      rcases List.mem_append.1 hc' with hc' | hc'
      · exact .inr (h.covers c' hc')
      · exact .inl (beq_iff_eq.2 (List.mem_singleton.1 hc' ▸ rfl))

theorem reports_foldl {f : Findings} {seen : List Conflict} (h : f.Reports seen)
    (cs : List Conflict) : (cs.foldl Findings.add f).Reports (seen ++ cs) := by
  induction cs generalizing f seen with
  | nil => simpa using h
  | cons c cs ih =>
    have := ih (reports_add h c)
    rwa [List.append_assoc] at this

/-! ## Pairs -/

variable {α : Type} {l : List α} {x y : α}

theorem mem_of_mem_laterPairs (h : (x, y) ∈ laterPairs l) : x ∈ l ∧ y ∈ l := by
  induction l with
  | nil => cases h
  | cons z l ih =>
    rcases List.mem_append.1 h with h | h
    · obtain ⟨y', hy, heq⟩ := List.mem_map.1 h
      obtain ⟨rfl, rfl⟩ := Prod.mk.inj heq
      exact ⟨List.mem_cons_self, List.mem_cons_of_mem _ hy⟩
    · exact ⟨List.mem_cons_of_mem _ (ih h).1, List.mem_cons_of_mem _ (ih h).2⟩

theorem mem_laterPairs_of_ne (hx : x ∈ l) (hy : y ∈ l) (hne : x ≠ y) :
    (x, y) ∈ laterPairs l ∨ (y, x) ∈ laterPairs l := by
  induction l with
  | nil => cases hx
  | cons z l ih =>
    rcases List.mem_cons.1 hx with rfl | hxl
    · rcases List.mem_cons.1 hy with rfl | hyl
      · exact absurd rfl hne
      · exact .inl (List.mem_append_left _ (List.mem_map_of_mem hyl))
    · rcases List.mem_cons.1 hy with rfl | hyl
      · exact .inr (List.mem_append_left _ (List.mem_map_of_mem hxl))
      · exact (ih hxl hyl).imp (List.mem_append_right _) (List.mem_append_right _)

theorem Claimant.ordered_eq (a b : Claimant) : a.ordered b = (a, b) ∨ a.ordered b = (b, a) := by
  unfold ordered
  split
  · exact .inl rfl
  · exact .inr rfl

/-! ## Candidates -/

theorem Candidate.conflictsWith_comm (x y : Candidate) : x.conflictsWith y = y.conflictsWith x := by
  rw [conflictsWith, conflictsWith, Term.overlaps_comm, bne_comm]

theorem Candidate.term_ofLeaf (p : Nat) (leaf : Leaf) : (ofLeaf p leaf).term = leaf.term := by
  unfold ofLeaf
  split <;> rfl

theorem Candidate.conflictsWith_ofLeaf_iff {p q : Nat} {leaf leaf' : Leaf} :
    (ofLeaf p leaf).conflictsWith (ofLeaf q leaf') = true ↔
      (ofLeaf p leaf).claimant ≠ (ofLeaf q leaf').claimant ∧
        leaf.term.overlaps leaf'.term = true := by
  rw [conflictsWith, Bool.and_eq_true, bne_iff_ne, term_ofLeaf, term_ofLeaf]

/-- Leaves of one claimant are at one position or belong to one declared particle. -/
theorem Candidate.claimant_ofLeaf_eq_iff {p q : Nat} {leaf leaf' : Leaf} :
    (ofLeaf p leaf).claimant = (ofLeaf q leaf').claimant ↔
      (∃ id, leaf.particle = some id ∧ leaf'.particle = some id) ∨
        leaf.particle = none ∧ leaf'.particle = none ∧ p = q := by
  unfold ofLeaf
  cases leaf.particle with
  | none => cases leaf'.particle <;> simp
  | some id => cases leaf'.particle <;> simp [eq_comm]

theorem mem_candidates_iff {m : Automaton} {s : PositionSet} {x : Candidate} :
    x ∈ m.candidates s ↔ ∃ p leaf, s.contains p = true ∧ m.leaves[p]? = some leaf ∧
      x = .ofLeaf p leaf := by
  simp only [Automaton.candidates, List.mem_eraseDups, List.mem_map, Automaton.liveLeaves,
    List.mem_filterMap, PositionSet.mem_members]
  constructor
  · rintro ⟨entry, ⟨p, hp, hentry⟩, rfl⟩
    obtain ⟨leaf, hleaf, rfl⟩ := Option.map_eq_some_iff.1 hentry
    exact ⟨p, leaf, hp, hleaf, rfl⟩
  · rintro ⟨p, leaf, hp, hleaf, rfl⟩
    exact ⟨(p, leaf), ⟨p, hp, by rw [hleaf]; rfl⟩, rfl⟩

theorem claimants_conflictOf (d : Declaration) (table : Option NameTable) (state : Nat)
    (x y : Candidate) :
    (conflictOf d table state x y).claimants = x.claimant.ordered y.claimant :=
  rfl

/-- The conflicts in a state are those of the candidates. -/
theorem mem_conflictsAt_iff {m : Automaton} {d : Declaration} {table : Option NameTable}
    {state : Nat} {s : PositionSet} {c : Conflict} : c ∈ m.conflictsAt d table state s ↔
      ∃ x y, (x, y) ∈ laterPairs (m.candidates s) ∧ x.conflictsWith y = true ∧
        c = conflictOf d table state x y := by
  simp only [Automaton.conflictsAt, List.mem_filterMap, Prod.exists]
  constructor
  · rintro ⟨x, y, hxy, hc⟩
    split at hc
    · next h => exact ⟨x, y, hxy, h, (Option.some.inj hc).symm⟩
    · cases hc
  · rintro ⟨x, y, hxy, h, rfl⟩
    exact ⟨x, y, hxy, by rw [if_pos h]⟩

/-- All conflicts that are found, before any is left out. -/
def Automaton.allConflicts (m : Automaton) (d : Declaration) (table : Option NameTable) :
    List Conflict :=
  m.states.toList.zipIdx.flatMap fun (s, state) => m.conflictsAt d table state s

section All

variable {m : Automaton} {d : Declaration} {table : Option NameTable} {c : Conflict}

theorem mem_allConflicts_iff : c ∈ m.allConflicts d table ↔
    ∃ s state, m.states[state]? = some s ∧ c ∈ m.conflictsAt d table state s := by
  simp only [Automaton.allConflicts, List.mem_flatMap, Prod.exists, List.mk_mem_zipIdx_iff_getElem?,
    Array.getElem?_toList]

/-- A conflict that is found is that of two candidates, in one order or the other. -/
theorem exists_candidates_of_mem_allConflicts (h : c ∈ m.allConflicts d table) :
    ∃ s, m.states[c.state]? = some s ∧ ∃ x ∈ m.candidates s, ∃ y ∈ m.candidates s,
      x.conflictsWith y = true ∧ c.claimants = x.claimant.ordered y.claimant := by
  obtain ⟨s, state, hs, hc⟩ := mem_allConflicts_iff.1 h
  obtain ⟨x, y, hxy, hconflict, rfl⟩ := mem_conflictsAt_iff.1 hc
  obtain ⟨hx, hy⟩ := mem_of_mem_laterPairs hxy
  exact ⟨s, hs, x, hx, y, hy, hconflict, claimants_conflictOf d table state x y⟩

/-- Two candidates of a state that conflict make a conflict in that state. -/
theorem exists_mem_allConflicts {s : PositionSet} {state : Nat} {x y : Candidate}
    (hs : m.states[state]? = some s) (hx : x ∈ m.candidates s) (hy : y ∈ m.candidates s)
    (hconflict : x.conflictsWith y = true) : ∃ c ∈ m.allConflicts d table, c.state = state ∧
      (c.claimants = (x.claimant, y.claimant) ∨ c.claimants = (y.claimant, x.claimant)) := by
  have hne : x ≠ y := by
    rintro rfl
    simp [Candidate.conflictsWith] at hconflict
  have hmem : ∀ {x y : Candidate}, (x, y) ∈ laterPairs (m.candidates s) →
      x.conflictsWith y = true → conflictOf d table state x y ∈ m.allConflicts d table :=
    fun hxy hconflict => mem_allConflicts_iff.2
      ⟨s, state, hs, mem_conflictsAt_iff.2 ⟨_, _, hxy, hconflict, rfl⟩⟩
  rcases mem_laterPairs_of_ne hx hy hne with h | h
  · exact ⟨_, hmem h hconflict, rfl, x.claimant.ordered_eq y.claimant⟩
  · rw [x.conflictsWith_comm y] at hconflict
    exact ⟨_, hmem h hconflict, rfl, (y.claimant.ordered_eq x.claimant).symm⟩

/-- A pair of claimants is reported if and only if both have a candidate in some state, and the two
candidates conflict. -/
theorem Automaton.reports_iff {P Q : Claimant} :
    (∃ c ∈ m.conflicts d table, c.claimants = (P, Q) ∨ c.claimants = (Q, P)) ↔
      ∃ s ∈ m.states, ∃ x ∈ m.candidates s, ∃ y ∈ m.candidates s, x.claimant = P ∧
        y.claimant = Q ∧ x.conflictsWith y = true := by
  have hreports : Findings.Reports _ (m.allConflicts d table) := reports_foldl reports_start _
  constructor
  · rintro ⟨c, hc, hpair⟩
    obtain ⟨s, hs, x, hx, y, hy, hconflict, hclaimants⟩ :=
      exists_candidates_of_mem_allConflicts (hreports.mem_seen c (Array.mem_toList_iff.1 hc))
    have hmem := Array.mem_of_getElem? hs
    -- the claimants of the conflict are those of the two candidates, in one order or the other
    have hcases : x.claimant = P ∧ y.claimant = Q ∨ y.claimant = P ∧ x.claimant = Q := by
      rw [hclaimants] at hpair
      rcases x.claimant.ordered_eq y.claimant with h | h
      · rw [h, Prod.mk.injEq, Prod.mk.injEq] at hpair
        exact hpair.imp_right And.symm
      · rw [h, Prod.mk.injEq, Prod.mk.injEq] at hpair
        exact hpair.symm.imp_left And.symm
    rcases hcases with ⟨hP, hQ⟩ | ⟨hP, hQ⟩
    · exact ⟨s, hmem, x, hx, y, hy, hP, hQ, hconflict⟩
    · exact ⟨s, hmem, y, hy, x, hx, hP, hQ, y.conflictsWith_comm x ▸ hconflict⟩
  · rintro ⟨s, hs, x, hx, y, hy, rfl, rfl, hconflict⟩
    obtain ⟨state, hstate⟩ := Array.mem_iff_getElem?.1 hs
    obtain ⟨c, hc, -, hpair⟩ := exists_mem_allConflicts hstate hx hy hconflict
    obtain ⟨c', hc', heq⟩ := (hreports.reported_iff _).1 (hreports.covers c hc)
    exact ⟨c', Array.mem_toList_iff.2 hc', heq ▸ hpair⟩

end All

end ElementContent
