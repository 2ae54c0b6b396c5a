import ElementContent.Proofs.Attribution.Unique
import ElementContent.Proofs.Automaton.BreadthFirst
import Mathlib.Data.Prod.Lex
import Mathlib.Data.Sym.Sym2

/-!
# Conflicts are reported where they come first

Conflicts are found state by state, and only the first one about a pair of claimants is reported. So
a pair is reported once, in the state with the lowest number of all in which it conflicts. States are
numbered in the order of their distance from the first one, so no shorter sequence of children makes
the two conflict.

- `Claimant.key`: the order of the claimants, declared particles before positions.
- `Findings.Earliest`: what is reported comes first among what has been seen;
  `earliest_add` is one conflict more and `earliest_foldl` all of them.
- `Automaton.MeetIn`: two claimants have live leaves with overlapping terms in a state.
- `conflicts_come_first`: the report of an automaton.
-/

namespace ElementContent

open List (Forall₂)

/-! ## The order of claimants -/

/-- What claimants are ordered by: first whether they are declared, then their number. -/
def Claimant.key : Claimant → ℕ ×ₗ ℕ
  | declared id => toLex (0, id)
  | position index => toLex (1, index)

theorem Claimant.notAfter_iff {a b : Claimant} : a.notAfter b = true ↔ a.key ≤ b.key := by
  cases a <;> cases b <;> simp [notAfter, key, Prod.Lex.toLex_le_toLex]

theorem Claimant.key_injective : Function.Injective key := by
  intro a b h
  cases a <;> cases b <;> simp_all [key]

/-- Of two claimants that are put in order, the first has the lower key. -/
theorem Claimant.key_fst_ordered_lt {a b : Claimant} (h : a ≠ b) :
    (a.ordered b).1.key < (a.ordered b).2.key := by
  have hne : a.key ≠ b.key := key_injective.ne h
  unfold ordered
  split
  · next hle => exact lt_of_le_of_ne (notAfter_iff.1 hle) hne
  · next hnot => exact lt_of_not_ge fun hle => hnot (notAfter_iff.2 hle)

/-! ## What is reported -/

namespace Findings

variable {f : Findings} {seen : List Conflict} {c : Conflict}

/-- What is reported stands among what has been seen, in the same order; no pair of claimants is
reported twice, and each is reported in the first state in which it has been seen. -/
structure Earliest (f : Findings) (seen : List Conflict) : Prop where
  reports : f.Reports seen
  sublist : f.conflicts.toList.Sublist seen
  nodup : (f.conflicts.toList.map Conflict.claimants).Nodup
  state_le : ∀ c ∈ f.conflicts, ∀ c' ∈ seen, c'.claimants = c.claimants → c.state ≤ c'.state

theorem earliest_start : (⟨{}, #[]⟩ : Findings).Earliest [] :=
  ⟨reports_start, .refl _, .nil, by simp⟩

/-- A conflict that comes no earlier than those seen before is reported if it is about a new pair. -/
theorem earliest_add (h : f.Earliest seen) (hlast : ∀ c' ∈ seen, c'.state ≤ c.state) :
    (f.add c).Earliest (seen ++ [c]) := by
  have hreports := reports_add h.reports c
  -- what had been reported before comes before the new one
  have hold : ∀ r ∈ f.conflicts, ∀ c' ∈ seen ++ [c], c'.claimants = r.claimants →
      r.state ≤ c'.state := by
    intro r hr c' hc' heq
    rcases List.mem_append.1 hc' with hc' | hc'
    · exact h.state_le r hr c' hc' heq
    · exact List.mem_singleton.1 hc' ▸ hlast r (h.reports.mem_seen r hr)
  by_cases hc : c.claimants ∈ f.reported
  · have hadd : f.add c = f := if_pos (Std.HashSet.mem_iff_contains.1 hc)
    rw [hadd] at hreports ⊢
    exact ⟨hreports, h.sublist.trans (List.sublist_append_left _ _), h.nodup, hold⟩
  · have hadd : f.add c = ⟨f.reported.insert c.claimants, f.conflicts.push c⟩ :=
      if_neg fun hmem => hc (Std.HashSet.mem_iff_contains.2 hmem)
    rw [hadd] at hreports ⊢
    refine ⟨hreports, ?_, ?_, fun r hr c' hc' heq => ?_⟩
    · rw [Array.toList_push]
      exact h.sublist.append (.refl _)
    · -- a pair that is reported already would be noted
      rw [Array.toList_push, List.map_append, List.map_singleton]
      refine h.nodup.append (List.nodup_singleton _) ?_
      rintro pair hpair hnew
      obtain ⟨r, hr, rfl⟩ := List.mem_map.1 hpair
      rw [List.mem_singleton] at hnew
      exact hc ((h.reports.reported_iff _).2 ⟨r, Array.mem_toList_iff.1 hr, hnew⟩)
    · rcases Array.mem_push.1 hr with hr | rfl
      · exact hold r hr c' hc' heq
      · rcases List.mem_append.1 hc' with hc' | hc'
        · exact absurd (heq ▸ h.reports.covers c' hc') hc
        · rw [List.mem_singleton.1 hc']

theorem earliest_foldl (h : f.Earliest seen) {cs : List Conflict}
    (hsorted : (seen ++ cs).Pairwise fun c c' => c.state ≤ c'.state) :
    (cs.foldl Findings.add f).Earliest (seen ++ cs) := by
  induction cs generalizing f seen with
  | nil => simpa using h
  | cons c cs ih =>
    have hlast : ∀ c' ∈ seen, c'.state ≤ c.state := fun c' hc' =>
      (List.pairwise_append.1 hsorted).2.2 c' hc' c List.mem_cons_self
    rw [List.append_cons] at hsorted ⊢
    exact ih (earliest_add h hlast) hsorted

end Findings

namespace Automaton

variable {m : Automaton} {d : Declaration} {table : Option NameTable} {c : Conflict}

/-- Conflicts are found state by state. -/
theorem pairwise_allConflicts (m : Automaton) (d : Declaration) (table : Option NameTable) :
    (m.allConflicts d table).Pairwise fun c c' => c.state ≤ c'.state := by
  have hstate : ∀ {s state}, ∀ c ∈ m.conflictsAt d table state s, c.state = state := by
    intro s state c hc
    obtain ⟨x, y, -, -, rfl⟩ := mem_conflictsAt_iff.1 hc
    rfl
  have hstates : m.states.toList.zipIdx.Pairwise fun e e' => e.2 < e'.2 := by
    rw [← List.pairwise_map (f := Prod.snd) (R := (· < ·)), List.zipIdx_map_snd]
    exact List.pairwise_lt_range'
  refine List.pairwise_flatMap.2 ⟨fun e _ => ?_, hstates.imp fun hlt c hc c' hc' => ?_⟩
  · exact List.pairwise_of_forall_mem_list fun c hc c' hc' =>
      Nat.le_of_eq ((hstate c hc).trans (hstate c' hc').symm)
  · rw [hstate c hc, hstate c' hc']
    exact Nat.le_of_lt hlt

theorem earliest_conflicts (m : Automaton) (d : Declaration) (table : Option NameTable) :
    ∃ f : Findings, m.conflicts d table = f.conflicts.toList ∧
      f.Earliest (m.allConflicts d table) :=
  ⟨_, rfl, Findings.earliest_foldl Findings.earliest_start (m.pairwise_allConflicts d table)⟩

/-- In the state, both claimants have live leaves, and the terms of two of these overlap. -/
def MeetIn (m : Automaton) (state : Nat) (P Q : Claimant) : Prop :=
  ∃ s p q leaf leaf', m.states[state]? = some s ∧ s.contains p = true ∧ s.contains q = true ∧
    m.leaves[p]? = some leaf ∧ m.leaves[q]? = some leaf' ∧
    (Candidate.ofLeaf p leaf).claimant = P ∧ (Candidate.ofLeaf q leaf').claimant = Q ∧
    leaf.term.overlaps leaf'.term = true

theorem meetIn_iff {state : Nat} {P Q : Claimant} : m.MeetIn state P Q ↔
    ∃ s, m.states[state]? = some s ∧ ∃ x ∈ m.candidates s, ∃ y ∈ m.candidates s,
      x.claimant = P ∧ y.claimant = Q ∧ x.term.overlaps y.term = true := by
  constructor
  · rintro ⟨s, p, q, leaf, leaf', hs, hp, hq, hleaf, hleaf', hP, hQ, hoverlap⟩
    refine ⟨s, hs, _, mem_candidates_iff.2 ⟨p, leaf, hp, hleaf, rfl⟩, _,
      mem_candidates_iff.2 ⟨q, leaf', hq, hleaf', rfl⟩, hP, hQ, ?_⟩
    rwa [Candidate.term_ofLeaf, Candidate.term_ofLeaf]
  · rintro ⟨s, hs, x, hx, y, hy, hP, hQ, hoverlap⟩
    obtain ⟨p, leaf, hp, hleaf, rfl⟩ := mem_candidates_iff.1 hx
    obtain ⟨q, leaf', hq, hleaf', rfl⟩ := mem_candidates_iff.1 hy
    rw [Candidate.term_ofLeaf, Candidate.term_ofLeaf] at hoverlap
    exact ⟨s, p, q, leaf, leaf', hs, hp, hq, hleaf, hleaf', hP, hQ, hoverlap⟩

/-- A conflict is about two claimants in order that meet in its state. -/
theorem meetIn_of_mem_allConflicts (h : c ∈ m.allConflicts d table) :
    c.first.key < c.second.key ∧ m.MeetIn c.state c.first c.second := by
  obtain ⟨s, hs, x, hx, y, hy, hconflict, hclaimants⟩ := exists_candidates_of_mem_allConflicts h
  rw [Candidate.conflictsWith, Bool.and_eq_true, bne_iff_ne] at hconflict
  obtain ⟨hne, hoverlap⟩ := hconflict
  have hfirst : c.first = (x.claimant.ordered y.claimant).1 := congrArg Prod.fst hclaimants
  have hsecond : c.second = (x.claimant.ordered y.claimant).2 := congrArg Prod.snd hclaimants
  rw [hfirst, hsecond]
  refine ⟨Claimant.key_fst_ordered_lt hne, meetIn_iff.2 ⟨s, hs, ?_⟩⟩
  rcases x.claimant.ordered_eq y.claimant with heq | heq
  · rw [heq]
    exact ⟨x, hx, y, hy, rfl, rfl, hoverlap⟩
  · rw [heq]
    exact ⟨y, hy, x, hx, rfl, rfl, Term.overlaps_comm x.term y.term ▸ hoverlap⟩

/-- Two claimants in order that meet in a state conflict there. -/
theorem exists_mem_allConflicts_of_meetIn {state : Nat} {P Q : Claimant}
    (h : m.MeetIn state P Q) (hlt : P.key < Q.key) (d : Declaration) (table : Option NameTable) :
    ∃ c ∈ m.allConflicts d table, c.state = state ∧ c.claimants = (P, Q) := by
  obtain ⟨s, hs, x, hx, y, hy, rfl, rfl, hoverlap⟩ := meetIn_iff.1 h
  have hconflict : x.conflictsWith y = true := by
    rw [Candidate.conflictsWith, Bool.and_eq_true, bne_iff_ne]
    exact ⟨fun heq => lt_irrefl _ (heq ▸ hlt), hoverlap⟩
  obtain ⟨c, hc, hstate, hclaimants⟩ := exists_mem_allConflicts hs hx hy hconflict
  refine ⟨c, hc, hstate, hclaimants.resolve_right fun hswapped => ?_⟩
  have hfirst : c.first = y.claimant := congrArg Prod.fst hswapped
  have hsecond : c.second = x.claimant := congrArg Prod.snd hswapped
  have hkey := (meetIn_of_mem_allConflicts hc).1
  rw [hfirst, hsecond] at hkey
  exact lt_asymm hlt hkey

/-- A conflict is reported in the first state in which its claimants meet. -/
theorem isLeast_of_mem_conflicts (h : c ∈ m.conflicts d table) :
    c.first.key < c.second.key ∧ IsLeast {i | m.MeetIn i c.first c.second} c.state := by
  obtain ⟨f, hf, hearliest⟩ := m.earliest_conflicts d table
  rw [hf] at h
  obtain ⟨hlt, hmeet⟩ := meetIn_of_mem_allConflicts (hearliest.sublist.subset h)
  refine ⟨hlt, hmeet, fun i hi => ?_⟩
  obtain ⟨c', hc', rfl, heq⟩ := exists_mem_allConflicts_of_meetIn hi hlt d table
  exact hearliest.state_le c (Array.mem_toList_iff.1 h) c' hc' heq

/-- Each unordered pair is reported once. -/
theorem nodup_pairs_conflicts (m : Automaton) (d : Declaration) (table : Option NameTable) :
    ((m.conflicts d table).map fun c => s(c.first, c.second)).Nodup := by
  obtain ⟨f, hf, hearliest⟩ := m.earliest_conflicts d table
  have hnodup : ((m.conflicts d table).map Conflict.claimants).Nodup := hf ▸ hearliest.nodup
  refine hnodup.of_map.map_on fun c hc c' hc' heq => List.inj_on_of_nodup_map hnodup hc hc' ?_
  have hlt := (isLeast_of_mem_conflicts hc).1
  have hlt' := (isLeast_of_mem_conflicts hc').1
  rcases Sym2.eq_iff.1 heq with ⟨hfirst, hsecond⟩ | ⟨hfirst, hsecond⟩
  · exact Prod.ext hfirst hsecond
  · -- both pairs are in order, so one is not the other the other way round
    rw [hfirst, hsecond] at hlt
    exact absurd hlt (lt_asymm hlt')

end Automaton

/-! ## The report of a declaration -/

section Declaration

variable {d : Declaration} {a : Analysis} {m : Automaton} {limits limits' : Limits}
  {table : Option NameTable}

/-- Children lead to every state if every class has a child, and some lead there that are no more
than any others that do. -/
theorem Automaton.exists_shortest_run {t : Tree} (hr : t.Realizable) (h : a.IsExact t)
    (hm : Automaton.ofAnalysis a limits = .ok m) {i : Nat} (hi : i < m.states.size) :
    ∃ w, m.run w = .ok i ∧ ∀ v, m.run v = .ok i → w.length ≤ v.length := by
  have hexplored := isExplored_ofAnalysis h hm
  have hs := Array.getElem?_eq_getElem hi
  have hreached := hexplored.reached _ (Array.mem_of_getElem? hs)
  rw [hexplored.classes_eq] at hreached
  obtain ⟨u, -, hafter⟩ := exists_isAfter_of_reached h (hr.exists_child h) hreached
  obtain ⟨w, hw, hmin⟩ := (measure List.length).wf.has_min {w | m.run w = .ok i}
    ⟨u, run_eq_of_isAfter h hm hs hafter⟩
  exact ⟨w, hw, fun v hv => Nat.not_lt.1 (hmin v hv)⟩

/-- Each pair of claimants is reported at most once, with the earlier one first, and the conflicts
come in the order of their states. Each is reported in the state with the lowest number in which the
two claimants meet, and children lead there that are no more than any others after which they meet.
The leaves must leave the reserved namespace alone, and they and the namespaces they mention must not
be too many. -/
theorem conflicts_come_first (ha : Analysis.ofDeclaration d limits = .ok a)
    (hm : Automaton.ofAnalysis a limits' = .ok m) (havoid : AvoidsReserved d.tree.terms)
    (hleaves : d.tree.leaves.length < 2 ^ 31)
    (hmention : (mentionedBy d.tree.terms).length < 2 ^ 31) (table : Option NameTable) :
    ((m.conflicts d table).map fun c => s(c.first, c.second)).Nodup ∧
    (m.conflicts d table).Pairwise (fun c c' => c.state ≤ c'.state) ∧
    ∀ c ∈ m.conflicts d table, c.first.key < c.second.key ∧
      IsLeast {i | m.MeetIn i c.first c.second} c.state ∧
      ∃ w, m.run w = .ok c.state ∧
        ∀ v j, m.run v = .ok j → m.MeetIn j c.first c.second → w.length ≤ v.length := by
  have h := Analysis.isExact_ofDeclaration ha
  have hr : d.tree.Realizable := ⟨havoid, hleaves, hmention⟩
  obtain ⟨f, hf, hearliest⟩ := m.earliest_conflicts d table
  refine ⟨m.nodup_pairs_conflicts d table, ?_, fun c hc => ?_⟩
  · rw [hf]
    exact (m.pairwise_allConflicts d table).sublist hearliest.sublist
  · obtain ⟨hlt, hleast⟩ := Automaton.isLeast_of_mem_conflicts hc
    obtain ⟨s, -, -, -, -, hs, -⟩ := hleast.1
    obtain ⟨w, hw, hmin⟩ :=
      Automaton.exists_shortest_run hr h hm (Array.getElem?_eq_some_iff.1 hs).1
    refine ⟨hlt, hleast, w, hw, fun v j hv hmeet => ?_⟩
    -- a state with a higher number is no nearer
    obtain ⟨u, hu, hlen⟩ :=
      Automaton.exists_run_of_le h hm (hr.exists_child h) hv (hleast.2 hmeet)
    exact Nat.le_trans (hmin u hu) hlen

end Declaration

/-- The content `b, (a | a)`, where an `a` after the `b` may be either. -/
def twinContent : Declaration where
  nodes := #[.leaf (.element ⟨0, 2⟩) none, .leaf (.element ⟨0, 1⟩) none,
    .leaf (.element ⟨0, 1⟩) none, .group .choice 1 2, .group .sequence 0 3]
  root := 4
  labels := #[]
  root_lt := by decide
  earlier := by decide

theorem tree_twinContent : twinContent.tree = .group 4 .sequence (.leaf 0 (.element ⟨0, 2⟩) none)
    (.group 3 .choice (.leaf 1 (.element ⟨0, 1⟩) none) (.leaf 2 (.element ⟨0, 1⟩) none)) := by
  cbv

theorem realizable_twinContent : twinContent.tree.Realizable := by
  rw [tree_twinContent]
  refine ⟨⟨fun s hs => ?_, by decide⟩, by decide, by decide⟩
  obtain rfl | rfl : s = ⟨0, 2⟩ ∨ s = ⟨0, 1⟩ := by simpa [Tree.terms] using hs
  all_goals rfl

/-- The two leaves for `a` conflict after the `b`. -/
theorem exists_conflict_twinContent : ∃ a m,
    Analysis.ofDeclaration twinContent .standard = .ok a ∧
    Automaton.ofAnalysis a .standard = .ok m ∧
    ∃ c ∈ m.conflicts twinContent none, c.claimants = (.position 1, .position 2) := by
  obtain ⟨a, ha⟩ : ∃ a, Analysis.ofDeclaration twinContent .standard = .ok a := by
    rw [Analysis.exists_ofDeclaration_iff, tree_twinContent]
    decide
  have hexact := Analysis.isExact_ofDeclaration ha
  have hleaves : a.leaves.toList =
      [⟨.element ⟨0, 2⟩, none, 0⟩, ⟨.element ⟨0, 1⟩, none, 1⟩, ⟨.element ⟨0, 1⟩, none, 2⟩] := by
    rw [hexact.leaves_eq, tree_twinContent]
    rfl
  have hroom : 2 ^ (a.leaves.size + 1) ≤ Limits.standard.states := by
    rw [← Array.length_toList, hleaves]
    decide
  obtain ⟨m, hm⟩ := Automaton.exists_ofAnalysis hexact hroom
  have hwords : twinContent.tree.marked a.positionOf? =
      .append (.letter 0) (.union (.letter 1) (.letter 2)) := by
    rw [hexact.marked_eq_numbered, tree_twinContent]
    rfl
  have hleaf : ∀ {p : Nat} {leaf : Leaf}, a.leaves.toList[p]? = some leaf →
      a.leaves[p]? = some leaf := fun h => Array.getElem?_toList ▸ h
  rw [hleaves] at hleaf
  have hbefore : Forall₂ (TakesAt a.leaves.toList) [0] [⟨0, 2⟩] :=
    .cons ⟨_, by rw [hleaves]; rfl, rfl⟩ .nil
  -- after the `b`, an `a` may be attributed to both leaves
  have hboth : ∃ c ∈ m.conflicts twinContent none,
      c.claimants = (.position 1, .position 2) ∨ c.claimants = (.position 2, .position 1) := by
    refine Automaton.reports_iff.2 ((exists_candidates_iff realizable_twinContent hexact
      (Automaton.isExplored_ofAnalysis hexact hm)).2 ⟨by decide, [⟨0, 2⟩], ⟨0, 1⟩,
        ⟨[0], 1, [], _, ?_, hbefore, hleaf rfl, rfl, rfl⟩,
        ⟨[0], 2, [], _, ?_, hbefore, hleaf rfl, rfl, rfl⟩⟩)
    · rw [hwords]
      exact ⟨[0], [1], rfl, rfl, .inl rfl⟩
    · rw [hwords]
      exact ⟨[0], [2], rfl, rfl, .inr rfl⟩
  obtain ⟨c, hc, hpair | hpair⟩ := hboth
  · exact ⟨a, m, ha, hm, c, hc, hpair⟩
  · -- the earlier claimant comes first
    have hlt := (Automaton.isLeast_of_mem_conflicts hc).1
    obtain ⟨hfirst, hsecond⟩ := Prod.mk.inj hpair
    rw [hfirst, hsecond] at hlt
    exact absurd hlt (by decide)

theorem conflicts_come_first_twinContent : ∃ a m,
    Analysis.ofDeclaration twinContent .standard = .ok a ∧
    Automaton.ofAnalysis a .standard = .ok m ∧
    ∃ c ∈ m.conflicts twinContent none, c.claimants = (.position 1, .position 2) ∧
      IsLeast {i | m.MeetIn i (.position 1) (.position 2)} c.state := by
  obtain ⟨a, m, ha, hm, c, hc, hclaimants⟩ := exists_conflict_twinContent
  have hr := realizable_twinContent
  obtain ⟨-, hleast, -⟩ := (conflicts_come_first ha hm hr.avoids hr.leaves_lt hr.mentioned_lt
    none).2.2 c hc
  obtain ⟨hfirst, hsecond⟩ := Prod.mk.inj hclaimants
  rw [hfirst, hsecond] at hleast
  exact ⟨a, m, ha, hm, c, hc, hclaimants, hleast⟩

end ElementContent
