import ElementContent.Proofs.Attribution.Report
import ElementContent.Proofs.Automaton.Bound
import ElementContent.Proofs.Automaton.Simulation

/-!
# Reported pairs are those that a document can bring about

The check looks at states and at the form of terms only. What it reports is nevertheless exact: a
pair of claimants is reported if and only if, after the same children, one more child may be
attributed to either of them. So an empty report means that attribution is unique.

The reserved namespace must not be mentioned, and the leaves and the namespaces must not be so many
that names run out. Otherwise a state or an overlap might be one that no child brings about.

- `Attributable`: a child may be attributed to a claimant, read off the marked words.
- `mem_states_iff_alive`: some state holds two positions if and only if some children leave both
  alive.
-/

namespace ElementContent

open List (Forall₂)

/-- After the children `w`, the child `s` may be attributed to the claimant: in some marked word, a
position of the claimant whose leaf accepts `s` comes after positions whose leaves accept `w`. -/
def Attributable (t : Tree) (a : Analysis) (w : List Symbol) (s : Symbol) (P : Claimant) : Prop :=
  ∃ (u : List Nat) (p : Nat) (v : List Nat) (leaf : Leaf),
    t.marked a.positionOf? (u ++ p :: v) ∧ Forall₂ (TakesAt a.leaves.toList) u w ∧
      a.leaves[p]? = some leaf ∧ leaf.term.accepts s = true ∧
        (Candidate.ofLeaf p leaf).claimant = P

variable {t : Tree} {a : Analysis} {m : Automaton}

theorem attributable_iff {w : List Symbol} {s : Symbol} {P : Claimant} :
    Attributable t a w s P ↔ ∃ p leaf,
      (t.marked a.positionOf?).Alive (TakesAt a.leaves.toList) w p ∧ a.leaves[p]? = some leaf ∧
        leaf.term.accepts s = true ∧ (Candidate.ofLeaf p leaf).claimant = P := by
  constructor
  · rintro ⟨u, p, v, leaf, huv, hu, hleaf⟩
    exact ⟨p, leaf, ⟨u, v, huv, hu⟩, hleaf⟩
  · rintro ⟨p, leaf, ⟨u, v, huv, hu⟩, hleaf⟩
    exact ⟨u, p, v, leaf, huv, hu, hleaf⟩

/-! ## States and children -/

/-- A content whose leaves leave the reserved namespace alone and are not too many: every class of
children has one, and terms overlap only where a child is taken by both. -/
structure Tree.Realizable (t : Tree) : Prop where
  avoids : AvoidsReserved t.terms
  leaves_lt : t.leaves.length < 2 ^ 31
  mentioned_lt : (mentionedBy t.terms).length < 2 ^ 31

theorem Tree.Realizable.exists_child (hr : t.Realizable) (h : a.IsExact t) :
    ∀ c ∈ alphabet (a.leaves.toList.map (·.term)),
      ∃ x, x.isReserved = false ∧ ClassOf (alphabet (a.leaves.toList.map (·.term))) x c := by
  have hterms : a.leaves.toList.map (·.term) = t.terms.filter Term.takesChild := by
    rw [h.leaves_eq, Tree.map_term_leaves]
  have hmention : mentionedBy (a.leaves.toList.map (·.term)) = mentionedBy t.terms := by
    rw [hterms, mentionedBy_filter_takesChild]
  intro c hc
  refine exists_symbol_of_class ⟨fun s hs => ?_, ?_⟩ ?_ ?_ hc
  · rw [hterms] at hs
    exact hr.avoids.1 s (List.mem_of_mem_filter hs)
  · rw [hmention]
    exact hr.avoids.2
  · rw [List.length_map, h.leaves_eq]
    exact hr.leaves_lt
  · rw [hmention]
    exact hr.mentioned_lt

theorem Tree.Realizable.overlaps_iff (hr : t.Realizable) (h : a.IsExact t) {p q : Nat}
    {leaf leaf' : Leaf} (hp : a.leaves[p]? = some leaf) (hq : a.leaves[q]? = some leaf') :
    leaf.term.overlaps leaf'.term = true ↔
      ∃ s, leaf.term.accepts s = true ∧ leaf'.term.accepts s = true := by
  have hmem : ∀ {p : Nat} {leaf : Leaf}, a.leaves[p]? = some leaf → leaf.term ∈ t.terms := by
    intro p leaf hp
    rw [← Array.getElem?_toList, h.leaves_eq] at hp
    exact (Tree.term_of_mem_leaves (List.mem_of_getElem? hp)).1
  exact Term.overlaps_iff hr.avoids (Nat.lt_trans hr.mentioned_lt (by decide)) (hmem hp) (hmem hq)

/-- Some state holds two positions if and only if some children leave both alive. -/
theorem mem_states_iff_alive (hr : t.Realizable) (h : a.IsExact t) (hm : m.IsExplored t a)
    {p q : Nat} (hp : p < a.leaves.size) (hq : q < a.leaves.size) :
    (∃ s ∈ m.states, s.contains p = true ∧ s.contains q = true) ↔
      ∃ w, (t.marked a.positionOf?).Alive (TakesAt a.leaves.toList) w p ∧
        (t.marked a.positionOf?).Alive (TakesAt a.leaves.toList) w q := by
  have hended : ∀ (w : List Symbol) {p : Nat}, p < a.leaves.size →
      ((a.ended t).Alive (TakesAt a.leaves.toList) w p ↔
        (t.marked a.positionOf?).Alive (TakesAt a.leaves.toList) w p) := by
    intro w p hp
    rw [Analysis.ended, Language.alive_append_letter_iff]
    exact or_iff_left fun hend => absurd hend.1 (Nat.ne_of_lt hp)
  constructor
  · rintro ⟨s, hs, hsp, hsq⟩
    have hreached := hm.reached s hs
    rw [hm.classes_eq] at hreached
    obtain ⟨w, -, hafter⟩ := Automaton.exists_isAfter_of_reached h (hr.exists_child h) hreached
    exact ⟨w, (hended w hp).1 ((hafter p).1 hsp), (hended w hq).1 ((hafter q).1 hsq)⟩
  · rintro ⟨w, hwp, hwq⟩
    obtain ⟨s, hs, hafter⟩ := Automaton.exists_state_of_alive h hm ((hended w hp).2 hwp)
    exact ⟨s, hs, (hafter p).2 ((hended w hp).2 hwp), (hafter q).2 ((hended w hq).2 hwq)⟩

/-! ## The report -/

/-- Candidates of a state that conflict are those that one child may be attributed to. -/
theorem exists_candidates_iff (hr : t.Realizable) (h : a.IsExact t) (hm : m.IsExplored t a)
    {P Q : Claimant} :
    (∃ s ∈ m.states, ∃ x ∈ m.candidates s, ∃ y ∈ m.candidates s, x.claimant = P ∧
        y.claimant = Q ∧ x.conflictsWith y = true) ↔
      P ≠ Q ∧ ∃ w s, Attributable t a w s P ∧ Attributable t a w s Q := by
  constructor
  · rintro ⟨s, hs, x, hx, y, hy, rfl, rfl, hconflict⟩
    obtain ⟨p, leaf, hsp, hp, rfl⟩ := mem_candidates_iff.1 hx
    obtain ⟨q, leaf', hsq, hq, rfl⟩ := mem_candidates_iff.1 hy
    rw [hm.leaves_eq] at hp hq
    rw [Candidate.conflictsWith, Bool.and_eq_true, bne_iff_ne, Candidate.term_ofLeaf,
      Candidate.term_ofLeaf, hr.overlaps_iff h hp hq] at hconflict
    -- the overlap is a child, and the state is that of some children before it
    obtain ⟨hne, c, hc, hc'⟩ := hconflict
    obtain ⟨w, hwp, hwq⟩ := (mem_states_iff_alive hr h hm (Array.getElem?_eq_some_iff.1 hp).1
      (Array.getElem?_eq_some_iff.1 hq).1).1 ⟨s, hs, hsp, hsq⟩
    exact ⟨hne, w, c, attributable_iff.2 ⟨p, leaf, hwp, hp, hc, rfl⟩,
      attributable_iff.2 ⟨q, leaf', hwq, hq, hc', rfl⟩⟩
  · rintro ⟨hne, w, c, hP, hQ⟩
    obtain ⟨p, leaf, hwp, hp, hc, rfl⟩ := attributable_iff.1 hP
    obtain ⟨q, leaf', hwq, hq, hc', rfl⟩ := attributable_iff.1 hQ
    obtain ⟨s, hs, hsp, hsq⟩ := (mem_states_iff_alive hr h hm (Array.getElem?_eq_some_iff.1 hp).1
      (Array.getElem?_eq_some_iff.1 hq).1).2 ⟨w, hwp, hwq⟩
    have hconflict : (Candidate.ofLeaf p leaf).conflictsWith (.ofLeaf q leaf') = true := by
      rw [Candidate.conflictsWith, Bool.and_eq_true, bne_iff_ne, Candidate.term_ofLeaf,
        Candidate.term_ofLeaf, hr.overlaps_iff h hp hq]
      exact ⟨hne, c, hc, hc'⟩
    exact ⟨s, hs, _, mem_candidates_iff.2 ⟨p, leaf, hsp, hm.leaves_eq ▸ hp, rfl⟩, _,
      mem_candidates_iff.2 ⟨q, leaf', hsq, hm.leaves_eq ▸ hq, rfl⟩, rfl, rfl, hconflict⟩

/-- A pair of claimants is reported if and only if, after the same children, one child may be
attributed to both; and nothing is reported if and only if no child may be attributed to two. -/
theorem conflicts_exact {d : Declaration} {limits limits' : Limits}
    (ha : Analysis.ofDeclaration d limits = .ok a) (hm : Automaton.ofAnalysis a limits' = .ok m)
    (havoid : AvoidsReserved d.tree.terms) (hleaves : d.tree.leaves.length < 2 ^ 31)
    (hmention : (mentionedBy d.tree.terms).length < 2 ^ 31) (table : Option NameTable) :
    (∀ P Q : Claimant, P ≠ Q →
      ((∃ c ∈ m.conflicts d table, c.claimants = (P, Q) ∨ c.claimants = (Q, P)) ↔
        ∃ w s, Attributable d.tree a w s P ∧ Attributable d.tree a w s Q)) ∧
    (m.conflicts d table = [] ↔ ∀ (w : List Symbol) (s : Symbol) (P Q : Claimant),
      Attributable d.tree a w s P → Attributable d.tree a w s Q → P = Q) := by
  have hr : d.tree.Realizable := ⟨havoid, hleaves, hmention⟩
  have hexact := Analysis.isExact_ofDeclaration ha
  have hexplored := Automaton.isExplored_ofAnalysis hexact hm
  have hiff : ∀ P Q : Claimant,
      (∃ c ∈ m.conflicts d table, c.claimants = (P, Q) ∨ c.claimants = (Q, P)) ↔
        P ≠ Q ∧ ∃ w s, Attributable d.tree a w s P ∧ Attributable d.tree a w s Q :=
    fun P Q => Automaton.reports_iff.trans (exists_candidates_iff hr hexact hexplored)
  refine ⟨fun P Q hne => (hiff P Q).trans (and_iff_right hne), ?_⟩
  rw [List.eq_nil_iff_forall_not_mem]
  constructor
  · intro hnone w s P Q hP hQ
    by_contra hne
    obtain ⟨c, hc, -⟩ := (hiff P Q).2 ⟨hne, w, s, hP, hQ⟩
    exact hnone c hc
  · intro hunique c hc
    obtain ⟨hne, w, s, hP, hQ⟩ := (hiff c.first c.second).1 ⟨c, hc, .inl rfl⟩
    exact hne (hunique w s _ _ hP hQ)

/-- The content `a?, any`, where an element `a` that comes first may be either. -/
def ambiguousContent : Declaration where
  nodes := #[.leaf (.element ⟨0, 1⟩) none, .quantified .optional 0, .leaf (.any .any) none,
    .group .sequence 1 2]
  root := 3
  labels := #[]
  root_lt := by decide
  earlier := by decide

theorem conflicts_ambiguousContent : ∃ a m,
    Analysis.ofDeclaration ambiguousContent .standard = .ok a ∧
    Automaton.ofAnalysis a .standard = .ok m ∧ ∃ c ∈ m.conflicts ambiguousContent none,
      c.claimants = (.position 0, .position 1) ∨ c.claimants = (.position 1, .position 0) := by
  have htree : ambiguousContent.tree = .group 3 .sequence
      (.quantified 1 .optional (.leaf 0 (.element ⟨0, 1⟩) none)) (.leaf 2 (.any .any) none) := by
    cbv
  cases ha : Analysis.ofDeclaration ambiguousContent .standard with
  | error e =>
    have hok : (Analysis.ofDeclaration ambiguousContent .standard).isOk = true := by cbv
    rw [ha] at hok
    cases hok
  | ok a =>
    have hexact := Analysis.isExact_ofDeclaration ha
    have hleaves : a.leaves.toList = [⟨.element ⟨0, 1⟩, none, 0⟩, ⟨.any .any, none, 2⟩] := by
      rw [hexact.leaves_eq, htree]
      rfl
    have hsize : a.leaves.size = 2 := by
      rw [← Array.length_toList, hleaves]
      rfl
    have hroom : 2 ^ (a.leaves.size + 1) ≤ Limits.standard.states := by
      rw [hsize]
      decide
    obtain ⟨m, hm⟩ := Automaton.exists_ofAnalysis hexact hroom
    have hwords : ambiguousContent.tree.marked a.positionOf? = .append
        (Quantifier.optional.iterate (.letter 0)) (.letter 1) := by
      rw [hexact.marked_eq_numbered, htree]
      rfl
    have havoid : AvoidsReserved ambiguousContent.tree.terms := by
      rw [htree]
      refine ⟨fun s hs => ?_, by decide⟩
      obtain rfl : s = ⟨0, 1⟩ := by simpa [Tree.terms] using hs
      rfl
    have hexactly := conflicts_exact ha hm havoid (by rw [htree]; decide) (by rw [htree]; decide)
      none
    refine ⟨a, m, rfl, hm, (hexactly.1 (.position 0) (.position 1) (by decide)).2
      ⟨[], ⟨0, 1⟩, ⟨[], 0, [1], ⟨.element ⟨0, 1⟩, none, 0⟩, ?_, .nil, ?_, rfl, rfl⟩,
        ⟨[], 1, [], ⟨.any .any, none, 2⟩, ?_, .nil, ?_, rfl, rfl⟩⟩⟩
    · rw [hwords]
      exact ⟨[0], [1], rfl, Language.iterate_of_mem _ rfl, rfl⟩
    · rw [← Array.getElem?_toList, hleaves]
      rfl
    · rw [hwords]
      exact ⟨[], [1], rfl, ⟨0, Nat.zero_le 1, rfl⟩, rfl⟩
    · rw [← Array.getElem?_toList, hleaves]
      rfl

end ElementContent
