import ElementContent.Proofs.Attribution.Report
import ElementContent.Proofs.Automaton.Bound
import ElementContent.Proofs.Position.Depth

/-!
# Contents without conflicts have few states

In general there may be exponentially many sets of positions. If no conflict is reported and every
leaf is a claimant of its own, then a child that may come next is taken by one position only. So
each step leads to what may follow that position, and there are no more states than positions and
the beginning.

- `Term.overlaps_of_takes`: terms that take one class overlap, whatever the class is.
- `Automaton.Distinct`: no two leaves belong to one declared particle.
- `Automaton.eq_of_takes`: in a state, a class is taken by one position at most.
- `eq_followSet_of_successors`: a class that one position takes leads to what may follow it, so the
  states are the first set and such sets.
-/

namespace ElementContent

/-- Terms that take the children of one class overlap. -/
theorem Term.overlaps_of_takes {t u : Term} {c : InputClass} (ht : t.takes c = true)
    (hu : u.takes c = true) : t.overlaps u = true := by
  -- wildcards that admit a common namespace, or all those that neither names, are not disjoint
  have hshare : ∀ {w v : Wildcard} {n : NamespaceId}, w.allows n = true → v.allows n = true →
      w.disjoint v = false := by
    intro w v n hw hv
    refine Bool.eq_false_iff.2 fun h => ?_
    rw [Wildcard.allows_of_disjoint h hw] at hv
    cases hv
  have hforeign : ∀ {w v : Wildcard}, w.allowsForeign = true → v.allowsForeign = true →
      w.disjoint v = false := by
    intro w v hw hv
    cases v with
    | oneOf => cases hv
    | any => cases w <;> first | rfl | cases hw
    | other => cases w <;> first | rfl | cases hw
    | noneOf => cases w <;> first | rfl | cases hw
  cases t with
  | element a =>
    cases c with
    | element s =>
      obtain rfl := beq_iff_eq.1 ht
      cases u with
      | element b => exact beq_iff_eq.2 (beq_iff_eq.1 hu).symm
      | any v => exact hu
      | text => cases hu
      | empty => cases hu
    | space n => cases ht
    | foreign => cases ht
  | any w =>
    cases u with
    | element b =>
      cases c with
      | element s =>
        obtain rfl := beq_iff_eq.1 hu
        exact ht
      | space n => cases hu
      | foreign => cases hu
    | any v =>
      show (!w.disjoint v) = true
      rw [Bool.not_eq_true']
      cases c with
      | element s => exact hshare ht hu
      | space n => exact hshare ht hu
      | foreign => exact hforeign ht hu
    | text => cases hu
    | empty => cases hu
  | text => cases ht
  | empty => cases ht

namespace Automaton

variable {m : Automaton} {d : Declaration} {table : Option NameTable} {s : PositionSet}

theorem mem_liveLeaves_iff {p : Nat} {leaf : Leaf} :
    (p, leaf) ∈ m.liveLeaves s ↔ s.contains p = true ∧ m.leaves[p]? = some leaf := by
  simp [liveLeaves, List.mem_filterMap]

/-- No two leaves belong to one declared particle. -/
def Distinct (m : Automaton) : Prop :=
  ∀ (p q : Nat) (leaf leaf' : Leaf) (id : Nat), m.leaves[p]? = some leaf →
    m.leaves[q]? = some leaf' → leaf.particle = some id → leaf'.particle = some id → p = q

/-- Leaves at different positions are of different claimants. -/
theorem Distinct.claimant_ne (h : m.Distinct) {p q : Nat} {leaf leaf' : Leaf}
    (hp : m.leaves[p]? = some leaf) (hq : m.leaves[q]? = some leaf') (hne : p ≠ q) :
    (Candidate.ofLeaf p leaf).claimant ≠ (Candidate.ofLeaf q leaf').claimant := by
  intro heq
  rcases Candidate.claimant_ofLeaf_eq_iff.1 heq with ⟨id, hid, hid'⟩ | ⟨-, -, hpq⟩
  · exact hne (h p q leaf leaf' id hp hq hid hid')
  · exact hne hpq

/-- A class is taken by one position at most of each state. -/
theorem eq_of_takes (hclean : m.conflicts d table = []) (hdistinct : m.Distinct)
    (hs : s ∈ m.states) {p q : Nat} {leaf leaf' : Leaf} {c : InputClass}
    (hp : (p, leaf) ∈ m.liveLeaves s) (hq : (q, leaf') ∈ m.liveLeaves s)
    (hc : leaf.term.takes c = true) (hc' : leaf'.term.takes c = true) : p = q := by
  obtain ⟨hsp, hp⟩ := mem_liveLeaves_iff.1 hp
  obtain ⟨hsq, hq⟩ := mem_liveLeaves_iff.1 hq
  by_contra hne
  -- otherwise the two leaves are candidates that conflict
  have hconflict : (Candidate.ofLeaf p leaf).conflictsWith (.ofLeaf q leaf') = true :=
    Candidate.conflictsWith_ofLeaf_iff.2
      ⟨hdistinct.claimant_ne hp hq hne, Term.overlaps_of_takes hc hc'⟩
  obtain ⟨c, hmem, -⟩ := reports_iff.2 ⟨s, hs, _, mem_candidates_iff.2 ⟨p, leaf, hsp, hp, rfl⟩, _,
    mem_candidates_iff.2 ⟨q, leaf', hsq, hq, rfl⟩, rfl, rfl, hconflict⟩
  rw [hclean] at hmem
  cases hmem

/-- Leaves that do not overlap do not conflict. -/
theorem conflicts_eq_nil_of_not_overlaps
    (h : ∀ (p q : Nat) (leaf leaf' : Leaf), m.leaves[p]? = some leaf → m.leaves[q]? = some leaf' →
      p ≠ q → leaf.term.overlaps leaf'.term = false) : m.conflicts d table = [] := by
  refine List.eq_nil_iff_forall_not_mem.2 fun c hc => ?_
  obtain ⟨s, -, x, hx, y, hy, -, -, hconflict⟩ :=
    reports_iff.1 ⟨c, hc, .inl (rfl : c.claimants = (c.first, c.second))⟩
  obtain ⟨p, leaf, -, hp, rfl⟩ := mem_candidates_iff.1 hx
  obtain ⟨q, leaf', -, hq, rfl⟩ := mem_candidates_iff.1 hy
  obtain ⟨hne, hoverlaps⟩ := Candidate.conflictsWith_ofLeaf_iff.1 hconflict
  have hpq : p ≠ q := by
    rintro rfl
    obtain rfl := Option.some.inj (hp.symm.trans hq)
    exact hne rfl
  rw [h p q leaf leaf' hp hq hpq] at hoverlaps
  cases hoverlaps

end Automaton

/-! ## States -/

section States

variable {t : Tree} {a : Analysis} {classes : List InputClass} {s : PositionSet}

/-- A class leads from the positions that take it, if there is only one, to what may follow it. -/
theorem eq_followSet_of_successors (h : a.IsExact t) {c : Nat} {target : PositionSet}
    (hc : (successors (a.moves classes) classes.length s)[c]? = some (some target))
    (hne : target.isEmpty = false)
    (hunique : ∀ (p q : Nat) (leaf leaf' : Leaf) (cls : InputClass), s.contains p = true →
      s.contains q = true → a.leaves[p]? = some leaf → a.leaves[q]? = some leaf' →
      leaf.term.takes cls = true → leaf'.term.takes cls = true → p = q) :
    ∃ p f, a.follow[p]? = some f ∧ target = a.followSet p f := by
  have hdesc := describes_successors h classes s
  have hlt : c < classes.length := hdesc.size_eq ▸ (Array.getElem?_eq_some_iff.1 hc).1
  have hiff : ∀ q, target.contains q = true ↔ a.Leads t classes s c q := by
    intro q
    rw [← hdesc.holds_iff hlt, hc]
    simp
  -- some position takes the class, and it is the only one
  obtain ⟨q, hq⟩ := PositionSet.exists_contains_of_not_isEmpty hne
  obtain ⟨p, leaf, cls, hsp, hp, hcls, htakes, -⟩ := (hiff q).1 hq
  have hf := Array.getElem?_eq_getElem
    (h.size_follow ▸ (Array.getElem?_eq_some_iff.1 hp).1 : p < a.follow.size)
  refine ⟨p, _, hf, PositionSet.ext_contains ?_ fun q => ?_⟩
  · rw [hdesc.words_eq hc, Analysis.words_followSet]
  · rw [Bool.eq_iff_iff, hiff, Analysis.contains_followSet h hf]
    constructor
    · rintro ⟨p', leaf', cls', hsp', hp', hcls', htakes', hadjacent⟩
      obtain rfl := Option.some.inj (hcls.symm.trans hcls')
      rwa [hunique p p' leaf leaf' cls hsp hsp' hp hp' htakes htakes']
    · exact fun hadjacent => ⟨p, leaf, cls, hsp, hp, hcls, htakes, hadjacent⟩

/-- The first set, and what may follow each position. -/
def Analysis.nextSets (a : Analysis) : List PositionSet :=
  a.startSet :: a.follow.toList.zipIdx.map fun (f, p) => a.followSet p f

theorem Analysis.followSet_mem_nextSets {p : Nat} {f : PositionSet} (hf : a.follow[p]? = some f) :
    a.followSet p f ∈ a.nextSets := by
  refine List.mem_cons_of_mem _ (List.mem_map.2 ⟨(f, p), ?_, rfl⟩)
  rwa [List.mk_mem_zipIdx_iff_getElem?, Array.getElem?_toList]

end States

/-- A content without conflicts, of which no two leaves belong to one declared particle: in each
state, one live position at most takes any given class of children, and there are no more states
than positions and one. -/
theorem size_states_le_of_conflicts_eq_nil {d : Declaration} {limits limits' : Limits}
    {a : Analysis} {m : Automaton} {table : Option NameTable}
    (ha : Analysis.ofDeclaration d limits = .ok a) (hm : Automaton.ofAnalysis a limits' = .ok m)
    (hclean : m.conflicts d table = []) (hdistinct : m.Distinct) :
    (∀ s ∈ m.states, ∀ c : InputClass, ∀ x ∈ m.liveLeaves s, ∀ y ∈ m.liveLeaves s,
      x.2.term.takes c = true → y.2.term.takes c = true → x = y) ∧
    m.states.size ≤ m.leaves.size + 1 := by
  have hunique : ∀ s ∈ m.states, ∀ c : InputClass, ∀ x ∈ m.liveLeaves s, ∀ y ∈ m.liveLeaves s,
      x.2.term.takes c = true → y.2.term.takes c = true → x = y := by
    rintro s hs c ⟨p, leaf⟩ hx ⟨q, leaf'⟩ hy hc hc'
    obtain rfl := Automaton.eq_of_takes hclean hdistinct hs hx hy hc hc'
    have hp := (Automaton.mem_liveLeaves_iff.1 hx).2
    have hq := (Automaton.mem_liveLeaves_iff.1 hy).2
    rw [Option.some.inj (hp.symm.trans hq)]
  refine ⟨hunique, ?_⟩
  have hexact := Analysis.isExact_ofDeclaration ha
  have hleaves := (Automaton.leaves_and_classes_ofAnalysis hm).1
  obtain ⟨he, hdone, hnodup⟩ := Automaton.explored_ofAnalysis hm
  have hsub : m.states.toList ⊆ a.nextSets := by
    intro s hs
    cases he.met s (Array.mem_toList_iff.1 hs) with
    | start => exact List.mem_cons_self
    | step hmet hc hne =>
      have hmem := he.mem_of_met hdone hmet
      obtain ⟨p, f, hf, rfl⟩ := eq_followSet_of_successors hexact hc hne
        fun p q leaf leaf' cls hp hq hleaf hleaf' htakes htakes' =>
          congrArg Prod.fst (hunique _ hmem cls (p, leaf)
            (Automaton.mem_liveLeaves_iff.2 ⟨hp, hleaves ▸ hleaf⟩) (q, leaf')
            (Automaton.mem_liveLeaves_iff.2 ⟨hq, hleaves ▸ hleaf'⟩) htakes htakes')
      exact Analysis.followSet_mem_nextSets hf
  have hlen := (List.subperm_of_subset hnodup hsub).length_le
  rw [hleaves, ← hexact.size_follow]
  simpa [Analysis.nextSets] using hlen

/-- The content `a?, other`, where an element `a` has no namespace and the wildcard asks for one. -/
def clearContent : Declaration where
  nodes := #[.leaf (.element ⟨0, 1⟩) (some 0), .quantified .optional 0,
    .leaf (.any (.other 1)) (some 1), .group .sequence 1 2]
  root := 3
  labels := #["a", "other"]
  root_lt := by decide
  earlier := by decide

theorem size_states_clearContent : ∃ a m,
    Analysis.ofDeclaration clearContent .standard = .ok a ∧
    Automaton.ofAnalysis a .standard = .ok m ∧ m.conflicts clearContent none = [] ∧
    m.Distinct ∧ m.leaves.size = 2 ∧ m.states.size ≤ 3 := by
  have htree : clearContent.tree = .group 3 .sequence
      (.quantified 1 .optional (.leaf 0 (.element ⟨0, 1⟩) (some 0)))
      (.leaf 2 (.any (.other 1)) (some 1)) := by
    cbv
  obtain ⟨a, ha⟩ : ∃ a, Analysis.ofDeclaration clearContent .standard = .ok a := by
    rw [Analysis.exists_ofDeclaration_iff, htree]
    decide
  have hexact := Analysis.isExact_ofDeclaration ha
  have hleaves : a.leaves.toList =
      [⟨.element ⟨0, 1⟩, some 0, 0⟩, ⟨.any (.other 1), some 1, 2⟩] := by
    rw [hexact.leaves_eq, htree]
    rfl
  have hsize : a.leaves.size = 2 := by
    rw [← Array.length_toList, hleaves]
    rfl
  have hroom : 2 ^ (a.leaves.size + 1) ≤ Limits.standard.states := by
    rw [hsize]
    decide
  obtain ⟨m, hm⟩ := Automaton.exists_ofAnalysis hexact hroom
  have hsame := (Automaton.leaves_and_classes_ofAnalysis hm).1
  have hlookup : ∀ (p : Nat) (leaf : Leaf), m.leaves[p]? = some leaf →
      p = 0 ∧ leaf = ⟨.element ⟨0, 1⟩, some 0, 0⟩ ∨
        p = 1 ∧ leaf = ⟨.any (.other 1), some 1, 2⟩ := by
    intro p leaf hp
    rw [hsame, ← Array.getElem?_toList, hleaves] at hp
    rcases p with _ | _ | p
    · exact .inl ⟨rfl, (Option.some.inj hp).symm⟩
    · exact .inr ⟨rfl, (Option.some.inj hp).symm⟩
    · cases hp
  -- the two leaves differ in their particles, and their terms do not overlap
  have hclean : m.conflicts clearContent none = [] := by
    refine Automaton.conflicts_eq_nil_of_not_overlaps fun p q leaf leaf' hp hq hne => ?_
    rcases hlookup p leaf hp with ⟨rfl, rfl⟩ | ⟨rfl, rfl⟩ <;>
      rcases hlookup q leaf' hq with ⟨rfl, rfl⟩ | ⟨rfl, rfl⟩
    · exact absurd rfl hne
    · rfl
    · rfl
    · exact absurd rfl hne
  have hdistinct : m.Distinct := by
    intro p q leaf leaf' id hp hq hid hid'
    rcases hlookup p leaf hp with ⟨rfl, rfl⟩ | ⟨rfl, rfl⟩ <;>
      rcases hlookup q leaf' hq with ⟨rfl, rfl⟩ | ⟨rfl, rfl⟩
    · rfl
    · cases hid.trans hid'.symm
    · cases hid.trans hid'.symm
    · rfl
  have hbound := (size_states_le_of_conflicts_eq_nil ha hm hclean hdistinct).2
  rw [hsame, hsize] at hbound
  exact ⟨a, m, ha, hm, hclean, hdistinct, hsame ▸ hsize, hbound⟩

end ElementContent
