import ElementContent.Proofs.Automaton.Alphabet
import ElementContent.Proofs.Automaton.Bound
import ElementContent.Proofs.Position.Depth

/-!
# Children of one class are read alike

An automaton does not look at its children, but only at their classes. Nothing is lost by this: what
a leaf says of a child, it says of the whole class, because the classes are made from the terms of
the leaves. And as every step goes by the class, children of one class can stand for each other
anywhere in a sequence.

- `Automaton.lt_length_of_classOf?`: the number of a class is that of a listed one.
- `Automaton.accepts_iff_takes_classOf?`: a leaf accepts the children whose classes it takes.
- `Automaton.step?_congr`, `Automaton.runFrom_congr`: children of one class lead to one state.
- `classes_are_exact_quotient`: all this for the automaton of an analysis.
-/

namespace ElementContent

namespace Automaton

variable {a : Analysis} {limits : Limits} {m : Automaton} {s s' : Symbol}

theorem lt_length_of_classOf? {i : Nat} (hnodup : m.classes.Nodup) (h : m.classOf? s = some i) :
    i < m.classes.length := by
  obtain ⟨-, c, hc, -⟩ := (classOf?_eq_some_iff hnodup).1 h
  exact (List.getElem?_eq_some_iff.1 hc).1

/-- The leaves of the automaton of an analysis accept the children whose classes they take. -/
theorem accepts_iff_takes_classOf? (hm : ofAnalysis a limits = .ok m) {leaf : Leaf}
    (hleaf : leaf ∈ m.leaves) : leaf.term.accepts s = true ↔
      ∃ i c, m.classOf? s = some i ∧ m.classes[i]? = some c ∧ leaf.term.takes c = true := by
  obtain ⟨hleaves, hclasses⟩ := leaves_and_classes_ofAnalysis hm
  have hterm : leaf.term ∈ a.leaves.toList.map (·.term) := by
    rw [hleaves] at hleaf
    exact List.mem_map_of_mem (Array.mem_toList_iff.2 hleaf)
  rw [classOf?, hclasses]
  exact accepts_iff_takes_class hterm

/-! ## Steps go by classes -/

theorem step?_congr (h : m.classOf? s = m.classOf? s') (state : Nat) :
    m.step? state s = m.step? state s' := by
  unfold step?
  rw [h]

/-- Children can be exchanged for others of their classes, one by one. -/
theorem runFrom_congr {w w' : List Symbol} (h : w.map m.classOf? = w'.map m.classOf?)
    (state index : Nat) : m.runFrom state index w = m.runFrom state index w' := by
  induction w generalizing w' state index with
  | nil =>
    have hnil : w' = [] := List.map_eq_nil_iff.1 h.symm
    rw [hnil]
  | cons s rest ih =>
    cases w' with
    | nil => cases h
    | cons s' rest' =>
      obtain ⟨hclass, hrest⟩ := List.cons.inj h
      unfold runFrom
      rw [step?_congr hclass state]
      cases m.step? state s' with
      | none => rfl
      | some next => exact ih hrest next (index + 1)

end Automaton

/-- The classes of the automaton of an analysis are an exact quotient of the children. No class is
listed twice, a leaf accepts a child just when it takes the class of the child, and no leaf accepts
a child without a class. So children of one class are accepted by the same leaves and lead from
every state to the same state, and sequences of children with the same classes run alike. -/
theorem classes_are_exact_quotient {a : Analysis} {limits : Limits} {m : Automaton}
    (hm : Automaton.ofAnalysis a limits = .ok m) :
    m.classes.Nodup ∧
    (∀ s i, m.classOf? s = some i → i < m.classes.length) ∧
    (∀ leaf ∈ m.leaves, ∀ s, leaf.term.accepts s = true ↔
      ∃ i c, m.classOf? s = some i ∧ m.classes[i]? = some c ∧ leaf.term.takes c = true) ∧
    (∀ s, m.classOf? s = none → ∀ leaf ∈ m.leaves, leaf.term.accepts s = false) ∧
    (∀ s s', m.classOf? s = m.classOf? s' →
      (∀ leaf ∈ m.leaves, leaf.term.accepts s = leaf.term.accepts s') ∧
      ∀ state, m.step? state s = m.step? state s') ∧
    ∀ w w', w.map m.classOf? = w'.map m.classOf? → m.run w = m.run w' := by
  have hnodup : m.classes.Nodup := by
    rw [(Automaton.leaves_and_classes_ofAnalysis hm).2]
    exact nodup_alphabet _
  refine ⟨hnodup, fun s i h => Automaton.lt_length_of_classOf? hnodup h,
    fun leaf hleaf s => Automaton.accepts_iff_takes_classOf? hm hleaf, ?_, ?_, ?_⟩
  · intro s hs leaf hleaf
    rw [Bool.eq_false_iff]
    intro haccepts
    obtain ⟨i, c, hi, -⟩ := (Automaton.accepts_iff_takes_classOf? hm hleaf).1 haccepts
    rw [hs] at hi
    cases hi
  · intro s s' h
    refine ⟨fun leaf hleaf => ?_, Automaton.step?_congr h⟩
    rw [Bool.eq_iff_iff, Automaton.accepts_iff_takes_classOf? hm hleaf,
      Automaton.accepts_iff_takes_classOf? hm hleaf, h]
  · intro w w' h
    exact Automaton.runFrom_congr h 0 0

/-- The content `(a, other*)`, where `other` is any element of a namespace other than 1. -/
def openContent : Declaration where
  nodes := #[.leaf (.element ⟨0, 0⟩) none, .leaf (.any (.other 1)) none, .quantified .star 1,
    .group .sequence 0 2]
  root := 3
  labels := #[]
  root_lt := by decide
  earlier := by decide

theorem tree_openContent : openContent.tree = .group 3 .sequence
    (.leaf 0 (.element ⟨0, 0⟩) none) (.quantified 2 .star (.leaf 1 (.any (.other 1)) none)) := by
  cbv

theorem classes_are_exact_quotient_openContent : ∃ a m,
    Analysis.ofDeclaration openContent .standard = .ok a ∧
    Automaton.ofAnalysis a .standard = .ok m ∧
    m.classes = [.element ⟨0, 0⟩, .space 0, .space 1, .foreign] ∧
    m.run [⟨0, 0⟩, ⟨5, 3⟩] = m.run [⟨0, 0⟩, ⟨6, 9⟩] := by
  obtain ⟨a, ha⟩ : ∃ a, Analysis.ofDeclaration openContent .standard = .ok a := by
    rw [Analysis.exists_ofDeclaration_iff, tree_openContent]
    decide
  have h := Analysis.isExact_ofDeclaration ha
  have hleaves : a.leaves.toList = openContent.tree.leaves := h.leaves_eq
  rw [tree_openContent] at hleaves
  have hroom : 2 ^ (a.leaves.size + 1) ≤ Limits.standard.states := by
    rw [← Array.length_toList, hleaves]
    decide
  obtain ⟨m, hm⟩ := Automaton.exists_ofAnalysis h hroom
  have hclasses : m.classes = [.element ⟨0, 0⟩, .space 0, .space 1, .foreign] := by
    rw [(Automaton.leaves_and_classes_ofAnalysis hm).2, hleaves]
    decide
  obtain ⟨-, -, -, -, -, hrun⟩ := classes_are_exact_quotient hm
  refine ⟨a, m, ha, hm, hclasses, hrun _ _ ?_⟩
  -- both of the second children are foreign
  simp only [List.map_cons, List.map_nil, Automaton.classOf?, hclasses]
  decide

end ElementContent
