import ElementContent.Proofs.Automaton.Bound
import ElementContent.Proofs.Content.Outline
import ElementContent.Proofs.Language.Power
import ElementContent.Proofs.Position.Depth
import ElementContent.Proofs.Position.Numbered

/-!
# Layout and grouping do not matter

How the nodes of a content are numbered and stored, what nodes are left over, and how groups of one
kind are nested in each other shows neither in the analysis nor in the automaton: both are known
from the outline of the content, but for the ids of the nodes.

- `Tree.marks_eq_of_outline`, `Tree.numbered_eq_of_outline`, `Tree.deepest_eq_of_outline`: what the
  analysis computes from the bottom up, by the outline.
- `Analysis.agrees_of_outline`: the analyses of contents with one outline agree.
- `Automaton.ofAnalysis_of_agrees`: analyses that agree have one automaton.
-/

namespace ElementContent

/-! ## What is known from the outline -/

/-- A leaf without its node. -/
def Leaf.mark (leaf : Leaf) : Term × Option Nat :=
  (leaf.term, leaf.particle)

namespace Node

/-- The leaves that take a child, from those of the parts. -/
def marks : Node (List (Term × Option Nat)) → List (Term × Option Nat)
  | leaf term particle => if term.takesChild then [(term, particle)] else []
  | group _ l r => l ++ r
  | quantified _ body => body

/-- How many leaves take a child and the words of their numbers, from those of the parts. -/
def numbered : Node (Nat × (Nat → Language Nat)) → Nat × (Nat → Language Nat)
  | leaf term _ => (if term.takesChild then 1 else 0,
      fun n w => w = if term.takesChild then [n] else [])
  | group kind l r => (l.1 + r.1, fun n => kind.combine (l.2 n) (r.2 (n + l.1)))
  | quantified q body => (body.1, fun n => q.iterate (body.2 n))

end Node

namespace Tree

variable {t t' : Tree} (h : t.outline = t'.outline)

include h

theorem marks_eq_of_outline : t.leaves.map Leaf.mark = t'.leaves.map Leaf.mark := by
  refine eq_of_outline (f := fun t => t.leaves.map Leaf.mark) Node.marks (fun kind x y z => ?_)
    (fun i n => ?_) h
  · exact List.append_assoc x y z
  · cases n with
    | leaf term particle =>
      show (if term.takesChild then [_] else []).map Leaf.mark = if term.takesChild then [_] else []
      split <;> rfl
    | group kind l r => exact List.map_append
    | quantified q body => rfl

theorem numbered_eq_of_outline : t.numbered = t'.numbered := by
  have hpair : (t.leaves.length, t.numbered) = (t'.leaves.length, t'.numbered) := by
    refine eq_of_outline (f := fun t => (t.leaves.length, t.numbered)) Node.numbered
      (fun kind x y z => ?_) (fun i n => ?_) h
    · refine Prod.ext (Nat.add_assoc ..) (funext fun n => ?_)
      simp only [Node.numbered, ← Nat.add_assoc]
      exact Language.combine_assoc kind
    · cases n with
      | leaf term particle =>
        refine Prod.ext ?_ rfl
        show (if term.takesChild then [_] else []).length = if term.takesChild then 1 else 0
        split <;> rfl
      | group kind l r => exact Prod.ext List.length_append rfl
      | quantified q body => rfl
  exact congrArg Prod.snd hpair

/-- A group of the kind of the group around it is no level of its own, however they are nested. -/
theorem deepest_eq_of_outline : t.deepest = t'.deepest := by
  refine eq_of_outline (f := deepest) Node.deepest (fun kind x y z => ?_) (fun i n => ?_) h
  · funext depth within inQuantifier
    simp [Node.deepest, Numbering.groupDepth, Nat.max_assoc, Nat.max_left_comm]
  · exact eval_ofNode _ i n

end Tree

/-! ## Analyses -/

/-- The analyses are the same, but for the nodes that the leaves stand at. -/
structure Analysis.Agrees (a a' : Analysis) : Prop where
  leaves : a.leaves.map Leaf.mark = a'.leaves.map Leaf.mark
  first : a.first = a'.first
  last : a.last = a'.last
  nullable : a.nullable = a'.nullable
  follow : a.follow = a'.follow

namespace Analysis

variable {d d' : Declaration} {limits limits' : Limits} {a a' : Analysis}

theorem Agrees.size_leaves (h : a.Agrees a') : a.leaves.size = a'.leaves.size := by
  simpa using congrArg Array.size h.leaves

/-- The analyses of contents with one outline agree: the leaves have the same numbers, and what can
be said of the words of these numbers is the same. -/
theorem agrees_of_outline (houtline : d.tree.outline = d'.tree.outline)
    (ha : ofDeclaration d limits = .ok a) (ha' : ofDeclaration d' limits' = .ok a') :
    a.Agrees a' := by
  have h := isExact_ofDeclaration ha
  have h' := isExact_ofDeclaration ha'
  have hleaves : a.leaves.map Leaf.mark = a'.leaves.map Leaf.mark := by
    rw [← Array.toList_inj, Array.toList_map, Array.toList_map, h.leaves_eq, h'.leaves_eq,
      Tree.marks_eq_of_outline houtline]
  have hsize : a.leaves.size = a'.leaves.size := by
    simpa using congrArg Array.size hleaves
  have hwords : d.tree.marked a.positionOf? = d'.tree.marked a'.positionOf? := by
    rw [h.marked_eq_numbered, h'.marked_eq_numbered, Tree.numbered_eq_of_outline houtline]
  refine ⟨hleaves, PositionSet.ext_contains ?_ fun p => ?_, PositionSet.ext_contains ?_ fun p => ?_,
    ?_, Array.ext ?_ fun p hp hp' => PositionSet.ext_contains ?_ fun q => ?_⟩
  · rw [h.words_first, h'.words_first, hsize]
  · rw [Bool.eq_iff_iff, h.first_iff, h'.first_iff, hwords]
  · rw [words_last_ofDeclaration ha, words_last_ofDeclaration ha', hsize]
  · rw [Bool.eq_iff_iff, h.last_iff, h'.last_iff, hwords]
  · rw [Bool.eq_iff_iff, h.nullable_iff, h'.nullable_iff, hwords]
  · rw [h.size_follow, h'.size_follow, hsize]
  · rw [(h.follow_iff (Array.getElem?_eq_getElem hp)).1,
      (h'.follow_iff (Array.getElem?_eq_getElem hp')).1, hsize]
  · rw [Bool.eq_iff_iff, (h.follow_iff (Array.getElem?_eq_getElem hp)).2,
      (h'.follow_iff (Array.getElem?_eq_getElem hp')).2, hwords]

/-- Whether there is an analysis is known from the outline, for contents whose nodes form a tree. -/
theorem exists_ofDeclaration_iff_of_outline (hd : ¬ d.Shared) (hd' : ¬ d'.Shared)
    (houtline : d.tree.outline = d'.tree.outline) :
    (∃ a, ofDeclaration d limits = .ok a) ↔ ∃ a, ofDeclaration d' limits = .ok a := by
  rw [Declaration.shared_iff, not_not] at hd hd'
  have hlength : d.tree.leaves.length = d'.tree.leaves.length := by
    simpa using congrArg List.length (Tree.marks_eq_of_outline houtline)
  rw [exists_ofDeclaration_iff, exists_ofDeclaration_iff, Tree.deepest_eq_of_outline houtline,
    hlength, and_iff_right hd, and_iff_right hd']

end Analysis

namespace Analysis.Agrees

variable {a a' : Analysis} {p : Nat}

theorem symm (h : a.Agrees a') : a'.Agrees a :=
  ⟨h.leaves.symm, h.first.symm, h.last.symm, h.nullable.symm, h.follow.symm⟩

theorem getElem?_leaves (h : a.Agrees a') {leaf : Leaf} (hp : a.leaves[p]? = some leaf) :
    ∃ leaf', a'.leaves[p]? = some leaf' ∧ leaf'.mark = leaf.mark := by
  have hmark : (a'.leaves.map Leaf.mark)[p]? = some leaf.mark := by
    rw [← h.leaves, Array.getElem?_map, hp]
    rfl
  rw [Array.getElem?_map] at hmark
  exact Option.map_eq_some_iff.1 hmark

theorem terms_eq (h : a.Agrees a') :
    a.leaves.toList.map (·.term) = a'.leaves.toList.map (·.term) := by
  have hterms := congrArg (fun marks => marks.toList.map Prod.fst) h.leaves
  simp only [Array.toList_map, List.map_map] at hterms
  exact hterms

theorem startSet_eq (h : a.Agrees a') : a.startSet = a'.startSet := by
  unfold startSet widened
  rw [h.nullable, h.first, h.size_leaves]

theorem followSet_eq (h : a.Agrees a') (s : PositionSet) : a.followSet p s = a'.followSet p s := by
  unfold followSet widened
  rw [h.last, h.size_leaves]

theorem getElem?_moves (h : a.Agrees a') {classes : List InputClass} {m : Move}
    (hm : (a.moves classes)[p]? = some m) : (a'.moves classes)[p]? = some m := by
  obtain ⟨leaf, s, hleaf, hs, rfl⟩ := Analysis.getElem?_moves.1 hm
  obtain ⟨leaf', hleaf', hmark⟩ := h.getElem?_leaves hleaf
  have hterm : leaf'.term = leaf.term := congrArg Prod.fst hmark
  exact Analysis.getElem?_moves.2 ⟨leaf', s, hleaf', h.follow ▸ hs, by rw [hterm, h.followSet_eq]⟩

theorem moves_eq (h : a.Agrees a') (classes : List InputClass) :
    a.moves classes = a'.moves classes :=
  Array.ext_getElem? fun _ => Option.ext fun _ => ⟨h.getElem?_moves, h.symm.getElem?_moves⟩

end Analysis.Agrees

/-! ## Automata -/

/-- The automata are the same, but for the nodes that the leaves stand at. -/
structure Automaton.Agrees (m m' : Automaton) : Prop where
  leaves : m.leaves.map Leaf.mark = m'.leaves.map Leaf.mark
  classes : m.classes = m'.classes
  states : m.states = m'.states
  rows : m.rows = m'.rows
  isAccepting : ∀ i, m.isAccepting i = m'.isAccepting i
  transitions : ∀ i, m.transitions i = m'.transitions i

namespace Automaton

variable {a a' : Analysis} {m m' : Automaton} {limits : Limits}

/-- Analyses that agree have one automaton, but for the nodes of its leaves. -/
theorem ofAnalysis_of_agrees (h : a.Agrees a') : ofAnalysis a' limits =
    (ofAnalysis a limits).map fun m => { m with leaves := a'.leaves } := by
  unfold ofAnalysis
  rw [h.startSet_eq, h.terms_eq]
  simp only [h.moves_eq]
  split <;> rfl

theorem exists_ofAnalysis_iff_of_agrees (h : a.Agrees a') :
    (∃ m, ofAnalysis a limits = .ok m) ↔ ∃ m, ofAnalysis a' limits = .ok m := by
  rw [ofAnalysis_of_agrees h]
  cases ofAnalysis a limits with
  | error e => exact iff_of_false (by rintro ⟨m, hm⟩; cases hm) (by rintro ⟨m, hm⟩; cases hm)
  | ok m => exact iff_of_true ⟨m, rfl⟩ ⟨_, rfl⟩

theorem agrees_of_agrees (h : a.Agrees a') (hm : ofAnalysis a limits = .ok m)
    (hm' : ofAnalysis a' limits = .ok m') : m.Agrees m' := by
  rw [ofAnalysis_of_agrees h, hm] at hm'
  obtain rfl := Except.ok.inj hm'
  have hleaves := (leaves_and_classes_ofAnalysis hm).1
  have hend : m.leaves.size = a'.leaves.size := hleaves ▸ h.size_leaves
  refine ⟨hleaves ▸ h.leaves, rfl, rfl, rfl, fun i => ?_, fun i => rfl⟩
  unfold isAccepting endPosition
  rw [hend]

end Automaton

/-- Contents whose nodes form a tree and that have one outline, however their nodes are numbered and
stored: one can be analysed if and only if the other can, and the analyses agree; they have an
automaton if and only if the other has, and the automata agree. -/
theorem outline_determines {d d' : Declaration} (hd : ¬ d.Shared) (hd' : ¬ d'.Shared)
    (houtline : d.tree.outline = d'.tree.outline) (limits limits' : Limits) :
    ((∃ a, Analysis.ofDeclaration d limits = .ok a) ↔
      ∃ a', Analysis.ofDeclaration d' limits = .ok a') ∧
    ∀ a a', Analysis.ofDeclaration d limits = .ok a → Analysis.ofDeclaration d' limits = .ok a' →
      a.Agrees a' ∧
      ((∃ m, Automaton.ofAnalysis a limits' = .ok m) ↔
        ∃ m', Automaton.ofAnalysis a' limits' = .ok m') ∧
      ∀ m m', Automaton.ofAnalysis a limits' = .ok m → Automaton.ofAnalysis a' limits' = .ok m' →
        m.Agrees m' := by
  refine ⟨Analysis.exists_ofDeclaration_iff_of_outline hd hd' houtline, fun a a' ha ha' => ?_⟩
  have h := Analysis.agrees_of_outline houtline ha ha'
  exact ⟨h, Automaton.exists_ofAnalysis_iff_of_agrees h, fun m m' hm hm' =>
    Automaton.agrees_of_agrees h hm hm'⟩

/-- The content `(a, b), c`, its nodes in the order in which they are put together. -/
def leftContent : Declaration where
  nodes := #[.leaf (.element ⟨0, 1⟩) none, .leaf (.element ⟨1, 1⟩) none, .group .sequence 0 1,
    .leaf (.element ⟨2, 1⟩) none, .group .sequence 2 3]
  root := 4
  labels := #[]
  root_lt := by decide
  earlier := by decide

/-- The content `a, (b, c)`, its leaves from the last to the first, with a node left over. -/
def rightContent : Declaration where
  nodes := #[.leaf (.element ⟨2, 1⟩) none, .leaf .text none, .leaf (.element ⟨1, 1⟩) none,
    .group .sequence 2 0, .leaf (.element ⟨0, 1⟩) none, .group .sequence 4 3]
  root := 5
  labels := #[]
  root_lt := by decide
  earlier := by decide

theorem outline_determines_rightContent : ∃ a a' m m',
    Analysis.ofDeclaration leftContent .standard = .ok a ∧
    Analysis.ofDeclaration rightContent .standard = .ok a' ∧
    Automaton.ofAnalysis a .standard = .ok m ∧ Automaton.ofAnalysis a' .standard = .ok m' ∧
    a.leaves.size = 3 ∧ a.Agrees a' ∧ m.Agrees m' := by
  have htree : leftContent.tree = .group 4 .sequence (.group 2 .sequence
      (.leaf 0 (.element ⟨0, 1⟩) none) (.leaf 1 (.element ⟨1, 1⟩) none))
      (.leaf 3 (.element ⟨2, 1⟩) none) := by
    cbv
  have htree' : rightContent.tree = .group 5 .sequence (.leaf 4 (.element ⟨0, 1⟩) none)
      (.group 3 .sequence (.leaf 2 (.element ⟨1, 1⟩) none)
        (.leaf 0 (.element ⟨2, 1⟩) none)) := by
    cbv
  have hd : ¬ leftContent.Shared := by
    rw [Declaration.shared_iff, htree, not_not]
    decide
  have hd' : ¬ rightContent.Shared := by
    rw [Declaration.shared_iff, htree', not_not]
    decide
  have houtline : leftContent.tree.outline = rightContent.tree.outline := by
    rw [htree, htree']
    rfl
  obtain ⟨hiff, hall⟩ := outline_determines hd hd' houtline .standard .standard
  obtain ⟨a, ha⟩ : ∃ a, Analysis.ofDeclaration leftContent .standard = .ok a := by
    rw [Analysis.exists_ofDeclaration_iff, htree]
    decide
  obtain ⟨a', ha'⟩ := hiff.1 ⟨a, ha⟩
  obtain ⟨hagrees, hiff', hautomata⟩ := hall a a' ha ha'
  have hexact := Analysis.isExact_ofDeclaration ha
  have hsize : a.leaves.size = 3 := by
    rw [← Array.length_toList, hexact.leaves_eq, htree]
    rfl
  have hroom : 2 ^ (a.leaves.size + 1) ≤ Limits.standard.states := by
    rw [hsize]
    decide
  obtain ⟨m, hm⟩ := Automaton.exists_ofAnalysis hexact hroom
  obtain ⟨m', hm'⟩ := hiff'.1 ⟨m, hm⟩
  exact ⟨a, a', m, m', ha, ha', hm, hm', hsize, hagrees, hautomata m m' hm hm'⟩

end ElementContent
