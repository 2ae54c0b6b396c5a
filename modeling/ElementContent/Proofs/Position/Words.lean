import ElementContent.Proofs.Position.Depth
import ElementContent.Proofs.Position.Numbered

/-!
# What the tables of an analysis say

The tables are put together from sets of positions, and a position enters them wherever some node
makes it begin, end or go on. Nothing enters that no word bears out, and nothing that a word bears
out is left out: the tables are the sets of positions that begin a word, that end one, and that
stand side by side in one.

- `Analysis.IsExact.exists_follow_iff`: the table of followers, by neighbours in words.
- `tables_say_words`: all four tables, by the words of leaf numbers.
-/

namespace ElementContent

namespace Analysis.IsExact

variable {t : Tree} {a : Analysis} {p q : Nat}

/-- Every position has its entry in the table of followers. -/
theorem exists_follow (h : a.IsExact t) (hp : p < a.leaves.size) : ∃ s, a.follow[p]? = some s :=
  ⟨_, Array.getElem?_eq_getElem (h.size_follow ▸ hp)⟩

/-- The followers of a position are those that come directly after it in some word. -/
theorem exists_follow_iff (h : a.IsExact t) :
    (∃ s, a.follow[p]? = some s ∧ s.contains q = true) ↔
      (t.marked a.positionOf?).Adjacent p q := by
  constructor
  · rintro ⟨s, hs, hq⟩
    exact ((h.follow_iff hs).2 q).1 hq
  · rintro ⟨u, v, huv⟩
    obtain ⟨leaf, hleaf⟩ := h.exists_leaf ⟨u, q :: v, huv⟩
    obtain ⟨s, hs⟩ := h.exists_follow (Array.getElem?_eq_some_iff.1 hleaf).1
    exact ⟨s, hs, ((h.follow_iff hs).2 q).2 ⟨u, v, huv⟩⟩

end Analysis.IsExact

/-- The tables of an analysis, by the words of leaf numbers that the content allows: the positions
number the leaves, the content may be empty if the empty word is allowed, and a position is among
the first, among the last or among the followers of another just if some word begins with it, ends
with it or has it directly after the other. -/
theorem tables_say_words {d : Declaration} {limits : Limits} {a : Analysis}
    (ha : Analysis.ofDeclaration d limits = .ok a) :
    d.tree.marked a.positionOf? = d.tree.numbered 0 ∧
    (a.nullable = true ↔ d.tree.numbered 0 []) ∧
    (∀ p, a.first.contains p = true ↔ ∃ v, d.tree.numbered 0 (p :: v)) ∧
    (∀ p, a.last.contains p = true ↔ ∃ u, d.tree.numbered 0 (u ++ [p])) ∧
    ∀ p < a.leaves.size, ∃ s, a.follow[p]? = some s ∧
      ∀ q, s.contains q = true ↔ ∃ u v, d.tree.numbered 0 (u ++ p :: q :: v) := by
  have h := Analysis.isExact_ofDeclaration ha
  have hwords := h.marked_eq_numbered
  refine ⟨hwords, ?_, fun p => ?_, fun p => ?_, fun p hp => ?_⟩
  · rw [h.nullable_iff, hwords]
  · rw [h.first_iff, hwords]
    exact Iff.rfl
  · rw [h.last_iff, hwords]
    exact Iff.rfl
  · obtain ⟨s, hs⟩ := h.exists_follow hp
    refine ⟨s, hs, fun q => ?_⟩
    rw [(h.follow_iff hs).2, hwords]
    exact Iff.rfl

/-- The content `(a, b?)+ | c`. -/
def loopContent : Declaration where
  nodes := #[.leaf (.element ⟨0, 1⟩) none, .leaf (.element ⟨0, 2⟩) none, .quantified .optional 1,
    .group .sequence 0 2, .quantified .plus 3, .leaf (.element ⟨0, 3⟩) none, .group .choice 4 5]
  root := 6
  labels := #[]
  root_lt := by decide
  earlier := by decide

/-- The element `b` may end the content, or `a` comes after it again; `c` does not. -/
theorem tables_say_words_loopContent : ∃ a,
    Analysis.ofDeclaration loopContent .standard = .ok a ∧ a.nullable = false ∧
    a.last.contains 1 = true ∧
    ∃ s, a.follow[1]? = some s ∧ s.contains 0 = true ∧ s.contains 2 = false := by
  have htree : loopContent.tree = .group 6 .choice (.quantified 4 .plus (.group 3 .sequence
      (.leaf 0 (.element ⟨0, 1⟩) none)
      (.quantified 2 .optional (.leaf 1 (.element ⟨0, 2⟩) none))))
      (.leaf 5 (.element ⟨0, 3⟩) none) := by
    cbv
  obtain ⟨a, ha⟩ : ∃ a, Analysis.ofDeclaration loopContent .standard = .ok a := by
    rw [Analysis.exists_ofDeclaration_iff, htree]
    decide
  obtain ⟨-, hnullable, -, hlast, hfollow⟩ := tables_say_words ha
  have hsize : a.leaves.size = 3 := by
    rw [← Array.length_toList, (Analysis.isExact_ofDeclaration ha).leaves_eq, htree]
    rfl
  -- one turn of the loop
  let turn : Language Nat := .append (.letter 0) (Quantifier.optional.iterate (.letter 1))
  have hwords : loopContent.tree.numbered 0 = .union (Quantifier.plus.iterate turn) (.letter 2) := by
    rw [htree]
    rfl
  have hturn : turn [0, 1] := ⟨[0], [1], rfl, rfl, Language.iterate_of_mem _ rfl⟩
  rw [hwords] at hnullable hlast hfollow
  obtain ⟨s, hs, hcontains⟩ := hfollow 1 (by omega)
  refine ⟨a, ha, ?_, (hlast 1).2 ⟨[0], .inl (Language.iterate_of_mem _ hturn)⟩, s, hs,
    (hcontains 0).2 ⟨[0], [1], .inl ?_⟩, ?_⟩
  · rw [Bool.eq_false_iff, ne_eq, hnullable]
    rintro (h | h)
    · rcases Language.iterate_nil_iff.1 h with h | h
      · exact h rfl
      · cases (Language.append_nil_iff.1 h).1
    · cases h
  · have := Language.power_add (Language.power_one.2 hturn) (Language.power_one.2 hturn)
    exact ⟨2, Nat.le_succ 1, this⟩
  · rw [Bool.eq_false_iff, ne_eq, hcontains]
    intro h
    have hadjacent : (Language.union (Quantifier.plus.iterate turn) (.letter 2)).Adjacent 1 2 := h
    -- nothing in the loop is `c`, and nothing stands beside it
    rcases Language.adjacent_union.1 hadjacent with h | h
    · rcases Language.occurs_append (Language.occurs_iterate h.occurs_right) with h | h
      · cases Language.occurs_letter.1 h
      · cases Language.occurs_letter.1 (Language.occurs_iterate h)
    · exact Language.not_adjacent_letter h

end ElementContent
