import ElementContent.Proofs.Language.Reading
import ElementContent.Proofs.Position.Analysis
import Mathlib.Data.List.Nodup

/-!
# Words of leaf numbers

The leaves of a content that take a child can be counted from left to right in any content, also in
one that meets a node twice and so cannot be analysed. The words of these numbers say what a model
of the content has to do, however it is made.

- `Tree.numbered`: the words of leaf numbers, the first of which is given.
- `Tree.children_eq_image_numbered`: the children that a content allows are what can be read of its
  numbers, where a number is read as a child that its leaf accepts.
- `Analysis.IsExact.marked_eq_numbered`: the positions of an analysis are these numbers.
-/

namespace ElementContent

/-- The leaf with the number takes the child. -/
def TakesAt (leaves : List Leaf) (p : Nat) (s : Symbol) : Prop :=
  ∃ leaf, leaves[p]? = some leaf ∧ leaf.term.accepts s = true

/-- The children that a leaf takes are known from the terms alone. -/
theorem takesAt_iff {ls : List Leaf} {p : Nat} {s : Symbol} :
    TakesAt ls p s ↔ ∃ term, (ls.map (·.term))[p]? = some term ∧ term.accepts s = true := by
  simp [TakesAt]

theorem isPrefix_drop_of_append {α : Type} {xs ys zs : List α} {n : Nat}
    (h : xs ++ ys <+: zs.drop n) : xs <+: zs.drop n ∧ ys <+: zs.drop (n + xs.length) := by
  obtain ⟨rest, hrest⟩ := h
  refine ⟨⟨ys ++ rest, by rw [← List.append_assoc, hrest]⟩, rest, ?_⟩
  rw [← List.drop_drop, ← hrest, List.append_assoc, List.drop_left]

theorem getElem?_of_isPrefix_drop {α : Type} {x : α} {zs : List α} {n : Nat}
    (h : [x] <+: zs.drop n) : zs[n]? = some x := by
  obtain ⟨rest, hrest⟩ := h
  have : (zs.drop n)[0]? = some x := by
    rw [← hrest]
    rfl
  rwa [List.getElem?_drop] at this

namespace Tree

/-- The sequences of leaf numbers that a content allows, where the first leaf that takes a child has
the number `n`. -/
def numbered : Tree → Nat → Language Nat
  | leaf _ term _, n => fun w => w = if term.takesChild then [n] else []
  | group _ kind l r, n => kind.combine (l.numbered n) (r.numbered (n + l.leaves.length))
  | quantified _ q body, n => q.iterate (body.numbered n)

theorem numbered_leaf {i n : Nat} {term : Term} {particle : Option Nat}
    (h : term.takesChild = true) : (leaf i term particle).numbered n = .letter n := by
  show (fun w => w = if term.takesChild then [n] else []) = fun w => w = [n]
  rw [if_pos h]

/-- The numbers in the words of a content are those of its leaves. -/
theorem occurs_numbered {t : Tree} {n p : Nat} (h : (t.numbered n).Occurs p) :
    n ≤ p ∧ p < n + t.leaves.length := by
  induction t generalizing n with
  | leaf i term particle =>
    obtain ⟨u, v, huv⟩ := h
    have huv : u ++ p :: v = if term.takesChild then [n] else [] := huv
    by_cases ht : term.takesChild = true
    · have hp : p ∈ [n] := by
        rw [if_pos ht] at huv
        rw [← huv]
        simp
      simp only [List.mem_singleton] at hp
      simp [leaves, ht, hp]
    · simp [ht] at huv
  | group i kind l r ihl ihr =>
    have hlen : (group i kind l r).leaves.length = l.leaves.length + r.leaves.length :=
      List.length_append
    rcases Language.occurs_combine h with hl | hr
    · have := ihl hl
      omega
    · have := ihr hr
      omega
  | quantified i q body ih => exact ih (Language.occurs_iterate h)

/-- The children that a content allows are what can be read of its numbers, in any list of leaves
that has those of the content from the first number on. -/
theorem children_eq_image_numbered {t : Tree} {n : Nat} {ls : List Leaf}
    (h : t.leaves <+: ls.drop n) : t.children = .image (TakesAt ls) (t.numbered n) := by
  induction t generalizing n with
  | leaf i term particle =>
    funext w
    refine propext ?_
    show (if term.takesChild then ∃ s, w = [s] ∧ term.accepts s = true else w = []) ↔
      ∃ u, u = (if term.takesChild then [n] else []) ∧ List.Forall₂ (TakesAt ls) u w
    by_cases ht : term.takesChild = true
    · have hn : ls[n]? = some ⟨term, particle, i⟩ := by
        simp only [leaves, ht, if_true] at h
        exact getElem?_of_isPrefix_drop h
      simp only [ht, if_true]
      constructor
      · rintro ⟨s, rfl, hs⟩
        exact ⟨[n], rfl, .cons ⟨_, hn, hs⟩ .nil⟩
      · rintro ⟨u, rfl, hu⟩
        cases hu with
        | cons hs hnil =>
          cases hnil with
          | nil =>
            obtain ⟨leaf, hleaf, hs⟩ := hs
            obtain rfl := Option.some.inj (hn.symm.trans hleaf)
            exact ⟨_, rfl, hs⟩
    · rw [if_neg ht, if_neg ht]
      constructor
      · rintro rfl
        exact ⟨[], rfl, .nil⟩
      · rintro ⟨u, rfl, hu⟩
        exact List.forall₂_nil_left_iff.1 hu
  | group i kind l r ihl ihr =>
    obtain ⟨hl, hr⟩ := isPrefix_drop_of_append h
    show kind.combine l.children r.children = Language.image (TakesAt ls) (kind.combine _ _)
    rw [Language.image_combine, ihl hl, ihr hr]
  | quantified i q body ih =>
    show q.iterate body.children = Language.image (TakesAt ls) (q.iterate _)
    rw [Language.image_iterate, ih h]

/-- Marks that number the leaves of a list spell the numbered words of a content whose leaves stand
in that list. -/
theorem marked_eq_numbered {mark : Nat → Option Nat} {ls : List Leaf}
    (hmark : ∀ i p : Nat, mark i = some p ↔ (ls[p]?).map (·.node) = some i) {t : Tree} {n : Nat}
    (hnone : ∀ i term particle, leaf i term particle ∈ t.subtrees → term.takesChild = false →
      mark i = none)
    (h : t.leaves <+: ls.drop n) : t.marked mark = t.numbered n := by
  induction t generalizing n with
  | leaf i term particle =>
    show (fun w => w = (mark i).toList) = fun w => w = if term.takesChild then [n] else []
    by_cases ht : term.takesChild = true
    · have hn : ls[n]? = some ⟨term, particle, i⟩ := by
        simp only [leaves, ht, if_true] at h
        exact getElem?_of_isPrefix_drop h
      have hi : mark i = some n := (hmark i n).2 (by rw [hn]; rfl)
      rw [hi, if_pos ht]
      rfl
    · have hi : mark i = none :=
        hnone i term particle List.mem_cons_self (Bool.eq_false_iff.2 ht)
      rw [hi, if_neg ht]
      rfl
  | group i kind l r ihl ihr =>
    obtain ⟨hl, hr⟩ := isPrefix_drop_of_append h
    show kind.combine (l.marked mark) (r.marked mark) = kind.combine _ _
    have hnonel : ∀ i term particle, leaf i term particle ∈ l.subtrees →
        term.takesChild = false → mark i = none := fun i term particle hmem =>
      hnone i term particle (List.mem_cons_of_mem _ (List.mem_append_left _ hmem))
    have hnoner : ∀ i term particle, leaf i term particle ∈ r.subtrees →
        term.takesChild = false → mark i = none := fun i term particle hmem =>
      hnone i term particle (List.mem_cons_of_mem _ (List.mem_append_right _ hmem))
    rw [ihl hnonel hl, ihr hnoner hr]
  | quantified i q body ih =>
    show q.iterate (body.marked mark) = q.iterate _
    rw [ih (fun i term particle hmem => hnone i term particle (List.mem_cons_of_mem _ hmem)) h]

/-- A leaf that takes a child is met on the way down. -/
theorem mem_subtrees_of_mem_leaves {t : Tree} {l : Leaf} (h : l ∈ t.leaves) :
    leaf l.node l.term l.particle ∈ t.subtrees := by
  induction t with
  | leaf i term particle =>
    by_cases ht : term.takesChild = true
    · obtain rfl : l = ⟨term, particle, i⟩ := by simpa [leaves, ht] using h
      exact List.mem_cons_self
    · simp [leaves, ht] at h
  | group i kind l r ihl ihr =>
    rcases List.mem_append.1 h with h | h
    · exact List.mem_cons_of_mem _ (List.mem_append_left _ (ihl h))
    · exact List.mem_cons_of_mem _ (List.mem_append_right _ (ihr h))
  | quantified i q body ih => exact List.mem_cons_of_mem _ (ih h)

end Tree

namespace Analysis.IsExact

variable {t : Tree} {a : Analysis}

/-- The positions of an analysis number the leaves from left to right. -/
theorem marked_eq_numbered (h : a.IsExact t) : t.marked a.positionOf? = t.numbered 0 := by
  have hmark : ∀ i p : Nat,
      a.positionOf? i = some p ↔ (a.leaves.toList[p]?).map (·.node) = some i := by
    intro i p
    rw [h.position_iff, Array.getElem?_toList]
  refine Tree.marked_eq_numbered hmark (fun i term particle hmem ht => ?_) ?_
  · -- the node of another leaf has a position only if it is the same node
    refine Option.eq_none_iff_forall_ne_some.2 ?_
    intro p hp
    obtain ⟨l, hl, rfl⟩ := Option.map_eq_some_iff.1 ((hmark i p).1 hp)
    have hl : l ∈ t.leaves := h.leaves_eq ▸ List.mem_of_getElem? hl
    have hids : (t.subtrees.map Tree.id).Nodup := Tree.ids_eq_map_subtrees t ▸ h.nodup
    have heq := List.inj_on_of_nodup_map hids (Tree.mem_subtrees_of_mem_leaves hl) hmem rfl
    injection heq with _ hterm
    have := (Tree.term_of_mem_leaves hl).2
    rw [hterm, ht] at this
    cases this
  · rw [h.leaves_eq]
    exact List.prefix_rfl

end Analysis.IsExact

end ElementContent
