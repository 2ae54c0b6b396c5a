import ElementContent.Position.Numbering
import ElementContent.Proofs.Content.Subtree

/-!
# What the walk numbers

A walk that succeeds has met every node of the pending subtrees once and has numbered their leaves
from left to right.

- `Tree.leaves`: the leaves of a content that take a child, left to right.
- `Numbering.note`: a step of a walk, which notes the topmost node of the first pending subtree;
  `Numbering.walk_induct` is the induction over the steps.
- `Numbering.Walked`: what lies between two stages of a walk; `Numbering.walk_walked` says that a
  successful walk is one of its nodes and leaves.
- `Numbering.Consistent`: the position of a node is the place of its leaf.
- `Numbering.walk_unique`: the limits decide whether a walk succeeds, and nothing else.
-/

namespace ElementContent

namespace Tree

/-- The leaves that take a child, left to right. -/
def leaves : Tree → List Leaf
  | leaf id term particle => if term.takesChild then [⟨term, particle, id⟩] else []
  | group _ _ l r => l.leaves ++ r.leaves
  | quantified _ _ body => body.leaves

/-- Every leaf has a term that takes a child, which is among the terms of the content. -/
theorem term_of_mem_leaves {t : Tree} {leaf : Leaf} (h : leaf ∈ t.leaves) :
    leaf.term ∈ t.terms ∧ leaf.term.takesChild = true := by
  induction t with
  | leaf i term particle =>
    by_cases ht : term.takesChild = true
    · obtain rfl : leaf = ⟨term, particle, i⟩ := by simpa [leaves, ht] using h
      exact ⟨by simp [terms], ht⟩
    · simp [leaves, ht] at h
  | group i kind l r ihl ihr =>
    rcases List.mem_append.1 h with h | h
    · exact ⟨List.mem_append_left _ (ihl h).1, (ihl h).2⟩
    · exact ⟨List.mem_append_right _ (ihr h).1, (ihr h).2⟩
  | quantified i q body ih => exact ih h

/-- The terms of the leaves that take a child. -/
theorem map_term_leaves (t : Tree) : t.leaves.map (·.term) = t.terms.filter Term.takesChild := by
  induction t with
  | leaf i term particle =>
    by_cases h : term.takesChild = true
    · simp [leaves, terms, h]
    · simp [leaves, terms, h]
  | group i kind l r ihl ihr =>
    rw [leaves, terms, List.map_append, List.filter_append, ihl, ihr]
  | quantified i q body ih => exact ih

end Tree

/-- The parts of a pending subtree, left to right, as they become pending themselves. -/
def Pending.parts (p : Pending) : List Pending :=
  match p.tree with
  | .leaf _ _ _ => []
  | .group _ kind left right =>
    let depth := Numbering.groupDepth p.depth p.within kind
    [⟨left, depth, some kind, false⟩, ⟨right, depth, some kind, false⟩]
  | .quantified _ _ body =>
    [⟨body, Numbering.quantifierDepth p.depth p.quantified, p.within, true⟩]

namespace Numbering

/-- What lies between two stages of a walk: nodes that had not been seen before, each met once, and
leaves that have been numbered on top of those before. -/
structure Walked (ids : List Nat) (leaves : List Leaf) (n m : Numbering) : Prop where
  leaves_eq : m.leaves.toList = n.leaves.toList ++ leaves
  seen_iff : ∀ i, i ∈ m.seen ↔ i ∈ n.seen ∨ i ∈ ids
  fresh : ∀ i ∈ ids, i ∉ n.seen
  nodup : ids.Nodup

theorem Walked.refl (n : Numbering) : Walked [] [] n n :=
  ⟨by simp, by simp, by simp, .nil⟩

theorem Walked.trans {ids ids' : List Nat} {ls ls' : List Leaf} {n m k : Numbering}
    (h : Walked ids ls n m) (h' : Walked ids' ls' m k) : Walked (ids ++ ids') (ls ++ ls') n k where
  leaves_eq := by rw [h'.leaves_eq, h.leaves_eq, List.append_assoc]
  seen_iff i := by rw [h'.seen_iff, h.seen_iff, List.mem_append, or_assoc]
  fresh := by
    intro i hi
    rcases List.mem_append.1 hi with hi | hi
    · exact h.fresh i hi
    · exact fun hn => h'.fresh i hi ((h.seen_iff i).2 (.inl hn))
  nodup := by
    refine List.nodup_append.2 ⟨h.nodup, h'.nodup, ?_⟩
    rintro i hi j hj rfl
    exact h'.fresh i hj ((h.seen_iff i).2 (.inr hi))

/-- The position of a node is the place of its leaf, and the nodes of leaves have been seen. -/
structure Consistent (n : Numbering) : Prop where
  position_iff : ∀ i p : Nat, n.positions[i]? = some p ↔ (n.leaves[p]?).map (·.node) = some i
  seen : ∀ leaf ∈ n.leaves.toList, leaf.node ∈ n.seen

theorem consistent_start : start.Consistent where
  position_iff := by simp [start]
  seen := by simp [start]

theorem Consistent.lt_size {n : Numbering} (h : n.Consistent) {i p : Nat}
    (hp : n.positions[i]? = some p) : p < n.leaves.size := by
  obtain ⟨leaf, hleaf, -⟩ := Option.map_eq_some_iff.1 ((h.position_iff i p).1 hp)
  exact (Array.getElem?_eq_some_iff.1 hleaf).1

/-! ## One node -/

theorem see_eq_ok_iff {n m : Numbering} {i : Nat} :
    n.see i = .ok m ↔ i ∉ n.seen ∧ m = { n with seen := n.seen.insert i } := by
  unfold see
  by_cases h : i ∈ n.seen
  · rw [if_pos (Std.HashSet.mem_iff_contains.1 h)]
    constructor
    · intro hm
      cases hm
    · exact fun hm => absurd h hm.1
  · rw [if_neg fun hc => h (Std.HashSet.mem_iff_contains.2 hc)]
    exact ⟨fun hm => ⟨h, (Except.ok.inj hm).symm⟩, fun hm => by rw [hm.2]⟩

theorem enter_eq_ok_iff {limits : Limits} {n m : Numbering} {i depth : Nat} :
    n.enter limits i depth = .ok m ↔ n.see i = .ok m ∧ depth ≤ limits.depth := by
  unfold enter
  cases hs : n.see i with
  | error e => simp [bind, Except.bind]
  | ok k =>
    have hc := @Limits.check_eq_ok_iff limits .depth depth
    simp only [Limits.bound] at hc
    rw [← hc]
    cases limits.check .depth depth with
    | error e => simp [bind, Except.bind]
    | ok u => simp [bind, Except.bind, pure, Except.pure]

/-- What a node that is entered leaves behind does not depend on the limits. -/
theorem enter_unique {limits limits' : Limits} {n m m' : Numbering} {i depth depth' : Nat}
    (h : n.enter limits i depth = .ok m) (h' : n.enter limits' i depth' = .ok m') : m = m' :=
  Except.ok.inj ((enter_eq_ok_iff.1 h).1.symm.trans (enter_eq_ok_iff.1 h').1)

theorem walked_see {n m : Numbering} {i : Nat} (h : n.see i = .ok m) : Walked [i] [] n m := by
  obtain ⟨hi, rfl⟩ := see_eq_ok_iff.1 h
  refine ⟨by simp, fun j => ?_, by simpa using hi, by simp⟩
  rw [Std.HashSet.mem_insert, List.mem_singleton, beq_iff_eq, or_comm, @eq_comm _ i j]

theorem consistent_see {n m : Numbering} {i : Nat} (hn : n.Consistent) (h : n.see i = .ok m) :
    m.Consistent := by
  obtain ⟨-, rfl⟩ := see_eq_ok_iff.1 h
  exact ⟨hn.position_iff, fun leaf hl => by simp [hn.seen leaf hl]⟩

theorem walked_addLeaf (n : Numbering) (i : Nat) (term : Term) (particle : Option Nat) :
    Walked [] (Tree.leaf i term particle).leaves n (n.addLeaf ⟨term, particle, i⟩) := by
  unfold addLeaf
  by_cases ht : term.takesChild = true
  · exact ⟨by simp [Tree.leaves, ht], by simp [ht], by simp, .nil⟩
  · exact ⟨by simp [Tree.leaves, ht], by simp [ht], by simp, .nil⟩

/-- A leaf keeps the numbering consistent if its node has just been seen. -/
theorem consistent_addLeaf {n m : Numbering} (leaf : Leaf) (hn : n.Consistent)
    (h : n.see leaf.node = .ok m) : (m.addLeaf leaf).Consistent := by
  obtain ⟨hfresh, rfl⟩ := see_eq_ok_iff.1 h
  -- no leaf before this one has its node, which had not been seen
  have hother : ∀ p : Nat, (n.leaves[p]?).map (·.node) ≠ some leaf.node := by
    intro p hp
    obtain ⟨l, hl, hnode⟩ := Option.map_eq_some_iff.1 hp
    exact hfresh (hnode ▸ hn.seen l (Array.mem_toList_iff.2 (Array.mem_of_getElem? hl)))
  unfold addLeaf
  split
  · refine ⟨fun i p => ?_, fun l hl => ?_⟩
    · simp only [Std.HashMap.getElem?_insert, Array.getElem?_push, beq_iff_eq]
      by_cases hp : p = n.leaves.size
      · subst hp
        by_cases hi : leaf.node = i
        · simp [hi]
        · have hlt := hn.position_iff i n.leaves.size
          simp [hi] at hlt ⊢
          exact hlt
      · by_cases hi : leaf.node = i
        · subst hi
          simp only [if_true, if_neg hp, Option.some.injEq]
          exact ⟨fun h => absurd h.symm hp, fun h => absurd h (hother p)⟩
        · simp only [if_neg hi, if_neg hp]
          exact hn.position_iff i p
    · have hl' : l ∈ n.leaves.toList ∨ l = leaf := by simpa using hl
      rcases hl' with hl' | rfl
      · simp [hn.seen l hl']
      · simp
  · exact consistent_see hn h

/-! ## One step of the walk -/

/-- Notes the topmost node of a pending subtree: a leaf is numbered, and a group or a quantifier is
entered. -/
def note (limits : Limits) (n : Numbering) (p : Pending) : Except Error Numbering :=
  match p.tree with
  | .leaf id term particle => (n.see id).map (·.addLeaf ⟨term, particle, id⟩)
  | .group id kind _ _ => n.enter limits id (groupDepth p.depth p.within kind)
  | .quantified id _ _ => n.enter limits id (quantifierDepth p.depth p.quantified)

variable {limits limits' : Limits} {n m m' k : Numbering} {p : Pending} {pending rest : List Pending}

theorem note_leaf_eq_ok_iff {id : Nat} {term : Term} {particle : Option Nat}
    (ht : p.tree = .leaf id term particle) : n.note limits p = .ok m ↔
      ∃ k, n.see id = .ok k ∧ k.addLeaf ⟨term, particle, id⟩ = m := by
  simp only [note, ht]
  cases n.see id with
  | error e => simp [Except.map]
  | ok k => simp [Except.map]

/-- A walk begins with a step: it notes a node, and what it leaves pending comes before the rest. -/
theorem walk_cons : walk limits (p :: rest) n =
    (n.note limits p).bind (walk limits (p.parts ++ rest)) := by
  obtain ⟨tree, depth, within, quantified⟩ := p
  cases tree with
  | leaf id term particle =>
    rw [walk]
    simp only [note]
    cases n.see id <;> rfl
  | group id kind left right =>
    rw [walk]
    simp only [note]
    cases n.enter limits id (groupDepth depth within kind) <;> rfl
  | quantified id q body =>
    rw [walk]
    simp only [note]
    cases n.enter limits id (quantifierDepth depth quantified) <;> rfl

/-- A walk succeeds if its first step does and the walk over what is pending then. -/
theorem walk_cons_eq_ok_iff : walk limits (p :: rest) n = .ok m ↔
    ∃ k, n.note limits p = .ok k ∧ walk limits (p.parts ++ rest) k = .ok m := by
  rw [walk_cons]
  cases n.note limits p with
  | error e => simp [Except.bind]
  | ok k => simp [Except.bind]

/-- Induction over the steps of a walk. -/
theorem walk_induct (limits : Limits) {motive : List Pending → Numbering → Prop}
    (nil : ∀ n, motive [] n)
    (cons : ∀ p rest n, (∀ k, n.note limits p = .ok k → motive (p.parts ++ rest) k) →
      motive (p :: rest) n)
    (pending : List Pending) (n : Numbering) : motive pending n := by
  fun_induction walk limits pending n with
  | case1 n => exact nil n
  | case2 id term particle depth within quantified rest n e he =>
    refine cons _ rest n fun m hm => ?_
    simp [note, he, Except.map] at hm
  | case3 id term particle depth within quantified rest n k hk ih =>
    refine cons _ rest n fun m hm => ?_
    obtain rfl : k.addLeaf ⟨term, particle, id⟩ = m := by simpa [note, hk, Except.map] using hm
    exact ih
  | case4 id kind l r depth within quantified rest n depth' e he =>
    exact cons _ rest n fun m hm => nomatch he.symm.trans hm
  | case5 id kind l r depth within quantified rest n depth' k hk ih =>
    refine cons _ rest n fun m hm => ?_
    obtain rfl := Except.ok.inj (hk.symm.trans hm)
    exact ih
  | case6 id q body depth within quantified rest n depth' e he =>
    exact cons _ rest n fun m hm => nomatch he.symm.trans hm
  | case7 id q body depth within quantified rest n depth' k hk ih =>
    refine cons _ rest n fun m hm => ?_
    obtain rfl := Except.ok.inj (hk.symm.trans hm)
    exact ih

/-- A step meets the topmost node, and its leaf if it is one. -/
theorem walked_cons (h : n.note limits p = .ok k)
    (hrest : Walked ((p.parts ++ rest).flatMap (·.tree.ids))
      ((p.parts ++ rest).flatMap (·.tree.leaves)) k m) :
    Walked ((p :: rest).flatMap (·.tree.ids)) ((p :: rest).flatMap (·.tree.leaves)) n m := by
  obtain ⟨tree, depth, within, quantified⟩ := p
  cases tree with
  | leaf id term particle =>
    obtain ⟨j, hj, rfl⟩ := (note_leaf_eq_ok_iff rfl).1 h
    exact (walked_see hj).trans ((walked_addLeaf j id term particle).trans hrest)
  | group id kind l r =>
    have := (walked_see (enter_eq_ok_iff.1 h).1).trans hrest
    simpa [Pending.parts, Tree.ids, Tree.leaves] using this
  | quantified id q body =>
    have := (walked_see (enter_eq_ok_iff.1 h).1).trans hrest
    simpa [Pending.parts, Tree.ids, Tree.leaves] using this

theorem consistent_note (hn : n.Consistent) (h : n.note limits p = .ok k) : k.Consistent := by
  obtain ⟨tree, depth, within, quantified⟩ := p
  cases tree with
  | leaf id term particle =>
    obtain ⟨j, hj, rfl⟩ := (note_leaf_eq_ok_iff rfl).1 h
    exact consistent_addLeaf ⟨term, particle, id⟩ hn hj
  | group id kind l r => exact consistent_see hn (enter_eq_ok_iff.1 h).1
  | quantified id q body => exact consistent_see hn (enter_eq_ok_iff.1 h).1

/-- What a step leaves behind does not depend on the limits. -/
theorem note_unique (h : n.note limits p = .ok m) (h' : n.note limits' p = .ok m') : m = m' := by
  obtain ⟨tree, depth, within, quantified⟩ := p
  cases tree with
  | leaf id term particle => exact Except.ok.inj (h.symm.trans h')
  | group id kind l r => exact enter_unique h h'
  | quantified id q body => exact enter_unique h h'

/-! ## The whole walk -/

theorem walk_walked (h : walk limits pending n = .ok m) :
    Walked (pending.flatMap (·.tree.ids)) (pending.flatMap (·.tree.leaves)) n m := by
  induction pending, n using walk_induct limits with
  | nil n =>
    rw [walk] at h
    obtain rfl := Except.ok.inj h
    exact Walked.refl n
  | cons p rest n ih =>
    obtain ⟨k, hk, hm⟩ := walk_cons_eq_ok_iff.1 h
    exact walked_cons hk (ih k hk hm)

theorem consistent_walk (hn : n.Consistent) (h : walk limits pending n = .ok m) :
    m.Consistent := by
  induction pending, n using walk_induct limits with
  | nil n =>
    rw [walk] at h
    exact Except.ok.inj h ▸ hn
  | cons p rest n ih =>
    obtain ⟨k, hk, hm⟩ := walk_cons_eq_ok_iff.1 h
    exact ih k hk (consistent_note hn hk) hm

/-- Walks that succeed under different limits end with the same numbering. -/
theorem walk_unique (h : walk limits pending n = .ok m) (h' : walk limits' pending n = .ok m') :
    m = m' := by
  induction pending, n using walk_induct limits with
  | nil n =>
    rw [walk] at h h'
    exact Except.ok.inj (h.symm.trans h')
  | cons p rest n ih =>
    obtain ⟨k, hk, hm⟩ := walk_cons_eq_ok_iff.1 h
    obtain ⟨k', hk', hm'⟩ := walk_cons_eq_ok_iff.1 h'
    obtain rfl := note_unique hk hk'
    exact ih k hk hm hm'

/-- A tree that can be numbered has distinct nodes, and its leaves are numbered left to right. -/
theorem ofTree_walked {limits : Limits} {t : Tree} {n : Numbering} (h : ofTree limits t = .ok n) :
    Walked t.ids t.leaves start n := by
  simpa using walk_walked h

theorem consistent_ofTree {limits : Limits} {t : Tree} {n : Numbering}
    (h : ofTree limits t = .ok n) : n.Consistent :=
  consistent_walk consistent_start h

end Numbering

end ElementContent
