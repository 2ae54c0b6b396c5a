import ElementContent.Proofs.Content.Standing
import ElementContent.Proofs.Position.Analysis

/-!
# When a content can be analysed

The walk over a content fails for two reasons only: a node is met twice, or a group or a quantifier
is nested too deep. With the number of positions, this decides whether there is an analysis.

- `Tree.deepest`: the level of the deepest group or quantifier, counted as the walk counts.
- `Numbering.walkable_cons_iff`: what a step of the walk needs; `Numbering.exists_walk_iff` says it
  of the whole walk.
- `Analysis.exists_ofDeclaration_iff`: what makes an analysis succeed.
-/

namespace ElementContent

open ElementContent.Numbering in
/-- The greatest level of a group or a quantifier, in what stands inside the level `depth`, from
those in the parts. -/
def Node.deepest : Node (Nat → Option GroupKind → Bool → Nat) → Nat → Option GroupKind → Bool → Nat
  | leaf _ _, _, _, _ => 0
  | group kind l r, depth, within, _ =>
    max (groupDepth depth within kind)
      (max (l (groupDepth depth within kind) (some kind) false)
        (r (groupDepth depth within kind) (some kind) false))
  | quantified _ body, depth, within, inQuantifier =>
    max (quantifierDepth depth inQuantifier)
      (body (quantifierDepth depth inQuantifier) within true)

/-- The greatest level of a group or a quantifier, in what stands inside the level `depth`. -/
def Tree.deepest : Tree → Nat → Option GroupKind → Bool → Nat :=
  eval fun _ => Node.deepest

/-- The greatest level in a pending subtree. -/
def Pending.deepest (p : Pending) : Nat :=
  p.tree.deepest p.depth p.within p.quantified

namespace Numbering

variable {limits : Limits} {n m : Numbering} {i depth : Nat} {ids : List Nat}

/-- The nodes are different from each other and have not been seen. -/
def Fresh (n : Numbering) (ids : List Nat) : Prop :=
  ids.Nodup ∧ ∀ i ∈ ids, i ∉ n.seen

/-- Seeing a node leaves the others fresh that are different from it. -/
theorem fresh_cons_iff (h : n.see i = .ok m) : n.Fresh (i :: ids) ↔ m.Fresh ids := by
  obtain ⟨hi, rfl⟩ := see_eq_ok_iff.1 h
  simp only [Fresh, List.nodup_cons, List.forall_mem_cons, Std.HashSet.mem_insert, beq_iff_eq,
    not_or, hi, not_false_eq_true, true_and]
  constructor
  · rintro ⟨⟨hmem, hnodup⟩, hseen⟩
    exact ⟨hnodup, fun j hj => ⟨fun hij => hmem (hij ▸ hj), hseen j hj⟩⟩
  · rintro ⟨hnodup, hseen⟩
    exact ⟨⟨fun hmem => (hseen i hmem).1 rfl, hnodup⟩, fun j hj => (hseen j hj).2⟩

/-- A node is seen, and the others are left fresh, if all of them are. -/
theorem fresh_cons_iff_exists : n.Fresh (i :: ids) ↔ ∃ k, n.see i = .ok k ∧ k.Fresh ids := by
  constructor
  · intro h
    have hsee := see_eq_ok_iff.2 ⟨h.2 i List.mem_cons_self, rfl⟩
    exact ⟨_, hsee, (fresh_cons_iff hsee).1 h⟩
  · rintro ⟨k, hsee, hk⟩
    exact (fresh_cons_iff hsee).2 hk

theorem fresh_addLeaf_iff {leaf : Leaf} : (n.addLeaf leaf).Fresh ids ↔ n.Fresh ids := by
  unfold addLeaf
  split <;> exact Iff.rfl

/-- What a walk needs to succeed: the nodes are fresh, and none of them is deeper than allowed. -/
def Walkable (limits : Limits) (pending : List Pending) (n : Numbering) : Prop :=
  n.Fresh (pending.flatMap (·.tree.ids)) ∧ ∀ p ∈ pending, p.deepest ≤ limits.depth

/-- What a group or a quantifier needs is that it can be entered, and what its parts need. -/
theorem fresh_cons_and_iff {rest : Prop} : n.Fresh (i :: ids) ∧ depth ≤ limits.depth ∧ rest ↔
    ∃ k, n.enter limits i depth = .ok k ∧ k.Fresh ids ∧ rest := by
  simp only [fresh_cons_iff_exists, enter_eq_ok_iff]
  constructor
  · rintro ⟨⟨k, hsee, hk⟩, hdepth, hrest⟩
    exact ⟨k, ⟨hsee, hdepth⟩, hk, hrest⟩
  · rintro ⟨k, ⟨hsee, hdepth⟩, hk, hrest⟩
    exact ⟨⟨k, hsee, hk⟩, hdepth, hrest⟩

/-- What the first pending subtree needs is that its topmost node can be noted, and what its parts
need. -/
theorem walkable_cons_iff {p : Pending} {rest : List Pending} : Walkable limits (p :: rest) n ↔
    ∃ k, n.note limits p = .ok k ∧ Walkable limits (p.parts ++ rest) k := by
  obtain ⟨tree, level, within, quantified⟩ := p
  cases tree with
  | leaf id term particle =>
    constructor
    · rintro ⟨hfresh, hdeepest⟩
      obtain ⟨k, hsee, hk⟩ := fresh_cons_iff_exists.1 hfresh
      exact ⟨_, (note_leaf_eq_ok_iff rfl).2 ⟨k, hsee, rfl⟩, fresh_addLeaf_iff.2 hk,
        (List.forall_mem_cons.1 hdeepest).2⟩
    · rintro ⟨k, hnote, hfresh, hdeepest⟩
      obtain ⟨j, hsee, rfl⟩ := (note_leaf_eq_ok_iff rfl).1 hnote
      exact ⟨fresh_cons_iff_exists.2 ⟨j, hsee, fresh_addLeaf_iff.1 hfresh⟩,
        List.forall_mem_cons.2 ⟨Nat.zero_le _, hdeepest⟩⟩
  | group id kind l r =>
    let p : Pending := ⟨.group id kind l r, level, within, quantified⟩
    have hneeds : Walkable limits (p :: rest) n ↔
        n.Fresh (id :: (p.parts ++ rest).flatMap (·.tree.ids)) ∧
          groupDepth level within kind ≤ limits.depth ∧
            ∀ q ∈ p.parts ++ rest, q.deepest ≤ limits.depth := by
      simp only [p, Walkable, Pending.parts, Pending.deepest, Tree.deepest, Tree.eval, Node.deepest,
        Tree.ids, List.flatMap_cons, List.cons_append, List.nil_append, List.append_assoc,
        List.mem_cons, forall_eq_or_imp, Nat.max_le, and_assoc]
    exact hneeds.trans fresh_cons_and_iff
  | quantified id q body =>
    let p : Pending := ⟨.quantified id q body, level, within, quantified⟩
    have hneeds : Walkable limits (p :: rest) n ↔
        n.Fresh (id :: (p.parts ++ rest).flatMap (·.tree.ids)) ∧
          quantifierDepth level quantified ≤ limits.depth ∧
            ∀ q ∈ p.parts ++ rest, q.deepest ≤ limits.depth := by
      simp only [p, Walkable, Pending.parts, Pending.deepest, Tree.deepest, Tree.eval, Node.deepest,
        Tree.ids, List.flatMap_cons, List.cons_append, List.nil_append, List.mem_cons,
        forall_eq_or_imp, Nat.max_le, and_assoc]
    exact hneeds.trans fresh_cons_and_iff

/-- A walk succeeds if and only if its nodes are different from each other and from those that have
been seen, and no group or quantifier is deeper than allowed. -/
theorem exists_walk_iff {pending : List Pending} :
    (∃ m, walk limits pending n = .ok m) ↔ Walkable limits pending n := by
  induction pending, n using walk_induct limits with
  | nil n => simp [walk, Walkable, Fresh]
  | cons p rest n ih =>
    simp only [walk_cons_eq_ok_iff, walkable_cons_iff]
    constructor
    · rintro ⟨m, k, hk, hm⟩
      exact ⟨k, hk, (ih k hk).1 ⟨m, hm⟩⟩
    · rintro ⟨k, hk, hwalkable⟩
      obtain ⟨m, hm⟩ := (ih k hk).2 hwalkable
      exact ⟨m, k, hk, hm⟩

theorem exists_ofTree_iff {t : Tree} : (∃ n, ofTree limits t = .ok n) ↔
    t.ids.Nodup ∧ t.deepest 0 none false ≤ limits.depth := by
  refine exists_walk_iff.trans ?_
  simp [Walkable, Fresh, start, Pending.deepest]

end Numbering

/-- A declaration has an analysis if and only if no node is met twice, no group or quantifier is
deeper than allowed, and there are no more positions than allowed. -/
theorem Analysis.exists_ofDeclaration_iff {d : Declaration} {limits : Limits} :
    (∃ a, ofDeclaration d limits = .ok a) ↔ d.tree.ids.Nodup ∧
      d.tree.deepest 0 none false ≤ limits.depth ∧ d.tree.leaves.length ≤ limits.positions := by
  have hsize : ∀ {n : Numbering}, Numbering.ofTree limits d.tree = .ok n →
      n.leaves.size = d.tree.leaves.length := by
    intro n hn
    rw [← Array.length_toList, (Numbering.ofTree_walked hn).leaves_eq]
    rfl
  rw [← and_assoc, ← Numbering.exists_ofTree_iff]
  constructor
  · rintro ⟨a, ha⟩
    obtain ⟨n, hn, hle, -⟩ := ofDeclaration_eq_ok_iff.1 ha
    exact ⟨⟨n, hn⟩, hsize hn ▸ hle⟩
  · rintro ⟨⟨n, hn⟩, hle⟩
    exact ⟨_, ofDeclaration_eq_ok_iff.2 ⟨n, hn, (hsize hn).symm ▸ hle, rfl⟩⟩

end ElementContent
