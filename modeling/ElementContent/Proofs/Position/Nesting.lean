import ElementContent.Proofs.Position.Depth
import ElementContent.Proofs.Position.Walk

/-!
# Which contents are within bounds

The walk carries the level that it has reached down the tree, with the kind of the nearest group and
whether a quantifier is directly above. Counted on the path from the root instead, a group is a
level if the nearest group above it, whatever quantifiers stand between, is not of its kind, and a
quantifier is one if a quantifier is directly above it. Both counts agree.

- `nesting`: the levels among the nodes of a path; `Declaration.lineage?` gives the nodes of a path
  from the root.
- `Tree.deepest_le_iff`: the deepest level of a tree is that of its deepest path.
- `Declaration.card_childLeaves`: the leaves that can be reached are the positions.
- `analysis_exists_iff`: there is an analysis if no node is shared, no path is too deep and there
  are not too many leaves; the walk ends either way.
-/

namespace ElementContent

namespace Node

variable {α : Type}

/-- The kind of a group. -/
def groupKind? : Node α → Option GroupKind
  | group kind _ _ => some kind
  | _ => none

/-- Whether the node is a quantifier. -/
def isQuantified : Node α → Bool
  | quantified _ _ => true
  | _ => false

/-- Whether a node is a level of its own below the nodes above it, of which the nearest comes
first. -/
def isLevel (above : List (Node α)) : Node α → Bool
  | leaf _ _ => false
  | group kind _ _ => above.findSome? groupKind? ≠ some kind
  | quantified _ _ => above.head?.any isQuantified

end Node

/-- The number of levels among the nodes of a path, the lowest node first. -/
def nesting {α : Type} : List (Node α) → Nat
  | [] => 0
  | n :: above => nesting above + (n.isLevel above).toNat

/-- The nodes on a path from a node downwards, the lowest first and those above the node last. -/
def Declaration.lineage? (d : Declaration) :
    List (Node Nat) → Nat → List Nat → Option (List (Node Nat))
  | above, i, [] => (d.nodes[i]?).map (· :: above)
  | above, i, k :: path => do
    let n ← d.nodes[i]?
    let c ← n.children[k]?
    d.lineage? (n :: above) c path

open Classical in
/-- The leaves that take a child and that a path leads to from the root. -/
noncomputable def Declaration.childLeaves (d : Declaration) : Finset Nat :=
  (Finset.range d.nodes.size).filter fun i =>
    (∃ path, d.nodeAt? d.root path = some i) ∧ ∃ n, d.nodes[i]? = some n ∧ n.takesChild = true

/-! ## Levels -/

section Levels

variable {d : Declaration} {above : List (Node Nat)} {bound : Nat}

theorem nesting_group {kind : GroupKind} {l r : Nat} : nesting (.group kind l r :: above) =
    Numbering.groupDepth (nesting above) (above.findSome? Node.groupKind?) kind := by
  unfold Numbering.groupDepth
  by_cases h : above.findSome? Node.groupKind? = some kind
  · simp [nesting, Node.isLevel, h]
  · simp [nesting, Node.isLevel, h]

theorem nesting_quantified {q : Quantifier} {b : Nat} : nesting (.quantified q b :: above) =
    Numbering.quantifierDepth (nesting above) (above.head?.any Node.isQuantified) := by
  unfold Numbering.quantifierDepth
  by_cases h : above.head?.any Node.isQuantified = true
  · simp [nesting, Node.isLevel, h]
  · simp [nesting, Node.isLevel, h]

/-- What holds of every path down a tree holds of its topmost node and of every path down a part. -/
theorem Declaration.forall_lineage_iff {t : Tree} (h : t.StandsIn d.nodes)
    {property : List (Node Nat) → Prop} :
    (∀ path ns, d.lineage? above t.id path = some ns → property ns) ↔
      property (t.node :: above) ∧ ∀ u ∈ t.parts, ∀ path ns,
        d.lineage? (t.node :: above) u.id path = some ns → property ns := by
  have hcons : ∀ (k : Nat) (path : List Nat), d.lineage? above t.id (k :: path) =
      (t.parts[k]?).bind fun u => d.lineage? (t.node :: above) u.id path := by
    intro k path
    rw [lineage?, h.getElem?]
    simp only [Option.bind_eq_bind, Option.bind_some, Tree.children_node, List.getElem?_map]
    cases t.parts[k]? <;> rfl
  constructor
  · intro hall
    refine ⟨hall [] _ (by rw [lineage?, h.getElem?]; rfl), fun u hu path ns hns => ?_⟩
    obtain ⟨k, hk⟩ := List.getElem?_of_mem hu
    exact hall (k :: path) ns (by rw [hcons, hk]; exact hns)
  · rintro ⟨htop, hparts⟩ path ns hns
    cases path with
    | nil =>
      rw [lineage?, h.getElem?] at hns
      exact Option.some.inj hns ▸ htop
    | cons k path =>
      rw [hcons] at hns
      obtain ⟨u, hu, hns⟩ := Option.bind_eq_some_iff.1 hns
      exact hparts u (List.mem_of_getElem? hu) path ns hns

/-- The deepest level of a tree that stands below the nodes of a path. -/
def Tree.deepestBelow (t : Tree) (above : List (Node Nat)) : Nat :=
  t.deepest (nesting above) (above.findSome? Node.groupKind?) (above.head?.any Node.isQuantified)

/-- A tree is as deep as its topmost node or as the deepest of its parts. -/
theorem Tree.deepestBelow_le_iff {t : Tree} (habove : nesting above ≤ bound) :
    t.deepestBelow above ≤ bound ↔ nesting (t.node :: above) ≤ bound ∧
      ∀ u ∈ t.parts, u.deepestBelow (t.node :: above) ≤ bound := by
  cases t with
  | leaf i term particle =>
    refine iff_of_true (Nat.zero_le _) ⟨habove, fun u hu => ?_⟩
    cases hu
  | group i kind l r =>
    have hdeepest : (group i kind l r).deepestBelow above =
        max (nesting (.group kind l.id r.id :: above))
          (max (l.deepestBelow (.group kind l.id r.id :: above))
            (r.deepestBelow (.group kind l.id r.id :: above))) := by
      simp only [deepestBelow, nesting_group]
      rfl
    rw [hdeepest, Nat.max_le, Nat.max_le]
    simp [node, parts]
  | quantified i q body =>
    have hdeepest : (quantified i q body).deepestBelow above =
        max (nesting (.quantified q body.id :: above))
          (body.deepestBelow (.quantified q body.id :: above)) := by
      simp only [deepestBelow, nesting_quantified]
      rfl
    rw [hdeepest, Nat.max_le]
    simp [node, parts]

/-- The deepest level of a tree is within a bound if no path down the tree goes deeper. -/
theorem Tree.deepest_le_iff {t : Tree} (h : t.StandsIn d.nodes) (habove : nesting above ≤ bound) :
    t.deepestBelow above ≤ bound ↔
      ∀ path ns, d.lineage? above t.id path = some ns → nesting ns ≤ bound := by
  induction t generalizing above with
  | leaf i term particle =>
    rw [Declaration.forall_lineage_iff h, deepestBelow_le_iff habove]
    refine and_congr_right fun htop => forall₂_congr fun u hu => ?_
    cases hu
  | group i kind l r ihl ihr =>
    rw [Declaration.forall_lineage_iff h, deepestBelow_le_iff habove]
    refine and_congr_right fun htop => forall₂_congr fun u hu => ?_
    rcases List.mem_pair.1 hu with rfl | rfl
    · exact ihl (h.part hu) htop
    · exact ihr (h.part hu) htop
  | quantified i q body ih =>
    rw [Declaration.forall_lineage_iff h, deepestBelow_le_iff habove]
    refine and_congr_right fun htop => forall₂_congr fun u hu => ?_
    obtain rfl := List.mem_singleton.1 hu
    exact ih (h.part hu) htop

end Levels

/-! ## Leaves -/

namespace Tree

theorem map_node_leaves (t : Tree) :
    t.leaves.map (·.node) = (t.subtrees.filter (·.node.takesChild)).map id := by
  induction t with
  | leaf i term particle =>
    by_cases h : term.takesChild = true
    · simp [leaves, subtrees, node, Node.takesChild, id, h]
    · simp [leaves, subtrees, node, Node.takesChild, h]
  | group i kind l r ihl ihr =>
    rw [leaves, List.map_append, ihl, ihr]
    simp [subtrees, node, Node.takesChild]
  | quantified i q body ih =>
    rw [leaves, ih]
    simp [subtrees, node, Node.takesChild]

/-- The nodes of the leaves that take a child are among the nodes, in their order. -/
theorem map_node_leaves_sublist (t : Tree) : (t.leaves.map (·.node)).Sublist t.ids := by
  rw [map_node_leaves, ids_eq_map_subtrees]
  exact List.filter_sublist.map id

end Tree

namespace Declaration

/-- Paths from the root lead to the nodes that stand in the tree. -/
theorem exists_nodeAt?_iff {d : Declaration} {i : Nat} :
    (∃ path, d.nodeAt? d.root path = some i) ↔ i ∈ d.tree.ids := by
  have hnode := fun path => nodeAt?_eq d.standsIn_tree path
  rw [id_tree] at hnode
  constructor
  · rintro ⟨path, hpath⟩
    rw [hnode] at hpath
    obtain ⟨s, hs, rfl⟩ := Option.map_eq_some_iff.1 hpath
    exact Tree.id_mem_ids_of_at? hs
  · intro hi
    obtain ⟨path, s, hs, rfl⟩ := Tree.exists_at?_of_mem_ids hi
    exact ⟨path, by rw [hnode, hs]; rfl⟩

theorem mem_childLeaves_iff {d : Declaration} {i : Nat} :
    i ∈ d.childLeaves ↔ i ∈ d.tree.leaves.map (·.node) := by
  simp only [childLeaves, Finset.mem_filter, Finset.mem_range, exists_nodeAt?_iff,
    Tree.map_node_leaves, Tree.ids_eq_map_subtrees]
  constructor
  · rintro ⟨-, hi, n, hn, hchild⟩
    obtain ⟨s, hs, rfl⟩ := List.mem_map.1 hi
    obtain rfl := Option.some.inj ((d.standsIn_tree s hs).symm.trans hn)
    exact List.mem_map_of_mem (List.mem_filter.2 ⟨hs, hchild⟩)
  · intro hi
    obtain ⟨s, hs, rfl⟩ := List.mem_map.1 hi
    obtain ⟨hs, hchild⟩ := List.mem_filter.1 hs
    have hn := d.standsIn_tree s hs
    exact ⟨(Array.getElem?_eq_some_iff.1 hn).1, List.mem_map_of_mem hs, s.node, hn, hchild⟩

/-- Where no node is met twice, there are as many leaves to reach as positions. -/
theorem card_childLeaves {d : Declaration} (h : d.tree.ids.Nodup) :
    d.childLeaves.card = d.tree.leaves.length := by
  have hset : d.childLeaves = (d.tree.leaves.map (·.node)).toFinset := by
    ext i
    rw [List.mem_toFinset, mem_childLeaves_iff]
  rw [hset, List.toFinset_card_of_nodup (d.tree.map_node_leaves_sublist.nodup h), List.length_map]

end Declaration

/-- A declaration has an analysis just if no two paths lead from the root to one node, no path goes
deeper than allowed, and no more leaves that take a child are reached than allowed. The walk over it
comes to its end in any case, after no more steps than one for each node and one that fails. -/
theorem analysis_exists_iff (d : Declaration) (limits : Limits) :
    ((∃ a, Analysis.ofDeclaration d limits = .ok a) ↔ ¬ d.Shared ∧
      (∀ path ns, d.lineage? [] d.root path = some ns → nesting ns ≤ limits.depth) ∧
      d.childLeaves.card ≤ limits.positions) ∧
    Numbering.walkFor limits (d.nodes.size + 1) [⟨d.tree, 0, none, false⟩] .start =
      some (Numbering.ofTree limits d.tree) := by
  refine ⟨?_, Numbering.walkFor_eq_ofTree d⟩
  have hdeepest : d.tree.deepest 0 none false ≤ limits.depth ↔
      ∀ path ns, d.lineage? [] d.root path = some ns → nesting ns ≤ limits.depth := by
    have hroot : nesting ([] : List (Node Nat)) ≤ limits.depth := Nat.zero_le _
    rw [← d.id_tree]
    exact Tree.deepest_le_iff d.standsIn_tree hroot
  rw [Analysis.exists_ofDeclaration_iff, Declaration.shared_iff, not_not, ← hdeepest]
  refine and_congr_right fun hnodup => and_congr_right fun _ => ?_
  rw [Declaration.card_childLeaves hnodup]

end ElementContent
