import ElementContent.Proofs.Position.Nesting

/-!
# Positions are in document order

The nodes of a declaration may stand in any order in which parts come before what they are part of,
and some of them may not belong to the content at all. The positions do not depend on this: the walk
takes the parts of a node before everything that is still pending, and the left part first. So the
leaves that take a child are numbered by the paths that lead to them, in lexicographic order.

- `Tree.placedLeaves`: the leaves that take a child, each with its path.
- `Tree.pairwise_placedLeaves`: their paths ascend.
- `Tree.mem_placedLeaves_iff`: they are the leaves that a path leads to.
- `positions_number_leaves`: the positions of an analysis, by paths from the root.
-/

namespace ElementContent

namespace Tree

/-- The leaves that take a child, left to right, each with the path that leads to it. -/
def placedLeaves : Tree → List (List Nat × Leaf)
  | leaf id term particle => if term.takesChild then [([], ⟨term, particle, id⟩)] else []
  | group _ _ l r =>
    l.placedLeaves.map (fun x => (0 :: x.1, x.2)) ++ r.placedLeaves.map fun x => (1 :: x.1, x.2)
  | quantified _ _ body => body.placedLeaves.map fun x => (0 :: x.1, x.2)

/-- Without the paths, the leaves are left. -/
theorem map_snd_placedLeaves (t : Tree) : t.placedLeaves.map (·.2) = t.leaves := by
  induction t with
  | leaf i term particle =>
    by_cases h : term.takesChild = true
    · simp [placedLeaves, leaves, h]
    · simp [placedLeaves, leaves, h]
  | group i kind l r ihl ihr =>
    rw [placedLeaves, leaves, ← ihl, ← ihr, List.map_append, List.map_map, List.map_map]
    rfl
  | quantified i q body ih =>
    rw [placedLeaves, leaves, ← ih, List.map_map]
    rfl

/-- The paths of the leaves ascend. -/
theorem pairwise_placedLeaves (t : Tree) : t.placedLeaves.Pairwise fun x y => x.1 < y.1 := by
  have hcons : ∀ {k : Nat} {xs : List (List Nat × Leaf)}, xs.Pairwise (fun x y => x.1 < y.1) →
      (xs.map fun x => (k :: x.1, x.2)).Pairwise fun x y => x.1 < y.1 :=
    fun h => List.pairwise_map.2 (h.imp List.Lex.cons)
  induction t with
  | leaf i term particle =>
    by_cases h : term.takesChild = true
    · simp [placedLeaves, h]
    · simp [placedLeaves, h]
  | group i kind l r ihl ihr =>
    refine List.pairwise_append.2 ⟨hcons ihl, hcons ihr, fun x hx y hy => ?_⟩
    obtain ⟨x, -, rfl⟩ := List.mem_map.1 hx
    obtain ⟨y, -, rfl⟩ := List.mem_map.1 hy
    exact List.Lex.rel Nat.zero_lt_one
  | quantified i q body ih => exact hcons ih

/-- The leaves are those that a path leads to and that take a child. -/
theorem mem_placedLeaves_iff {t : Tree} {path : List Nat} {x : Leaf} :
    (path, x) ∈ t.placedLeaves ↔
      t.at? path = some (leaf x.node x.term x.particle) ∧ x.term.takesChild = true := by
  -- a path into a part begins with the number of the part
  have hcons : ∀ {k j : Nat} {path : List Nat} {xs : List (List Nat × Leaf)},
      (j :: path, x) ∈ xs.map (fun y => (k :: y.1, y.2)) ↔ j = k ∧ (path, x) ∈ xs := by
    intro k j path xs
    rw [List.mem_map]
    constructor
    · rintro ⟨⟨p, x'⟩, hx, heq⟩
      obtain ⟨⟨rfl, rfl⟩, rfl⟩ : (k = j ∧ p = path) ∧ x' = x := by simpa using heq
      exact ⟨rfl, hx⟩
    · rintro ⟨rfl, hx⟩
      exact ⟨_, hx, rfl⟩
  have hnil : ∀ {k : Nat} {xs : List (List Nat × Leaf)},
      ([], x) ∉ xs.map fun y => (k :: y.1, y.2) := by
    intro k xs hx
    obtain ⟨y, -, heq⟩ := List.mem_map.1 hx
    simp at heq
  induction t generalizing path with
  | leaf i term particle =>
    obtain ⟨term', particle', i'⟩ := x
    cases path with
    | nil =>
      by_cases h : term.takesChild = true
      · simp only [placedLeaves, if_pos h, List.mem_singleton, Prod.mk.injEq, Leaf.mk.injEq,
          true_and, at?, Option.some.injEq, leaf.injEq]
        grind
      · simp only [placedLeaves, if_neg h, List.not_mem_nil, at?, Option.some.injEq, leaf.injEq]
        grind
    | cons k path =>
      refine iff_of_false (fun hmem => ?_) fun hat => ?_
      · by_cases h : term.takesChild = true
        · simp [placedLeaves, h] at hmem
        · simp [placedLeaves, h] at hmem
      · cases hat.1
  | group i kind l r ihl ihr =>
    cases path with
    | nil =>
      refine iff_of_false (fun hmem => ?_) fun hat => ?_
      · exact (List.mem_append.1 hmem).elim hnil hnil
      · cases hat.1
    | cons k path =>
      simp only [placedLeaves, List.mem_append, hcons, ihl, ihr]
      rcases k with _ | _ | k
      · simp [at?, parts]
      · simp [at?, parts]
      · simp [at?, parts]
  | quantified i q body ih =>
    cases path with
    | nil =>
      refine iff_of_false hnil fun hat => ?_
      cases hat.1
    | cons k path =>
      simp only [placedLeaves, hcons, ih]
      cases k with
      | zero => simp [at?, parts]
      | succ k => simp [at?, parts]

theorem StandsIn.of_at? {nodes : Array (Node Nat)} {t s : Tree} {path : List Nat}
    (h : t.StandsIn nodes) (hs : t.at? path = some s) : s.StandsIn nodes := by
  induction path generalizing t with
  | nil => exact Option.some.inj hs ▸ h
  | cons k path ih =>
    obtain ⟨u, hu, hs⟩ := Option.bind_eq_some_iff.1 hs
    exact ih (h.part (List.mem_of_getElem? hu)) hs

end Tree

/-- A path leads to a leaf of the tree just if it leads to the node of the leaf. -/
theorem Declaration.at?_eq_leaf_iff {d : Declaration} {path : List Nat} {x : Leaf} :
    d.tree.at? path = some (.leaf x.node x.term x.particle) ↔
      d.nodeAt? d.root path = some x.node ∧
        d.nodes[x.node]? = some (.leaf x.term x.particle) := by
  have hnode := nodeAt?_eq d.standsIn_tree path
  rw [id_tree] at hnode
  constructor
  · intro hat
    refine ⟨by rw [hnode, hat]; rfl, ?_⟩
    exact (d.standsIn_tree.of_at? hat).getElem?
  · rintro ⟨hpath, hn⟩
    rw [hnode] at hpath
    obtain ⟨s, hs, hid⟩ := Option.map_eq_some_iff.1 hpath
    -- one tree only stands at the node, and the leaf does
    have hleaf : (Tree.leaf x.node x.term x.particle).StandsIn d.nodes := Tree.standsIn_leaf.2 hn
    rw [hs, Tree.standsIn_unique (d.standsIn_tree.of_at? hs) hleaf hid]

/-- The positions of an analysis number the leaves that take a child and that a path leads to from
the root, in the order of these paths, each leaf once and with the term and the particle of its
node. A node has the position at which its leaf stands, and it has one just if it is such a leaf:
nodes that cannot be reached, leaves for text or for nothing, groups and quantifiers have none. -/
theorem positions_number_leaves {d : Declaration} {limits : Limits} {a : Analysis}
    (ha : Analysis.ofDeclaration d limits = .ok a) :
    (∃ placed : List (List Nat × Leaf),
      placed.map (·.2) = a.leaves.toList ∧
      placed.Pairwise (fun x y => x.1 < y.1) ∧
      ∀ path leaf, (path, leaf) ∈ placed ↔
        d.nodeAt? d.root path = some leaf.node ∧
          d.nodes[leaf.node]? = some (.leaf leaf.term leaf.particle) ∧
          leaf.term.takesChild = true) ∧
    (a.leaves.toList.map (·.node)).Nodup ∧
    (∀ i leaf, a.leaves[i]? = some leaf → a.positionOf? leaf.node = some i) ∧
    (∀ n i, a.positionOf? n = some i → ∃ leaf, a.leaves[i]? = some leaf ∧ leaf.node = n) ∧
    ∀ n, (∃ i, a.positionOf? n = some i) ↔
      (∃ path, d.nodeAt? d.root path = some n) ∧
        ∃ term particle, d.nodes[n]? = some (.leaf term particle) ∧ term.takesChild = true := by
  have h := Analysis.isExact_ofDeclaration ha
  have hplaced : ∀ (path : List Nat) (x : Leaf), (path, x) ∈ d.tree.placedLeaves ↔
      d.nodeAt? d.root path = some x.node ∧
        d.nodes[x.node]? = some (.leaf x.term x.particle) ∧ x.term.takesChild = true := by
    intro path x
    rw [Tree.mem_placedLeaves_iff, Declaration.at?_eq_leaf_iff, and_assoc]
  have hleaves : d.tree.placedLeaves.map (·.2) = a.leaves.toList := by
    rw [Tree.map_snd_placedLeaves, h.leaves_eq]
  refine ⟨⟨_, hleaves, d.tree.pairwise_placedLeaves, hplaced⟩, ?_, ?_, ?_, ?_⟩
  · rw [h.leaves_eq]
    exact d.tree.map_node_leaves_sublist.nodup h.nodup
  · intro i x hx
    exact (h.position_iff _ _).2 (by rw [hx]; rfl)
  · intro n i hi
    exact Option.map_eq_some_iff.1 ((h.position_iff n i).1 hi)
  · intro n
    constructor
    · rintro ⟨i, hi⟩
      obtain ⟨x, hx, rfl⟩ := Option.map_eq_some_iff.1 ((h.position_iff n i).1 hi)
      have hmem : x ∈ d.tree.placedLeaves.map (·.2) := by
        rw [hleaves]
        exact Array.mem_toList_iff.2 (Array.mem_of_getElem? hx)
      obtain ⟨⟨path, x⟩, hplace, rfl⟩ := List.mem_map.1 hmem
      obtain ⟨hpath, hn, hchild⟩ := (hplaced path x).1 hplace
      exact ⟨⟨path, hpath⟩, x.term, x.particle, hn, hchild⟩
    · rintro ⟨⟨path, hpath⟩, term, particle, hn, hchild⟩
      have hx := (hplaced path ⟨term, particle, n⟩).2 ⟨hpath, hn, hchild⟩
      have hmem : ⟨term, particle, n⟩ ∈ a.leaves.toList := hleaves ▸ List.mem_map_of_mem hx
      obtain ⟨i, hi⟩ := Array.mem_iff_getElem?.1 (Array.mem_toList_iff.1 hmem)
      exact ⟨i, (h.position_iff n i).2 (by rw [hi]; rfl)⟩

/-- The content `((a | #PCDATA)?, b)`, whose nodes do not stand in document order. The first node is
not part of it. -/
def scatteredContent : Declaration where
  nodes := #[.leaf (.element ⟨0, 9⟩) none, .leaf (.element ⟨0, 2⟩) (some 0), .leaf .text none,
    .leaf (.any .any) none, .group .choice 3 2, .quantified .optional 4, .group .sequence 5 1]
  root := 6
  labels := #["b"]
  root_lt := by decide
  earlier := by decide

/-- The leaf that stands last among the nodes comes first, and three nodes have no position. -/
theorem positions_number_leaves_scatteredContent : ∃ a,
    Analysis.ofDeclaration scatteredContent .standard = .ok a ∧
    a.leaves.toList = [⟨.any .any, none, 3⟩, ⟨.element ⟨0, 2⟩, some 0, 1⟩] ∧
    a.positionOf? 3 = some 0 ∧ a.positionOf? 1 = some 1 ∧
    ∀ n, (∃ i, a.positionOf? n = some i) → n ≠ 2 ∧ n ≠ 4 := by
  have htree : scatteredContent.tree = .group 6 .sequence (.quantified 5 .optional (.group 4 .choice
      (.leaf 3 (.any .any) none) (.leaf 2 .text none))) (.leaf 1 (.element ⟨0, 2⟩) (some 0)) := by
    cbv
  obtain ⟨a, ha⟩ : ∃ a, Analysis.ofDeclaration scatteredContent .standard = .ok a := by
    rw [Analysis.exists_ofDeclaration_iff, htree]
    decide
  have hleaves : a.leaves.toList = [⟨.any .any, none, 3⟩, ⟨.element ⟨0, 2⟩, some 0, 1⟩] := by
    rw [(Analysis.isExact_ofDeclaration ha).leaves_eq, htree]
    rfl
  obtain ⟨-, -, hposition, -, hnodes⟩ := positions_number_leaves ha
  refine ⟨a, ha, hleaves, hposition 0 ⟨.any .any, none, 3⟩ ?_,
    hposition 1 ⟨.element ⟨0, 2⟩, some 0, 1⟩ ?_, fun n hn => ?_⟩
  · rw [← Array.getElem?_toList, hleaves]
    rfl
  · rw [← Array.getElem?_toList, hleaves]
    rfl
  · obtain ⟨-, term, particle, hleaf, hchild⟩ := (hnodes n).1 hn
    refine ⟨?_, ?_⟩
    · rintro rfl
      obtain ⟨rfl, -⟩ := Node.leaf.inj (Option.some.inj hleaf)
      cases hchild
    · rintro rfl
      cases hleaf

end ElementContent
