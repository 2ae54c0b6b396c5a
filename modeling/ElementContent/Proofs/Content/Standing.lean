import ElementContent.Proofs.Content.Subtree
import Mathlib.Data.List.Nodup

/-!
# Trees that stand in an array of nodes

A tree *stands* in an array of nodes if each of its nodes is found there under its id. The tree of a
declaration stands in its nodes. A tree goes on standing when nodes are added, so this is what is
kept of a content while a draft grows.

- `Tree.StandsIn`: the tree stands in the nodes; `Tree.standsIn_unique` and `exists_standsIn` say
  that a node has one tree.
- `Declaration.standsIn_tree`: the tree of a declaration stands in its nodes.
- `Tree.at?`: the subtree at the end of a path; `Tree.PathsDiffer` says that different paths lead to
  different nodes.
- `Declaration.Shared`: two paths lead from the root to one node; `Declaration.shared_iff` says that
  the tree then meets an id twice.
-/

namespace ElementContent

theorem Node.mapWith_self {α : Type} {n : Node α} {f : (c : α) → c ∈ n.children → α}
    (h : ∀ c hc, f c hc = c) : n.mapWith f = n := by
  cases n with
  | leaf => rfl
  | group kind l r => exact congrArg₂ (group kind) (h l _) (h r _)
  | quantified q body => exact congrArg (quantified q) (h body _)

namespace Tree

/-- The topmost node, which names its parts by their ids. -/
def node : Tree → Node Nat
  | leaf _ term particle => .leaf term particle
  | group _ kind l r => .group kind l.id r.id
  | quantified _ q body => .quantified q body.id

/-- Every node of the tree is found in the array under its id. -/
def StandsIn (nodes : Array (Node Nat)) (t : Tree) : Prop :=
  ∀ s ∈ t.subtrees, nodes[s.id]? = some s.node

theorem node_ofNode (i : Nat) (n : Node Tree) : (ofNode i n).node = n.map id := by
  cases n <;> rfl

variable {nodes nodes' : Array (Node Nat)} {t t' : Tree} {i : Nat}

theorem self_mem_subtrees (t : Tree) : t ∈ t.subtrees := by
  cases t <;> exact List.mem_cons_self

theorem id_mem_ids_of_mem_subtrees (h : t' ∈ t.subtrees) : t'.id ∈ t.ids := by
  rw [ids_eq_map_subtrees]
  exact List.mem_map_of_mem h

theorem id_mem_ids (t : Tree) : t.id ∈ t.ids :=
  id_mem_ids_of_mem_subtrees t.self_mem_subtrees

theorem standsIn_leaf {term : Term} {particle : Option Nat} :
    (leaf i term particle).StandsIn nodes ↔ nodes[i]? = some (.leaf term particle) := by
  simp [StandsIn, subtrees, id, node]

theorem standsIn_group {kind : GroupKind} {l r : Tree} : (group i kind l r).StandsIn nodes ↔
    nodes[i]? = some (.group kind l.id r.id) ∧ l.StandsIn nodes ∧ r.StandsIn nodes := by
  simp [StandsIn, subtrees, id, node, or_imp, forall_and]

theorem standsIn_quantified {q : Quantifier} {body : Tree} :
    (quantified i q body).StandsIn nodes ↔
      nodes[i]? = some (.quantified q body.id) ∧ body.StandsIn nodes := by
  simp [StandsIn, subtrees, id, node]

theorem StandsIn.getElem? (h : t.StandsIn nodes) : nodes[t.id]? = some t.node :=
  h t t.self_mem_subtrees

/-- A tree stands wherever its nodes are found again. -/
theorem StandsIn.mono (h : t.StandsIn nodes)
    (hnodes : ∀ (i : Nat) (n : Node Nat), nodes[i]? = some n → nodes'[i]? = some n) :
    t.StandsIn nodes' :=
  fun s hs => hnodes s.id s.node (h s hs)

theorem StandsIn.lt_size (h : t.StandsIn nodes) (hi : i ∈ t.ids) : i < nodes.size := by
  rw [ids_eq_map_subtrees] at hi
  obtain ⟨s, hs, rfl⟩ := List.mem_map.1 hi
  exact (Array.getElem?_eq_some_iff.1 (h s hs)).1

theorem StandsIn.node_eq (h : t.StandsIn nodes) (h' : t'.StandsIn nodes) (hid : t.id = t'.id) :
    t.node = t'.node :=
  Option.some.inj (h.getElem?.symm.trans (hid ▸ h'.getElem?))

/-- One tree stands at a node. -/
theorem standsIn_unique (h : t.StandsIn nodes) (h' : t'.StandsIn nodes) (hid : t.id = t'.id) :
    t = t' := by
  induction t generalizing t' with
  | leaf i term particle =>
    have hnode := h.node_eq h' hid
    cases t' with
    | leaf i' term' particle' =>
      obtain ⟨rfl, rfl⟩ := Node.leaf.inj hnode
      rw [show i = i' from hid]
    | group => cases hnode
    | quantified => cases hnode
  | group i kind l r ihl ihr =>
    have hnode := h.node_eq h' hid
    cases t' with
    | leaf => cases hnode
    | group i' kind' l' r' =>
      obtain ⟨rfl, hidl, hidr⟩ := Node.group.inj hnode
      obtain ⟨-, hl, hr⟩ := standsIn_group.1 h
      obtain ⟨-, hl', hr'⟩ := standsIn_group.1 h'
      rw [ihl hl hl' hidl, ihr hr hr' hidr, show i = i' from hid]
    | quantified => cases hnode
  | quantified i q body ih =>
    have hnode := h.node_eq h' hid
    cases t' with
    | leaf => cases hnode
    | group => cases hnode
    | quantified i' q' body' =>
      obtain ⟨rfl, hidb⟩ := Node.quantified.inj hnode
      rw [ih (standsIn_quantified.1 h).2 (standsIn_quantified.1 h').2 hidb, show i = i' from hid]

/-- Where the parts of every node stand before it, every node has a tree. -/
theorem exists_standsIn
    (hearlier : ∀ (i : Nat) (n : Node Nat), nodes[i]? = some n → ∀ c ∈ n.children, c < i)
    (i : Nat) (hi : i < nodes.size) : ∃ t : Tree, t.id = i ∧ t.StandsIn nodes := by
  induction i using Nat.strongRecOn with
  | ind i ih =>
    have hn := Array.getElem?_eq_getElem hi
    have hparts : ∀ c ∈ nodes[i].children, ∃ t : Tree, t.id = c ∧ t.StandsIn nodes := by
      intro c hc
      have hlt := hearlier i _ hn c hc
      exact ih c hlt (Nat.lt_trans hlt hi)
    cases h : nodes[i] with
    | leaf term particle => exact ⟨leaf i term particle, rfl, standsIn_leaf.2 (h ▸ hn)⟩
    | group kind l r =>
      rw [h] at hparts
      obtain ⟨tl, rfl, hl⟩ := hparts l (by simp [Node.children])
      obtain ⟨tr, rfl, hr⟩ := hparts r (by simp [Node.children])
      exact ⟨group i kind tl tr, rfl, standsIn_group.2 ⟨h ▸ hn, hl, hr⟩⟩
    | quantified q b =>
      rw [h] at hparts
      obtain ⟨tb, rfl, hb⟩ := hparts b (by simp [Node.children])
      exact ⟨quantified i q tb, rfl, standsIn_quantified.2 ⟨h ▸ hn, hb⟩⟩

end Tree

namespace Declaration

variable (d : Declaration)

theorem id_of_mem_trees {i : Nat} {t : Tree} (h : d.trees[i]? = some t) : t.id = i := by
  obtain ⟨hi, -⟩ := Array.getElem?_eq_some_iff.1 h
  obtain ⟨_, _, htree⟩ := d.getElem?_trees (Array.getElem?_eq_getElem (d.size_trees ▸ hi))
  rw [Option.some.inj (h.symm.trans htree), Tree.id_ofNode]

/-- The tree of a node has that node at its top. -/
theorem getElem?_nodes_of_mem_trees {i : Nat} {t : Tree} (h : d.trees[i]? = some t) :
    d.nodes[i]? = some t.node := by
  obtain ⟨hi, -⟩ := Array.getElem?_eq_some_iff.1 h
  have hn := Array.getElem?_eq_getElem (d.size_trees ▸ hi)
  obtain ⟨f, hf, htree⟩ := d.getElem?_trees hn
  rw [hn, Option.some.inj (h.symm.trans htree), Tree.node_ofNode, Node.map_mapWith,
    Node.mapWith_self fun c hc => d.id_of_mem_trees (hf c hc)]

@[simp] theorem id_tree : d.tree.id = d.root :=
  d.id_of_mem_trees d.getElem?_trees_root

/-- The tree of a declaration stands in its nodes. -/
theorem standsIn_tree : d.tree.StandsIn d.nodes := by
  intro s hs
  obtain ⟨hlt, htree⟩ := d.mem_subtrees hs
  exact d.getElem?_nodes_of_mem_trees (Array.getElem?_eq_some_iff.2 ⟨hlt, htree⟩)

end Declaration

/-! ## Paths -/

namespace Tree

/-- The parts of the topmost node, left to right. -/
def parts : Tree → List Tree
  | leaf _ _ _ => []
  | group _ _ l r => [l, r]
  | quantified _ _ body => [body]

/-- The subtree that a path leads to; each step says by its number which part to go down to. -/
def at? : Tree → List Nat → Option Tree
  | t, [] => some t
  | t, k :: path => t.parts[k]?.bind (at? · path)

/-- Different paths lead to nodes with different ids. -/
def PathsDiffer (t : Tree) : Prop :=
  ∀ p q s s', t.at? p = some s → t.at? q = some s' → s.id = s'.id → p = q

theorem ids_eq_cons (t : Tree) : t.ids = t.id :: t.parts.flatMap ids := by
  cases t <;> simp [ids, id, parts]

@[simp] theorem children_node (t : Tree) : t.node.children = t.parts.map id := by
  cases t <;> rfl

theorem mem_subtrees_of_part {t u v : Tree} (hu : u ∈ t.subtrees) (hv : v ∈ u.parts) :
    v ∈ t.subtrees := by
  induction t with
  | leaf =>
    obtain rfl := List.mem_singleton.1 hu
    cases hv
  | group i kind l r ihl ihr =>
    rcases List.mem_cons.1 hu with rfl | hu
    · refine List.mem_cons_of_mem _ (List.mem_append.2 ?_)
      rcases List.mem_pair.1 hv with rfl | rfl
      · exact .inl v.self_mem_subtrees
      · exact .inr v.self_mem_subtrees
    · exact List.mem_cons_of_mem _ (List.mem_append.2 ((List.mem_append.1 hu).imp ihl ihr))
  | quantified i q body ih =>
    rcases List.mem_cons.1 hu with rfl | hu
    · obtain rfl := List.mem_singleton.1 hv
      exact List.mem_cons_of_mem _ v.self_mem_subtrees
    · exact List.mem_cons_of_mem _ (ih hu)

theorem StandsIn.part {nodes : Array (Node Nat)} {t u : Tree} (h : t.StandsIn nodes)
    (hu : u ∈ t.parts) : u.StandsIn nodes := by
  cases t with
  | leaf => cases hu
  | group i kind l r =>
    obtain ⟨-, hl, hr⟩ := standsIn_group.1 h
    rcases List.mem_pair.1 hu with rfl | rfl
    · exact hl
    · exact hr
  | quantified i q body =>
    obtain rfl := List.mem_singleton.1 hu
    exact (standsIn_quantified.1 h).2

theorem id_mem_ids_of_at? {t s : Tree} {path : List Nat} (h : t.at? path = some s) :
    s.id ∈ t.ids := by
  induction path generalizing t with
  | nil =>
    obtain rfl := Option.some.inj h
    exact t.id_mem_ids
  | cons k path ih =>
    obtain ⟨u, hu, hs⟩ := Option.bind_eq_some_iff.1 h
    rw [ids_eq_cons]
    exact List.mem_cons_of_mem _ (List.mem_flatMap.2 ⟨u, List.mem_of_getElem? hu, ih hs⟩)

theorem exists_at?_of_mem_subtrees {t s : Tree} (h : s ∈ t.subtrees) :
    ∃ path, t.at? path = some s := by
  induction t with
  | leaf i term particle => exact ⟨[], congrArg some (List.mem_singleton.1 h).symm⟩
  | group i kind l r ihl ihr =>
    rcases List.mem_cons.1 h with rfl | h
    · exact ⟨[], rfl⟩
    · rcases List.mem_append.1 h with h | h
      · obtain ⟨path, hs⟩ := ihl h
        exact ⟨0 :: path, hs⟩
      · obtain ⟨path, hs⟩ := ihr h
        exact ⟨1 :: path, hs⟩
  | quantified i q body ih =>
    rcases List.mem_cons.1 h with rfl | h
    · exact ⟨[], rfl⟩
    · obtain ⟨path, hs⟩ := ih h
      exact ⟨0 :: path, hs⟩

theorem exists_at?_of_mem_ids {t : Tree} {i : Nat} (h : i ∈ t.ids) :
    ∃ path s, t.at? path = some s ∧ s.id = i := by
  rw [ids_eq_map_subtrees] at h
  obtain ⟨s, hs, rfl⟩ := List.mem_map.1 h
  obtain ⟨path, hpath⟩ := exists_at?_of_mem_subtrees hs
  exact ⟨path, s, hpath, rfl⟩

theorem pathsDiffer_of_nodup {t : Tree} (h : t.ids.Nodup) : t.PathsDiffer := by
  intro p
  induction p generalizing t with
  | nil =>
    intro q s s' hs hs' hid
    obtain rfl := Option.some.inj hs
    cases q with
    | nil => rfl
    | cons k q =>
      -- the topmost node is not met again
      obtain ⟨u, hu, hs'⟩ := Option.bind_eq_some_iff.1 hs'
      rw [ids_eq_cons, hid] at h
      exact absurd (List.mem_flatMap.2 ⟨u, List.mem_of_getElem? hu, id_mem_ids_of_at? hs'⟩)
        (List.nodup_cons.1 h).1
  | cons k p ih =>
    intro q s s' hs hs' hid
    obtain ⟨u, hu, hs⟩ := Option.bind_eq_some_iff.1 hs
    rw [ids_eq_cons] at h
    obtain ⟨htop, hparts⟩ := List.nodup_cons.1 h
    cases q with
    | nil =>
      obtain rfl := Option.some.inj hs'
      rw [← hid] at htop
      exact absurd (List.mem_flatMap.2 ⟨u, List.mem_of_getElem? hu, id_mem_ids_of_at? hs⟩) htop
    | cons k' q =>
      obtain ⟨u', hu', hs'⟩ := Option.bind_eq_some_iff.1 hs'
      obtain ⟨hnodup, hdisjoint⟩ := List.nodup_flatMap.1 hparts
      by_cases hk : k = k'
      · subst hk
        obtain rfl := Option.some.inj (hu.symm.trans hu')
        rw [ih (hnodup u (List.mem_of_getElem? hu)) q s s' hs hs' hid]
      · -- the ids of different parts are different
        have hapart : ∀ {j j' : Nat} {x x' : Tree}, t.parts[j]? = some x → t.parts[j']? = some x' →
            j < j' → x.ids.Disjoint x'.ids := by
          intro j j' x x' hx hx' hlt
          obtain ⟨hj, rfl⟩ := List.getElem?_eq_some_iff.1 hx
          obtain ⟨hj', rfl⟩ := List.getElem?_eq_some_iff.1 hx'
          exact List.pairwise_iff_getElem.1 hdisjoint j j' hj hj' hlt
        have hmem := id_mem_ids_of_at? hs
        have hmem' := hid ▸ id_mem_ids_of_at? hs'
        rcases Nat.lt_or_gt_of_ne hk with hlt | hlt
        · exact absurd hmem' (hapart hu hu' hlt hmem)
        · exact absurd hmem (hapart hu' hu hlt hmem')

theorem PathsDiffer.part {t u : Tree} (h : t.PathsDiffer) (hu : u ∈ t.parts) : u.PathsDiffer := by
  obtain ⟨k, hk⟩ := List.getElem?_of_mem hu
  intro p q s s' hs hs' hid
  have := h (k :: p) (k :: q) s s' (Option.bind_eq_some_iff.2 ⟨u, hk, hs⟩)
    (Option.bind_eq_some_iff.2 ⟨u, hk, hs'⟩) hid
  exact (List.cons.inj this).2

/-- The ids of a tree are met once each if those of its parts are and paths differ. -/
theorem PathsDiffer.nodup_of_parts {t : Tree} (h : t.PathsDiffer)
    (hparts : ∀ u ∈ t.parts, u.PathsDiffer → u.ids.Nodup) : t.ids.Nodup := by
  rw [ids_eq_cons]
  refine List.nodup_cons.2 ⟨fun hmem => ?_, List.nodup_flatMap.2 ⟨?_, ?_⟩⟩
  · obtain ⟨u, hu, hid⟩ := List.mem_flatMap.1 hmem
    obtain ⟨k, hk⟩ := List.getElem?_of_mem hu
    obtain ⟨path, s, hs, hid⟩ := exists_at?_of_mem_ids hid
    cases h [] (k :: path) t s rfl (Option.bind_eq_some_iff.2 ⟨u, hk, hs⟩) hid.symm
  · exact fun u hu => hparts u hu (h.part hu)
  · refine List.pairwise_iff_getElem.2 fun j j' hj hj' hlt => ?_
    intro i hi hi'
    obtain ⟨p, s, hs, hid⟩ := exists_at?_of_mem_ids hi
    obtain ⟨p', s', hs', hid'⟩ := exists_at?_of_mem_ids hi'
    have hpath := h (j :: p) (j' :: p') s s'
      (Option.bind_eq_some_iff.2 ⟨_, List.getElem?_eq_getElem hj, hs⟩)
      (Option.bind_eq_some_iff.2 ⟨_, List.getElem?_eq_getElem hj', hs'⟩) (hid.trans hid'.symm)
    exact Nat.ne_of_lt hlt (List.cons.inj hpath).1

theorem PathsDiffer.nodup {t : Tree} (h : t.PathsDiffer) : t.ids.Nodup := by
  induction t with
  | leaf i term particle => exact List.nodup_singleton i
  | group i kind l r ihl ihr =>
    refine h.nodup_of_parts fun u hu => ?_
    rcases List.mem_pair.1 hu with rfl | rfl
    · exact ihl
    · exact ihr
  | quantified i q body ih =>
    refine h.nodup_of_parts fun u hu => ?_
    exact List.mem_singleton.1 hu ▸ ih

end Tree

/-- The node that a path leads to from a node, over the numbers of the parts. -/
def Declaration.nodeAt? (d : Declaration) : Nat → List Nat → Option Nat
  | i, [] => some i
  | i, k :: path => do
    let n ← d.nodes[i]?
    let c ← n.children[k]?
    d.nodeAt? c path

/-- Two different paths lead from the root to one node. -/
def Declaration.Shared (d : Declaration) : Prop :=
  ∃ p q i, p ≠ q ∧ d.nodeAt? d.root p = some i ∧ d.nodeAt? d.root q = some i

namespace Declaration

variable {d : Declaration}

/-- Paths lead to the same node over the numbers of the parts and in the tree. -/
theorem nodeAt?_eq {t : Tree} (h : t.StandsIn d.nodes) (path : List Nat) :
    d.nodeAt? t.id path = (t.at? path).map Tree.id := by
  induction path generalizing t with
  | nil => rfl
  | cons k path ih =>
    rw [nodeAt?, h.getElem?, Tree.at?]
    simp only [Option.bind_eq_bind, Option.bind_some, Tree.children_node, List.getElem?_map]
    cases hu : t.parts[k]? with
    | none => rfl
    | some u => exact ih (h.part (List.mem_of_getElem? hu))

/-- Two paths lead to one node exactly if the tree meets an id twice. -/
theorem shared_iff : d.Shared ↔ ¬ d.tree.ids.Nodup := by
  have hnode := fun path => nodeAt?_eq d.standsIn_tree path
  rw [id_tree] at hnode
  constructor
  · rintro ⟨p, q, i, hne, hp, hq⟩ hnodup
    rw [hnode] at hp hq
    obtain ⟨s, hs, rfl⟩ := Option.map_eq_some_iff.1 hp
    obtain ⟨s', hs', hid⟩ := Option.map_eq_some_iff.1 hq
    exact hne (Tree.pathsDiffer_of_nodup hnodup p q s s' hs hs' hid.symm)
  · intro hnodup
    by_contra hshared
    refine hnodup (Tree.PathsDiffer.nodup fun p q s s' hs hs' hid => ?_)
    by_contra hne
    exact hshared ⟨p, q, s.id, hne, by rw [hnode, hs]; rfl, by rw [hnode, hs', hid]; rfl⟩

end Declaration

end ElementContent
