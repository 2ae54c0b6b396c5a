import ElementContent.Proofs.Content.Tagging
import Mathlib.Data.List.Induction

/-!
# Copies of subtrees

The nodes below a node are gathered in ascending order, each once, and copied in that order. So the
parts of a node have been copied before it, and its copy names them by their rank. A copy has the
shape and the leaves of what it is a copy of; only its ids are others, and they are new.

- `Draft.WellFormed.mem_gather`: what is gathered is what is met on the way down.
- `Draft.Subtree.Lists`: the subtree lists the nodes of a tree, with their ranks.
- `Draft.lists_subtree`: the subtree of a node lists the nodes of its tree.
- `Tree.IsCopyOf`: the tree is another one with ids of its own.
- `Draft.exists_copy`: copying a subtree adds a copy of its tree.
-/

namespace ElementContent

/-- The tree is the other one, with an id of its own for each of its ids. -/
def Tree.IsCopyOf (t u : Tree) : Prop :=
  ∃ f : Nat → Nat, (∀ i ∈ u.ids, ∀ j ∈ u.ids, f i = f j → i = j) ∧ t = u.relabel f fun p => p

namespace Tree.IsCopyOf

variable {t u : Tree}

theorem children_eq (h : t.IsCopyOf u) : t.children = u.children := by
  obtain ⟨f, -, rfl⟩ := h
  exact u.children_relabel

theorem leafCount_eq (h : t.IsCopyOf u) : t.leafCount = u.leafCount := by
  obtain ⟨f, -, rfl⟩ := h
  exact u.leafCount_relabel

theorem nodup_ids (h : t.IsCopyOf u) (hu : u.ids.Nodup) : t.ids.Nodup := by
  obtain ⟨f, hf, rfl⟩ := h
  rw [Tree.ids_relabel]
  exact hu.map_on hf

end Tree.IsCopyOf

namespace Draft

variable {d : Draft} {nodes : Array (Node Nat)} {t : Tree} {s : Subtree} {i k : Nat}

/-! ## Gathering -/

/-- The parts of a node stand before it. -/
theorem WellFormed.lt_of_part (h : d.WellFormed) (ht : t.StandsIn d.nodes) {u v : Tree}
    (hu : u ∈ t.subtrees) (hv : v ∈ u.parts) : v.id < u.id := by
  refine h.earlier u.id u.node (ht u hu) v.id ?_
  rw [Tree.children_node]
  exact List.mem_map_of_mem hv

/-- The topmost node of a tree comes after the others. -/
theorem WellFormed.le_of_mem_ids (h : d.WellFormed) (ht : t.StandsIn d.nodes) (hi : i ∈ t.ids) :
    i ≤ t.id := by
  have hpart : ∀ {u v : Tree}, u.StandsIn d.nodes → v ∈ u.parts → v.id ≤ u.id := fun hu hv =>
    Nat.le_of_lt (h.lt_of_part hu (Tree.self_mem_subtrees _) hv)
  induction t with
  | leaf j term particle => exact Nat.le_of_eq (List.mem_singleton.1 hi)
  | group j kind l r ihl ihr =>
    obtain ⟨-, hl, hr⟩ := Tree.standsIn_group.1 ht
    rcases List.mem_cons.1 hi with rfl | hi
    · exact Nat.le_refl _
    · rcases List.mem_append.1 hi with hi | hi
      · exact Nat.le_trans (ihl hl hi) (hpart ht List.mem_cons_self)
      · exact Nat.le_trans (ihr hr hi) (hpart ht (List.mem_cons_of_mem _ List.mem_cons_self))
  | quantified j q body ih =>
    rcases List.mem_cons.1 hi with rfl | hi
    · exact Nat.le_refl _
    · exact Nat.le_trans (ih (Tree.standsIn_quantified.1 ht).2 hi) (hpart ht List.mem_cons_self)

/-- The node `i` is met on the way down from the node `j`. -/
def Below (d : Draft) (j i : Nat) : Prop :=
  ∃ t : Tree, t.StandsIn d.nodes ∧ t.id = j ∧ i ∈ t.ids

/-- The way down leads through a part. -/
theorem below_iff (ht : t.StandsIn d.nodes) :
    d.Below t.id i ↔ i = t.id ∨ ∃ c ∈ t.node.children, d.Below c i := by
  rw [Tree.children_node]
  constructor
  · rintro ⟨u, hu, hid, hi⟩
    obtain rfl := Tree.standsIn_unique hu ht hid
    rw [Tree.ids_eq_cons] at hi
    rcases List.mem_cons.1 hi with rfl | hi
    · exact .inl rfl
    · obtain ⟨v, hv, hi⟩ := List.mem_flatMap.1 hi
      exact .inr ⟨v.id, List.mem_map_of_mem hv, v, ht.part hv, rfl, hi⟩
  · rintro (rfl | ⟨c, hc, u, hu, rfl, hi⟩)
    · exact ⟨t, ht, rfl, t.id_mem_ids⟩
    · obtain ⟨v, hv, hid⟩ := List.mem_map.1 hc
      obtain rfl := Tree.standsIn_unique (ht.part hv) hu hid
      refine ⟨t, ht, rfl, ?_⟩
      rw [Tree.ids_eq_cons]
      exact List.mem_cons_of_mem _ (List.mem_flatMap.2 ⟨v, hv, hi⟩)

/-- What is gathered below `k` is what is met on the way down from the marked nodes. -/
theorem WellFormed.mem_gather (h : d.WellFormed) (hk : k ≤ d.nodes.size)
    (marked : Std.HashSet Nat) (found : List Nat) :
    i ∈ gather d.nodes k marked found ↔ i ∈ found ∨ ∃ j < k, j ∈ marked ∧ d.Below j i := by
  induction k generalizing marked found with
  | zero => simp [gather]
  | succ k ih =>
    obtain ⟨t, rfl, ht⟩ := h.exists_standsIn hk
    rw [gather, ht.getElem?]
    dsimp only
    split
    · next hmarked =>
      rw [ih (Nat.le_of_succ_le hk), List.mem_cons]
      simp only [Std.HashSet.mem_insertMany_list, List.contains_iff_mem]
      constructor
      · rintro ((rfl | hi) | ⟨j, hj, hmem | hmem, hbelow⟩)
        · exact .inr ⟨_, Nat.lt_succ_self _, hmarked, (below_iff ht).2 (.inl rfl)⟩
        · exact .inl hi
        · exact .inr ⟨j, Nat.lt_succ_of_lt hj, hmem, hbelow⟩
        · exact .inr ⟨_, Nat.lt_succ_self _, hmarked, (below_iff ht).2 (.inr ⟨j, hmem, hbelow⟩)⟩
      · rintro (hi | ⟨j, hj, hmem, hbelow⟩)
        · exact .inl (.inr hi)
        · rcases Nat.lt_succ_iff_lt_or_eq.1 hj with hj | rfl
          · exact .inr ⟨j, hj, .inl hmem, hbelow⟩
          · rcases (below_iff ht).1 hbelow with rfl | ⟨c, hc, hbelow⟩
            · exact .inl (.inl rfl)
            · exact .inr ⟨c, h.earlier _ _ ht.getElem? c hc, .inr hc, hbelow⟩
    · next hmarked =>
      -- the node is not marked, so it makes no difference
      rw [ih (Nat.le_of_succ_le hk)]
      refine or_congr_right (exists_congr fun j => ?_)
      refine ⟨fun ⟨hj, hj'⟩ => ⟨Nat.lt_succ_of_lt hj, hj'⟩, fun ⟨hj, hmem, hbelow⟩ => ?_⟩
      refine ⟨Nat.lt_of_le_of_ne (Nat.le_of_lt_succ hj) fun hid => hmarked ?_, hmem, hbelow⟩
      exact hid ▸ hmem

theorem pairwise_gather (nodes : Array (Node Nat)) (k : Nat) (marked : Std.HashSet Nat)
    (found : List Nat) (hfound : found.Pairwise (· < ·)) (hle : ∀ i ∈ found, k ≤ i) :
    (gather nodes k marked found).Pairwise (· < ·) := by
  induction k generalizing marked found with
  | zero => exact hfound
  | succ k ih =>
    rw [gather]
    split
    · refine ih _ _ (List.pairwise_cons.2 ⟨hle, hfound⟩) ?_
      exact List.forall_mem_cons.2 ⟨Nat.le_refl k, fun i hi => Nat.le_of_succ_le (hle i hi)⟩
    · exact ih _ _ hfound fun i hi => Nat.le_of_succ_le (hle i hi)

/-- The subtree lists the nodes of the tree, ascending, and knows their ranks. -/
structure Subtree.Lists (s : Subtree) (t : Tree) : Prop where
  ascending : s.members.Pairwise (· < ·)
  mem_members : ∀ i, i ∈ s.members ↔ i ∈ t.ids
  rank : ∀ k i, s.members[k]? = some i → s.rank.getD i 0 = k

theorem WellFormed.lists_subtree (h : d.WellFormed) (ht : t.StandsIn d.nodes) :
    (d.subtree t.id).Lists t := by
  have hascending : (d.subtree t.id).members.Pairwise (· < ·) :=
    pairwise_gather _ _ _ _ .nil (by simp)
  refine ⟨hascending, fun i => ?_, fun k i hk => ?_⟩
  · rw [subtree, h.mem_gather (ht.lt_size t.id_mem_ids), Std.HashSet.singleton_eq_insert]
    constructor
    · rintro (hi | ⟨j, -, hmem, u, hu, hid, hi⟩)
      · cases hi
      · have hj : t.id = j := by simpa using hmem
        rwa [Tree.standsIn_unique ht hu (hj.trans hid.symm)]
    · exact fun hi => .inr ⟨t.id, Nat.lt_succ_self _, by simp, t, ht, rfl, hi⟩
  · refine Std.HashMap.getD_ofList_of_mem (k := i) (by simp) ?_ ?_
    · -- the members are all different
      rw [← List.zipIdx_map_fst 0 (d.subtree t.id).members, List.pairwise_map] at hascending
      exact hascending.imp fun hlt => beq_eq_false_iff_ne.2 (Nat.ne_of_lt hlt)
    · exact List.mk_mem_zipIdx_iff_getElem?.2 hk

/-! ## Copying -/

/-- The id of the copy of a node, where copies are added from `base` on. -/
def Subtree.moved (s : Subtree) (base i : Nat) : Nat :=
  base + s.rank.getD i 0

namespace Subtree.Lists

/-- Particles do not matter. -/
theorem of_untagged {x : Tree} (hs : s.Lists t) (h : x.untagged = t.untagged) : s.Lists x :=
  ⟨hs.ascending, fun i => by rw [hs.mem_members, Tree.ids_eq_of_untagged h], hs.rank⟩

theorem getElem?_rank (hs : s.Lists t) (hi : i ∈ t.ids) :
    s.members[s.rank.getD i 0]? = some i := by
  obtain ⟨k, hk⟩ := List.getElem?_of_mem ((hs.mem_members i).2 hi)
  rwa [hs.rank k i hk]

/-- Members come in the order of their ids. -/
theorem lt_of_lt (hs : s.Lists t) {j l : Nat} (hi : s.members[k]? = some i)
    (hj : s.members[l]? = some j) (hij : i < j) : k < l := by
  obtain ⟨hk, rfl⟩ := List.getElem?_eq_some_iff.1 hi
  obtain ⟨hl, rfl⟩ := List.getElem?_eq_some_iff.1 hj
  refine Nat.lt_of_not_le fun hlk => ?_
  rcases Nat.lt_or_eq_of_le hlk with hlk | rfl
  · exact Nat.lt_asymm hij (List.pairwise_iff_getElem.1 hs.ascending l k hl hk hlk)
  · exact Nat.lt_irrefl _ hij

theorem moved_injective (hs : s.Lists t) (base : Nat) :
    ∀ i ∈ t.ids, ∀ j ∈ t.ids, s.moved base i = s.moved base j → i = j := by
  intro i hi j hj hij
  have hrank := hs.getElem?_rank hi
  rw [Nat.add_left_cancel hij, hs.getElem?_rank hj] at hrank
  exact (Option.some.inj hrank).symm

/-- The topmost node is the last member. -/
theorem rank_id (hs : s.Lists t) (hle : ∀ i ∈ t.ids, i ≤ t.id) :
    s.rank.getD t.id 0 + 1 = s.members.length := by
  have htop := hs.getElem?_rank t.id_mem_ids
  obtain ⟨hlt, hid⟩ := List.getElem?_eq_some_iff.1 htop
  refine Nat.le_antisymm hlt (Nat.le_of_not_lt fun hnext => ?_)
  have hlast := hle _ ((hs.mem_members _).1 (List.getElem_mem hnext))
  have hlt := List.pairwise_iff_getElem.1 hs.ascending _ _ hlt hnext (Nat.lt_succ_self _)
  rw [hid] at hlt
  exact Nat.lt_irrefl _ (Nat.lt_of_lt_of_le hlt hlast)

end Subtree.Lists

/-- The first members of a subtree have been copied, each behind its parts. -/
structure Copied (d : Draft) (s : Subtree) (members : List Nat) (d' : Draft) : Prop where
  grows : d.Grows d'
  size : d'.nodes.size = d.nodes.size + members.length
  node : ∀ (k i : Nat) (n : Node Nat), members[k]? = some i → d.nodes[i]? = some n →
    d'.nodes[d.nodes.size + k]? = some (n.map (s.moved d.nodes.size))

section Copying

variable {d' : Draft} {members : List Nat} (hd : d.WellFormed) (ht : t.StandsIn d.nodes)
  (hs : s.Lists t)

include hd ht hs

/-- The copy of a node may come next after those of the members before it. -/
theorem Copied.admits {u : Tree} (h : d.Copied s members d') (hu : u ∈ t.subtrees)
    (hnext : s.members[members.length]? = some u.id) :
    d'.Admits (u.node.map (s.moved d.nodes.size)) := by
  refine ⟨fun c hc => ?_, fun term p hp => ?_⟩
  · rw [Node.children_map, Tree.children_node, List.map_map] at hc
    obtain ⟨v, hv, rfl⟩ := List.mem_map.1 hc
    have hrank := hs.getElem?_rank
      (Tree.id_mem_ids_of_mem_subtrees (Tree.mem_subtrees_of_part hu hv))
    rw [h.size]
    exact Nat.add_lt_add_left (hs.lt_of_lt hrank hnext (hd.lt_of_part ht hu hv)) _
  · have hnode : u.node = .leaf term (some p) := by
      cases u with
      | leaf => exact hp
      | group => cases hp
      | quantified => cases hp
    exact Nat.lt_of_lt_of_le (hd.declared u.id term p (hnode ▸ ht u hu)) h.grows.labels

theorem Copied.next (h : d.Copied s members d') (hnext : s.members[members.length]? = some i) :
    d.Copied s (members ++ [i]) (copyNode s d.nodes.size d' i) := by
  have hi := (hs.mem_members i).1 (List.mem_of_getElem? hnext)
  rw [Tree.ids_eq_map_subtrees] at hi
  obtain ⟨u, hu, rfl⟩ := List.mem_map.1 hi
  -- copies are added behind, so the node is still the one that is copied
  have hadd := grows_add (h.admits hd ht hs hu hnext)
  have hcopy : copyNode s d.nodes.size d' u.id =
      (d'.add (u.node.map (s.moved d.nodes.size))).2 := by
    unfold copyNode
    rw [h.grows.node u.id u.node (ht u hu)]
    rfl
  rw [hcopy]
  refine ⟨h.grows.trans hadd, ?_, fun k j n hk hn => ?_⟩
  · rw [size_add, h.size, List.length_append, List.length_singleton, Nat.add_assoc]
  · rw [List.getElem?_append] at hk
    split at hk
    · exact hadd.node _ _ (h.node k j n hk hn)
    · next hge =>
      obtain ⟨hlt, rfl⟩ := List.getElem?_eq_some_iff.1 hk
      obtain rfl : k = members.length := by
        rw [List.length_singleton] at hlt
        omega
      rw [getElem?_add, h.size, if_pos rfl]
      simp only [Nat.sub_self, List.getElem_singleton] at hn
      rw [Option.some.inj (hn.symm.trans (ht u hu))]

theorem copied_foldl (hbegin : members <+: s.members) :
    d.Copied s members (members.foldl (copyNode s d.nodes.size) d) := by
  induction members using List.reverseRecOn with
  | nil => exact ⟨.refl d, rfl, by simp⟩
  | append_singleton members i ih =>
    obtain ⟨rest, hrest⟩ := hbegin
    have hnext : s.members[members.length]? = some i := by simp [← hrest]
    have h := ih ⟨i :: rest, by rw [← hrest, List.append_assoc]; rfl⟩
    rw [List.foldl_append]
    exact h.next hd ht hs hnext

/-- Copying a subtree adds a copy of its tree. -/
theorem exists_copy : ∃ u : Tree, u.IsCopyOf t ∧ (d.copy s).1 = u.id ∧
    d.Grows (d.copy s).2 ∧ (d.copy s).2.Holds d.nodes.size [u] := by
  have hcopied := copied_foldl hd ht hs (List.prefix_refl _)
  refine ⟨t.relabel (s.moved d.nodes.size) fun p => p, ⟨_, hs.moved_injective _, rfl⟩, ?_, ?_, ?_⟩
  · rw [Tree.id_relabel, Subtree.moved]
    have := hs.rank_id fun i hi => hd.le_of_mem_ids ht hi
    show d.nodes.size + s.members.length - 1 = _
    omega
  · exact hcopied.grows
  · refine ⟨List.forall_mem_singleton.2 fun v hv => ?_, fun i hi => ?_⟩
    · rw [Tree.subtrees_relabel] at hv
      obtain ⟨u, hu, rfl⟩ := List.mem_map.1 hv
      rw [Tree.id_relabel, Tree.node_relabel]
      exact hcopied.node _ u.id u.node
        (hs.getElem?_rank (Tree.id_mem_ids_of_mem_subtrees hu)) (ht u hu)
    · rw [List.flatMap_singleton, Tree.ids_relabel] at hi
      obtain ⟨j, -, rfl⟩ := List.mem_map.1 hi
      exact Nat.le_add_right _ _

end Copying

end Draft

end ElementContent
