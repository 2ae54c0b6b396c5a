import ElementContent.Content.Tree
import Mathlib.Data.List.Basic

/-!
# Subtrees and the nodes they stand for

The tree of a declaration is put together from the trees of its nodes. So every subtree of the tree
below a node is itself the tree below a node, the one whose id stands at its top. A pass over the
nodes therefore sees the subtrees of the content, each at its id.

- `Declaration.getElem_collect`: the value that a pass computes for a node, from the values that it
  computes for the parts.
- `Tree.subtrees`: what is met on the way down; `Tree.ids_eq_map_subtrees` reads the ids off it.
- `Declaration.mem_subtrees`: a subtree of the content is the tree of the node that it names.
-/

namespace ElementContent

theorem Node.mem_children_mapWith {α β : Type} {n : Node α} {f : (c : α) → c ∈ n.children → β}
    {x : β} : x ∈ (n.mapWith f).children ↔ ∃ (c : α) (hc : c ∈ n.children), f c hc = x := by
  cases n with
  | leaf term particle => simp [mapWith, children]
  | group kind l r =>
    simp only [mapWith, children, List.mem_cons, List.not_mem_nil, or_false]
    constructor
    · rintro (rfl | rfl)
      · exact ⟨l, .inl rfl, rfl⟩
      · exact ⟨r, .inr rfl, rfl⟩
    · rintro ⟨c, rfl | rfl, rfl⟩
      · exact .inl rfl
      · exact .inr rfl
  | quantified q body =>
    simp only [mapWith, children, List.mem_singleton]
    constructor
    · rintro rfl
      exact ⟨body, rfl, rfl⟩
    · rintro ⟨c, rfl, rfl⟩
      rfl

namespace Declaration

variable {α : Type} (d : Declaration) (value : Nat → Node α → α)

/-- The values known so far are those that the pass computes from one another. -/
def Computed (values : Array α) : Prop :=
  ∀ (i : Nat) (hi : i < values.size) (hn : i < d.nodes.size),
    values[i] = value i (d.resolve values i hn (Nat.le_of_lt hi))

/-- A node is resolved by the values of its parts, which stand before it. -/
theorem resolve_congr {values values' : Array α} {i : Nat} (hn : i < d.nodes.size)
    (hv : i ≤ values.size) (hv' : i ≤ values'.size)
    (h : ∀ (c : Nat) (hc : c < i), values[c] = values'[c]) :
    d.resolve values i hn hv = d.resolve values' i hn hv' := by
  unfold resolve
  congr 1
  funext c hc
  exact h c (d.earlier i hn c hc)

theorem computed_push {values : Array α} (h : d.Computed value values)
    (hn : values.size < d.nodes.size) :
    d.Computed value
      (values.push (value values.size (d.resolve values values.size hn (Nat.le_refl _)))) := by
  intro i hi hni
  rw [Array.size_push] at hi
  -- the values of the parts are not touched by the push
  have hbelow : ∀ (c : Nat) (hc : c < i), ∀ x : α,
      getElem values c (by omega) =
        getElem (values.push x) c (by rw [Array.size_push]; omega) :=
    fun c hc x => (Array.getElem_push_lt (by omega)).symm
  by_cases hlt : i < values.size
  · rw [Array.getElem_push_lt hlt, h i hlt hni]
    congr 1
    exact d.resolve_congr hni _ _ fun c hc => hbelow c hc _
  · obtain rfl : i = values.size := by omega
    rw [Array.getElem_push_eq]
    congr 1
    exact d.resolve_congr hni _ _ fun c hc => hbelow c hc _

theorem computed_collectFrom {values : Array α} (h : d.Computed value values) :
    d.Computed value (d.collectFrom value values) := by
  fun_induction collectFrom d value values with
  | case1 values hlt n ih => exact ih (d.computed_push value h hlt)
  | case2 values hge => exact h

/-- A pass computes the value of a node from the values of its parts. -/
theorem getElem_collect (i : Nat) (hn : i < d.nodes.size) :
    getElem (d.collect value) i (by simpa using hn) =
      value i (d.resolve (d.collect value) i hn (by simpa using Nat.le_of_lt hn)) :=
  d.computed_collectFrom value (fun i hi => absurd hi (by simp)) i
    (Nat.lt_of_lt_of_eq hn (d.size_collect value).symm) hn

@[simp] theorem size_trees : d.trees.size = d.nodes.size :=
  d.size_collect _

end Declaration

namespace Tree

/-- The trees that are met on the way down, each before its parts and the parts left to right. -/
def subtrees : Tree → List Tree
  | leaf id term particle => [leaf id term particle]
  | group id kind l r => group id kind l r :: (l.subtrees ++ r.subtrees)
  | quantified id q body => quantified id q body :: body.subtrees

theorem ids_eq_map_subtrees (t : Tree) : t.ids = t.subtrees.map id := by
  induction t with
  | leaf i term particle => rfl
  | group i kind l r ihl ihr =>
    rw [ids, ihl, ihr, subtrees, List.map_cons, List.map_append]
    rfl
  | quantified i q body ih =>
    rw [ids, ih, subtrees, List.map_cons]
    rfl

theorem mem_subtrees_ofNode {i : Nat} {n : Node Tree} {s : Tree} :
    s ∈ (ofNode i n).subtrees ↔ s = ofNode i n ∨ ∃ t ∈ n.children, s ∈ t.subtrees := by
  cases n <;> simp [ofNode, subtrees, Node.children]

@[simp] theorem id_ofNode (i : Nat) (n : Node Tree) : (ofNode i n).id = i := by
  cases n <;> rfl

/-- The terms of the leaves, left to right. -/
def terms : Tree → List Term
  | leaf _ term _ => [term]
  | group _ _ l r => l.terms ++ r.terms
  | quantified _ _ body => body.terms

end Tree

namespace Declaration

variable (d : Declaration)

/-- The tree of a node, from the trees of its parts. -/
theorem getElem_trees (i : Nat) (hn : i < d.nodes.size) :
    getElem d.trees i (by simpa using hn) =
      .ofNode i (d.resolve d.trees i hn (by simpa using Nat.le_of_lt hn)) :=
  d.getElem_collect Tree.ofNode i hn

/-- The tree of a node that is given by the look-up. -/
theorem getElem?_trees {i : Nat} {n : Node Nat} (h : d.nodes[i]? = some n) :
    ∃ f : (c : Nat) → c ∈ n.children → Tree, (∀ c hc, d.trees[c]? = some (f c hc)) ∧
      d.trees[i]? = some (.ofNode i (n.mapWith f)) := by
  obtain ⟨hi, rfl⟩ := Array.getElem?_eq_some_iff.1 h
  have hlt : ∀ c ∈ d.nodes[i].children, c < d.trees.size := by
    intro c hc
    rw [size_trees]
    exact Nat.lt_trans (d.earlier i hi c hc) hi
  refine ⟨fun c hc => getElem d.trees c (hlt c hc), fun c hc => ?_, ?_⟩
  · exact Array.getElem?_eq_getElem (hlt c hc)
  · rw [Array.getElem?_eq_getElem (by simpa using hi), d.getElem_trees i hi]
    rfl

theorem getElem?_trees_leaf {i : Nat} {term : Term} {particle : Option Nat}
    (h : d.nodes[i]? = some (.leaf term particle)) :
    d.trees[i]? = some (.leaf i term particle) := by
  obtain ⟨_, _, htree⟩ := d.getElem?_trees h
  exact htree

theorem getElem?_trees_group {i l r : Nat} {kind : GroupKind} {x y : Tree}
    (h : d.nodes[i]? = some (.group kind l r)) (hl : d.trees[l]? = some x)
    (hr : d.trees[r]? = some y) : d.trees[i]? = some (.group i kind x y) := by
  obtain ⟨f, hf, htree⟩ := d.getElem?_trees h
  obtain rfl := Option.some.inj ((hf l (by simp [Node.children])).symm.trans hl)
  obtain rfl := Option.some.inj ((hf r (by simp [Node.children])).symm.trans hr)
  exact htree

theorem getElem?_trees_quantified {i b : Nat} {q : Quantifier} {x : Tree}
    (h : d.nodes[i]? = some (.quantified q b)) (hb : d.trees[b]? = some x) :
    d.trees[i]? = some (.quantified i q x) := by
  obtain ⟨f, hf, htree⟩ := d.getElem?_trees h
  obtain rfl := Option.some.inj ((hf b (by simp [Node.children])).symm.trans hb)
  exact htree

theorem getElem?_trees_root : d.trees[d.root]? = some d.tree :=
  Array.getElem?_eq_getElem _

/-- A subtree of the tree of a node is the tree of the node that it names. -/
theorem getElem_trees_id (i : Nat) (hi : i < d.trees.size) {s : Tree}
    (hs : s ∈ d.trees[i].subtrees) : ∃ h : s.id < d.trees.size, d.trees[s.id] = s := by
  induction i using Nat.strongRecOn with
  | ind i ih =>
    have hn : i < d.nodes.size := by simpa using hi
    have htree := d.getElem_trees i hn
    rw [htree, Tree.mem_subtrees_ofNode] at hs
    rcases hs with rfl | ⟨t, ht, hs⟩
    · rw [Tree.id_ofNode]
      exact ⟨hi, htree⟩
    · -- a proper subtree belongs to the tree of a part, which stands before the node
      obtain ⟨c, hc, rfl⟩ := Node.mem_children_mapWith.1 ht
      have hci := d.earlier i hn c hc
      exact ih c hci (Nat.lt_trans hci hi) hs

/-- A subtree of the content is the tree of the node that it names. -/
theorem mem_subtrees {s : Tree} (hs : s ∈ d.tree.subtrees) :
    ∃ h : s.id < d.trees.size, d.trees[s.id] = s :=
  d.getElem_trees_id d.root (by simpa using d.root_lt) hs

end Declaration

end ElementContent
