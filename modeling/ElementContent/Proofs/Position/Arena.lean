import ElementContent.Proofs.Position.InPlace
import ElementContent.Proofs.Position.Walk

/-!
# The walk over the array of nodes

The walk can be carried out on the array of nodes itself, with a stack of node numbers that are
pending, a mark for each node and a place for its position. Such a walk looks nodes, marks and
places up by number, and it stops where one is missing. It never does: the numbers it meets are
those of a tree that stands in the array.

- `Visit`: the marks, the places and the leaves; `Numbering.visit` is what the walk over the tree
  leaves behind, laid out in this way.
- `Frame.visit?`: one step of the walk over the array; `Frame.visit?_eq_note` says that it is a step
  of the walk over the tree.
- `Declaration.visit?_eq`: the walk over the array ends after no more steps than there are nodes,
  and one that fails, and it ends as the walk over the tree does.
-/

namespace ElementContent

/-- A node that is yet to be visited, by its number. -/
structure Frame where
  node : Nat
  /-- The level of what is around the node. -/
  depth : Nat
  /-- The kind of the nearest group around it, if there is one. -/
  within : Option GroupKind
  /-- Whether it is the body of a quantifier. -/
  quantified : Bool

/-- The marks of the nodes visited, with the leaves numbered so far. -/
structure Visit where
  /-- For each node, whether it has been visited. -/
  visited : Array Bool
  /-- For each node, its position, if it has been given one. -/
  positions : Array (Option Nat)
  /-- The leaves that take a child, each at its position. -/
  leaves : Array Leaf
  deriving DecidableEq

namespace Visit

/-- Nothing visited yet. -/
def start (size : Nat) : Visit :=
  ⟨.replicate size false, .replicate size none, #[]⟩

/-- Gives a leaf the next position, if it takes a child. -/
def addLeaf? (v : Visit) (leaf : Leaf) : Option Visit :=
  if leaf.term.takesChild then do
    let positions ← writeAt? v.positions leaf.node (some v.leaves.size)
    return { v with positions, leaves := v.leaves.push leaf }
  else some v

end Visit

open ElementContent.Numbering in
/-- Visits a node and gives its parts as they become pending, left to right. The visit fails if the
node has been visited before or is too deep; it has no outcome if a number is out of range. -/
def Frame.visit? (limits : Limits) (nodes : Array (Node Nat)) (f : Frame) (v : Visit) :
    Option (Except Error (Visit × List Frame)) := do
  if ← v.visited[f.node]? then return .error (.content (.sharedNode f.node))
  let v := { v with visited := ← writeAt? v.visited f.node true }
  match ← nodes[f.node]? with
  | .leaf term particle => return .ok (← v.addLeaf? ⟨term, particle, f.node⟩, [])
  | .group kind left right =>
    let depth := groupDepth f.depth f.within kind
    return (limits.check .depth depth).map fun _ =>
      (v, [⟨left, depth, some kind, false⟩, ⟨right, depth, some kind, false⟩])
  | .quantified _ body =>
    let depth := quantifierDepth f.depth f.quantified
    return (limits.check .depth depth).map fun _ => (v, [⟨body, depth, f.within, true⟩])

/-- Visits the pending nodes, the first one first, cut off after so many steps. -/
def visitAll? (limits : Limits) (nodes : Array (Node Nat)) :
    Nat → List Frame → Visit → Option (Except Error Visit)
  | _, [], v => some (.ok v)
  | 0, _ :: _, _ => none
  | k + 1, f :: rest, v => do
    match ← f.visit? limits nodes v with
    | .error e => return .error e
    | .ok (v, parts) => visitAll? limits nodes k (parts ++ rest) v

/-- The node at the top of a pending subtree. -/
def Pending.frame (p : Pending) : Frame :=
  ⟨p.tree.id, p.depth, p.within, p.quantified⟩

namespace Numbering

/-- What has been seen and numbered, laid out by the numbers of the nodes. -/
def visit (n : Numbering) (size : Nat) : Visit :=
  ⟨tabulate size n.seen.contains, tabulate size (n.positions[·]?), n.leaves⟩

theorem visit_start (size : Nat) : start.visit size = .start size := by
  have hseen : start.seen.contains = fun _ => false := funext fun i => by simp [start]
  have hpositions : (fun i => start.positions[i]?) = fun _ : Nat => none :=
    funext fun i => by simp [start]
  rw [visit, hseen, hpositions, tabulate_const, tabulate_const]
  rfl

variable {limits : Limits} {n : Numbering} {size i : Nat}

/-- The mark of a node that has just been seen. -/
theorem visit_insert (n : Numbering) (size i : Nat) :
    visit { n with seen := n.seen.insert i } size =
      { n.visit size with visited := tabulate size (Function.update n.seen.contains i true) } := by
  rw [visit, visit]
  congr 2
  funext j
  rw [Std.HashSet.contains_insert, Function.update_apply]
  by_cases hij : i = j
  · simp [hij]
  · simp [hij, Ne.symm hij]

theorem addLeaf?_visit {leaf : Leaf} (h : leaf.node < size) :
    (n.visit size).addLeaf? leaf = some ((n.addLeaf leaf).visit size) := by
  unfold Visit.addLeaf? addLeaf
  split
  · simp only [visit, writeAt?_tabulate h, Option.bind_eq_bind, Option.bind_some, Option.pure_def]
    congr 3
    funext j
    rw [Std.HashMap.getElem?_insert, Function.update_apply]
    by_cases hij : leaf.node = j
    · simp [hij]
    · simp [hij, Ne.symm hij]
  · rfl

end Numbering

section Walk

open ElementContent.Numbering

variable {limits : Limits} {nodes : Array (Node Nat)} {n : Numbering} {p : Pending}
  {pending : List Pending}

/-- A step over the array is a step over the tree that stands there. -/
theorem Frame.visit?_eq_note (h : p.tree.StandsIn nodes) :
    p.frame.visit? limits nodes (n.visit nodes.size) =
      some ((n.note limits p).map fun m => (m.visit nodes.size, p.parts.map Pending.frame)) := by
  have hnode := h.getElem?
  have hlt : p.tree.id < nodes.size := (Array.getElem?_eq_some_iff.1 hnode).1
  have hread : (n.visit nodes.size).visited[p.tree.id]? = some (n.seen.contains p.tree.id) :=
    getElem?_tabulate hlt
  have hwrite : writeAt? (n.visit nodes.size).visited p.tree.id true =
      some (tabulate nodes.size (Function.update n.seen.contains p.tree.id true)) :=
    writeAt?_tabulate hlt true
  obtain ⟨tree, depth, within, quantified⟩ := p
  unfold visit? note
  simp only [Pending.frame, hread, hwrite, hnode, Option.bind_eq_bind, Option.bind_some,
    ← visit_insert]
  by_cases hseen : n.seen.contains tree.id = true
  · rw [if_pos hseen]
    have hsee : n.see tree.id = .error (.content (.sharedNode tree.id)) := if_pos hseen
    cases tree <;> simp only [Tree.id] at hsee <;> simp only [enter, hsee] <;> rfl
  · rw [if_neg hseen]
    have hsee : n.see tree.id = .ok { n with seen := n.seen.insert tree.id } := if_neg hseen
    cases tree with
    | leaf id term particle =>
      have hleaf : (visit { n with seen := n.seen.insert id } nodes.size).addLeaf?
          ⟨term, particle, id⟩ = _ := addLeaf?_visit hlt
      simp only [Tree.id] at hsee
      simp only [Tree.node, Tree.id, hsee, hleaf]
      rfl
    | group id kind left right =>
      simp only [Tree.id] at hsee
      simp only [Tree.node, enter, hsee]
      cases limits.check .depth (groupDepth depth within kind) <;> rfl
    | quantified id q body =>
      simp only [Tree.id] at hsee
      simp only [Tree.node, enter, hsee]
      cases limits.check .depth (quantifierDepth depth quantified) <;> rfl

theorem Pending.standsIn_parts (h : p.tree.StandsIn nodes) :
    ∀ q ∈ p.parts, q.tree.StandsIn nodes := by
  obtain ⟨tree, depth, within, quantified⟩ := p
  cases tree with
  | leaf => exact fun q hq => nomatch hq
  | group id kind left right =>
    intro q hq
    rcases List.mem_pair.1 hq with rfl | rfl
    · exact (Tree.standsIn_group.1 h).2.1
    · exact (Tree.standsIn_group.1 h).2.2
  | quantified id q body =>
    intro q hq
    obtain rfl := List.mem_singleton.1 hq
    exact (Tree.standsIn_quantified.1 h).2

theorem visitAll?_eq_walkFor {k : Nat} (h : ∀ p ∈ pending, p.tree.StandsIn nodes) :
    visitAll? limits nodes k (pending.map Pending.frame) (n.visit nodes.size) =
      (walkFor limits k pending n).map (·.map (·.visit nodes.size)) := by
  induction k generalizing pending n with
  | zero => cases pending <;> rfl
  | succ k ih =>
    cases pending with
    | nil => rfl
    | cons p rest =>
      obtain ⟨hp, hrest⟩ := List.forall_mem_cons.1 h
      rw [List.map_cons, visitAll?, walkFor, Frame.visit?_eq_note hp]
      cases n.note limits p with
      | error e => rfl
      | ok m =>
        have hparts : ∀ q ∈ p.parts ++ rest, q.tree.StandsIn nodes := by
          intro q hq
          exact (List.mem_append.1 hq).elim (Pending.standsIn_parts hp q) (hrest q)
        have hstep := ih (n := m) hparts
        rw [List.map_append] at hstep
        exact hstep

end Walk

namespace Declaration

/-- Visits the nodes of a declaration from its root, in no more steps than there are nodes, and one
that fails. -/
def visit? (d : Declaration) (limits : Limits) : Option (Except Error Visit) :=
  visitAll? limits d.nodes (d.nodes.size + 1) [⟨d.root, 0, none, false⟩] (.start d.nodes.size)

/-- The walk over the nodes of a declaration meets no number that is out of range, and ends as the
walk over the tree does. -/
theorem visit?_eq (d : Declaration) (limits : Limits) : d.visit? limits =
    some ((Numbering.ofTree limits d.tree).map (·.visit d.nodes.size)) := by
  have hstands : ∀ p ∈ [(⟨d.tree, 0, none, false⟩ : Pending)], p.tree.StandsIn d.nodes := by
    intro p hp
    obtain rfl := List.mem_singleton.1 hp
    exact d.standsIn_tree
  have hwalk : visitAll? limits d.nodes (d.nodes.size + 1) _
      (Numbering.start.visit d.nodes.size) = _ := visitAll?_eq_walkFor hstands
  rw [Numbering.walkFor_eq_ofTree, Numbering.visit_start, List.map_singleton, Pending.frame,
    d.id_tree] at hwalk
  exact hwalk

end Declaration

end ElementContent
