import ElementContent.Proofs.Content.Standing
import ElementContent.Proofs.Position.Numbering
import Mathlib.Data.Finset.Card

/-!
# The steps of the walk

A step of the walk takes the first pending subtree, notes its topmost node, and leaves its parts
pending in its place. A tree that shares nodes can be far larger than the declaration it is read
from, but no step succeeds at a node that has been seen. So there are at most as many steps that
succeed as there are nodes, and one more that fails.

- `Numbering.walkFor`: the walk, cut off after so many steps.
- `Numbering.walkFor_eq_walk`: as many steps as there are nodes left to be seen, and one more, are
  enough; `Numbering.walkFor_eq_ofTree` says it of a declaration.
-/

namespace ElementContent

theorem Pending.mem_ids_of_mem_parts {p q : Pending} (hq : q ∈ p.parts) {i : Nat}
    (hi : i ∈ q.tree.ids) : i ∈ p.tree.ids := by
  obtain ⟨tree, depth, within, quantified⟩ := p
  cases tree with
  | leaf => cases hq
  | group id kind left right =>
    rcases List.mem_pair.1 hq with rfl | rfl
    · exact List.mem_cons_of_mem _ (List.mem_append_left _ hi)
    · exact List.mem_cons_of_mem _ (List.mem_append_right _ hi)
  | quantified id q body =>
    obtain rfl := List.mem_singleton.1 hq
    exact List.mem_cons_of_mem _ hi

namespace Numbering

variable {limits : Limits} {n m : Numbering} {p : Pending} {pending rest : List Pending}

/-- A node that is noted had not been seen, and nothing else is seen with it. -/
theorem seen_note (h : n.note limits p = .ok m) :
    p.tree.id ∉ n.seen ∧ ∀ i, i ∈ m.seen ↔ i = p.tree.id ∨ i ∈ n.seen := by
  have hsee : ∀ {k : Numbering} {i : Nat}, n.see i = .ok k →
      i ∉ n.seen ∧ ∀ j, j ∈ k.seen ↔ j = i ∨ j ∈ n.seen := by
    intro k i hk
    obtain ⟨hi, rfl⟩ := see_eq_ok_iff.1 hk
    exact ⟨hi, fun j => by rw [Std.HashSet.mem_insert, beq_iff_eq, @eq_comm _ i j]⟩
  obtain ⟨tree, depth, within, quantified⟩ := p
  cases tree with
  | leaf id term particle =>
    obtain ⟨k, hk, rfl⟩ := (note_leaf_eq_ok_iff rfl).1 h
    have hseen : (k.addLeaf ⟨term, particle, id⟩).seen = k.seen := by
      unfold addLeaf
      split <;> rfl
    rw [hseen]
    exact hsee hk
  | group id kind left right => exact hsee (enter_eq_ok_iff.1 h).1
  | quantified id q body => exact hsee (enter_eq_ok_iff.1 h).1

/-! ## Counting the steps -/

/-- The walk over the pending subtrees, cut off after `k` steps: it has no result if subtrees are
still pending then. -/
def walkFor (limits : Limits) : Nat → List Pending → Numbering → Option (Except Error Numbering)
  | _, [], n => some (.ok n)
  | 0, _ :: _, _ => none
  | k + 1, p :: rest, n =>
    match n.note limits p with
    | .error e => some (.error e)
    | .ok m => walkFor limits k (p.parts ++ rest) m

/-- The ids below a bound that have not been seen. -/
def unseen (n : Numbering) (size : Nat) : Finset Nat :=
  (Finset.range size).filter fun i => i ∉ n.seen

/-- A step that succeeds leaves one node less to be seen. -/
theorem card_unseen_note {size : Nat} (h : n.note limits p = .ok m) (hp : p.tree.id < size) :
    (m.unseen size).card + 1 = (n.unseen size).card := by
  obtain ⟨hfresh, hseen⟩ := seen_note h
  have hmem : p.tree.id ∈ n.unseen size :=
    Finset.mem_filter.2 ⟨Finset.mem_range.2 hp, hfresh⟩
  have herase : m.unseen size = (n.unseen size).erase p.tree.id := by
    ext i
    simp only [unseen, Finset.mem_filter, Finset.mem_erase, hseen, not_or]
    exact and_left_comm
  rw [herase]
  exact Finset.card_erase_add_one hmem

/-- The walk over subtrees of nodes below a bound comes to its end, be it with an error, before
there are more steps than nodes left to be seen and one. -/
theorem walkFor_eq_walk {size k : Nat} (hids : ∀ p ∈ pending, ∀ i ∈ p.tree.ids, i < size)
    (hk : (n.unseen size).card < k) : walkFor limits k pending n = some (walk limits pending n) := by
  induction k generalizing pending n with
  | zero => omega
  | succ k ih =>
    cases pending with
    | nil => rw [walkFor, walk]
    | cons p rest =>
      obtain ⟨hp, hrest⟩ := List.forall_mem_cons.1 hids
      rw [walkFor, walk_cons]
      cases hnote : n.note limits p with
      | error e => rfl
      | ok m =>
        refine ih (fun q hq i hi => ?_) ?_
        · rcases List.mem_append.1 hq with hq | hq
          · exact hp i (Pending.mem_ids_of_mem_parts hq hi)
          · exact hrest q hq i hi
        · have := card_unseen_note hnote (hp _ p.tree.id_mem_ids)
          omega

/-- The walk over a declaration comes to its end, be it with an error, after no more steps than one
for each node and one that fails. -/
theorem walkFor_eq_ofTree (d : Declaration) :
    walkFor limits (d.nodes.size + 1) [⟨d.tree, 0, none, false⟩] start =
      some (ofTree limits d.tree) := by
  have hcard : (start.unseen d.nodes.size).card < d.nodes.size + 1 := by
    have := Finset.card_filter_le (Finset.range d.nodes.size) fun i => i ∉ start.seen
    rw [Finset.card_range] at this
    exact Nat.lt_succ_of_le this
  refine walkFor_eq_walk (fun p hp i hi => ?_) hcard
  obtain rfl := List.mem_singleton.1 hp
  exact d.standsIn_tree.lt_size hi

end Numbering

end ElementContent
