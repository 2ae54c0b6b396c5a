import ElementContent.Proofs.Content.Copy
import ElementContent.Proofs.Position.Depth

/-!
# Sequences of copies are shallow

The walk counts levels from where a tree stands. A tree that is moved inside other groups becomes
deeper by as much as these are levels, and a sequence inside a sequence is no level, whatever
quantifiers stand between. So copies that are joined to sequences, one inside the other, are not
much deeper than one copy, however many there are.

- `Tree.deepest_le_add`: what a tree that is moved gains in depth.
- `Tree.deepest_joined_le`: joined trees are one level.
- `Tree.ShallowOver`: what copies of a tree, joined and put under quantifiers, do not exceed;
  `Tree.ShallowOver.joined` and `Tree.ShallowOver.quantified_joined` are the ways in which they are
  put together.
-/

namespace ElementContent

namespace Numbering

variable (depth : Nat) (within : Option GroupKind) (kind : GroupKind)

theorem le_groupDepth : depth ≤ groupDepth depth within kind := by
  unfold groupDepth
  split <;> omega

theorem groupDepth_le : groupDepth depth within kind ≤ depth + 1 := by
  unfold groupDepth
  split <;> omega

/-- Groups of one kind inside each other are one level. -/
@[simp] theorem groupDepth_self : groupDepth depth (some kind) kind = depth :=
  if_pos rfl

theorem quantifierDepth_eq (depth : Nat) (quantified : Bool) :
    quantifierDepth depth quantified = depth + quantified.toNat := by
  cases quantified <;> rfl

end Numbering

open ElementContent.Numbering

namespace Tree

variable {t t' x : Tree} {ts : List Tree} {depth bound i m n k : Nat} {kind : GroupKind}
  {within v w : Option GroupKind} {p q : Bool}

/-! ## Depth and shape -/

theorem deepest_group : (group i kind t t').deepest depth within q =
    max (groupDepth depth within kind)
      (max (t.deepest (groupDepth depth within kind) (some kind) false)
        (t'.deepest (groupDepth depth within kind) (some kind) false)) :=
  rfl

theorem deepest_quantified {r : Quantifier} : (quantified i r t).deepest depth within q =
    max (quantifierDepth depth q) (t.deepest (quantifierDepth depth q) within true) :=
  rfl

@[simp] theorem deepest_relabel {f : Nat → Nat} {g : Option Nat → Option Nat} (t : Tree) :
    (t.relabel f g).deepest = t.deepest := by
  induction t with
  | leaf => rfl
  | group i kind l r ihl ihr => exact congrArg₂ (fun l r => Node.deepest (.group kind l r)) ihl ihr
  | quantified i r body ih => exact congrArg (fun body => Node.deepest (.quantified r body)) ih

theorem deepest_eq_of_untagged (h : t'.untagged = t.untagged) : t'.deepest = t.deepest := by
  rw [← t'.deepest_relabel, ← t.deepest_relabel]
  exact congrArg deepest h

theorem IsCopyOf.deepest_eq (h : t.IsCopyOf t') : t.deepest = t'.deepest := by
  obtain ⟨f, -, rfl⟩ := h
  exact t'.deepest_relabel

/-! ## Trees that are moved -/

/-- A tree gains no more levels than what is around it, if it has been in no group or stays in a
group of the same kind. -/
theorem deepest_le_add (t : Tree) (hlevel : m ≤ n + k)
    (hquantified : m + p.toNat ≤ n + q.toNat + k) (hwithin : w = none ∨ v = w) :
    t.deepest m v p ≤ t.deepest n w q + k := by
  induction t generalizing m n v w p q with
  | leaf => exact Nat.zero_le _
  | group i kind l r ihl ihr =>
    have hgroup : groupDepth m v kind ≤ groupDepth n w kind + k := by
      rcases hwithin with rfl | rfl
      · exact Nat.le_trans (groupDepth_le m v kind) (by simp [groupDepth]; omega)
      · unfold groupDepth
        split <;> omega
    have hl : l.deepest (groupDepth m v kind) (some kind) false ≤
        l.deepest (groupDepth n w kind) (some kind) false + k :=
      ihl hgroup (by simpa using hgroup) (.inr rfl)
    have hr : r.deepest (groupDepth m v kind) (some kind) false ≤
        r.deepest (groupDepth n w kind) (some kind) false + k :=
      ihr hgroup (by simpa using hgroup) (.inr rfl)
    rw [deepest_group, deepest_group]
    omega
  | quantified i r body ih =>
    rw [deepest_quantified, deepest_quantified, quantifierDepth_eq, quantifierDepth_eq]
    have hbody := ih hquantified (p := true) (q := true) (by simp; omega) hwithin
    omega

/-- Wherever a tree stands, it has no more levels than by itself and those around it. -/
theorem deepest_le (t : Tree) (depth : Nat) (within : Option GroupKind) (q : Bool) :
    t.deepest depth within q ≤ t.deepest 0 none false + (depth + q.toNat) :=
  t.deepest_le_add (by omega) (by simp) (.inl rfl)

/-- Joined trees are no deeper than the groups that join them, the first tree where it stands alone
and all of them inside the groups. -/
theorem deepest_joined_le (hgroup : groupDepth depth within kind ≤ bound)
    (hfirst : t.deepest depth within q ≤ bound)
    (hall : ∀ u ∈ t :: ts, u.deepest (groupDepth depth within kind) (some kind) false ≤ bound) :
    (joined kind i t ts).deepest depth within q ≤ bound := by
  induction ts generalizing i t with
  | nil => exact hfirst
  | cons u us ih =>
    obtain ⟨ht, hrest⟩ := List.forall_mem_cons.1 hall
    obtain ⟨hu, hus⟩ := List.forall_mem_cons.1 hrest
    have htop : max (groupDepth depth within kind)
        (max (t.deepest (groupDepth depth within kind) (some kind) false)
          (u.deepest (groupDepth depth within kind) (some kind) false)) ≤ bound :=
      Nat.max_le.2 ⟨hgroup, Nat.max_le.2 ⟨ht, hu⟩⟩
    refine ih htop (List.forall_mem_cons.2 ⟨?_, hus⟩)
    rw [deepest_group, groupDepth_self]
    exact htop

/-! ## Shallow trees -/

/-- Inside a sequence, the tree is no more than one level deeper than the other one by itself. -/
def ShallowOver (t x : Tree) : Prop :=
  ∀ depth within, t.deepest depth within false ≤
    groupDepth depth within .sequence + (x.deepest 0 none false + 1)

namespace ShallowOver

theorem deepest_le (h : t.ShallowOver x) : t.deepest 0 none false ≤ x.deepest 0 none false + 2 :=
  Nat.le_trans (h 0 none) (by simp [groupDepth]; omega)

theorem of_deepest_eq (h : t.deepest = x.deepest) : t.ShallowOver x := fun depth within => by
  have hle := x.deepest_le depth within false
  have hgroup := le_groupDepth depth within .sequence
  rw [h]
  simp only [Bool.toNat_false] at hle
  omega

theorem congr (h : t.ShallowOver x) (hx : x.deepest = t'.deepest) : t.ShallowOver t' := by
  unfold ShallowOver
  exact hx ▸ h

theorem joined (h : ∀ u ∈ t :: ts, u.ShallowOver x) :
    (joined .sequence i t ts).ShallowOver x := fun depth within => by
  refine deepest_joined_le (by omega) (h t List.mem_cons_self depth within) fun u hu => ?_
  simpa using h u hu (groupDepth depth within .sequence) (some .sequence)

/-- A sequence that starts with a copy may be put under a quantifier. -/
theorem quantified_joined (r : Quantifier) (ht : t.deepest = x.deepest)
    (hts : ∀ u ∈ ts, u.ShallowOver x) :
    (quantified k r (Tree.joined .sequence i t ts)).ShallowOver x := fun depth within => by
  have hgroup := le_groupDepth depth within .sequence
  have hfirst := x.deepest_le depth within true
  rw [Bool.toNat_true] at hfirst
  have hall : ∀ u ∈ t :: ts, u.ShallowOver x :=
    List.forall_mem_cons.2 ⟨of_deepest_eq ht, hts⟩
  rw [deepest_quantified, quantifierDepth_eq, Bool.toNat_false, Nat.add_zero]
  refine Nat.max_le.2 ⟨by omega, deepest_joined_le (by omega) (by rw [ht]; omega) fun u hu => ?_⟩
  simpa using hall u hu (groupDepth depth within .sequence) (some .sequence)

theorem quantified (r : Quantifier) (ht : t.deepest = x.deepest) :
    (quantified k r t).ShallowOver x :=
  show (Tree.quantified k r (Tree.joined .sequence 0 t [])).ShallowOver x from
    quantified_joined r ht (List.forall_mem_nil _)

end ShallowOver

end Tree

end ElementContent
