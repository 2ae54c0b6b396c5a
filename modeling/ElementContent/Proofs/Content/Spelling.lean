import ElementContent.Proofs.Language.Power
import ElementContent.Proofs.Position.Shallow
import Mathlib.Algebra.Ring.Nat

/-!
# What a spelled out content amounts to

Bounds are spelled out with copies of a tree, joined to groups and put under quantifiers. Each step
is judged by four things at once: the numbers of times that the tree may now stand, the number of
copies, that no id is met twice, and that nothing becomes much deeper.

- `Tree.SpelledBy`: trees that spell out another one, one after the other.
- `Tree.SpelledBy.append`: numbers and copies add up.
- `Tree.SpelledBy.join`, `Tree.SpelledBy.quantified`, `Tree.SpelledBy.optional`: one tree made of
  those before.
-/

namespace ElementContent

namespace Tree

/-- The trees, one after the other, allow what `k` copies of a tree allow if it may stand as often
as `p` says; they have as many leaves as `k` copies, ids are met once if they are in the tree, and
they are as shallow as copies in a sequence. -/
structure SpelledBy (x : Tree) (p : Nat → Prop) (k : Nat) (ts : List Tree) : Prop where
  children : Language.concat (ts.map Tree.children) = x.children.times p
  leafCount : (ts.map Tree.leafCount).sum = k * x.leafCount
  nodup : x.ids.Nodup → (ts.flatMap ids).Nodup
  shallow : ∀ t ∈ ts, t.ShallowOver x

variable {x t u : Tree} {ts us : List Tree} {p q : Nat → Prop} {k l i : Nat} {kind : GroupKind}

/-! ## Joined trees -/

theorem children_joined (i : Nat) (t : Tree) (ts : List Tree) :
    (joined .sequence i t ts).children = Language.concat ((t :: ts).map children) := by
  induction ts generalizing i t with
  | nil => exact Language.append_concat_nil.symm
  | cons u us ih => exact (ih (i + 1) (.group i .sequence t u)).trans Language.append_assoc

theorem leafCount_joined (kind : GroupKind) (i : Nat) (t : Tree) (ts : List Tree) :
    (joined kind i t ts).leafCount = ((t :: ts).map leafCount).sum := by
  induction ts generalizing i t with
  | nil => simp [joined]
  | cons u us ih =>
    rw [joined, ih]
    simp [leafCount, Nat.add_assoc]

/-- The ids are those of the groups and those of the operands. -/
theorem ids_joined (kind : GroupKind) (i : Nat) (t : Tree) (ts : List Tree) :
    (joined kind i t ts).ids.Perm (List.range' i ts.length ++ (t :: ts).flatMap ids) := by
  induction ts generalizing i t with
  | nil => simp [joined]
  | cons u us ih =>
    refine (ih (i + 1) (.group i kind t u)).trans ?_
    have hids : (group i kind t u :: us).flatMap ids = i :: (t :: u :: us).flatMap ids := by
      simp [ids]
    rw [hids, List.length_cons, List.range'_succ]
    exact List.perm_middle

theorem nodup_ids_joined (kind : GroupKind) (hnodup : ((t :: ts).flatMap ids).Nodup)
    (hlt : ∀ j ∈ (t :: ts).flatMap ids, j < i) : (joined kind i t ts).ids.Nodup := by
  refine (ids_joined kind i t ts).nodup_iff.2 (List.Nodup.append List.nodup_range' hnodup ?_)
  intro j hj hj'
  exact Nat.lt_irrefl j (Nat.lt_of_lt_of_le (hlt j hj') (List.mem_range'_1.1 hj).1)

/-! ## Steps of a spelling -/

namespace SpelledBy

theorem congr (h : x.SpelledBy p k ts) (hp : ∀ n, p n ↔ q n) (hk : k = l) : x.SpelledBy q l ts :=
  ⟨h.children.trans (Language.times_congr hp), hk ▸ h.leafCount, h.nodup, h.shallow⟩

theorem nil (x : Tree) : x.SpelledBy (· = 0) 0 [] :=
  ⟨Language.times_zero.symm, by simp, by simp, by simp⟩

/-- Particles do not matter. -/
theorem of_untagged (h : t.SpelledBy p k ts) (hx : t.untagged = x.untagged) : x.SpelledBy p k ts :=
  ⟨h.children.trans (by rw [children_eq_of_untagged hx]),
    h.leafCount.trans (by rw [leafCount_eq_of_untagged hx]), ids_eq_of_untagged hx ▸ h.nodup,
    fun u hu => (h.shallow u hu).congr (deepest_eq_of_untagged hx)⟩

theorem children_single (h : x.SpelledBy p k [t]) : t.children = x.children.times p :=
  Language.append_concat_nil.symm.trans h.children

theorem leafCount_single (h : x.SpelledBy p k [t]) : t.leafCount = k * x.leafCount := by
  simpa using h.leafCount

theorem nodup_single (h : x.SpelledBy p k [t]) (hx : x.ids.Nodup) : t.ids.Nodup := by
  simpa using h.nodup hx

theorem shallow_single (h : x.SpelledBy p k [t]) : t.ShallowOver x :=
  h.shallow t (List.mem_singleton_self t)

/-- A tree with these four properties spells out the other one. -/
theorem of_single (hchildren : t.children = x.children.times p)
    (hleafCount : t.leafCount = k * x.leafCount) (hnodup : x.ids.Nodup → t.ids.Nodup)
    (hshallow : t.ShallowOver x) : x.SpelledBy p k [t] :=
  ⟨Language.append_concat_nil.trans hchildren, by simpa using hleafCount, by simpa using hnodup,
    List.forall_mem_singleton.2 hshallow⟩

theorem self (x : Tree) : x.SpelledBy (· = 1) 1 [x] :=
  of_single Language.times_one.symm (Nat.one_mul _).symm (fun h => h) (.of_deepest_eq rfl)

/-- A copy spells out the tree once. -/
theorem of_isCopyOf (h : t.IsCopyOf x) : x.SpelledBy (· = 1) 1 [t] := by
  refine of_single ?_ (h.leafCount_eq.trans (Nat.one_mul _).symm) h.nodup_ids
    (.of_deepest_eq h.deepest_eq)
  rw [Language.times_one, h.children_eq]

theorem append (h : x.SpelledBy p k ts) (h' : x.SpelledBy q l us)
    (hdisjoint : (ts.flatMap ids).Disjoint (us.flatMap ids)) :
    x.SpelledBy (Language.IsSum p q) (k + l) (ts ++ us) := by
  refine ⟨?_, ?_, fun hx => ?_, List.forall_mem_append.2 ⟨h.shallow, h'.shallow⟩⟩
  · rw [List.map_append, Language.concat_append, h.children, h'.children, Language.append_times]
  · rw [List.map_append, List.sum_append, h.leafCount, h'.leafCount, Nat.add_mul]
  · rw [List.flatMap_append]
    exact (h.nodup hx).append (h'.nodup hx) hdisjoint

theorem join (h : x.SpelledBy p k (t :: ts)) (hlt : ∀ j ∈ (t :: ts).flatMap ids, j < i) :
    x.SpelledBy p k [joined .sequence i t ts] := by
  refine of_single ((children_joined i t ts).trans h.children) ?_ (fun hx => ?_)
    (.joined h.shallow)
  · rw [leafCount_joined]
    exact h.leafCount
  · exact nodup_ids_joined .sequence (h.nodup hx) hlt

theorem nodup_quantified (h : x.SpelledBy p k [t]) (r : Quantifier) (hlt : ∀ j ∈ t.ids, j < i)
    (hx : x.ids.Nodup) : (Tree.quantified i r t).ids.Nodup :=
  List.nodup_cons.2 ⟨fun hi => Nat.lt_irrefl i (hlt i hi), h.nodup_single hx⟩

/-- What may be missing may stand no time at all. -/
theorem optional (h : x.SpelledBy p k (t :: ts)) (ht : t.deepest = x.deepest)
    (hlt : ∀ j ∈ (t :: ts).flatMap ids, j < i)
    (hlt' : ∀ j ∈ (joined .sequence i t ts).ids, j < l) :
    x.SpelledBy (fun n => n = 0 ∨ p n) k [.quantified l .optional (joined .sequence i t ts)] := by
  have hbody := h.join hlt
  refine of_single ?_ hbody.leafCount_single (hbody.nodup_quantified .optional hlt')
    (.quantified_joined .optional ht (List.forall_mem_cons.1 h.shallow).2)
  rw [← Language.optional_times, ← hbody.children_single]
  rfl

/-- A quantifier over one copy says how often the tree may stand. -/
theorem quantified (h : x.SpelledBy (· = 1) 1 [t]) (ht : t.deepest = x.deepest) (r : Quantifier)
    (hlt : ∀ j ∈ t.ids, j < i) : x.SpelledBy r.allows 1 [.quantified i r t] := by
  refine of_single ?_ h.leafCount_single (h.nodup_quantified r hlt) (.quantified r ht)
  rw [← Language.iterate_eq_times, ← Language.times_one (a := x.children), ← h.children_single]
  rfl

end SpelledBy

end Tree

end ElementContent
