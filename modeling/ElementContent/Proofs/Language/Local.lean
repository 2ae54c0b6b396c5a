import ElementContent.Proofs.Language.Adjacent

/-!
# Local languages

A language is *local* if what may come after a letter does not depend on what came before it: the
beginning of one word and the end of another may be joined at any letter that they share. In a local
language the letters that may come next are known from the last letter alone, so positions are all
that an automaton has to remember.

- `Language.IsLocal`: words may be crossed at a common letter.
- `Language.isLocal_append`, `Language.isLocal_union`, `Language.isLocal_iterate`: which operators
  keep a language local. Two operands must not share a letter.
- `Tree.isLocal_marked`: the marked words of a content are local if no mark is used twice.
-/

namespace ElementContent

namespace Language

variable {α : Type} {a b : Language α} {p : α}

/-- At a common letter, the beginning of one word may be continued by the end of another. -/
def IsLocal (a : Language α) : Prop :=
  ∀ ⦃p : α⦄ ⦃u v u' v' : List α⦄, a (u ++ p :: v) → a (u' ++ p :: v') → a (u ++ p :: v')

theorem isLocal_letter (x : α) : (letter x).IsLocal := by
  intro p u v u' v' h h'
  -- nothing comes after the letter, in either word
  have hv : v = [] := by
    have := congrArg List.length (show u ++ p :: v = [x] from h)
    simp only [List.length_append, List.length_cons, List.length_nil] at this
    exact List.length_eq_zero_iff.1 (by omega)
  have hv' : v' = [] := by
    have := congrArg List.length (show u' ++ p :: v' = [x] from h')
    simp only [List.length_append, List.length_cons, List.length_nil] at this
    exact List.length_eq_zero_iff.1 (by omega)
  rw [hv', ← hv]
  exact h

theorem isLocal_append (ha : a.IsLocal) (hb : b.IsLocal) (hab : ∀ p, a.Occurs p → ¬ b.Occurs p) :
    (append a b).IsLocal := by
  rintro p u v u' v' ⟨x, y, hxy, hx, hy⟩ ⟨x', y', hxy', hx', hy'⟩
  -- in both words the letter stands on the same side, for no letter stands on both
  rcases append_cons_eq_append hxy with ⟨z, rfl, -⟩ | ⟨z, rfl, rfl⟩ <;>
    rcases append_cons_eq_append hxy' with ⟨z', rfl, rfl⟩ | ⟨z', rfl, rfl⟩
  · exact ⟨u ++ p :: z', y', by simp, ha hx hx', hy'⟩
  · exact absurd ⟨z', v', hy'⟩ (hab p ⟨u, z, hx⟩)
  · exact absurd ⟨z, v, hy⟩ (hab p ⟨u', z', hx'⟩)
  · exact ⟨x, z ++ p :: v', by simp, hx, hb hy hy'⟩

theorem isLocal_union (ha : a.IsLocal) (hb : b.IsLocal) (hab : ∀ p, a.Occurs p → ¬ b.Occurs p) :
    (union a b).IsLocal := by
  rintro p u v u' v' (h | h) (h' | h')
  · exact .inl (ha h h')
  · exact absurd ⟨u', v', h'⟩ (hab p ⟨u, v, h⟩)
  · exact absurd ⟨u, v, h⟩ (hab p ⟨u', v', h'⟩)
  · exact .inr (hb h h')

theorem isLocal_combine {kind : GroupKind} (ha : a.IsLocal) (hb : b.IsLocal)
    (hab : ∀ p, a.Occurs p → ¬ b.Occurs p) : (kind.combine a b).IsLocal := by
  cases kind with
  | sequence => exact isLocal_append ha hb hab
  | choice => exact isLocal_union ha hb hab

theorem isLocal_iterate {r : Quantifier} (ha : a.IsLocal) : (r.iterate a).IsLocal := by
  rintro p u v u' v' ⟨n, hn, h⟩ ⟨n', hn', h'⟩
  obtain ⟨i, j, x, y, x', y', rfl, rfl, -, hx, hy, -⟩ := power_split h
  obtain ⟨i', j', s, t, s', t', rfl, -, rfl, -, ht, ht'⟩ := power_split h'
  -- as many words before the letter as in the first word, as many after it as in the second
  refine ⟨i + 1 + j', ?_, ?_⟩
  · cases r with
    | optional =>
      have : i + 1 + j ≤ 1 := hn
      have : i' + 1 + j' ≤ 1 := hn'
      show i + 1 + j' ≤ 1
      omega
    | star => exact trivial
    | plus =>
      show 1 ≤ i + 1 + j'
      omega
  · have hmid : a.power 1 (y ++ p :: s') := power_one.2 (ha hy ht)
    have := power_add (power_add hx hmid) ht'
    simpa using this

end Language

namespace Tree

variable {α : Type} {mark : Nat → Option α} {p : α}

/-- A mark in a word is the mark of some node. -/
theorem occurs_marked {t : Tree} (h : (t.marked mark).Occurs p) : ∃ i ∈ t.ids, mark i = some p := by
  induction t with
  | leaf i term particle =>
    obtain ⟨u, v, huv⟩ := h
    refine ⟨i, by simp [ids], ?_⟩
    have hmem : p ∈ (mark i).toList := by
      rw [← show u ++ p :: v = (mark i).toList from huv]
      simp
    simpa using hmem
  | group i kind l r ihl ihr =>
    rcases Language.occurs_combine h with hl | hr
    · obtain ⟨j, hj, hp⟩ := ihl hl
      exact ⟨j, by simp [ids, hj], hp⟩
    · obtain ⟨j, hj, hp⟩ := ihr hr
      exact ⟨j, by simp [ids, hj], hp⟩
  | quantified i q body ih =>
    obtain ⟨j, hj, hp⟩ := ih (Language.occurs_iterate h)
    exact ⟨j, by simp [ids, hj], hp⟩

/-- Every content allows some word of marks. -/
theorem exists_marked (mark : Nat → Option α) (t : Tree) : ∃ w, t.marked mark w := by
  induction t with
  | leaf i term particle => exact ⟨(mark i).toList, rfl⟩
  | group i kind l r ihl ihr =>
    obtain ⟨u, hu⟩ := ihl
    obtain ⟨v, hv⟩ := ihr
    cases kind with
    | sequence => exact ⟨u ++ v, u, v, rfl, hu, hv⟩
    | choice => exact ⟨u, .inl hu⟩
  | quantified i q body ih =>
    obtain ⟨u, hu⟩ := ih
    exact ⟨u, Language.iterate_of_mem q hu⟩

/-- The marked words of a content are local if its nodes are distinct and so are their marks. -/
theorem isLocal_marked {t : Tree} (hids : t.ids.Nodup)
    (hmark : ∀ ⦃i j p⦄, mark i = some p → mark j = some p → i = j) : (t.marked mark).IsLocal := by
  induction t with
  | leaf i term particle =>
    intro p u v u' v' h h'
    -- a leaf has one word, of one letter at most, so there is nothing to cross
    have h : u ++ p :: v = (mark i).toList := h
    have h' : u' ++ p :: v' = (mark i).toList := h'
    cases hm : mark i with
    | none => simp [hm] at h
    | some c =>
      simp only [hm, Option.toList_some, List.append_eq_singleton_iff, List.cons.injEq,
        reduceCtorEq, and_false, or_false] at h h'
      obtain ⟨rfl, rfl, rfl⟩ := h
      obtain ⟨rfl, -, rfl⟩ := h'
      show [p] = (mark i).toList
      simp [hm]
  | group i kind l r ihl ihr =>
    obtain ⟨-, hlr⟩ := List.nodup_cons.1 hids
    obtain ⟨hl, hr, hdisj⟩ := List.nodup_append.1 hlr
    refine Language.isLocal_combine (ihl hl) (ihr hr) ?_
    intro p hp hp'
    obtain ⟨j, hj, hjp⟩ := occurs_marked hp
    obtain ⟨k, hk, hkp⟩ := occurs_marked hp'
    exact hdisj j hj k hk (hmark hjp hkp)
  | quantified i q body ih =>
    obtain ⟨-, hbody⟩ := List.nodup_cons.1 hids
    exact Language.isLocal_iterate (ih hbody)

end Tree

end ElementContent
